import HftExercises.Containers.DynamicVectorAssignments

/-! # What an exception leaves of a construction

The constructors allocate first and set the size last, and no destructor is called for an
object whose constructor throws. The first exception of an element leaves the block behind.
-/
namespace HftExercises.DynVector
open Throwing
variable {ι T : Type} [DecidableEq ι] {w w' : World ι T} {q : Contents ι T}
variable {v this o : ι} {xs ys : List T} {E : Element T} {n j : ℕ}

/-- The elements that a call constructed are destroyed, and its storage is released. -/
def Released (w w' : World ι T) : Prop :=
  w'.constructed + w.destroyed = w.constructed + w'.destroyed ∧ w'.block = w.block

/-- The vector has the members and the elements that it had. -/
def Unchanged (w w' : World ι T) (v : ι) (ys : List T) : Prop :=
  w'.vec v = w.vec v ∧ ∃ f, w'.vec v = some f ∧ Owns w' f ys

theorem Leaks.not_released (h : Leaks w w' this j) : ¬Released w w' := by
  rintro ⟨-, hblock⟩
  obtain ⟨b, hb, hleft⟩ := h.block
  exact hleft (by rw [hblock, hb])

theorem Leaks.unchanged (h : Leaks w w' this j) (hr : Represents w q) (hthis : q this = none)
    (hv : q v = some ys) : Unchanged w w' v ys := by
  have hne : v ≠ this := by
    rintro rfl
    rw [hthis] at hv
    cases hv
  have hr' := hr.edits (.inr rfl) h.edits (c := none) .none
  rw [← hthis, Function.update_eq_self] at hr'
  refine ⟨?_, hr'.owns hv⟩
  rw [h.edits.vec, Function.update_of_ne hne]

/-- A construction that leaks at each of its exceptions releases what it made only where it has
none. -/
theorem releases_iff {op : Throwing (World ι T) Thrown Unit} {Q : Unit → World ι T → Prop}
    {R : Thrown → World ι T → Prop}
    (hop : Meets op w (fun a w' => (∀ j < n, E.throws (w.attempts + j) = false) ∧ Q a w')
      fun e w' => e = .element ∧ ∃ j, FirstThrow E w n j ∧ Leaks w w' this j)
    (hR : ∀ e w', R e w' → Released w w') :
    Meets op w (fun _ _ => True) R ↔ ∀ j < n, E.throws (w.attempts + j) = false := by
  constructor
  · intro h
    obtain ⟨⟨r, w'⟩, hrun, hexit⟩ := id hop
    cases r with
    | ok a => exact hexit.1
    | error e =>
      obtain ⟨-, j, -, hleak⟩ := hexit
      exact absurd (hR e w' (h.exit hrun)) hleak.not_released
  · intro hsteady
    refine hop.imp (fun _ _ _ => trivial) ?_
    rintro e w' ⟨-, j, ⟨hj, hthrow, -⟩, -⟩
    rw [hsteady j hj] at hthrow
    cases hthrow

/-- A constructor that throws gives back what it made if and only if no construction of an
element throws; a copy assignment leaves its target as it is in any case. -/
theorem constructors_release_iff (hr : Represents w q) (hthis : q this = none)
    (ho : q o = some xs) (n : ℕ) (x : T) :
    (Meets (constructSized E this n) w (fun _ _ => True) (fun _ w' => Released w w') ↔
      ∀ j < n, E.throws (w.attempts + j) = false) ∧
    (Meets (constructWith E this n x) w (fun _ _ => True) (fun _ w' => Released w w') ↔
      ∀ j < n, E.throws (w.attempts + j) = false) ∧
    (Meets (copyConstruct E this o) w (fun _ _ => True) (fun _ w' => Released w w') ↔
      ∀ j < xs.length, E.throws (w.attempts + j) = false) ∧
    ∀ v ys, q v = some ys →
      (Meets (copyAssign E v o this) w (fun _ _ => True)
          (fun _ w' => Released w w' ∧ Unchanged w w' v ys) ↔
        v = o ∨ ∀ j < xs.length, E.throws (w.attempts + j) = false) ∧
      Meets (copyAssign E v o this) w (fun _ _ => True) fun _ w' => Unchanged w w' v ys := by
  have hgone := hr.gone hthis
  obtain ⟨g, hg, howns⟩ := hr.owns ho
  refine ⟨releases_iff (constructSized_meets hgone hr.fresh n) fun _ _ h => h,
    releases_iff (constructWith_meets hgone hr.fresh n x) fun _ _ h => h,
    releases_iff (copyConstruct_meets hgone hg howns hr.fresh) fun _ _ h => h, ?_⟩
  intro v ys hv
  by_cases hself : v = o
  · have hpure : copyAssign E v o this w = some (.ok (), w) := by
      rw [copyAssign, if_neg (not_not_intro hself)]
      rfl
    exact ⟨iff_of_true (meets_of_ok hpure trivial) (.inl hself), meets_of_ok hpure trivial⟩
  · have hassign := copyAssign_meets (E := E) hr hv ho hthis hself
    refine ⟨(releases_iff hassign fun _ _ h => h.1).trans (or_iff_right hself).symm, ?_⟩
    refine hassign.imp (fun _ _ _ => trivial) ?_
    rintro e w' ⟨-, j, -, hleak⟩
    exact hleak.unchanged hr hthis hv

/-- When the second construction throws, the first element and the block stay behind. -/
theorem constructSized_leaks :
    ∃ w' : World ℕ ℕ, constructSized (numbers fun k => k == 1) 0 2 World.empty = some (.error .element, w') ∧
      w'.vec 0 = none ∧ w'.constructed = 1 ∧ w'.destroyed = 0 ∧
      w'.block 0 = some [some 0, none] ∧
      ¬Meets (constructSized (numbers fun k => k == 1) 0 2) World.empty (fun _ _ => True)
        (fun _ w' => Released World.empty w') := by
  refine ⟨_, rfl, rfl, rfl, rfl, rfl, ?_⟩
  rintro ⟨x, hrun, hexit⟩
  cases hrun
  cases hexit.1

/-- The copies of two elements are the third and fourth constructions. -/
theorem constructors_release_iff_single :
    Meets (copyConstruct (numbers fun k => k == 1) 1 0) (World.single 0 [7, 8] 2) (fun _ _ => True)
      (fun _ w' => Released (World.single 0 [7, 8] 2) w') := by
  refine (constructors_release_iff (represents_single (Nat.le_refl 2)) rfl rfl 0 0).2.2.1.mpr ?_
  decide

end HftExercises.DynVector
