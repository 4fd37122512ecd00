import HftExercises.Containers.DynamicVectorOps

/-! # The constructors of elements

A constructor allocates, constructs the elements one after another and last sets the size.
Where an element throws, those before it and the block stay behind.
-/
namespace HftExercises.DynVector
open Throwing
variable {ι T : Type} [DecidableEq ι] {w w' : World ι T} {v this o : ι} {f : Vec} {xs ys : List T}
variable {E : Element T} {n : ℕ} {source : ℕ → Throwing (World ι T) Thrown T}

/-- The elements of a constructor are read from the objects that were there before it. -/
def Reads (w : World ι T) (this : ι) (source : ℕ → Throwing (World ι T) Thrown T) (ys : List T) :
    Prop :=
  ∀ w', (∀ u, u ≠ this → w'.vec u = w.vec u) → (∀ b < w.next, w'.block b = w.block b) →
    ∀ i y, ys[i]? = some y → source i w' = some (.ok y, w')

omit [DecidableEq ι] in
theorem reads_pure (y : T) : Reads w this (fun _ => pure y) (List.replicate n y) := by
  intro w' _ _ i x hx
  obtain rfl := (List.mem_replicate.mp (List.mem_of_getElem? hx)).2
  rfl

/-- The construction that a constructor fails at. -/
def FirstThrow (E : Element T) (w : World ι T) (n j : ℕ) : Prop :=
  j < n ∧ E.throws (w.attempts + j) = true ∧ ∀ l < j, E.throws (w.attempts + l) = false

section Fill
variable {b : ℕ} {done todo : List T}

omit [DecidableEq ι] in
/-- The elements are constructed, or the loop ends at one that throws. -/
theorem fillFrom_meets (hv : w.vec this = some f) (hdata : f.data = some b)
    (hb : w.block b = some (done.map some ++ List.replicate todo.length none))
    (hsource : ∀ cells a c i y, todo[i]? = some y →
      source (done.length + i) ((w.setBlock b cells).count a c 0) =
        some (.ok y, (w.setBlock b cells).count a c 0)) :
    Meets (fillFrom E this source todo.length done.length) w
      (fun _ w' => (∀ j < todo.length, E.throws (w.attempts + j) = false) ∧
        w' = (w.setBlock b (some ((done ++ todo).map some))).count todo.length todo.length 0)
      (fun e w' => e = .element ∧ ∃ j, FirstThrow E w todo.length j ∧ ∃ cells,
        w' = (w.setBlock b (some cells)).count (j + 1) j 0) := by
  induction todo generalizing w done with
  | nil =>
    refine meets_pure ⟨by simp, ?_⟩
    rw [List.append_nil, List.length_nil, setBlock_self (by simpa using hb), count_zero]
  | cons y todo ih =>
    have hread := hsource (w.block b) 0 0 0 y rfl
    rw [Nat.add_zero, setBlock_self rfl, count_zero] at hread
    have hcells : w.block b = some (done.map some ++ none :: List.replicate todo.length none) := by
      rw [hb, List.length_cons, List.replicate_succ]
    have hconstruct := construct_eq E true Thrown.element y hcells
    rw [List.length_map, ← hdata] at hconstruct
    rw [List.length_cons, fillFrom]
    refine meets_bind_ok hread (meets_bind_ok (fields_eq hv) ?_)
    cases hthrow : E.throws w.attempts with
    | true =>
      rw [hthrow] at hconstruct
      refine ⟨_, bind_error hconstruct, rfl, 0, ⟨Nat.succ_pos _, hthrow, by simp⟩,
        done.map some ++ none :: List.replicate todo.length none, ?_⟩
      rw [setBlock_self hcells]
    | false =>
      rw [hthrow] at hconstruct
      obtain ⟨w₁, hw₁⟩ : ∃ w₁ : World ι T, w₁ = (w.setBlock b (some (done.map some ++
          some y :: List.replicate todo.length none))).count 1 1 0 := ⟨_, rfl⟩
      have hv₁ : w₁.vec this = some f := by rw [hw₁]; exact hv
      have hb₁ : w₁.block b =
          some ((done ++ [y]).map some ++ List.replicate todo.length none) := by
        simp [hw₁]
      have hattempts : w₁.attempts = w.attempts + 1 := by rw [hw₁]; rfl
      have hsource₁ : ∀ cells a c i x, todo[i]? = some x →
          source ((done ++ [y]).length + i) ((w₁.setBlock b cells).count a c 0) =
            some (.ok x, (w₁.setBlock b cells).count a c 0) := by
        intro cells a c i x hx
        have hnext := hsource cells (1 + a) (1 + c) (i + 1) x hx
        rw [hw₁, count_setBlock, setBlock_setBlock, count_count, List.length_append,
          List.length_singleton, Nat.add_assoc, Nat.add_comm 1 i]
        exact hnext
      have hrest := ih hv₁ hb₁ hsource₁
      rw [List.length_append, List.length_singleton] at hrest
      rw [← hw₁] at hconstruct
      refine meets_bind_ok hconstruct (hrest.imp ?_ ?_)
      · rintro - w' ⟨hsteady, rfl⟩
        refine ⟨fun j hj => ?_, ?_⟩
        · cases j with
          | zero => exact hthrow
          | succ j =>
            have hlater := hsteady j (by omega)
            rwa [hattempts, Nat.add_assoc, Nat.add_comm 1 j] at hlater
        · simp [hw₁, Nat.add_comm]
      · rintro e w' ⟨he, j, ⟨hj, hlater, hbefore⟩, cells, rfl⟩
        refine ⟨he, j + 1, ⟨by omega, ?_, fun l hl => ?_⟩, cells, ?_⟩
        · rwa [hattempts, Nat.add_assoc, Nat.add_comm 1 j] at hlater
        · cases l with
          | zero => exact hthrow
          | succ l =>
            have hearlier := hbefore l (by omega)
            rwa [hattempts, Nat.add_assoc, Nat.add_comm 1 l] at hearlier
        · simp [hw₁, Nat.add_comm]

end Fill

section Construction

theorem beginObject_eq (hv : w.vec v = none) (f : Vec) :
    (beginObject v f : Throwing (World ι T) Thrown Unit) w = some (.ok (), w.setVec v (some f)) :=
  perform_eq (by simp [hv, World.setVec])

theorem endObject_eq (hv : w.vec v = some f) :
    (endObject v : Throwing (World ι T) Thrown Unit) w = some (.ok (), w.setVec v none) :=
  perform_eq (by simp [hv, World.setVec])

/-- A new object owns nothing. -/
theorem edits_begin (hfresh : Fresh w) : Edits w (w.setVec v (some {})) v {} (some {}) n n := by
  refine ⟨rfl, fun _ _ _ => rfl, Nat.le_refl _, hfresh, ?_, rfl⟩
  rintro g hg b hb
  obtain rfl := Option.some.inj hg
  exact .inl hb

/-- The members may be set once more, with the same block or none. -/
theorem Edits.setVec {g : Vec} {r : Option Vec} {k l : ℕ} (h : Edits w w' v f (some g) k l)
    (hdata : ∀ g', r = some g' → g'.data = g.data) : Edits w (w'.setVec v r) v f r k l := by
  refine ⟨?_, h.frame, h.next, h.fresh, fun g' hg b hb => ?_, h.balance⟩
  · rw [World.setVec, h.vec, Function.update_idem]
  · exact h.data g rfl b (hdata g' hg ▸ hb)

theorem constructing_meets {body : Throwing (World ι T) Thrown Unit} {Q : Unit → World ι T → Prop}
    {R : Thrown → World ι T → Prop} (hthis : w.vec this = none)
    (hbody : Meets body (w.setVec this (some {})) Q
      fun e w' => (∃ f, w'.vec this = some f) ∧ R e (w'.setVec this none)) :
    Meets (constructing this body) w Q R := by
  refine meets_bind_ok (beginObject_eq hthis {}) (hbody.catching ?_)
  rintro e w' ⟨⟨f, hv⟩, hR⟩
  exact meets_bind_ok (endObject_eq hv) (meets_throwing hR)

/-- What an exception leaves of a constructor: the elements before it and the block, which
nothing owns. -/
structure Leaks (w w' : World ι T) (this : ι) (j : ℕ) : Prop where
  edits : Edits w w' this {} none 0 j
  block : ∃ b, w.block b = none ∧ w'.block b ≠ none

/-- The loop, in the storage that a growth made. -/
theorem fillGrown_meets {w₀ : World ι T} (hfresh : Fresh w₀) (hreads : Reads w₀ this source ys)
    (hgrown : Regrown E w₀ w this {} f [] ys.length) :
    Meets (fillFrom E this source ys.length 0) w
      (fun _ w' => (∀ j < ys.length, E.throws (w.attempts + j) = false) ∧
        Edits w w' this f (some f) 0 ys.length ∧ Owns w' { f with size := ys.length } ys)
      (fun e w' => e = .element ∧ ∃ j, FirstThrow E w ys.length j ∧
        Edits w w' this f (some f) 0 j ∧ ∃ b, w₀.block b = none ∧ w'.block b ≠ none) := by
  have hv : w.vec this = some f := by rw [hgrown.edits.vec, Function.update_self]
  rcases hgrown.owns.data with ⟨-, hcap⟩ | ⟨b, hdata, hb⟩
  · obtain rfl := List.eq_nil_of_length_eq_zero (hgrown.capacity.symm.trans hcap)
    refine meets_pure ⟨by simp, Edits.refl hv hgrown.edits.fresh 0, ?_⟩
    exact ⟨rfl, Nat.zero_le _, hgrown.owns.data⟩
  · have hnew : w₀.next ≤ b := by
      rcases hgrown.edits.data f rfl b hdata with hnone | hnew
      · cases hnone
      · exact hnew
    have hcells : w.block b = some (([] : List T).map some ++ List.replicate ys.length none) := by
      rw [hb, storage, hgrown.capacity]
      rfl
    have hsource : ∀ cells a c i y, ys[i]? = some y →
        source (([] : List T).length + i) ((w.setBlock b cells).count a c 0) =
          some (.ok y, (w.setBlock b cells).count a c 0) := by
      intro cells a c i y hy
      rw [List.length_nil, Nat.zero_add]
      refine hreads _ (fun u hu => ?_) (fun b' hb' => ?_) i y hy
      · change w.vec u = w₀.vec u
        rw [hgrown.edits.vec, Function.update_of_ne hu]
      · have hne : b' ≠ b := by omega
        have hkept := hgrown.edits.frame b' hb' (by simp)
        simp [hne, hkept]
    have hframe : ∀ cells a c b', f.data ≠ some b' →
        ((w.setBlock b (some cells)).count a c 0).block b' = w.block b' := by
      intro cells a c b' hne
      have hbb : b' ≠ b := fun h => hne (h ▸ hdata)
      simp [hbb]
    have hedits : ∀ cells j a, Edits w ((w.setBlock b (some cells)).count a j 0) this f (some f)
        0 j := by
      intro cells j a
      refine edits_own hgrown.owns hgrown.edits.fresh ?_ rfl (hframe cells a j) rfl ?_
      · rw [← hv, Function.update_eq_self]
        rfl
      · change w.constructed + j + w.destroyed + 0 = w.constructed + (w.destroyed + 0) + j
        omega
    refine (fillFrom_meets hv hdata hcells hsource).imp ?_ ?_
    · rintro - w' ⟨hsteady, rfl⟩
      refine ⟨hsteady, hedits _ _ _, rfl, Nat.le_of_eq hgrown.capacity.symm, .inr ⟨b, hdata, ?_⟩⟩
      simp [storage, hgrown.capacity]
    · rintro e w' ⟨he, j, hj, cells, rfl⟩
      exact ⟨he, j, hj, hedits _ _ _, b, hfresh b hnew, by simp⟩

theorem constructFilled_meets (hthis : w.vec this = none) (hfresh : Fresh w)
    (hreads : Reads w this source ys) :
    Meets (constructFilled E this ys.length source) w
      (fun _ w' => (∀ j < ys.length, E.throws (w.attempts + j) = false) ∧
        ∃ g, Edits w w' this {} (some g) 0 ys.length ∧ Owns w' g ys ∧ g.capacity = ys.length)
      (fun e w' => e = .element ∧ ∃ j, FirstThrow E w ys.length j ∧ Leaks w w' this j) := by
  obtain ⟨w₀, hw₀⟩ : ∃ w₀, w₀ = w.setVec this (some {}) := ⟨_, rfl⟩
  have hv₀ : w₀.vec this = some {} := by rw [hw₀]; exact Function.update_self ..
  have hfresh₀ : Fresh w₀ := by rw [hw₀]; exact hfresh
  have hreads₀ : Reads w₀ this source ys := by
    intro w' hvec hblock
    refine hreads w' (fun u hu => ?_) fun b hb => ?_
    · rw [hvec u hu, hw₀]
      exact Function.update_of_ne hu ..
    · rw [hblock b (by rwa [hw₀]), hw₀]
      rfl
  have hbegin : Edits w w₀ this {} (some {}) 0 0 := hw₀ ▸ edits_begin hfresh
  refine constructing_meets hthis ?_
  rw [← hw₀]
  refine ((growTo_meets hv₀ owns_nil hfresh₀ (Nat.zero_le _)).imp (fun _ _ h => h) ?_).bind ?_
  · rintro e w' ⟨-, j, ⟨hj, -⟩, -⟩
    exact absurd hj (Nat.not_lt_zero j)
  · rintro - w₁ ⟨g, hgrown⟩
    have hattempts : w₁.attempts = w.attempts := hgrown.attempts.trans (by rw [hw₀]; rfl)
    have hbefore := hbegin.trans hgrown.edits
    refine ((fillGrown_meets hfresh₀ hreads₀ hgrown).imp (fun _ _ h => h) ?_).bind ?_
    · rintro e w₂ ⟨he, j, hj, hedits, b, hb, hleft⟩
      rw [FirstThrow, hattempts] at hj
      have hv₂ : w₂.vec this = some g := by rw [hedits.vec, Function.update_self]
      refine ⟨⟨g, hv₂⟩, he, j, hj, hbefore.trans ?_, b, by rwa [hw₀] at hb, hleft⟩
      exact hedits.setVec fun g' hg => by cases hg
    · rintro - w₂ ⟨hsteady, hedits, howns⟩
      rw [hattempts] at hsteady
      have hv₂ : w₂.vec this = some g := by rw [hedits.vec, Function.update_self]
      refine meets_bind_ok (fields_eq hv₂) (meets_of_ok (setFields_eq hv₂ _) ?_)
      refine ⟨hsteady, { g with size := ys.length }, hbefore.trans ?_, howns.congr fun _ _ => rfl,
        hgrown.capacity⟩
      exact hedits.setVec fun g' hg => by cases hg; rfl

theorem constructSized_meets (hthis : w.vec this = none) (hfresh : Fresh w) (n : ℕ) :
    Meets (constructSized E this n) w
      (fun _ w' => (∀ j < n, E.throws (w.attempts + j) = false) ∧
        ∃ g, Edits w w' this {} (some g) 0 n ∧ Owns w' g (List.replicate n E.value) ∧
          g.capacity = n)
      (fun e w' => e = .element ∧ ∃ j, FirstThrow E w n j ∧ Leaks w w' this j) := by
  have hconstruct := constructFilled_meets (E := E) hthis hfresh (reads_pure (n := n) E.value)
  rwa [List.length_replicate] at hconstruct

theorem constructWith_meets (hthis : w.vec this = none) (hfresh : Fresh w) (n : ℕ) (x : T) :
    Meets (constructWith E this n x) w
      (fun _ w' => (∀ j < n, E.throws (w.attempts + j) = false) ∧
        ∃ g, Edits w w' this {} (some g) 0 n ∧ Owns w' g (List.replicate n x) ∧ g.capacity = n)
      (fun e w' => e = .element ∧ ∃ j, FirstThrow E w n j ∧ Leaks w w' this j) := by
  have hconstruct := constructFilled_meets (E := E) hthis hfresh (reads_pure (n := n) x)
  rwa [List.length_replicate] at hconstruct

theorem copyConstruct_meets (hthis : w.vec this = none) (ho : w.vec o = some f)
    (howns : Owns w f xs) (hfresh : Fresh w) :
    Meets (copyConstruct E this o) w
      (fun _ w' => (∀ j < xs.length, E.throws (w.attempts + j) = false) ∧
        ∃ g, Edits w w' this {} (some g) 0 xs.length ∧ Owns w' g xs ∧ g.capacity = xs.length)
      (fun e w' => e = .element ∧ ∃ j, FirstThrow E w xs.length j ∧ Leaks w w' this j) := by
  have hne : o ≠ this := by
    rintro rfl
    rw [hthis] at ho
    cases ho
  refine meets_bind_ok (fields_eq ho) ?_
  rw [howns.size]
  refine constructFilled_meets hthis hfresh ?_
  intro w' hvec hblock i x hx
  have ho' : w'.vec o = some f := (hvec o hne).trans ho
  have howns' : Owns w' f xs := howns.congr fun b hb => hblock b (Nat.lt_of_not_le fun hle =>
    howns.data_ne hfresh hle hb)
  exact (bind_ok (fields_eq ho')).trans (load_element howns' hx)

theorem destruct_meets {R : Thrown → World ι T → Prop} (hv : w.vec v = some f) (ho : Owns w f xs)
    (hfresh : Fresh w) :
    Meets (destruct v) w (fun _ w' => Edits w w' v f none xs.length 0) R := by
  have hv' : ((w.free f).count 0 0 xs.length).vec v = some f := by
    rw [← hv]
    exact congrFun free_vec v
  refine meets_bind_ok (fields_eq hv) (meets_bind_ok (destroyAll_eq ho)
    (meets_bind_ok (deleteAll_eq ho _) (meets_of_ok (endObject_eq hv') ?_)))
  refine edits_within ho hfresh ?_ (fun g hg => by cases hg) (fun b hne => ?_) ?_ ?_
  · simp [World.setVec, World.count]
  · simp [World.setVec, World.count, free_block, hne]
  · simp [World.setVec, World.count]
  · simp only [World.setVec, World.count, free_constructed, free_destroyed]
    omega

end Construction

end HftExercises.DynVector
