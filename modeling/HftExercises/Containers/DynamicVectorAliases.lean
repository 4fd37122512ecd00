import HftExercises.Containers.DynamicVectorContents

/-! # Appends of an own element

The argument is a reference into the block. Where the append reallocates, the block is gone
by the time at which the new element is constructed from it.
-/
namespace HftExercises.DynVector
open Throwing
variable {ι T : Type} [DecidableEq ι] {w w' : World ι T} {q : Contents ι T}
variable {v : ι} {f : Vec} {xs : List T} {E : Element T} {x : T} {i : ℕ}

omit [DecidableEq ι] in
theorem load_freed {X : Type} (hdata : ∀ b, f.data = some b → w.block b = none) (i : ℕ) :
    (load f.data i : Throwing (World ι T) X T) w = none := by
  cases hb : f.data with
  | none => rfl
  | some b => simp [load, perform, World.cells, hdata b hb]

/-- With room, or where the growth throws, the argument is read as it was. -/
theorem append_element_meets (hv : w.vec v = some f) (ho : Owns w f xs) (hfresh : Fresh w)
    (hx : xs[i]? = some x)
    (hread : f.size < f.capacity ∨ ∃ j, FailsAt E w xs.length j) :
    Meets (append E true v (load f.data i)) w (fun _ w' => ∃ g, Becomes w w' v f g xs (xs ++ [x]))
      (fun e w' => e = .element ∧ ∃ g, Becomes w w' v f g xs xs) := by
  have harg : ∀ w', (f.size < f.capacity ∧ w' = w ∨
      f.size = f.capacity ∧ ∃ g, Regrown E w w' v f g xs f.roomy) →
        (load f.data i : Throwing (World ι T) Thrown T) w' = some (.ok x, w') := by
    rintro w' (⟨-, rfl⟩ | ⟨hfull, g, hgrown⟩)
    · exact load_element ho hx
    · rcases hread with hroom | ⟨j, hj⟩
      · omega
      · exact absurd hj (hgrown.steady j)
  refine (append_meets hv ho hfresh harg).imp ?_ ?_
  · rintro - w' ⟨g, hbecomes, -⟩
    exact ⟨g, hbecomes⟩
  · rintro e w' ⟨he, g, hbecomes, -⟩
    exact ⟨he, g, hbecomes⟩

/-- The block that the argument refers to is gone after a growth. -/
theorem append_element_stuck (hv : w.vec v = some f) (ho : Owns w f xs) (hfresh : Fresh w)
    (hfull : f.size = f.capacity) (hsteady : ∀ j, ¬FailsAt E w xs.length j) (i : ℕ) :
    append E true v (load f.data i) w = none := by
  obtain ⟨⟨r, w₁⟩, hrun, hexit⟩ := growIfFull_meets (E := E) hv ho hfresh
  cases r with
  | error e =>
    obtain ⟨-, -, j, hj, -⟩ := hexit
    exact absurd hj (hsteady j)
  | ok a =>
    rcases hexit with ⟨hroom, -⟩ | ⟨-, g, hgrown⟩
    · omega
    · have hv₁ : w₁.vec v = some g := by rw [hgrown.edits.vec, Function.update_self]
      rw [append, bind_ok hrun, bind_ok (fields_eq hv₁)]
      exact bind_none (load_freed hgrown.freed i)

/-- The append of the own element at `i` is defined and has the effect of that of a value. -/
def AppendsElement (q : Contents ι T) (w : World ι T) (v : ι) (xs : List T) (x : T) {A : Type}
    (op : Throwing (World ι T) Thrown A) (P : A → Prop) : Prop :=
  Meets op w (fun a w' => P a ∧ Represents w' (Function.update q v (some (xs ++ [x]))))
    fun _ w' => Represents w' q

/-- An append of an own element, by `push_back` or by `emplace_back`, is right if and only if
there is room for it or the growth throws. -/
theorem append_element_iff (hr : Represents w q) (hv : w.vec v = some f) (hq : q v = some xs)
    (hx : xs[i]? = some x) :
    (AppendsElement q w v xs x (pushBack E v (.element i)) (fun _ => True) ↔
      f.size < f.capacity ∨ ∃ j, FailsAt E w xs.length j) ∧
    (AppendsElement q w v xs x (emplaceBack E v (.element i)) (fun a => a = x) ↔
      f.size < f.capacity ∨ ∃ j, FailsAt E w xs.length j) := by
  obtain ⟨f', hf', ho⟩ := hr.owns hq
  obtain rfl := Option.some.inj (hv.symm.trans hf')
  have hbound : (Arg.element i : Arg T).bound v w = some (.ok (load f.data i), w) :=
    bind_ok (fields_eq hv)
  have hstuck : ¬(f.size < f.capacity ∨ ∃ j, FailsAt E w xs.length j) →
      append E true v (load f.data i) w = none := by
    intro hnot
    have hfull : f.size = f.capacity := by
      have hsize := ho.size
      have hle := ho.le
      have hroom := fun h => hnot (.inl h)
      omega
    exact append_element_stuck hv ho hr.fresh hfull (fun j hj => hnot (.inr ⟨j, hj⟩)) i
  constructor
  · constructor
    · intro hop
      by_contra hnot
      exact not_meets_of_none ((bind_ok hbound).trans (hstuck hnot)) hop
    · intro hread
      refine meets_bind_ok hbound ((append_element_meets hv ho hr.fresh hx hread).imp ?_ ?_)
      · rintro - w' ⟨g, hbecomes⟩
        exact ⟨trivial, (hr.becomes hv hq hbecomes).represents⟩
      · rintro e w' ⟨-, g, hbecomes⟩
        exact (hr.kept hv hq hbecomes).represents
  · constructor
    · intro hop
      by_contra hnot
      exact not_meets_of_none ((bind_ok hbound).trans (bind_none (hstuck hnot))) hop
    · intro hread
      refine meets_bind_ok hbound (((append_element_meets hv ho hr.fresh hx hread).imp
        (fun _ _ h => h) ?_).bind ?_)
      · rintro e w' ⟨-, g, hbecomes⟩
        exact (hr.kept hv hq hbecomes).represents
      · rintro - w' ⟨g, hbecomes⟩
        have hv' : w'.vec v = some g := by rw [hbecomes.edits.vec, Function.update_self]
        exact meets_bind_ok (fields_eq hv') (meets_of_ok (load_last hbecomes.owns)
          ⟨rfl, (hr.becomes hv hq hbecomes).represents⟩)

/-- A vector of two elements and no room reads its freed block, whether it moves or copies. -/
theorem append_element_reads_freed :
    (World.single 0 [7, 8] 2 : World ℕ ℕ).vec 0 = some ⟨some 0, 2, 2⟩ ∧
      pushBack (numbers fun _ => false) 0 (.element 1) (World.single 0 [7, 8] 2) = none ∧
      pushBack { numbers fun _ => false with nothrowMove := false } 0 (.element 1) (World.single 0 [7, 8] 2) =
        none ∧
      emplaceBack (numbers fun _ => false) 0 (.element 1) (World.single 0 [7, 8] 2) = none ∧
      ¬AppendsElement (Function.update (fun _ => none) 0 (some [7, 8])) (World.single 0 [7, 8] 2) 0
        [7, 8] 8 (pushBack (numbers fun _ => false) 0 (.element 1)) (fun _ => True) ∧
      ¬AppendsElement (Function.update (fun _ => none) 0 (some [7, 8])) (World.single 0 [7, 8] 2) 0
        [7, 8] 8 (emplaceBack (numbers fun _ => false) 0 (.element 1)) (fun a => a = 8) :=
  ⟨rfl, rfl, rfl, rfl, not_meets_of_none rfl, not_meets_of_none rfl⟩

/-- With room, the first element is appended. -/
theorem append_element_iff_room :
    AppendsElement (Function.update (fun _ => none) 0 (some [7])) (World.single 0 [7] 2) 0 [7] 7
      (pushBack (numbers fun _ => false) 0 (.element 0)) (fun _ => True) :=
  (append_element_iff (represents_single (by decide)) rfl rfl rfl).1.mpr (.inl (by decide))

end HftExercises.DynVector
