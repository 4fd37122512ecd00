import HftExercises.Containers.DynamicVectorObjects

/-! # What the operations do to the elements

Every operation on a vector edits its elements as the operation on a list does, or it ends
in an exception and the elements are as before.
-/
namespace HftExercises.DynVector
open Throwing
variable {ι T : Type} [DecidableEq ι] {w w' : World ι T} {v : ι} {f g : Vec} {xs ys : List T}
variable {E : Element T} {x : T} {mayThrow : Bool} {n : ℕ}

/-- The elements `xs` of a vector become `ys`. -/
structure Becomes (w w' : World ι T) (v : ι) (f g : Vec) (xs ys : List T) : Prop where
  edits : Edits w w' v f (some g) xs.length ys.length
  owns : Owns w' g ys

theorem Becomes.refl (hv : w.vec v = some f) (ho : Owns w f xs) (hfresh : Fresh w) :
    Becomes w w v f f xs xs := ⟨Edits.refl hv hfresh _, ho⟩

theorem becomes_rolledBack (hv : w.vec v = some f) (ho : Owns w f xs) (hfresh : Fresh w) (j : ℕ) :
    Becomes w (w.rolledBack j) v f f xs xs :=
  ⟨edits_rolledBack hv hfresh j _, ho.congr fun _ _ => rfl⟩

theorem Regrown.becomes {c : ℕ} (h : Regrown E w w' v f g xs c) : Becomes w w' v f g xs xs :=
  ⟨h.edits, h.owns⟩

/-- The capacity with which an element is appended. -/
def Vec.roomy (f : Vec) : ℕ :=
  if f.size = f.capacity then if f.capacity = 0 then 1 else f.capacity * 2 else f.capacity

omit [DecidableEq ι] in
theorem roomy_gt (ho : Owns w f xs) : xs.length < f.roomy := by
  have hsize := ho.size
  have hle := ho.le
  rw [Vec.roomy]
  split_ifs <;> omega

theorem growIfFull_meets (hv : w.vec v = some f) (ho : Owns w f xs) (hfresh : Fresh w) :
    Meets (growIfFull E v) w
      (fun _ w' => f.size < f.capacity ∧ w' = w ∨
        f.size = f.capacity ∧ ∃ g, Regrown E w w' v f g xs f.roomy)
      (fun e w' => e = .element ∧ f.size = f.capacity ∧
        ∃ j, FailsAt E w xs.length j ∧ w' = w.rolledBack j) := by
  have hsize := ho.size
  have hle := ho.le
  rw [growIfFull]
  refine meets_bind_ok (fields_eq hv) ?_
  by_cases hfull : f.size = f.capacity
  · have hroomy : (if f.capacity = 0 then 1 else f.capacity * 2) = f.roomy := (if_pos hfull).symm
    rw [if_pos hfull, hroomy]
    refine (growTo_meets hv ho hfresh (Nat.le_of_lt (roomy_gt ho))).imp ?_ ?_
    · exact fun _ w' h => .inr ⟨hfull, h⟩
    · rintro e w' ⟨he, hfail⟩
      exact ⟨he, hfull, hfail⟩
  · rw [if_neg hfull]
    exact meets_pure (.inl ⟨by omega, rfl⟩)

/-- An element in the first raw cell. -/
theorem place_meets (hv : w.vec v = some f) (ho : Owns w f xs) (hfresh : Fresh w)
    (hroom : xs.length < f.capacity) :
    Meets (do
        construct E mayThrow Thrown.element f.data f.size x
        setFields v { f with size := f.size + 1 }) w
      (fun _ w' => (mayThrow && E.throws w.attempts) = false ∧
        Becomes w w' v f { f with size := f.size + 1 } xs (xs ++ [x]))
      (fun e w' => e = .element ∧ (mayThrow && E.throws w.attempts) = true ∧
        w' = w.count 1 0 0) := by
  obtain ⟨b, hdata, hb⟩ := ho.data.resolve_left fun h => by omega
  have hcells : w.block b = some (xs.map some ++
      none :: List.replicate (f.capacity - (xs.length + 1)) none) := by
    rw [hb, storage, ← List.replicate_succ]
    congr
    omega
  have hconstruct := construct_eq E mayThrow Thrown.element x hcells
  have hindex : (xs.map some).length = f.size := by rw [List.length_map, ho.size]
  rw [hindex, ← hdata] at hconstruct
  cases hthrow : mayThrow && E.throws w.attempts with
  | true =>
    rw [hthrow] at hconstruct
    exact ⟨_, bind_error hconstruct, rfl, rfl, rfl⟩
  | false =>
    rw [hthrow] at hconstruct
    have hv' : ((w.setBlock b (some (xs.map some ++
        some x :: List.replicate (f.capacity - (xs.length + 1)) none))).count 1 1 0).vec v =
          some f := hv
    refine meets_bind_ok hconstruct (meets_of_ok (setFields_eq hv' _) ⟨rfl, ?_, ?_⟩)
    · refine edits_own ho hfresh rfl rfl (fun b' hne => ?_) rfl ?_
      · have hbb : b' ≠ b := fun h => hne (h ▸ hdata)
        simp [World.setVec, World.setBlock, World.count, hbb]
      · simp only [World.setVec, World.setBlock, World.count, List.length_append,
          List.length_singleton]
        omega
    · refine ⟨?_, ?_, .inr ⟨b, hdata, ?_⟩⟩
      · simp [ho.size]
      · rw [List.length_append]
        exact hroom
      · simp [World.setVec, World.setBlock, World.count, storage]

/-- What an exception leaves of an append. -/
def AppendFails (w w' : World ι T) (v : ι) (f : Vec) (xs : List T) : Prop :=
  ∃ g, Becomes w w' v f g xs xs ∧ (g.capacity = f.capacity ∨ g.capacity = f.roomy)

/-- The append, once there is room, of an argument that is read as `x`. -/
theorem append_meets {arg : Throwing (World ι T) Thrown T} (hv : w.vec v = some f)
    (ho : Owns w f xs) (hfresh : Fresh w)
    (harg : ∀ w', (f.size < f.capacity ∧ w' = w ∨
      f.size = f.capacity ∧ ∃ g, Regrown E w w' v f g xs f.roomy) → arg w' = some (.ok x, w')) :
    Meets (append E mayThrow v arg) w
      (fun _ w' => ∃ g, Becomes w w' v f g xs (xs ++ [x]) ∧ g.capacity = f.roomy)
      (fun e w' => e = .element ∧ AppendFails w w' v f xs) := by
  rw [append]
  refine ((growIfFull_meets hv ho hfresh).imp (fun _ _ h => h) ?_).bind ?_
  · rintro e w' ⟨he, -, j, -, rfl⟩
    exact ⟨he, f, becomes_rolledBack hv ho hfresh j, .inl rfl⟩
  · intro _ w₁ hgrown
    have hread := harg w₁ hgrown
    obtain ⟨g, hbecomes, hcap⟩ : ∃ g, Becomes w w₁ v f g xs xs ∧ g.capacity = f.roomy := by
      rcases hgrown with ⟨hroom, rfl⟩ | ⟨-, g, hregrown⟩
      · exact ⟨f, Becomes.refl hv ho hfresh, (if_neg (Nat.ne_of_lt hroom)).symm⟩
      · exact ⟨g, hregrown.becomes, hregrown.capacity⟩
    have hv₁ : w₁.vec v = some g := by rw [hbecomes.edits.vec, Function.update_self]
    have hroom : xs.length < g.capacity := hcap ▸ roomy_gt ho
    refine meets_bind_ok (fields_eq hv₁) (meets_bind_ok hread ?_)
    refine (place_meets hv₁ hbecomes.owns hbecomes.edits.fresh hroom).imp ?_ ?_
    · rintro - w' ⟨-, hplaced⟩
      exact ⟨_, ⟨hbecomes.edits.trans hplaced.edits, hplaced.owns⟩, hcap⟩
    · rintro e w' ⟨he, -, rfl⟩
      refine ⟨he, g, ⟨hbecomes.edits.trans ?_, hbecomes.owns.congr fun _ _ => rfl⟩, .inr hcap⟩
      exact ⟨by rw [← hv₁, Function.update_eq_self]; rfl, fun _ _ _ => rfl, Nat.le_refl _,
        hbecomes.edits.fresh, fun g' hg b hb => .inl (Option.some.inj hg ▸ hb), rfl⟩

theorem pushBack_meets (hv : w.vec v = some f) (ho : Owns w f xs) (hfresh : Fresh w) (x : T) :
    Meets (pushBack E v (.value x)) w
      (fun _ w' => ∃ g, Becomes w w' v f g xs (xs ++ [x]) ∧ g.capacity = f.roomy)
      (fun e w' => e = .element ∧ AppendFails w w' v f xs) :=
  append_meets hv ho hfresh fun _ _ => rfl

theorem pushBackMove_meets (hv : w.vec v = some f) (ho : Owns w f xs) (hfresh : Fresh w) (x : T) :
    Meets (pushBackMove E v x) w
      (fun _ w' => ∃ g, Becomes w w' v f g xs (xs ++ [x]) ∧ g.capacity = f.roomy)
      (fun e w' => e = .element ∧ AppendFails w w' v f xs) :=
  append_meets hv ho hfresh fun _ _ => rfl

omit [DecidableEq ι] in
theorem load_element {i : ℕ} (ho : Owns w f xs) (hx : xs[i]? = some x) :
    (load f.data i : Throwing (World ι T) Thrown T) w = some (.ok x, w) := by
  have hlt : i < xs.length := (List.getElem?_eq_some_iff.mp hx).1
  have hle := ho.le
  obtain ⟨b, hdata, hb⟩ := ho.data.resolve_left fun h => by omega
  have hcell : (storage xs f.capacity)[i]? = some (some x) := by
    rw [storage, List.getElem?_append_left (by rw [List.length_map]; exact hlt), List.getElem?_map, hx]
    rfl
  exact perform_eq (by simp [hdata, cells_some hb, hcell])

omit [DecidableEq ι] in
/-- The last element is what `data_[size_ - 1]` reads. -/
theorem load_last (ho : Owns w f (xs ++ [x])) :
    (load f.data (f.size - 1) : Throwing (World ι T) Thrown T) w = some (.ok x, w) :=
  load_element ho (by simp [ho.size])

theorem emplaceBack_meets (hv : w.vec v = some f) (ho : Owns w f xs) (hfresh : Fresh w) (x : T) :
    Meets (emplaceBack E v (.value x)) w
      (fun a w' => a = x ∧ ∃ g, Becomes w w' v f g xs (xs ++ [x]) ∧ g.capacity = f.roomy)
      (fun e w' => e = .element ∧ AppendFails w w' v f xs) := by
  have hbound : (Arg.value x).bound v w = some (.ok (pure x), w) := rfl
  refine meets_bind_ok hbound (Meets.bind (append_meets hv ho hfresh fun _ _ => rfl) ?_)
  rintro - w' ⟨g, hbecomes, hcap⟩
  have hv' : w'.vec v = some g := by rw [hbecomes.edits.vec, Function.update_self]
  exact meets_bind_ok (fields_eq hv') (meets_of_ok (load_last hbecomes.owns) ⟨rfl, g, hbecomes, hcap⟩)

theorem popBack_meets {R : Thrown → World ι T → Prop} (hv : w.vec v = some f)
    (ho : Owns w f (xs ++ [x])) (hfresh : Fresh w) :
    Meets (popBack v) w
      (fun _ w' => ∃ g, Becomes w w' v f g (xs ++ [x]) xs ∧ g.capacity = f.capacity) R := by
  have hle := ho.le
  have hsize := ho.size
  rw [List.length_append, List.length_singleton] at hle hsize
  obtain ⟨b, hdata, hb⟩ := ho.data.resolve_left fun h => by omega
  have hcells : (w.setVec v (some { f with size := f.size - 1 })).block b = some (xs.map some ++
      some x :: List.replicate (f.capacity - (xs.length + 1)) none) := by
    simp [World.setVec, hb, storage]
  have hindex : (xs.map some).length = f.size - 1 := by
    rw [List.length_map, hsize, Nat.add_sub_cancel]
  have hdestroy := destroy_eq (X := Thrown) hcells
  rw [hindex, ← hdata] at hdestroy
  refine meets_bind_ok (fields_eq hv) (meets_bind_ok (setFields_eq hv _) (meets_of_ok hdestroy ?_))
  refine ⟨{ f with size := f.size - 1 }, ⟨edits_own ho hfresh rfl rfl (fun b' hne => ?_) rfl ?_,
    hindex ▸ (List.length_map ..), Nat.le_of_succ_le hle, .inr ⟨b, hdata, ?_⟩⟩, rfl⟩
  · have hbb : b' ≠ b := fun h => hne (h ▸ hdata)
    simp [World.setVec, World.setBlock, World.count, hbb]
  · simp only [World.setVec, World.setBlock, World.count, List.length_append,
      List.length_singleton]
    omega
  · simp only [World.setVec, World.setBlock, World.count, Function.update_self, storage]
    rw [← List.replicate_succ]
    congr
    omega

theorem clear_meets {R : Thrown → World ι T → Prop} (hv : w.vec v = some f) (ho : Owns w f xs)
    (hfresh : Fresh w) :
    Meets (clear v) w
      (fun _ w' => ∃ g, Becomes w w' v f g xs [] ∧ g.capacity = f.capacity) R := by
  have hv' : ((w.strip f).count 0 0 xs.length).vec v = some f := by
    rw [← hv]
    exact congrFun strip_vec v
  refine meets_bind_ok (fields_eq hv) (meets_bind_ok (destroyAll_eq ho)
    (meets_of_ok (setFields_eq hv' _) ?_))
  refine ⟨{ f with size := 0 }, ⟨edits_own ho hfresh ?_ rfl (fun b hne => ?_) ?_ ?_,
    (strip_owns ho).congr fun _ _ => rfl⟩, rfl⟩
  · simp [World.setVec, World.count]
  · simp [World.setVec, World.count, strip_block hne]
  · simp [World.setVec, World.count]
  · simp only [World.setVec, World.count, strip_constructed, strip_destroyed, List.length_nil]
    omega

theorem reserve_meets (hv : w.vec v = some f) (ho : Owns w f xs) (hfresh : Fresh w) :
    Meets (reserve E v n) w
      (fun _ w' => ∃ g, Becomes w w' v f g xs xs ∧ g.capacity = max f.capacity n)
      (fun e w' => e = .element ∧ Becomes w w' v f f xs xs) := by
  rw [reserve]
  refine meets_bind_ok (fields_eq hv) ?_
  by_cases hmore : n > f.capacity
  · rw [if_pos hmore]
    refine (growTo_meets hv ho hfresh (Nat.le_trans ho.le (Nat.le_of_lt hmore))).imp ?_ ?_
    · rintro - w' ⟨g, hregrown⟩
      exact ⟨g, hregrown.becomes, by rw [hregrown.capacity, Nat.max_eq_right (Nat.le_of_lt hmore)]⟩
    · rintro e w' ⟨he, j, -, rfl⟩
      exact ⟨he, becomes_rolledBack hv ho hfresh j⟩
  · rw [if_neg hmore]
    exact meets_pure ⟨f, Becomes.refl hv ho hfresh, (Nat.max_eq_left (Nat.le_of_not_lt hmore)).symm⟩

theorem shrinkToFit_meets (hv : w.vec v = some f) (ho : Owns w f xs) (hfresh : Fresh w) :
    Meets (shrinkToFit E v) w
      (fun _ w' => ∃ g, Becomes w w' v f g xs xs ∧ g.capacity = xs.length)
      (fun e w' => e = .element ∧ Becomes w w' v f f xs xs) := by
  rw [shrinkToFit]
  refine meets_bind_ok (fields_eq hv) ?_
  by_cases hspare : f.size < f.capacity
  · rw [if_pos hspare, ho.size]
    refine (growTo_meets hv ho hfresh (Nat.le_refl _)).imp ?_ ?_
    · rintro - w' ⟨g, hregrown⟩
      exact ⟨g, hregrown.becomes, hregrown.capacity⟩
    · rintro e w' ⟨he, j, -, rfl⟩
      exact ⟨he, becomes_rolledBack hv ho hfresh j⟩
  · rw [if_neg hspare]
    have hsize := ho.size
    have hle := ho.le
    exact meets_pure ⟨f, Becomes.refl hv ho hfresh, by omega⟩

omit [DecidableEq ι] in
/-- The element at the index, or the exception of the bound check. -/
theorem at_meets (hv : w.vec v = some f) (ho : Owns w f xs) (i : ℕ) :
    Meets («at» v i) w (fun a w' => xs[i]? = some a ∧ w' = w)
      (fun e w' => e = .outOfRange "Vector::at" ∧ xs.length ≤ i ∧ w' = w) := by
  rw [«at»]
  refine meets_bind_ok (fields_eq hv) ?_
  by_cases hi : i ≥ f.size
  · rw [if_pos hi]
    exact meets_throwing ⟨rfl, ho.size ▸ hi, rfl⟩
  · rw [if_neg hi]
    have hlt : i < xs.length := by rw [← ho.size]; exact Nat.lt_of_not_le hi
    have hx : xs[i]? = some xs[i] := List.getElem?_eq_getElem hlt
    exact meets_of_ok (load_element ho hx) ⟨hx, rfl⟩

end HftExercises.DynVector
