import HftExercises.Containers.DynamicVector
import Mathlib.Data.List.Induction

/-! # Storage and the loops over it

A block is the elements constructed in it, with raw cells before and behind them. The loops
of the vector move the border between the two.
-/
namespace HftExercises.DynVector
open Throwing
variable {ι T X : Type} {w : World ι T} {b i : ℕ} {x : T}
variable {pre post : List (Option T)}

def World.setBlock (w : World ι T) (b : ℕ) (cells : Option (List (Option T))) : World ι T :=
  { w with block := Function.update w.block b cells }

/-- So many constructions more were tried, so many made and so many elements destroyed. -/
def World.count (w : World ι T) (a c d : ℕ) : World ι T :=
  { w with
    attempts := w.attempts + a
    constructed := w.constructed + c
    destroyed := w.destroyed + d }

@[simp] theorem setBlock_block (cells : Option (List (Option T))) :
    (w.setBlock b cells).block = Function.update w.block b cells := rfl

@[simp] theorem count_block (a c d : ℕ) : (w.count a c d).block = w.block := rfl

@[simp] theorem count_setBlock (a c d : ℕ) (cells : Option (List (Option T))) :
    (w.count a c d).setBlock b cells = (w.setBlock b cells).count a c d := rfl

@[simp] theorem setBlock_setBlock (cells cells' : Option (List (Option T))) :
    (w.setBlock b cells).setBlock b cells' = w.setBlock b cells' := by
  simp [World.setBlock]

@[simp] theorem setBlock_self {cells : Option (List (Option T))} (hb : w.block b = cells) :
    w.setBlock b cells = w := by
  rw [World.setBlock, ← hb, Function.update_eq_self]

@[simp] theorem count_count (a c d a' c' d' : ℕ) :
    (w.count a c d).count a' c' d' = w.count (a + a') (c + c') (d + d') := by
  simp [World.count, Nat.add_assoc]

@[simp] theorem count_zero : w.count 0 0 0 = w := rfl

theorem setBlock_comm {b' : ℕ} (hne : b ≠ b') (cells cells' : Option (List (Option T))) :
    (w.setBlock b cells).setBlock b' cells' = (w.setBlock b' cells').setBlock b cells := by
  simp only [World.setBlock, Function.update_comm hne]

theorem setBlock_twice {b' : ℕ} (hne : b ≠ b') (c c₁ d d₁ : Option (List (Option T))) :
    (((w.setBlock b c).setBlock b' d).setBlock b c₁).setBlock b' d₁ =
      (w.setBlock b c₁).setBlock b' d₁ := by
  rw [setBlock_comm hne.symm, setBlock_setBlock, setBlock_setBlock]

section Steps

theorem cells_some {cells : List (Option T)} (hb : w.block b = some cells) :
    w.cells (some b) = some (b, cells) := by
  simp [World.cells, hb]

theorem load_eq (hb : w.block b = some (pre ++ some x :: post)) :
    (load (some b) pre.length : Throwing (World ι T) X T) w = some (.ok x, w) :=
  perform_eq (by simp [cells_some hb])

theorem store_eq (hb : w.block b = some (pre ++ some x :: post)) (y : T) :
    (store (some b) pre.length y : Throwing (World ι T) X Unit) w =
      some (.ok (), w.setBlock b (some (pre ++ some y :: post))) :=
  perform_eq (by simp [cells_some hb, World.putCell, World.setBlock])

theorem destroy_eq (hb : w.block b = some (pre ++ some x :: post)) :
    (destroy (some b) pre.length : Throwing (World ι T) X Unit) w =
      some (.ok (), (w.setBlock b (some (pre ++ none :: post))).count 0 0 1) :=
  perform_eq (by simp [cells_some hb, World.putCell, World.setBlock, World.count])

theorem construct_eq (E : Element T) (mayThrow : Bool) (e : X) (x : T)
    (hb : w.block b = some (pre ++ none :: post)) :
    construct E mayThrow e (some b) pre.length x w =
      if (mayThrow && E.throws w.attempts) = true then some (.error e, w.count 1 0 0)
      else some (.ok (), (w.setBlock b (some (pre ++ some x :: post))).count 1 1 0) := by
  simp [construct, cells_some hb, World.putCell, World.setBlock, World.count]

theorem operatorDelete_eq {cells : List (Option T)} (hb : w.block b = some cells) :
    (operatorDelete (some b) : Throwing (World ι T) X Unit) w =
      some (.ok (), w.setBlock b none) :=
  perform_eq (by simp [hb, World.setBlock])

end Steps

section Loops
variable {E : Element T} {xs : List T}

/-- The destructors of a row of elements. -/
theorem destroyFrom_eq (hb : w.block b = some (pre ++ xs.map some ++ post)) :
    (destroyFrom (some b) xs.length pre.length : Throwing (World ι T) X Unit) w =
      some (.ok (), (w.setBlock b (some (pre ++ List.replicate xs.length none ++ post))).count 0 0
        xs.length) := by
  induction xs generalizing w pre with
  | nil =>
    simp only [List.length_nil, destroyFrom, List.replicate_zero]
    rw [← List.map_nil, setBlock_self hb, count_zero]
    rfl
  | cons x xs ih =>
    have hx : w.block b = some (pre ++ some x :: (xs.map some ++ post)) := by simpa using hb
    have hrest : ((w.setBlock b (some (pre ++ none :: (xs.map some ++ post)))).count 0 0 1).block b =
        some ((pre ++ [none]) ++ xs.map some ++ post) := by simp
    have hloop := ih hrest
    rw [List.length_append, List.length_singleton] at hloop
    rw [List.length_cons, destroyFrom, bind_ok (destroy_eq hx), hloop]
    simp [List.replicate_succ, Nat.add_comm]

/-- The rollback destroys the elements from the last one on. -/
theorem destroyBack_eq (hb : w.block b = some (xs.map some ++ post)) :
    (destroyBack (some b) xs.length : Throwing (World ι T) X Unit) w =
      some (.ok (), (w.setBlock b (some (List.replicate xs.length none ++ post))).count 0 0
        xs.length) := by
  induction xs using List.reverseRecOn generalizing w post with
  | nil =>
    simp only [List.length_nil, destroyBack, List.replicate_zero]
    rw [← List.map_nil, setBlock_self hb, count_zero]
    rfl
  | append_singleton xs x ih =>
    have hx : w.block b = some (xs.map some ++ some x :: post) := by simpa using hb
    have hrest : ((w.setBlock b (some (xs.map some ++ none :: post))).count 0 0 1).block b =
        some (xs.map some ++ none :: post) := by simp
    have hlast := destroy_eq (X := X) hx
    rw [List.length_map] at hlast
    rw [List.length_append, List.length_singleton, destroyBack, bind_ok hlast, ih hrest]
    simp [List.replicate_succ', Nat.add_comm]

/-- What a transfer leaves of an element in the old block. -/
def Element.left (E : Element T) (x : T) : T := if E.nothrowMove then E.moved x else x

theorem transferOne_meets {s d : ℕ} {pre' post' : List (Option T)} (hne : s ≠ d)
    (hs : w.block s = some (pre ++ some x :: post))
    (hd : w.block d = some (pre' ++ none :: post')) (hlength : pre.length = pre'.length) :
    Meets (transferOne E (some s) (some d) pre'.length) w
      (fun _ w' => (E.nothrowMove = true ∨ E.throws w.attempts = false) ∧
        w' = ((w.setBlock s (some (pre ++ some (E.left x) :: post))).setBlock d
          (some (pre' ++ some x :: post'))).count 1 1 0)
      (fun i w' => i = pre'.length ∧ E.nothrowMove = false ∧ E.throws w.attempts = true ∧
        w' = w.count 1 0 0) := by
  have hload := load_eq (X := ℕ) hs
  rw [hlength] at hload
  refine meets_bind_ok hload ?_
  cases hmove : E.nothrowMove with
  | true =>
    have hconstruct := construct_eq E false pre'.length x hd
    have hs' : ((w.setBlock d (some (pre' ++ some x :: post'))).count 1 1 0).block s =
        some (pre ++ some x :: post) := by simp [hne, hs]
    have hstore := store_eq (X := ℕ) hs' (E.moved x)
    rw [hlength] at hstore
    refine meets_bind_ok hconstruct (meets_of_ok hstore ⟨.inl rfl, ?_⟩)
    simp [Element.left, hmove, setBlock_comm hne]
  | false =>
    have hconstruct := construct_eq E true pre'.length x hd
    cases hthrow : E.throws w.attempts with
    | true =>
      rw [hthrow] at hconstruct
      exact ⟨_, hconstruct, rfl, rfl, rfl, rfl⟩
    | false =>
      rw [hthrow] at hconstruct
      refine meets_of_ok hconstruct ⟨.inr rfl, ?_⟩
      simp [Element.left, hmove, setBlock_self hs]

/-- The elements are constructed in the new block, or the loop ends at one that throws. -/
theorem transferFrom_meets {s d : ℕ} {done todo : List T} {raw : List (Option T)} (hne : s ≠ d)
    (hs : w.block s = some (pre ++ todo.map some ++ post))
    (hd : w.block d = some (done.map some ++ List.replicate todo.length none ++ raw))
    (hlength : pre.length = done.length) :
    Meets (transferFrom E (some s) (some d) todo.length done.length) w
      (fun _ w' => (E.nothrowMove = true ∨ ∀ j < todo.length, E.throws (w.attempts + j) = false) ∧
        w' = ((w.setBlock s (some (pre ++ (todo.map E.left).map some ++ post))).setBlock d
          (some ((done ++ todo).map some ++ raw))).count todo.length todo.length 0)
      (fun i w' => ∃ j < todo.length, i = done.length + j ∧ E.nothrowMove = false ∧
        E.throws (w.attempts + j) = true ∧ (∀ l < j, E.throws (w.attempts + l) = false) ∧
        w' = (w.setBlock d (some ((done ++ todo.take j).map some ++
          List.replicate (todo.length - j) none ++ raw))).count (j + 1) j 0) := by
  induction todo generalizing w pre done with
  | nil =>
    refine meets_pure ⟨.inr (by simp), ?_⟩
    simp only [List.map_nil, List.append_nil, List.length_nil, List.replicate_zero] at hs hd ⊢
    rw [setBlock_self hs, setBlock_self hd, count_zero]
  | cons x todo ih =>
    have hs' : w.block s = some (pre ++ some x :: (todo.map some ++ post)) := by simpa using hs
    have hd' : w.block d =
        some (done.map some ++ none :: (List.replicate todo.length none ++ raw)) := by
      simpa [List.replicate_succ] using hd
    have hone := transferOne_meets (E := E) hne hs' hd' (by rw [List.length_map, hlength])
    rw [List.length_map] at hone
    rw [List.length_cons, transferFrom]
    refine (hone.imp (fun _ _ h => h) ?_).bind ?_
    · rintro i w' ⟨rfl, hmove, hthrow, rfl⟩
      refine ⟨0, Nat.succ_pos _, rfl, hmove, hthrow, fun l hl => absurd hl (Nat.not_lt_zero l), ?_⟩
      rw [List.take_zero, List.append_nil, Nat.sub_zero, ← List.length_cons, setBlock_self hd]
    · rintro - w₁ ⟨hfirst, rfl⟩
      have hs₁ : (((w.setBlock s (some (pre ++ some (E.left x) :: (todo.map some ++ post)))).setBlock d
          (some (done.map some ++ some x :: (List.replicate todo.length none ++ raw)))).count 1 1
            0).block s = some ((pre ++ [some (E.left x)]) ++ todo.map some ++ post) := by simp [hne]
      have hd₁ : (((w.setBlock s (some (pre ++ some (E.left x) :: (todo.map some ++ post)))).setBlock d
          (some (done.map some ++ some x :: (List.replicate todo.length none ++ raw)))).count 1 1
            0).block d =
              some ((done ++ [x]).map some ++ List.replicate todo.length none ++ raw) := by simp
      have hrest := ih hs₁ hd₁ (by simp [hlength])
      rw [List.length_append, List.length_singleton] at hrest
      refine hrest.imp ?_ ?_
      · rintro - w' ⟨hrest', rfl⟩
        refine ⟨?_, ?_⟩
        · rcases hfirst with hmove | hthrow
          · exact .inl hmove
          · refine hrest'.imp_right fun hall j hj => ?_
            cases j with
            | zero => exact hthrow
            | succ j =>
              have hnext := hall j (by simpa using hj)
              rwa [show w.attempts + (j + 1) = w.attempts + 1 + j by omega]
        · simp [setBlock_twice hne, Nat.add_comm]
      · rintro i w' ⟨j, hj, rfl, hmove, hthrow, hbefore, rfl⟩
        have hleft : E.left x = x := by simp [Element.left, hmove]
        refine ⟨j + 1, by simpa using hj, by omega, hmove, ?_, ?_, ?_⟩
        · rwa [show w.attempts + (j + 1) = w.attempts + 1 + j by omega]
        · intro l hl
          cases l with
          | zero => simpa [hmove] using hfirst
          | succ l =>
            have hnext := hbefore l (by omega)
            rwa [show w.attempts + (l + 1) = w.attempts + 1 + l by omega]
        · rw [hleft, setBlock_self hs']
          simp [Nat.add_comm]

end Loops

end HftExercises.DynVector
