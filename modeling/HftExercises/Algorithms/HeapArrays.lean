import HftExercises.Algorithms.HeapSifts

/-! # Heaps in arrays

What the containers do to their arrays around the loops: appending an element, dropping one in
exchange for the last, and handing out the first.
-/
namespace HftExercises.Heaps
open ImplicitHeap

section Operations
variable {T : Type} (lower : T → T → Prop) [DecidableRel lower]

/-- `push_back` and `sift_up` from there. -/
def pushBack (heap : Array T) (value : T) : Array T :=
  (siftUp lower (heap.toVector.push value) (Fin.last heap.size)).toArray

/-- `front`, or the exception. -/
def front (what : String) (heap : Array T) : Except String T :=
  if h : 0 < heap.size then .ok heap[0] else .error what

/-- `heap_[i]` and the last element are exchanged, and that one is dropped. -/
def dropAt (heap : Array T) (i : Fin heap.size) : Vector T (heap.size - 1) :=
  (heap.toVector.swap i (heap.size - 1) i.isLt (Nat.sub_one_lt_of_lt i.isLt)).pop

/-- The root is dropped, and `down` is the `sift_down` of what took its place. -/
def popFront (down : {n : ℕ} → Vector T n → Fin n → Vector T n) (heap : Array T)
    (h : 0 < heap.size) : Array T :=
  let rest := dropAt heap ⟨0, h⟩
  if hr : 0 < heap.size - 1 then (down rest ⟨0, hr⟩).toArray else rest.toArray

end Operations

variable {T : Type} {lower : T → T → Prop} {n : ℕ}

def contents (heap : Array T) : Multiset T := heap.toList

/-- No parent sorts strictly lower than its child. -/
def HeapOrdered (lower : T → T → Prop) (heap : Array T) : Prop :=
  Ordered lower (values heap.toVector) 0 heap.size

theorem heapOrdered_toArray {heap : Vector T n} (h : Ordered lower (values heap) 0 n) :
    HeapOrdered lower heap.toArray := by
  obtain ⟨heap, rfl⟩ := heap
  exact h

theorem contents_of_rearranges {stop : ℕ} {heap heap' : Vector T n}
    (h : Rearranges stop (values heap) (values heap')) :
    contents heap'.toArray = contents heap.toArray :=
  Multiset.coe_eq_coe.mpr (toList_perm_of_rearranges h)

theorem contents_eq_zero {heap : Array T} : contents heap = 0 ↔ ¬0 < heap.size := by
  rw [contents, Multiset.coe_eq_zero, ← List.length_eq_zero_iff, Array.length_toList,
    Nat.pos_iff_ne_zero, not_not]

theorem mem_contents {heap : Array T} {x : T} :
    x ∈ contents heap ↔ ∃ k, values heap.toVector k = x := by
  have hlist : heap.toList = List.ofFn (values heap.toVector) := toList_eq_ofFn heap.toVector
  rw [contents, Multiset.mem_coe, hlist, List.mem_ofFn]

/-- An element that no other one sorts above. -/
def IsTop (lower : T → T → Prop) (s : Multiset T) (x : T) : Prop := x ∈ s ∧ ∀ y ∈ s, ¬lower x y

theorem HeapOrdered.isTop [IsStrictWeakOrder T lower] {heap : Array T} (h : HeapOrdered lower heap)
    (hpos : 0 < heap.size) : IsTop lower (contents heap) heap[0] := by
  refine ⟨mem_contents.mpr ⟨⟨0, hpos⟩, rfl⟩, fun y hy => ?_⟩
  obtain ⟨k, rfl⟩ := mem_contents.mp hy
  have hroot : (⟨0, hpos⟩ : Fin heap.size).val = 0 := rfl
  exact h.not_lower_root hroot k k.isLt

section DropAt
variable (heap : Array T) (i : Fin heap.size)

theorem values_dropAt {k : Fin (heap.size - 1)} (hk : k.val ≠ i) :
    values (dropAt heap i) k = values heap.toVector (Fin.castLE (Nat.sub_le _ 1) k) := by
  change (dropAt heap i)[k.val] = heap.toVector[k.val]
  simp only [dropAt]
  rw [Vector.getElem_pop, Vector.getElem_swap_of_ne hk k.isLt.ne]

theorem contents_dropAt : contents heap = heap[i] ::ₘ contents (dropAt heap i).toArray := by
  have hlt : heap.size - 1 < heap.size := Nat.sub_one_lt_of_lt i.isLt
  let w := heap.toVector.swap i (heap.size - 1) i.isLt hlt
  have hperm : w.toList.Perm heap.toList := (Vector.swap_perm i.isLt hlt).toList
  have hne : w.toList ≠ [] := by
    rw [← List.length_pos_iff, hperm.length_eq, Array.length_toList]
    exact Nat.zero_lt_of_lt i.isLt
  have hlast : w.toList.getLast hne = heap[i] := by
    rw [List.getLast_eq_getElem]
    simp [w]
  have hsplit : w.toList = (dropAt heap i).toList ++ [heap[i]] := by
    rw [← hlast, dropAt, Vector.toList_pop, List.dropLast_append_getLast]
  refine (Multiset.coe_eq_coe.mpr (hperm.symm.trans ?_)).trans (Multiset.cons_coe _ _).symm
  rw [hsplit]
  exact List.perm_append_singleton _ _

end DropAt

/-! ## Operations on heaps -/

section Down
variable {heap : Vector T n} {i : Fin n} {down : {n : ℕ} → Vector T n → Fin n → Vector T n}

theorem contents_of_goesDown {heap' : Vector T n}
    (h : GoesDown lower n (values heap) i (values heap')) :
    contents heap'.toArray = contents heap.toArray :=
  contents_of_rearranges (h.rearranges i.isLt)

theorem heapOrdered_of_goesDown [IsStrictWeakOrder T lower] {heap' : Vector T n}
    (h : GoesDown lower n (values heap) i (values heap'))
    (hsinking : Sinking lower (values heap) 0 n i) : HeapOrdered lower heap'.toArray :=
  heapOrdered_toArray (h.ordered hsinking (Nat.zero_le _))

/-- An array without its first element is a heap but for the new root. -/
theorem HeapOrdered.sinking_dropAt {heap : Array T} [IsStrictWeakOrder T lower]
    (h : HeapOrdered lower heap) (hpos : 0 < heap.size) (hr : 0 < heap.size - 1) :
    Sinking lower (values (dropAt heap ⟨0, hpos⟩)) 0 (heap.size - 1) ⟨0, hr⟩ := by
  have hloose : Loose lower (values (dropAt heap ⟨0, hpos⟩)) (heap.size - 1) ⟨0, hr⟩ :=
    h.loose (Nat.sub_le _ 1) fun k hk => values_dropAt heap ⟨0, hpos⟩ (Fin.val_ne_of_ne hk)
  exact hloose.sinking fun p hp => absurd hp.lt (Nat.not_lt_zero _)

theorem popFront_spec {heap : Array T} [IsStrictWeakOrder T lower]
    (hdown : ∀ (n : ℕ) (v : Vector T n) (i : Fin n),
      GoesDown lower n (values v) i (values (down v i)))
    (hpos : 0 < heap.size) : contents heap = heap[0] ::ₘ contents (popFront down heap hpos) ∧
      (HeapOrdered lower heap → HeapOrdered lower (popFront down heap hpos)) := by
  rw [popFront, contents_dropAt heap ⟨0, hpos⟩]
  split_ifs with hr
  · have hgoes := hdown _ (dropAt heap ⟨0, hpos⟩) ⟨0, hr⟩
    rw [contents_of_goesDown hgoes]
    exact ⟨rfl, fun h => heapOrdered_of_goesDown hgoes (h.sinking_dropAt hpos hr)⟩
  · exact ⟨rfl, fun _ => heapOrdered_toArray fun p => absurd (Nat.zero_lt_of_lt p.isLt) hr⟩

end Down

section Up
variable [DecidableRel lower]

theorem contents_siftUp (heap : Vector T n) (i : Fin n) :
    contents (siftUp lower heap i).toArray = contents heap.toArray :=
  contents_of_rearranges ((siftUp_goesUp lower heap i).rearranges i.isLt)

theorem contents_pushBack (heap : Array T) (value : T) :
    contents (pushBack lower heap value) = value ::ₘ contents heap := by
  rw [pushBack, contents_siftUp, contents, contents, Multiset.cons_coe]
  change ((heap.push value).toList : Multiset T) = _
  rw [Array.toList_push]
  exact Multiset.coe_eq_coe.mpr (List.perm_append_singleton _ _)

/-- The new element is a leaf. -/
theorem HeapOrdered.pushBack [IsStrictWeakOrder T lower] {heap : Array T}
    (h : HeapOrdered lower heap) (value : T) :
    HeapOrdered lower (pushBack lower heap value) := by
  have hup := siftUp_goesUp lower (heap.toVector.push value) (Fin.last heap.size)
  refine heapOrdered_toArray (hup.ordered (h.climbing_last fun k => ?_) (Fin.last heap.size).isLt)
  exact Vector.getElem_push_lt k.isLt

end Up

end HftExercises.Heaps
