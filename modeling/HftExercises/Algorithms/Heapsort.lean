import HftExercises.Algorithms.HeapSifts

/-! # Heapsort

The array is a heap up to `end`, and from there on it is sorted and above the heap.
-/
namespace HftExercises.Heaps
open ImplicitHeap
variable {T : Type} [LinearOrder T] {n : ℕ}

/-- `std::less` -/
abbrev less (x y : T) : Prop := x < y

/-- `for (end = last; end > 0; --end)` -/
def moveMaxima : (last : ℕ) → last < n → Vector T n → Vector T n
  | 0, _, values => values
  | last + 1, h, values =>
    moveMaxima last (Nat.lt_of_succ_lt h) (siftDownTo less h.le
      (values.swap 0 (last + 1) (Nat.zero_lt_of_lt h) h) ⟨0, Nat.zero_lt_of_lt h⟩)

/-- The lambda `sift_down` is the loop of the heap with `stop` for the size. -/
def heapsort (values : Array T) : Array T :=
  if h : values.size < 2 then values
  else
    let heap := siftDownBelow less le_rfl (values.size / 2) (Nat.div_le_self _ 2) values.toVector
    (moveMaxima (values.size - 1) (by omega) heap).toArray

/-- A heap up to `last`, no element after which is below one before it. -/
structure Sorting (last : ℕ) (a : Fin n → T) : Prop where
  heap : Ordered less a 0 (last + 1)
  above : ∀ j k : Fin n, j ≤ k → last < k → a j ≤ a k

theorem Sorting.step {last : ℕ} {a b : Fin n → T} (h : Sorting (last + 1) a) (hlast : last + 1 < n)
    (hdown : GoesDown less (last + 1)
      (a ∘ Equiv.swap ⟨0, Nat.zero_lt_of_lt hlast⟩ ⟨last + 1, hlast⟩)
      ⟨0, Nat.zero_lt_of_lt hlast⟩ b) : Sorting last b := by
  let root : Fin n := ⟨0, Nat.zero_lt_of_lt hlast⟩
  let final : Fin n := ⟨last + 1, hlast⟩
  have hroot : root.val < last + 1 := Nat.succ_pos last
  have hsift := hdown.rearranges hroot
  have hall : Rearranges (last + 2) a b :=
    (Rearranges.swap a (Nat.succ_pos _) (Nat.lt_succ_self _)).trans (hsift.mono (Nat.le_succ _))
  have hsinking : Sinking less (a ∘ Equiv.swap root final) 0 (last + 1) root := by
    constructor
    · intro p c hc _ hlt hp
      have hpf : p ≠ final := Fin.ne_of_val_ne (hc.lt.trans hlt).ne
      have hcf : c ≠ final := Fin.ne_of_val_ne hlt.ne
      have hcr : c ≠ root := Fin.ne_of_val_ne (Nat.zero_lt_of_lt hc.lt).ne'
      rw [Function.comp_apply, Function.comp_apply, Equiv.swap_apply_of_ne_of_ne hp hpf,
        Equiv.swap_apply_of_ne_of_ne hcr hcf]
      exact h.heap p c hc (Nat.zero_le _) (hlt.trans (Nat.lt_succ_self _))
    · exact fun p c hp => absurd hp.lt (Nat.not_lt_zero _)
  have hfinal : b final = a root := by
    rw [hsift.eq_of_le (le_refl (last + 1))]
    exact congrArg a (Equiv.swap_apply_right root final)
  refine ⟨hdown.ordered hsinking le_rfl, fun j k hjk hk => ?_⟩
  by_cases hfin : k = final
  · -- the maximum of the heap is put here
    subst hfin
    have hmax : ∀ m : Fin n, m < last + 2 → a m ≤ a root :=
      fun m hm => not_lt.mp (h.heap.not_lower_root (Eq.refl root.val) m hm)
    rw [hfinal]
    exact hall.forall_lt (· ≤ a root) hmax j (Nat.lt_succ_of_le hjk)
  · have hlt : last + 2 ≤ k.val := Nat.lt_of_le_of_ne hk fun heq => hfin (Fin.ext heq.symm)
    rw [hall.eq_of_le hlt]
    by_cases hj : j.val < last + 2
    · exact hall.forall_lt (· ≤ a k) (fun m hm => h.above m k (hm.le.trans hlt) hlt) j hj
    · rw [hall.eq_of_le (not_lt.mp hj)]
      exact h.above j k hjk hlt

theorem moveMaxima_spec {last : ℕ} {heap : Vector T n} (hlast : last < n)
    (h : Sorting last (values heap)) : Sorting 0 (values (moveMaxima last hlast heap)) ∧
      Rearranges n (values heap) (values (moveMaxima last hlast heap)) := by
  induction last generalizing heap with
  | zero => exact ⟨h, .refl n _⟩
  | succ last ih =>
    let root : Fin n := ⟨0, Nat.zero_lt_of_lt hlast⟩
    let final : Fin n := ⟨last + 1, hlast⟩
    have hdown := siftDownTo_goesDown less hlast.le (heap.swap root final) root
    rw [values_swap] at hdown
    obtain ⟨hsorting, hrest⟩ := ih (Nat.lt_of_succ_lt hlast) (h.step hlast hdown)
    have hswap : Rearranges n (values heap) (values heap ∘ Equiv.swap root final) :=
      .swap _ root.isLt final.isLt
    have hsift := (hdown.rearranges (Nat.succ_pos last)).mono hlast.le
    exact ⟨hsorting, (hswap.trans hsift).trans hrest⟩

/-- The array ends in ascending order, with the elements it had. -/
theorem heapsort_sorts (values : Array T) : (heapsort values).toList.Pairwise (· ≤ ·) ∧
    (heapsort values).toList.Perm values.toList := by
  rw [heapsort]
  split_ifs with hsmall
  · refine ⟨?_, List.Perm.refl _⟩
    rw [List.pairwise_iff_getElem]
    intro i j hi hj hij
    rw [Array.length_toList] at hj
    omega
  · have hhalf := Nat.div_le_self values.size 2
    let heap := siftDownBelow less le_rfl (values.size / 2) hhalf values.toVector
    have hbuilt : Ordered less (Heaps.values heap) 0 values.size :=
      siftDownBelow_ordered hhalf (ordered_of_half (by omega))
    have hrange : Rearranges values.size (Heaps.values values.toVector) (Heaps.values heap) :=
      siftDownBelow_rearranges _ hhalf hhalf
    have hstart : Sorting (values.size - 1) (Heaps.values heap) :=
      ⟨hbuilt.mono le_rfl (by omega), fun _ k _ hk => absurd hk (by omega)⟩
    obtain ⟨hsorted, hmoved⟩ := moveMaxima_spec (by omega) hstart
    refine ⟨?_, toList_perm_of_rearranges (hrange.trans hmoved)⟩
    change (Vector.toList _).Pairwise _
    rw [toList_eq_ofFn, List.pairwise_ofFn]
    exact fun i j hij => hsorted.above i j hij.le (Nat.zero_lt_of_lt hij)

end HftExercises.Heaps
