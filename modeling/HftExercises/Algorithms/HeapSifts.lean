import HftExercises.Core.ImplicitHeap

/-! # Sifting

The loops of the heaps. `lower` is the comparison, true when its first argument is popped
after the second. The size of the array is in its type, so that every index is within it.
-/
namespace HftExercises.Heaps
open ImplicitHeap
variable {T : Type} (lower : T → T → Prop) [DecidableRel lower] {n : ℕ}

/-- Which of `best` and `c`, if that is before `stop`, the comparison ranks higher. -/
def better {stop : ℕ} (hstop : stop ≤ n) (heap : Vector T n) (best : Fin n) (c : ℕ) : Fin n :=
  if h : c < stop then
    let k : Fin n := ⟨c, h.trans_le hstop⟩
    if lower heap[best] heap[k] then k else best
  else best

theorem better_eq_or {stop : ℕ} (hstop : stop ≤ n) (heap : Vector T n) (best : Fin n) (c : ℕ) :
    better lower hstop heap best c = best ∨
      (better lower hstop heap best c).val = c ∧ c < stop := by
  simp only [better]
  split_ifs with h
  · exact .inr ⟨rfl, h⟩
  · exact .inl rfl
  · exact .inl rfl

variable {lower} in
/-- The child to go down to, or `i` itself. -/
theorem best_cases {stop : ℕ} (hstop : stop ≤ n) (heap : Vector T n) (i : Fin n) {best : Fin n}
    (h : better lower hstop heap (better lower hstop heap i (2 * i + 1)) (2 * i + 2) = best) :
    best = i ∨ IsChild i best ∧ best < stop := by
  rcases better_eq_or lower hstop heap (better lower hstop heap i (2 * i + 1))
    (2 * i + 2) with hr | ⟨hr, hlt⟩
  · rw [h] at hr
    rcases better_eq_or lower hstop heap i (2 * i + 1) with hl | ⟨hl, hlt⟩
    · exact .inl (hr.trans hl)
    · have hval : best.val = 2 * i + 1 := (congrArg Fin.val hr).trans hl
      exact .inr ⟨.inl hval, hval ▸ hlt⟩
  · rw [h] at hr
    exact .inr ⟨.inr hr, hr ▸ hlt⟩

def siftUp (heap : Vector T n) (i : Fin n) : Vector T n :=
  if 0 < i.val then
    let p : Fin n := ⟨(i - 1) / 2, by omega⟩
    if lower heap[p] heap[i] then siftUp (heap.swap i p) p else heap
  else heap
termination_by i.val
decreasing_by omega

/-- `sift_down`, in the part of the array that ends at `stop`. -/
def siftDownTo {stop : ℕ} (hstop : stop ≤ n) (heap : Vector T n) (i : Fin n) : Vector T n :=
  let best := better lower hstop heap (better lower hstop heap i (2 * i + 1)) (2 * i + 2)
  if best = i then heap else siftDownTo hstop (heap.swap i best) best
termination_by n - i
decreasing_by
  have hlt := ((best_cases hstop heap i rfl).resolve_left ‹_›).1.lt
  omega

/-- `for (i = k; i-- > 0;) sift_down(i)` -/
def siftDownBelow {stop : ℕ} (hstop : stop ≤ n) : (k : ℕ) → k ≤ n → Vector T n → Vector T n
  | 0, _, heap => heap
  | k + 1, hk, heap =>
    siftDownBelow hstop k (Nat.le_of_succ_le hk) (siftDownTo lower hstop heap ⟨k, hk⟩)

variable {lower}

/-! ## What the loops do -/

def values (heap : Vector T n) : Fin n → T := fun k => heap[k]

theorem values_swap (heap : Vector T n) (i j : Fin n) :
    values (heap.swap i j) = values heap ∘ Equiv.swap i j := by
  funext k
  change (heap.swap i j)[k.val] = values heap (Equiv.swap i j k)
  rw [Vector.getElem_swap, Equiv.swap_apply_def]
  simp only [Fin.ext_iff]
  split_ifs <;> rfl

theorem toList_eq_ofFn (heap : Vector T n) : heap.toList = List.ofFn (values heap) := by
  refine List.ext_getElem (by simp) fun k _ _ => ?_
  rw [List.getElem_ofFn]
  simp [values]

theorem toList_perm_of_rearranges {stop : ℕ} {heap heap' : Vector T n}
    (h : Rearranges stop (values heap) (values heap')) : heap'.toList.Perm heap.toList := by
  rw [toList_eq_ofFn, toList_eq_ofFn]
  exact h.perm

section Best
variable {stop : ℕ} {hstop : stop ≤ n} {heap : Vector T n} {best i : Fin n}

theorem better_rank (lower : T → T → Prop) [DecidableRel lower] (hstop : stop ≤ n)
    (heap : Vector T n) (best : Fin n) (m : ℕ) : better lower hstop heap best m = best ∨
    lower (values heap best) (values heap (better lower hstop heap best m)) := by
  simp only [better]
  split_ifs with h hlow
  · exact .inr hlow
  · exact .inl rfl
  · exact .inl rfl

variable [IsStrictWeakOrder T lower]

theorem not_lower_better (m : ℕ) :
    ¬lower (values heap (better lower hstop heap best m)) (values heap best) := by
  rcases better_rank lower hstop heap best m with h | h
  · rw [h]
    exact irrefl_of lower _
  · exact asymm_of lower h

theorem not_lower_candidate {s : Fin n} (hs : s < stop) :
    ¬lower (values heap (better lower hstop heap best s)) (values heap s) := by
  simp only [better, dif_pos hs]
  split_ifs with hlow
  · exact irrefl_of lower _
  · exact hlow

/-- The higher child is above the value that goes down. -/
theorem best_rank
    (h : better lower hstop heap (better lower hstop heap i (2 * i + 1)) (2 * i + 2) = best)
    (hne : best ≠ i) : lower (values heap i) (values heap best) := by
  rcases better_rank lower hstop heap i (2 * i + 1) with hl | hl
  · rw [hl] at h
    subst h
    exact (better_rank lower hstop heap i (2 * i + 2)).resolve_left hne
  · rcases better_rank lower hstop heap (better lower hstop heap i (2 * i + 1)) (2 * i + 2) with
      hr | hr
    · rw [h] at hr
      rw [hr]
      exact hl
    · rw [h] at hr
      exact trans_of lower hl hr

/-- No child of `i` is above the one to go down to. -/
theorem not_lower_best
    (h : better lower hstop heap (better lower hstop heap i (2 * i + 1)) (2 * i + 2) = best)
    {s : Fin n} (hs : IsChild i s) (hlt : s < stop) :
    ¬lower (values heap best) (values heap s) := by
  subst h
  rcases hs with hs | hs
  · rw [← hs]
    exact not_lower_trans (not_lower_better _) (not_lower_candidate hlt)
  · rw [← hs]
    exact not_lower_candidate hlt

end Best

section Sift
variable (lower)

theorem siftUp_goesUp (heap : Vector T n) (i : Fin n) :
    GoesUp lower (values heap) i (values (siftUp lower heap i)) := by
  induction heap, i using siftUp.induct lower with
  | case1 heap i hpos p hlow ih =>
    have hstep : siftUp lower heap i = siftUp lower (heap.swap i p) p := by
      rw [siftUp, if_pos hpos]
      exact if_pos hlow
    rw [hstep]
    rw [values_swap] at ih
    exact .move (isChild_parent hpos) hlow ih
  | case2 heap i hpos p hlow =>
    have hstep : siftUp lower heap i = heap := by
      rw [siftUp, if_pos hpos]
      exact if_neg hlow
    rw [hstep]
    refine .stay fun q hq => ?_
    have hqp : q = p := Fin.ext (hq.unique (isChild_parent hpos))
    rw [hqp]
    exact hlow
  | case3 heap i hpos =>
    rw [siftUp, if_neg hpos]
    exact .stay fun q hq => absurd (Nat.zero_lt_of_lt hq.lt) hpos

theorem siftDownTo_goesDown [IsStrictWeakOrder T lower] {stop : ℕ} (hstop : stop ≤ n)
    (heap : Vector T n) (i : Fin n) :
    GoesDown lower stop (values heap) i (values (siftDownTo lower hstop heap i)) := by
  induction heap, i using siftDownTo.induct lower hstop with
  | case1 heap i best hbest =>
    rw [siftDownTo, if_pos hbest]
    exact .stay fun c hc hlt => not_lower_best hbest hc hlt
  | case2 heap i best hbest ih =>
    obtain ⟨hc, hlt⟩ := (best_cases hstop heap i rfl).resolve_left hbest
    rw [siftDownTo, if_neg hbest]
    rw [values_swap] at ih
    exact .move hc hlt (best_rank rfl hbest) (fun s hs hlts => not_lower_best rfl hs hlts) ih

end Sift

section Build
variable [IsStrictWeakOrder T lower] {stop : ℕ} {hstop : stop ≤ n}

theorem siftDownBelow_rearranges (heap : Vector T n) {k : ℕ} (hk : k ≤ n) (hks : k ≤ stop) :
    Rearranges stop (values heap) (values (siftDownBelow lower hstop k hk heap)) := by
  induction k generalizing heap with
  | zero => exact .refl stop _
  | succ k ih =>
    have hdown := siftDownTo_goesDown lower hstop heap ⟨k, hk⟩
    exact (hdown.rearranges hks).trans (ih _ _ (Nat.le_of_succ_le hks))

/-- The trees are put in order from the last to the first. -/
theorem siftDownBelow_ordered {heap : Vector T n} {k : ℕ} (hk : k ≤ n)
    (h : Ordered lower (values heap) k stop) :
    Ordered lower (values (siftDownBelow lower hstop k hk heap)) 0 stop := by
  induction k generalizing heap with
  | zero => exact h
  | succ k ih =>
    have hdown := siftDownTo_goesDown lower hstop heap ⟨k, hk⟩
    exact ih _ (hdown.ordered (Ordered.of_succ (i := ⟨k, hk⟩) h) le_rfl)

end Build

end HftExercises.Heaps
