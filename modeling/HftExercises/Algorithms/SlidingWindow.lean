import HftExercises.Core.Execution
import Mathlib.Algebra.Order.Group.Unbundled.Int
import Mathlib.Data.List.Range

/-! # The maxima of a window

The deque is a list with its back first. It holds the indices of the window that no later
element dominates, so the values grow towards the front.
-/
namespace HftExercises.SlidingWindow

/-- `while (!q.empty() && values[q.back()] <= x) q.pop_back()` -/
def popBackWhile (values : List Int32) (x : Int32) : List ℕ → Option (List ℕ)
  | [] => some []
  | back :: rest => do
    let y ← values[back]?
    if y ≤ x then popBackWhile values x rest else return back :: rest

/-- One round: the deque and the maxima so far. `front` of an empty deque is `none`. -/
def windowRound (values : List Int32) (k : ℕ) (s : List ℕ × List Int32) (i : ℕ) :
    Option (List ℕ × List Int32) := do
  let x ← values[i]?
  let kept ← popBackWhile values x s.1
  let front ← (i :: kept).getLast?
  let q := if front + k ≤ i then (i :: kept).dropLast else i :: kept
  if k ≤ i + 1 then
    let front ← q.getLast?
    let m ← values[front]?
    return (q, s.2 ++ [m])
  else return (q, s.2)

def windowMaximum (values : List Int32) (k : ℕ) : Option (List Int32) :=
  if k = 0 ∨ values.length < k then some []
  else ((List.range values.length).foldlM (windowRound values k) ([], [])).map Prod.snd

/-! ## The deque -/

variable {values : List Int32} {k i : ℕ} {q : List ℕ}

/-- The value at an index, as an integer. -/
def valueAt (values : List Int32) (j : ℕ) : ℤ := (values.getD j 0).toInt

theorem getElem?_eq_some {j : ℕ} (h : j < values.length) :
    ∃ x, values[j]? = some x ∧ x.toInt = valueAt values j := by
  refine ⟨values[j], List.getElem?_eq_getElem h, ?_⟩
  rw [valueAt, List.getD_eq_getElem?_getD, List.getElem?_eq_getElem h, Option.getD_some]

/-- The back holds the latest index and the smallest value. -/
def Monotonic (values : List Int32) (q : List ℕ) : Prop :=
  q.Pairwise fun a b => b < a ∧ valueAt values a < valueAt values b

/-- The deque before round `i`. -/
structure Holds (values : List Int32) (k i : ℕ) (q : List ℕ) : Prop where
  monotonic : Monotonic values q
  within : ∀ j ∈ q, j < i ∧ i ≤ j + k
  dominated : ∀ j < i, i ≤ j + k → ∃ d ∈ q, j ≤ d ∧ valueAt values j ≤ valueAt values d

theorem popBackWhile_spec (x : Int32) (hq : Monotonic values q)
    (hin : ∀ j ∈ q, j < values.length) : ∃ kept, popBackWhile values x q = some kept ∧
      Monotonic values kept ∧ (∀ j ∈ kept, j ∈ q ∧ x.toInt < valueAt values j) ∧
      ∀ j ∈ q, j ∈ kept ∨ valueAt values j ≤ x.toInt := by
  induction q with
  | nil => exact ⟨[], rfl, hq, by simp, by simp⟩
  | cons back rest ih =>
    obtain ⟨hback, hrest⟩ := List.pairwise_cons.mp hq
    obtain ⟨y, hy, hval⟩ := getElem?_eq_some (hin back List.mem_cons_self)
    by_cases hle : y ≤ x
    · have hstep : popBackWhile values x (back :: rest) = popBackWhile values x rest := by
        simp [popBackWhile, hy, hle]
      obtain ⟨kept, hkept, hmono, hmem, hcover⟩ :=
        ih hrest fun j hj => hin j (List.mem_cons_of_mem _ hj)
      refine ⟨kept, hstep.trans hkept, hmono, fun j hj => ?_, fun j hj => ?_⟩
      · exact ⟨List.mem_cons_of_mem _ (hmem j hj).1, (hmem j hj).2⟩
      · rcases List.mem_cons.mp hj with rfl | hj
        · exact .inr (hval ▸ Int32.le_iff_toInt_le.mp hle)
        · exact hcover j hj
    · have hstop : popBackWhile values x (back :: rest) = some (back :: rest) := by
        simp [popBackWhile, hy, hle]
      have hlt : x.toInt < valueAt values back := by
        rw [← hval]
        exact not_le.mp (mt Int32.le_iff_toInt_le.mpr hle)
      refine ⟨back :: rest, hstop, hq, fun j hj => ⟨hj, ?_⟩, fun j hj => .inl hj⟩
      rcases List.mem_cons.mp hj with rfl | hj
      · exact hlt
      · exact hlt.trans (hback j hj).2

theorem Monotonic.exists_front (hq : Monotonic values q) (hne : q ≠ []) :
    ∃ init front, q = init ++ [front] ∧
      ∀ j ∈ init, front < j ∧ valueAt values j < valueAt values front := by
  have hsplit := (List.dropLast_append_getLast hne).symm
  refine ⟨_, _, hsplit, fun j hj => ?_⟩
  rw [Monotonic, hsplit, List.pairwise_append] at hq
  exact hq.2.2 j hj _ (List.mem_singleton_self _)

/-- The element `m` is the largest of the `k` elements from `t` on. -/
def IsWindowMax (values : List Int32) (k t : ℕ) (m : Int32) : Prop :=
  (∃ j, t ≤ j ∧ j < t + k ∧ values[j]? = some m) ∧
    ∀ j x, t ≤ j → j < t + k → values[j]? = some x → x ≤ m

/-- The front of the deque is the maximum of a full window. -/
theorem Holds.front_isWindowMax (h : Holds values k (i + 1) q) (hi : i < values.length)
    (hk : k ≤ i + 1) (hpos : 0 < k) : ∃ front m, q.getLast? = some front ∧
      values[front]? = some m ∧ IsWindowMax values k (i + 1 - k) m := by
  obtain ⟨d, hd, -⟩ := h.dominated i (Nat.lt_succ_self i) (by omega)
  obtain ⟨init, front, rfl, hinit⟩ := h.monotonic.exists_front (List.ne_nil_of_mem hd)
  have hwithin := h.within front (List.mem_append_right _ (List.mem_singleton_self _))
  obtain ⟨m, hm, hval⟩ := getElem?_eq_some (j := front) (hwithin.1.trans_le hi)
  refine ⟨front, m, List.getLast?_concat, hm, ⟨front, by omega, by omega, hm⟩,
    fun j x hj hjk hx => ?_⟩
  have hlt : j < values.length := (List.getElem?_eq_some_iff.mp hx).1
  obtain ⟨y, hy, hvaly⟩ := getElem?_eq_some hlt
  obtain rfl : x = y := Option.some.inj (hx.symm.trans hy)
  obtain ⟨d, hd, -, hle⟩ := h.dominated j (by omega) (by omega)
  rw [Int32.le_iff_toInt_le, hvaly, hval]
  rcases List.mem_append.mp hd with hd | hd
  · exact hle.trans (hinit d hd).2.le
  · rw [List.mem_singleton.mp hd] at hle
    exact hle

/-- Of the indices in the deque at most the front has left the window. -/
theorem Monotonic.expire {init : List ℕ} {front : ℕ} (hq : Monotonic values (init ++ [front]))
    (hold : ∀ j ∈ init ++ [front], j < i + 1 ∧ i ≤ j + k) {q' : List ℕ}
    (hq' : (if front + k ≤ i then init else init ++ [front]) = q') :
    Monotonic values q' ∧ ∀ j, j ∈ q' ↔ j ∈ init ++ [front] ∧ i + 1 ≤ j + k := by
  have hafter : ∀ j ∈ init, front < j :=
    fun j hj => ((List.pairwise_append.mp hq).2.2 j hj front (List.mem_singleton_self _)).1
  have hfront := hold front (List.mem_append_right _ (List.mem_singleton_self _))
  subst hq'
  split_ifs with hexpired
  · refine ⟨(List.pairwise_append.mp hq).1, fun j => ⟨fun hj => ?_, fun hj => ?_⟩⟩
    · have hlt := hafter j hj
      exact ⟨List.mem_append_left _ hj, by omega⟩
    · refine (List.mem_append.mp hj.1).resolve_right fun hlast => ?_
      rw [List.mem_singleton.mp hlast] at hj
      omega
  · refine ⟨hq, fun j => ⟨fun hj => ⟨hj, ?_⟩, And.left⟩⟩
    rcases List.mem_append.mp hj with hj | hj
    · have hlt := hafter j hj
      omega
    · rw [List.mem_singleton.mp hj]
      omega

/-- The new index drops what it dominates. -/
theorem Holds.next (h : Holds values k i q) (hi : i < values.length) (hpos : 0 < k) :
    ∃ x kept front q', values[i]? = some x ∧ popBackWhile values x q = some kept ∧
      (i :: kept).getLast? = some front ∧
      (if front + k ≤ i then (i :: kept).dropLast else i :: kept) = q' ∧
      Holds values k (i + 1) q' := by
  obtain ⟨x, hx, hval⟩ := getElem?_eq_some hi
  obtain ⟨kept, hkept, hmono, hmem, hcover⟩ :=
    popBackWhile_spec x h.monotonic fun j hj => (h.within j hj).1.trans hi
  have hpushed : Monotonic values (i :: kept) := by
    refine List.pairwise_cons.mpr ⟨fun j hj => ?_, hmono⟩
    exact ⟨(h.within j (hmem j hj).1).1, hval ▸ (hmem j hj).2⟩
  have hold : ∀ j ∈ i :: kept, j < i + 1 ∧ i ≤ j + k := by
    intro j hj
    rcases List.mem_cons.mp hj with rfl | hj
    · omega
    · have hbefore := h.within j (hmem j hj).1
      omega
  obtain ⟨init, front, hsplit, -⟩ := hpushed.exists_front (List.cons_ne_nil i kept)
  obtain ⟨q', hq'⟩ : ∃ q', (if front + k ≤ i then init else init ++ [front]) = q' := ⟨_, rfl⟩
  rw [hsplit] at hpushed hold
  obtain ⟨hmono', hmem'⟩ := hpushed.expire hold hq'
  have hkeep : ∀ j ∈ i :: kept, i + 1 ≤ j + k → j ∈ q' :=
    fun j hj hjk => (hmem' j).mpr ⟨hsplit ▸ hj, hjk⟩
  refine ⟨x, kept, front, q', hx, hkept, ?_, ?_, hmono', fun j hj => ?_, fun j hj hjk => ?_⟩
  · rw [hsplit, List.getLast?_concat]
  · rw [hsplit, List.dropLast_concat]
    exact hq'
  · obtain ⟨hj, hjk⟩ := (hmem' j).mp hj
    exact ⟨(hold j hj).1, hjk⟩
  · -- an index that was dominated is so by the same one or by the new one
    have hnew : valueAt values j ≤ x.toInt → ∃ d ∈ q', j ≤ d ∧ valueAt values j ≤ valueAt values d :=
      fun hle => ⟨i, hkeep i List.mem_cons_self (by omega), by omega, hval ▸ hle⟩
    rcases Nat.lt_succ_iff_lt_or_eq.mp hj with hj | rfl
    · obtain ⟨d, hd, hjd, hle⟩ := h.dominated j hj (by omega)
      rcases hcover d hd with hd | hdx
      · exact ⟨d, hkeep d (List.mem_cons_of_mem _ hd) (by omega), hjd, hle⟩
      · exact hnew (hle.trans hdx)
    · exact hnew hval.ge

/-! ## The maxima -/

/-- Before round `i` the maxima of the windows that ended are there. -/
structure Maxima (values : List Int32) (k i : ℕ) (s : List ℕ × List Int32) : Prop where
  deque : Holds values k i s.1
  length : s.2.length = i + 1 - k
  maxima : ∀ t m, s.2[t]? = some m → IsWindowMax values k t m

theorem Maxima.windowRound {s : List ℕ × List Int32} (h : Maxima values k i s)
    (hi : i < values.length) (hpos : 0 < k) :
    ∃ s', windowRound values k s i = some s' ∧ Maxima values k (i + 1) s' := by
  obtain ⟨x, kept, front, q', hx, hkept, hlast, hq', hholds⟩ := h.deque.next hi hpos
  have hlength := h.length
  by_cases hfull : k ≤ i + 1
  · obtain ⟨front', m, hfront, hm, hmax⟩ := hholds.front_isWindowMax hi hfull hpos
    refine ⟨(q', s.2 ++ [m]), ?_, hholds, ?_, fun t m' ht => ?_⟩
    · simp [SlidingWindow.windowRound, hx, hkept, hlast, hq', hfull, hfront, hm]
    · rw [List.length_append, hlength, List.length_singleton]
      omega
    · rw [List.getElem?_append, List.getElem?_singleton] at ht
      split_ifs at ht with hlt hlast
      · exact h.maxima t m' ht
      · obtain rfl : m = m' := Option.some.inj ht
        obtain rfl : t = i + 1 - k := by omega
        exact hmax
  · refine ⟨(q', s.2), ?_, hholds, hlength.trans (by omega), h.maxima⟩
    simp [SlidingWindow.windowRound, hx, hkept, hlast, hq', hfull]

theorem windowRounds_spec (values : List Int32) (hpos : 0 < k) :
    ∃ s, (List.range values.length).foldlM (windowRound values k) ([], []) = some s ∧
      Maxima values k values.length s := by
  have hinit : Maxima values k 0 ([], []) := by
    refine ⟨⟨List.Pairwise.nil, by simp, by simp⟩, ?_, by simp⟩
    change 0 = 0 + 1 - k
    omega
  have hround : ∀ i s, i < values.length → Maxima values k i s →
      ∃ s', (∀ _ : Unit, windowRound values k s i = some s') ∧ Maxima values k (i + 1) s' := by
    intro i s hi h
    obtain ⟨s', hs', hnext⟩ := h.windowRound hi hpos
    exact ⟨s', fun _ => hs', hnext⟩
  obtain ⟨s, hs, hmaxima⟩ := foldlM_range (fun _ => windowRound values k) _ hround hinit
  exact ⟨s, hs (), hmaxima⟩

/-- No read of an empty deque, and in every place the maximum of the window. -/
theorem windowMaximum_spec (values : List Int32) (k : ℕ) :
    (k = 0 ∨ values.length < k → windowMaximum values k = some []) ∧
    (¬(k = 0 ∨ values.length < k) → ∃ out, windowMaximum values k = some out ∧
      out.length = values.length - k + 1 ∧ ∀ t m, out[t]? = some m → IsWindowMax values k t m) := by
  refine ⟨fun h => if_pos h, fun h => ?_⟩
  have hpos : 0 < k := Nat.pos_of_ne_zero fun hk => h (.inl hk)
  obtain ⟨s, hs, hmaxima⟩ := windowRounds_spec values hpos
  refine ⟨s.2, ?_, hmaxima.length.trans (by omega), hmaxima.maxima⟩
  rw [windowMaximum, if_neg h, hs]
  rfl

end HftExercises.SlidingWindow
