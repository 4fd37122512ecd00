import HftExercises.Algorithms.VariableWindow
import HftExercises.Core.Execution
import Mathlib.Data.Finset.Card
import Mathlib.Order.MinMax

/-! # The longest window with few distinct values

The counts are those of the window, and `distinct` is how many are not zero. An end that has
been left behind starts no window that ends later and has as few distinct values. `none` is a
count below zero, and a read outside of the vector.
-/
namespace HftExercises.SlidingWindow

/-- `--n` of a `std::size_t`. -/
def decrement : ℕ → Option ℕ
  | 0 => none
  | n + 1 => some n

structure Counting where
  counts : Int32 → ℕ
  left : ℕ
  distinct : ℕ
  best : ℕ

/-- `while (distinct > k)` -/
def dropLeft (values : List Int32) (k : ℕ) (w : Counting) : Option Counting :=
  if k < w.distinct then
    if h : w.left < values.length then do
      let count ← decrement (w.counts values[w.left])
      let distinct ← (if count = 0 then decrement w.distinct else some w.distinct)
      dropLeft values k
        ⟨Function.update w.counts values[w.left] count, w.left + 1, distinct, w.best⟩
    else none
  else some w
termination_by values.length - w.left

/-- One round of `for (right = 0; right < values.size(); ++right)`. -/
def distinctRound (values : List Int32) (k : ℕ) (w : Counting) (right : ℕ) : Option Counting := do
  let x ← values[right]?
  let distinct := if w.counts x = 0 then w.distinct + 1 else w.distinct
  let w ← dropLeft values k
    { w with counts := Function.update w.counts x (w.counts x + 1), distinct := distinct }
  let length ← spanLength w.left right
  return { w with best := max w.best length }

def longestDistinctRun (values : List Int32) (k : ℕ) : Option ℕ :=
  if k = 0 then some 0
  else ((List.range values.length).foldlM (distinctRound values k) ⟨fun _ => 0, 0, 0, 0⟩).map
    Counting.best

/-! ## Counts -/

variable {values span : List Int32} {k l r right : ℕ} {w : Counting} {x : Int32}

/-- The distinct values of a span. -/
def distinctOf (span : List Int32) : ℕ := span.toFinset.card

theorem distinctOf_cons : distinctOf (x :: span) =
    if span.count x = 0 then distinctOf span + 1 else distinctOf span := by
  rw [distinctOf, List.toFinset_cons]
  split_ifs with h
  · exact Finset.card_insert_of_notMem (by simpa using List.count_eq_zero.mp h)
  · have hmem := List.mem_toFinset.mpr (List.count_pos_iff.mp (Nat.pos_of_ne_zero h))
    rw [Finset.insert_eq_of_mem hmem]
    rfl

theorem distinctOf_concat : distinctOf (span ++ [x]) =
    if span.count x = 0 then distinctOf span + 1 else distinctOf span := by
  rw [← distinctOf_cons]
  exact congrArg Finset.card (List.toFinset_eq_of_perm _ _ (List.perm_append_singleton x span))

theorem distinctOf_mono {other : List Int32} (h : span ⊆ other) :
    distinctOf span ≤ distinctOf other :=
  Finset.card_le_card fun _ hy => List.mem_toFinset.mpr (h (List.mem_toFinset.mp hy))

/-- The counts of a span with one more element. -/
theorem update_count (span : List Int32) (x : Int32) :
    Function.update (fun y => span.count y) x (span.count x + 1) = fun y => (x :: span).count y := by
  funext y
  by_cases h : y = x
  · rw [h, Function.update_self, List.count_cons_self]
  · rw [Function.update_of_ne h, List.count_cons_of_ne (Ne.symm h)]

/-! ## The loop -/

/-- The window up to `r` is counted, and from an abandoned end on there are too many values. -/
structure Counting.Holds (values : List Int32) (k r : ℕ) (w : Counting) : Prop where
  le : w.left ≤ r
  counts : w.counts = fun y => (slice values w.left r).count y
  distinct : w.distinct = distinctOf (slice values w.left r)
  abandoned : ∀ l < w.left, k < distinctOf (slice values l r)

/-- One more element at the right end. -/
theorem Counting.Holds.grow (h : w.Holds values k right) (hright : right < values.length) :
    Counting.Holds values k (right + 1) ⟨Function.update w.counts values[right]
      (w.counts values[right] + 1), w.left,
      if w.counts values[right] = 0 then w.distinct + 1 else w.distinct, w.best⟩ := by
  have hslice := slice_concat h.le hright
  refine ⟨h.le.trans right.le_succ, ?_, ?_, fun l hl => ?_⟩
  · change Function.update w.counts values[right] _ = fun y => (slice values w.left (right + 1)).count y
    rw [h.counts, update_count, hslice]
    funext y
    exact (List.perm_append_singleton _ _).symm.count_eq y
  · change _ = distinctOf (slice values w.left (right + 1))
    rw [hslice, distinctOf_concat, h.counts, h.distinct]
  · rw [slice_concat (hl.le.trans h.le) hright]
    exact (h.abandoned l hl).trans_le (distinctOf_mono (List.subset_append_left _ _))

/-- With too many values the window is not empty, and its first element is counted. -/
theorem Counting.Holds.drop (h : w.Holds values k r) (hr : r ≤ values.length)
    (hmany : k < w.distinct) : ∃ hleft : w.left < values.length, ∃ count distinct,
      decrement (w.counts values[w.left]) = some count ∧
      (if count = 0 then decrement w.distinct else some w.distinct) = some distinct ∧
      Counting.Holds values k r
        ⟨Function.update w.counts values[w.left] count, w.left + 1, distinct, w.best⟩ := by
  have hlt : w.left < r := by
    apply Nat.lt_of_le_of_ne h.le
    intro heq
    rw [h.distinct, heq, slice_self] at hmany
    exact Nat.not_lt_zero k hmany
  have hleft : w.left < values.length := hlt.trans_le hr
  have hslice := slice_cons hlt hleft
  let rest := slice values (w.left + 1) r
  have hcounts : w.counts = fun y => (values[w.left] :: rest).count y := by
    rw [h.counts, hslice]
  have hdistinct : w.distinct =
      if rest.count values[w.left] = 0 then distinctOf rest + 1 else distinctOf rest := by
    rw [h.distinct, hslice, distinctOf_cons]
  refine ⟨hleft, rest.count values[w.left], distinctOf rest, ?_, ?_, hlt, ?_, rfl, fun l hl => ?_⟩
  · rw [hcounts]
    change decrement ((values[w.left] :: rest).count values[w.left]) = _
    rw [List.count_cons_self]
    rfl
  · rw [hdistinct]
    split_ifs
    · rfl
    · rfl
  · change Function.update w.counts values[w.left] _ = fun y => rest.count y
    rw [hcounts, ← update_count, Function.update_idem]
    exact Function.update_eq_self _ _
  · rcases Nat.lt_succ_iff_lt_or_eq.mp hl with hl | rfl
    · exact h.abandoned l hl
    · rw [← h.distinct]
      exact hmany

theorem dropLeft_spec (h : w.Holds values k r) (hr : r ≤ values.length) :
    ∃ w', dropLeft values k w = some w' ∧ w'.Holds values k r ∧ w'.distinct ≤ k ∧
      w'.best = w.best := by
  induction w using dropLeft.induct values k with
  | case1 w hmany hlt ih =>
    obtain ⟨hleft, count, distinct, hcount, hdistinct, hnext⟩ := h.drop hr hmany
    obtain ⟨w', hw', hrest⟩ := ih count distinct hnext
    refine ⟨w', ?_, hrest⟩
    rw [dropLeft, if_pos hmany, dif_pos hlt, hcount, Option.bind_eq_bind, Option.bind_some, hdistinct]
    exact hw'
  | case2 w hmany hnot =>
    obtain ⟨hleft, -⟩ := h.drop hr hmany
    exact absurd hleft hnot
  | case3 w hfew =>
    refine ⟨w, ?_, h, Nat.le_of_not_lt hfew, rfl⟩
    rw [dropLeft, if_neg hfew]

/-- Of the spans that end up to `r` the best one is the longest. -/
structure BestUpTo (values : List Int32) (k r best : ℕ) : Prop where
  optimal : ∀ l right, l ≤ right → right ≤ r → distinctOf (slice values l right) ≤ k →
    right ≤ l + best
  attained : ∃ l right, l ≤ right ∧ right ≤ r ∧ distinctOf (slice values l right) ≤ k ∧
    right = l + best

theorem distinctRound_spec (h : w.Holds values k right) (hbest : BestUpTo values k right w.best)
    (hright : right < values.length) : ∃ w', distinctRound values k w right = some w' ∧
      w'.Holds values k (right + 1) ∧ BestUpTo values k (right + 1) w'.best := by
  obtain ⟨w', hw', hholds, hfew, hsame⟩ := dropLeft_spec (h.grow hright) hright
  change w'.best = w.best at hsame
  have hlength : spanLength w'.left right = some (right + 1 - w'.left) := if_pos hholds.le
  refine ⟨{ w' with best := max w.best (right + 1 - w'.left) }, ?_,
    ⟨hholds.le, hholds.counts, hholds.distinct, hholds.abandoned⟩, fun l r hl hr hspan => ?_, ?_⟩
  · rw [distinctRound, List.getElem?_eq_getElem hright]
    simp [hw', hlength, hsame]
  · have hmax := Nat.le_max_left w.best (right + 1 - w'.left)
    have hmax' := Nat.le_max_right w.best (right + 1 - w'.left)
    change r ≤ l + max w.best (right + 1 - w'.left)
    rcases Nat.lt_succ_iff_lt_or_eq.mp (Nat.lt_succ_of_le hr) with hr | rfl
    · have hold := hbest.optimal l r hl (Nat.le_of_lt_succ hr) hspan
      omega
    · have hleft : w'.left ≤ l := by
        by_contra hlt
        exact absurd hspan (Nat.not_le_of_lt (hholds.abandoned l (Nat.lt_of_not_le hlt)))
      omega
  · change ∃ l r, l ≤ r ∧ r ≤ right + 1 ∧ distinctOf (slice values l r) ≤ k ∧
      r = l + max w.best (right + 1 - w'.left)
    rcases Nat.le_total w.best (right + 1 - w'.left) with hle | hle
    · have hspan : distinctOf (slice values w'.left (right + 1)) ≤ k := hholds.distinct ▸ hfew
      rw [Nat.max_eq_right hle]
      exact ⟨w'.left, right + 1, hholds.le, Nat.le_refl _, hspan,
        (Nat.add_sub_cancel' hholds.le).symm⟩
    · obtain ⟨l, r, hl, hr, hspan, hlen⟩ := hbest.attained
      rw [Nat.max_eq_left hle]
      exact ⟨l, r, hl, hr.trans right.le_succ, hspan, hlen⟩

theorem distinctRounds_spec (values : List Int32) (k : ℕ) : ∃ w,
    (List.range values.length).foldlM (distinctRound values k) ⟨fun _ => 0, 0, 0, 0⟩ = some w ∧
      BestUpTo values k values.length w.best := by
  have hinit : Counting.Holds values k 0 ⟨fun _ => 0, 0, 0, 0⟩ ∧ BestUpTo values k 0 0 := by
    refine ⟨⟨Nat.le_refl 0, ?_, rfl, by simp⟩, fun l right hl hr _ => by omega,
      0, 0, Nat.le_refl 0, Nat.le_refl 0, Nat.zero_le k, rfl⟩
    funext y
    rfl
  have hround : ∀ r w, r < values.length → w.Holds values k r ∧ BestUpTo values k r w.best →
      ∃ w', (∀ _ : Unit, distinctRound values k w r = some w') ∧
        w'.Holds values k (r + 1) ∧ BestUpTo values k (r + 1) w'.best := by
    rintro r w hr ⟨hholds, hbest⟩
    obtain ⟨w', hw', hnext⟩ := distinctRound_spec hholds hbest hr
    exact ⟨w', fun _ => hw', hnext⟩
  obtain ⟨w, hw, -, hbest⟩ := foldlM_range (fun _ => distinctRound values k)
    (fun r w => w.Holds values k r ∧ BestUpTo values k r w.best) hround hinit
  exact ⟨w, hw (), hbest⟩

/-! ## The longest span -/

/-- The lengths of the spans with at most `k` distinct values. -/
def fewDistinct (values : List Int32) (k : ℕ) : Set ℕ :=
  {n | ∃ span, span <:+: values ∧ span.toFinset.card ≤ k ∧ span.length = n}

theorem mem_fewDistinct {n : ℕ} : n ∈ fewDistinct values k ↔ ∃ l right, l ≤ right ∧
    right ≤ values.length ∧ distinctOf (slice values l right) ≤ k ∧ right = l + n := by
  constructor
  · rintro ⟨span, hspan, hfew, rfl⟩
    obtain ⟨l, right, hl, hright, rfl⟩ := infix_iff_slice.mp hspan
    rw [length_slice hright]
    exact ⟨l, right, hl, hright, hfew, (Nat.add_sub_cancel' hl).symm⟩
  · rintro ⟨l, right, hl, hright, hfew, rfl⟩
    refine ⟨_, infix_iff_slice.mpr ⟨l, l + n, hl, hright, rfl⟩, hfew, ?_⟩
    rw [length_slice hright, Nat.add_sub_cancel_left]

theorem longestDistinctRun_isGreatest (values : List Int32) (k : ℕ) :
    ∃ len, longestDistinctRun values k = some len ∧ IsGreatest (fewDistinct values k) len := by
  by_cases hk : k = 0
  · refine ⟨0, if_pos hk, ⟨[], List.nil_infix, Nat.zero_le k, rfl⟩, ?_⟩
    rintro n ⟨span, -, hfew, rfl⟩
    rw [hk, Nat.le_zero, Finset.card_eq_zero, List.toFinset_eq_empty_iff] at hfew
    rw [hfew]
    rfl
  · obtain ⟨w, hw, hbest⟩ := distinctRounds_spec values k
    refine ⟨w.best, ?_, mem_fewDistinct.mpr hbest.attained, fun n hn => ?_⟩
    · rw [longestDistinctRun, if_neg hk, hw]
      rfl
    · obtain ⟨l, right, hl, hright, hfew, hlen⟩ := mem_fewDistinct.mp hn
      have hle := hbest.optimal l right hl hright hfew
      omega

/-- The code returns the length of a shortest span that reaches the target, or 0 when no span
does, exactly when no sum below the target overflows with its next element; and always the length
of a longest span with at most `k` distinct values. -/
theorem variableWindows_iff (values : List Int32) (target : Int64) (k : ℕ) :
    ((∀ x ∈ values, 0 ≤ x.toInt) →
      ((∃ len, minSubarrayLen values target = some len ∧
        (IsLeast (reaching values target.toInt) len ∨
          reaching values target.toInt = ∅ ∧ len = 0)) ↔ SumsFit values target.toInt)) ∧
    ∃ len, longestDistinctRun values k = some len ∧ IsGreatest (fewDistinct values k) len :=
  ⟨fun hnonneg => minSubarrayLen_iff hnonneg target, longestDistinctRun_isGreatest values k⟩

theorem sum_replicate (n : ℕ) (x : Int32) :
    ((List.replicate n x).map Int32.toInt).sum = n * x.toInt := by
  rw [List.map_replicate, List.sum_replicate]
  exact Int.nsmul_eq_mul n x.toInt

/-- So many elements that their sum passes from below the target to beyond the word. -/
theorem minSubarrayLen_overflows :
    (∀ x ∈ List.replicate (2 ^ 32 + 3) Int32.maxValue, 0 ≤ x.toInt) ∧
    ¬∃ len, minSubarrayLen (List.replicate (2 ^ 32 + 3) Int32.maxValue) Int64.maxValue = some len ∧
      (IsLeast (reaching (List.replicate (2 ^ 32 + 3) Int32.maxValue) Int64.maxValue.toInt) len ∨
        reaching (List.replicate (2 ^ 32 + 3) Int32.maxValue) Int64.maxValue.toInt = ∅ ∧
          len = 0) := by
  have hmax : Int32.maxValue.toInt = 2147483647 := by decide
  have hnonneg : ∀ x ∈ List.replicate (2 ^ 32 + 3) Int32.maxValue, 0 ≤ x.toInt := by
    intro x hx
    rw [List.eq_of_mem_replicate hx, hmax]
    decide
  refine ⟨hnonneg, fun h => ?_⟩
  have hfit := (minSubarrayLen_iff hnonneg Int64.maxValue).mp h
  have hlast := hfit (List.replicate (2 ^ 32 + 2) Int32.maxValue) Int32.maxValue
    (by rw [← List.replicate_succ']) ?_
  · rw [← List.replicate_succ', sum_replicate, hmax] at hlast
    exact absurd hlast (by decide)
  · rw [sum_replicate, hmax]
    decide

end HftExercises.SlidingWindow
