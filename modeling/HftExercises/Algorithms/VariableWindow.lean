import HftExercises.Core.ListFacts
import Mathlib.Algebra.BigOperators.Group.List.Basic
import Mathlib.Algebra.Order.Group.Unbundled.Int
import Mathlib.Algebra.Ring.Int.Defs
import Mathlib.Data.List.Range
import Mathlib.Data.Set.Basic
import Mathlib.Order.Bounds.Defs

/-! # The shortest window with a large enough sum

The left end is moved on as long as the sum is large enough. An end that has been left behind
started a window no later one of it is shorter than. The sum is a signed word: `none` is its
overflow, and a read outside of the vector.
-/
namespace HftExercises.SlidingWindow

/-- The result of `std::int64_t` arithmetic. -/
def int64 (x : ℤ) : Option ℤ := if -2 ^ 63 ≤ x ∧ x < 2 ^ 63 then some x else none

/-- `right - left + 1`, unless `left` has passed `right + 1`. -/
def spanLength (left right : ℕ) : Option ℕ :=
  if left ≤ right + 1 then some (right + 1 - left) else none

structure Window where
  left : ℕ
  run : ℤ
  best : ℕ

/-- `while (run >= target)` -/
def shrink (values : List Int32) (target : ℤ) (right : ℕ) (w : Window) : Option Window :=
  if target ≤ w.run then do
    let length ← spanLength w.left right
    let x ← values[w.left]?
    let run ← int64 (w.run - x.toInt)
    let next : Window := ⟨w.left + 1, run, min w.best length⟩
    if right < w.left + 1 then return next else shrink values target right next
  else return w
termination_by right + 1 - w.left
decreasing_by
  omega

/-- One round of `for (right = 0; right < values.size(); ++right)`. -/
def sumRound (values : List Int32) (target : ℤ) (w : Window) (right : ℕ) : Option Window := do
  let x ← values[right]?
  let run ← int64 (w.run + x.toInt)
  shrink values target right { w with run := run }

def minSubarrayLen (values : List Int32) (target : Int64) : Option ℕ := do
  let w ← (List.range values.length).foldlM (sumRound values target.toInt)
    ⟨0, 0, values.length + 1⟩
  return if values.length < w.best then 0 else w.best

/-! ## Sums of windows -/

variable {values : List Int32} {target : ℤ} {l r right : ℕ} {w : Window}

/-- The sum of the elements before an index. -/
def before (values : List Int32) (r : ℕ) : ℤ := ((values.take r).map Int32.toInt).sum

theorem before_succ (h : r < values.length) :
    before values (r + 1) = before values r + values[r].toInt := by
  rw [before, List.take_succ_eq_append_getElem h, List.map_append, List.sum_append]
  simp [before]

theorem before_mono (hnonneg : ∀ x ∈ values, 0 ≤ x.toInt) (h : l ≤ r) :
    before values l ≤ before values r := by
  induction r, h using Nat.le_induction with
  | base => exact Int.le_refl _
  | succ r _ ih =>
    by_cases hr : r < values.length
    · rw [before_succ hr]
      have hx := hnonneg _ (List.getElem_mem hr)
      omega
    · have htake : values.take (r + 1) = values.take r := by
        rw [List.take_of_length_le (by omega), List.take_of_length_le (by omega)]
      exact ih.trans_eq (congrArg (fun p => (p.map Int32.toInt).sum) htake.symm)

theorem sum_slice (h : l ≤ r) :
    ((slice values l r).map Int32.toInt).sum = before values r - before values l := by
  have hsplit : before values r = before values l + ((slice values l r).map Int32.toInt).sum := by
    have htake : (values.take r).take l = values.take l := by
      rw [List.take_take, Nat.min_eq_left h]
    rw [slice, before, before, ← htake, ← List.sum_append, ← List.map_append, List.take_append_drop]
  omega

/-! ## The loop -/

/-- What holds of the ends up to `r`: the windows that end before it, or start before the left
end, have been measured. -/
structure Window.Measured (values : List Int32) (target : ℤ) (r : ℕ) (w : Window) : Prop where
  le : w.left ≤ r
  run : w.run = before values r - before values w.left
  fits : w.run < 2 ^ 63
  abandoned : ∀ l < w.left, target ≤ before values r - before values l
  optimal : ∀ l r', l < r' → r' < r ∨ r' = r ∧ l < w.left →
    target ≤ before values r' - before values l → w.best + l ≤ r'
  attained : w.best = values.length + 1 ∨ ∃ l r', l < r' ∧ r' ≤ r ∧
    target ≤ before values r' - before values l ∧ w.best + l = r'

/-- After a round the window is too small, or empty. -/
def Window.Shrunk (values : List Int32) (target : ℤ) (r : ℕ) (w : Window) : Prop :=
  w.Measured values target r ∧ (w.run < target ∨ w.left = r)

theorem Window.Shrunk.best_le (h : w.Shrunk values target r) (hl : l < right) (hr : right ≤ r)
    (hsum : target ≤ before values right - before values l)
    (hnonneg : ∀ x ∈ values, 0 ≤ x.toInt) : w.best + l ≤ right := by
  obtain ⟨hmeasured, hsmall⟩ := h
  apply hmeasured.optimal l right hl _ hsum
  by_cases heq : right = r
  · refine .inr ⟨heq, Nat.lt_of_not_le fun hle => ?_⟩
    rw [heq] at hl hsum
    have hmono := before_mono hnonneg hle
    have hrun := hmeasured.run
    omega
  · omega

theorem int64_of_le {x : ℤ} (h0 : 0 ≤ x) (h : x < 2 ^ 63) : int64 x = some x :=
  if_pos ⟨by omega, h⟩

/-- The window from the left end qualifies: it is measured and its first element taken off. -/
theorem Window.Measured.advance (h : w.Measured values target (right + 1))
    (hnonneg : ∀ x ∈ values, 0 ≤ x.toInt) (hright : right < values.length) (hleft : w.left ≤ right)
    (hsum : target ≤ w.run) :
    ∃ x run, values[w.left]? = some x ∧ int64 (w.run - x.toInt) = some run ∧
      Window.Measured values target (right + 1)
        ⟨w.left + 1, run, min w.best (right + 1 - w.left)⟩ := by
  have hlt : w.left < values.length := by omega
  have hx := hnonneg _ (List.getElem_mem hlt)
  have hrun : w.run - values[w.left].toInt =
      before values (right + 1) - before values (w.left + 1) := by
    rw [h.run, before_succ hlt]
    omega
  have hmono : before values (w.left + 1) ≤ before values (right + 1) :=
    before_mono hnonneg (Nat.succ_le_succ hleft)
  have hfits : w.run - values[w.left].toInt < 2 ^ 63 := (Int.sub_le_self _ hx).trans_lt h.fits
  have hreach : target ≤ before values (right + 1) - before values w.left := hsum.trans_eq h.run
  refine ⟨_, _, List.getElem?_eq_getElem hlt, int64_of_le (by omega) hfits,
    Nat.succ_le_succ hleft, hrun, hfits, fun l hl => ?_, fun l r' hlr hcase hother => ?_, ?_⟩
  · rcases Nat.lt_succ_iff_lt_or_eq.mp hl with hl | rfl
    · exact h.abandoned l hl
    · exact hreach
  · change min w.best (right + 1 - w.left) + l ≤ r'
    by_cases hthis : r' = right + 1 ∧ l = w.left
    · have hmin := Nat.min_le_right w.best (right + 1 - w.left)
      omega
    · have hbefore : r' < right + 1 ∨ r' = right + 1 ∧ l < w.left := by
        change r' < right + 1 ∨ r' = right + 1 ∧ l < w.left + 1 at hcase
        omega
      have hold := h.optimal l r' hlr hbefore hother
      exact (Nat.add_le_add_right (Nat.min_le_left _ _) l).trans hold
  · change min w.best (right + 1 - w.left) = values.length + 1 ∨ ∃ l r', l < r' ∧ r' ≤ right + 1 ∧
      target ≤ before values r' - before values l ∧ min w.best (right + 1 - w.left) + l = r'
    rcases Nat.le_total w.best (right + 1 - w.left) with hle | hle
    · rw [Nat.min_eq_left hle]
      exact h.attained
    · rw [Nat.min_eq_right hle]
      exact .inr ⟨w.left, right + 1, by omega, Nat.le_refl _, hreach, by omega⟩

theorem shrink_spec (h : w.Measured values target (right + 1))
    (hnonneg : ∀ x ∈ values, 0 ≤ x.toInt) (hright : right < values.length) (hleft : w.left ≤ right) :
    ∃ w', shrink values target right w = some w' ∧ w'.Shrunk values target (right + 1) := by
  induction w using shrink.induct target right with
  | case1 w hsum ih =>
    obtain ⟨x, run, hx, hrun, hnext⟩ := h.advance hnonneg hright hleft hsum
    have hlength : spanLength w.left right = some (right + 1 - w.left) := if_pos (by omega)
    by_cases hpassed : right < w.left + 1
    · refine ⟨_, ?_, hnext, .inr (Nat.le_antisymm hnext.le hpassed)⟩
      rw [shrink]
      simp [hsum, hlength, hx, hrun, hpassed]
    · obtain ⟨w', hw', hshrunk⟩ := ih _ _ hpassed hnext (Nat.le_of_not_lt hpassed)
      refine ⟨w', ?_, hshrunk⟩
      rw [shrink]
      simpa [hsum, hlength, hx, hrun, hpassed] using hw'
  | case2 w hsum =>
    refine ⟨w, ?_, h, .inl (Int.lt_of_not_ge hsum)⟩
    rw [shrink, if_neg hsum]
    rfl

/-- What a round adds before it moves the left end. -/
theorem Window.Shrunk.grow (h : w.Shrunk values target right)
    (hnonneg : ∀ x ∈ values, 0 ≤ x.toInt)
    (hfits : before values (right + 1) - before values w.left < 2 ^ 63) :
    Window.Measured values target (right + 1)
      { w with run := before values (right + 1) - before values w.left } := by
  have hmono : before values right ≤ before values (right + 1) :=
    before_mono hnonneg right.le_succ
  have hmeasured := h.1
  refine ⟨hmeasured.le.trans right.le_succ, rfl, hfits, fun l hl => ?_, ?_, ?_⟩
  · have habandoned := hmeasured.abandoned l hl
    omega
  · rintro l r' hlr (hr' | ⟨rfl, hl⟩) hreach
    · exact h.best_le hlr (Nat.le_of_lt_succ hr') hreach hnonneg
    · have hold := hmeasured.optimal l right (hl.trans_le hmeasured.le) (.inr ⟨rfl, hl⟩)
        (hmeasured.abandoned l hl)
      exact hold.trans right.le_succ
  · apply hmeasured.attained.imp_right
    rintro ⟨l, r', hlr, hr', hreach⟩
    exact ⟨l, r', hlr, hr'.trans right.le_succ, hreach⟩

theorem sumRound_spec (h : w.Shrunk values target right) (hnonneg : ∀ x ∈ values, 0 ≤ x.toInt)
    (hright : right < values.length) :
    if before values (right + 1) - before values w.left < 2 ^ 63 then
      ∃ w', sumRound values target w right = some w' ∧ w'.Shrunk values target (right + 1)
    else sumRound values target w right = none := by
  have hx : values[right]? = some values[right] := List.getElem?_eq_getElem hright
  have hmono : before values w.left ≤ before values (right + 1) :=
    before_mono hnonneg (h.1.le.trans right.le_succ)
  have hrun : w.run + values[right].toInt = before values (right + 1) - before values w.left := by
    rw [h.1.run, before_succ hright]
    omega
  split_ifs with hfits
  · obtain ⟨w', hw', hshrunk⟩ := shrink_spec (h.grow hnonneg hfits) hnonneg hright h.1.le
    refine ⟨w', ?_, hshrunk⟩
    rw [sumRound, hx, Option.bind_eq_bind, Option.bind_some, hrun,
      int64_of_le (by omega) hfits]
    exact hw'
  · have hoverflow : int64 (w.run + values[right].toInt) = none := by
      rw [hrun]
      exact if_neg fun hin => hfits hin.2
    rw [sumRound, hx, Option.bind_eq_bind, Option.bind_some, hoverflow]
    rfl

/-! ## Whole runs -/

/-- No sum that a window ending before `r` below the target grows to overflows. -/
def FitsBelow (values : List Int32) (target : ℤ) (r : ℕ) : Prop :=
  ∀ l right, l ≤ right → right < r → before values right - before values l < target →
    before values (right + 1) - before values l < 2 ^ 63

theorem fitsBelow_succ : FitsBelow values target (r + 1) ↔ FitsBelow values target r ∧
    ∀ l ≤ r, before values r - before values l < target →
      before values (r + 1) - before values l < 2 ^ 63 := by
  constructor
  · intro h
    exact ⟨fun l right hl hr => h l right hl (hr.trans r.lt_succ_self),
      fun l hl => h l r hl r.lt_succ_self⟩
  · rintro ⟨hbelow, hlast⟩ l right hl hr
    rcases Nat.lt_succ_iff_lt_or_eq.mp hr with hr | rfl
    · exact hbelow l right hl hr
    · exact hlast l hl

/-- Of the windows that are too small the one of the code has the largest sum. -/
theorem Window.Shrunk.fits_iff (h : w.Shrunk values target r)
    (hnonneg : ∀ x ∈ values, 0 ≤ x.toInt) (hr : r < values.length) :
    before values (r + 1) - before values w.left < 2 ^ 63 ↔
      ∀ l ≤ r, before values r - before values l < target →
        before values (r + 1) - before values l < 2 ^ 63 := by
  obtain ⟨hmeasured, hsmall⟩ := h
  constructor
  · intro hfits l hl hbelow
    have hleft : w.left ≤ l := by
      by_contra hlt
      have habandoned := hmeasured.abandoned l (Nat.lt_of_not_le hlt)
      omega
    have hmono := before_mono hnonneg hleft
    omega
  · intro hall
    rcases hsmall with hsmall | hempty
    · exact hall w.left hmeasured.le (hmeasured.run ▸ hsmall)
    · have hx := (values[r]).toInt_lt
      rw [hempty, before_succ hr]
      omega

/-- The loop ends when no sum overflows, and else it overflows. -/
theorem sumRounds_spec (target : ℤ) (hnonneg : ∀ x ∈ values, 0 ≤ x.toInt) (hr : r ≤ values.length) :
    (FitsBelow values target r → ∃ w, (List.range r).foldlM (sumRound values target)
      ⟨0, 0, values.length + 1⟩ = some w ∧ w.Shrunk values target r) ∧
    (¬FitsBelow values target r → (List.range r).foldlM (sumRound values target)
      ⟨0, 0, values.length + 1⟩ = none) := by
  induction r with
  | zero =>
    refine ⟨fun _ => ⟨_, rfl, ⟨Nat.le_refl 0, by simp, by simp, by simp, by omega, .inl rfl⟩,
      .inr rfl⟩, fun h => absurd ?_ h⟩
    intro l right _ hr
    exact absurd hr (Nat.not_lt_zero right)
  | succ r ih =>
    obtain ⟨ihfits, ihnot⟩ := ih (Nat.le_of_succ_le hr)
    rw [List.range_succ, List.foldlM_append, fitsBelow_succ]
    by_cases hbelow : FitsBelow values target r
    · obtain ⟨w, hw, hshrunk⟩ := ihfits hbelow
      have hround := sumRound_spec hshrunk hnonneg hr
      rw [← hshrunk.fits_iff hnonneg hr, hw]
      split_ifs at hround with hfits
      · obtain ⟨w', hw', hshrunk'⟩ := hround
        refine ⟨fun _ => ⟨w', by simp [hw'], hshrunk'⟩, fun h => absurd ⟨hbelow, hfits⟩ h⟩
      · exact ⟨fun h => absurd h.2 hfits, fun _ => by simp [hround]⟩
    · rw [ihnot hbelow]
      exact ⟨fun h => absurd h.1 hbelow, fun _ => rfl⟩

/-! ## The shortest window -/

/-- The lengths of the nonempty spans with a sum of at least the target. -/
def reaching (values : List Int32) (target : ℤ) : Set ℕ :=
  {n | ∃ span, span <:+: values ∧ span ≠ [] ∧ target ≤ (span.map Int32.toInt).sum ∧
    span.length = n}

/-- No span with a sum below the target reaches a sum of `2 ^ 63` with its next element. -/
def SumsFit (values : List Int32) (target : ℤ) : Prop :=
  ∀ span x, span ++ [x] <:+: values → (span.map Int32.toInt).sum < target →
    ((span ++ [x]).map Int32.toInt).sum < 2 ^ 63

theorem mem_reaching {n : ℕ} : n ∈ reaching values target ↔ ∃ l right, l < right ∧
    right ≤ values.length ∧ target ≤ before values right - before values l ∧ n + l = right := by
  constructor
  · rintro ⟨span, hspan, hne, hsum, rfl⟩
    obtain ⟨l, right, hl, hright, rfl⟩ := infix_iff_slice.mp hspan
    have hpos := List.length_pos_iff.mpr hne
    rw [length_slice hright] at hpos ⊢
    rw [sum_slice hl] at hsum
    exact ⟨l, right, by omega, hright, hsum, by omega⟩
  · rintro ⟨l, right, hl, hright, hsum, hn⟩
    refine ⟨slice values l right, infix_iff_slice.mpr ⟨l, right, hl.le, hright, rfl⟩,
      List.ne_nil_of_length_pos ?_, ?_, ?_⟩
    · rw [length_slice hright]
      omega
    · rw [sum_slice hl.le]
      exact hsum
    · rw [length_slice hright]
      omega

theorem sumsFit_iff : SumsFit values target ↔ FitsBelow values target values.length := by
  constructor
  · intro h l right hl hright hsum
    have hconcat := slice_concat hl hright
    have hinfix : slice values l right ++ [values[right]] <:+: values := by
      rw [← hconcat]
      exact infix_iff_slice.mpr ⟨l, right + 1, by omega, hright, rfl⟩
    have hlast := h _ _ hinfix (by rwa [sum_slice hl])
    rwa [← hconcat, sum_slice (by omega)] at hlast
  · intro h span x hspan hsum
    obtain ⟨l, right, hl, hright, heq⟩ := infix_iff_slice.mp hspan
    have hlen := congrArg List.length heq
    rw [length_slice hright, List.length_append, List.length_singleton] at hlen
    obtain ⟨right, rfl⟩ : ∃ r, right = r + 1 := ⟨right - 1, by omega⟩
    rw [heq, sum_slice hl]
    rw [slice_concat (by omega) hright] at heq
    rw [(List.append_inj' heq rfl).1, sum_slice (by omega)] at hsum
    exact h l right (by omega) hright hsum

/-- On every vector without negative elements and for every target the code returns the length
of a shortest span that reaches the target, and 0 when there is none, unless a sum overflows. -/
theorem minSubarrayLen_iff (hnonneg : ∀ x ∈ values, 0 ≤ x.toInt) (target : Int64) :
    (∃ len, minSubarrayLen values target = some len ∧ (IsLeast (reaching values target.toInt) len ∨
      reaching values target.toInt = ∅ ∧ len = 0)) ↔ SumsFit values target.toInt := by
  obtain ⟨hfits, hnot⟩ := sumRounds_spec target.toInt hnonneg (Nat.le_refl _)
  rw [sumsFit_iff]
  constructor
  · rintro ⟨len, hlen, -⟩
    by_contra hoverflow
    rw [minSubarrayLen, hnot hoverflow] at hlen
    cases hlen
  · intro h
    obtain ⟨w, hw, hshrunk⟩ := hfits h
    refine ⟨_, by rw [minSubarrayLen, hw]; rfl, ?_⟩
    have hlower : w.best ∈ lowerBounds (reaching values target.toInt) := by
      intro n hn
      obtain ⟨l, right, hl, hright, hsum, hlen⟩ := mem_reaching.mp hn
      have hbest := hshrunk.best_le hl hright hsum hnonneg
      omega
    split_ifs with hbest
    · refine .inr ⟨Set.eq_empty_of_forall_notMem fun n hn => ?_, rfl⟩
      have hle := hlower hn
      obtain ⟨l, right, hl, hright, -, hlen⟩ := mem_reaching.mp hn
      omega
    · rcases hshrunk.1.attained with hnone | ⟨l, right, hl, hright, hsum, hlen⟩
      · omega
      · exact .inl ⟨mem_reaching.mpr ⟨l, right, hl, hright, hsum, hlen⟩, hlower⟩

end HftExercises.SlidingWindow
