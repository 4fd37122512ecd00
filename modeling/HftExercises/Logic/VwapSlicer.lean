import HftExercises.Core.Apportionment
import HftExercises.Core.Execution
import HftExercises.Logic.TwapSlicer
import Mathlib.Algebra.BigOperators.Ring.List
import Mathlib.Algebra.Order.BigOperators.Group.List
import Mathlib.Data.Rat.Floor

/-! # The slicer that follows a volume curve

The shares are rounded down, and each unit that is left goes to the slot with the
largest remainder. The source computes in doubles, here the shares are exact.
-/
namespace HftExercises.Slicing
open Apportionment

structure VwapSlicer where
  totalQty : ℤ
  duration : ℤ
  fractions : List ℚ
  deriving DecidableEq, Repr

/-- The cast of a real number to an integer. -/
def truncate (x : ℚ) : ℤ := x.num.tdiv x.den

def tolerance : ℚ := 1 / 10 ^ 12

/-- The search for the largest remainder, from slot `i` on. -/
def search : List ℚ → ℕ → ℕ × ℚ → ℕ × ℚ
  | [], _, found => found
  | frac :: fracs, i, (best, bestFrac) =>
    search fracs (i + 1) (if frac > bestFrac + tolerance then (i, frac) else (best, bestFrac))

/-- The state of the loop over the leftover. The source does not keep `served`, the
slots that were incremented so far. -/
structure Rounding where
  qty : List ℤ
  leftover : ℤ
  served : List ℕ
  deriving DecidableEq, Repr

def serve (ideal : List ℚ) (r : Rounding) : Rounding :=
  let best := (search (remainders ideal r.qty) 0 (0, -1)).1
  ⟨r.qty.modify best (· + 1), r.leftover - 1, r.served ++ [best]⟩

/-- When the slots end, on the cumulative curve from `cum` on. -/
def sendTimes (duration : ℤ) (sum : ℚ) : ℚ → List ℚ → List ℤ
  | _, [] => []
  | cum, f :: fs =>
    truncate (duration * (cum + f / sum)) :: sendTimes duration sum (cum + f / sum) fs

namespace VwapSlicer

def ideal (s : VwapSlicer) : List ℚ :=
  s.fractions.map fun f => s.totalQty * (f / s.fractions.sum)

def round (s : VwapSlicer) (fuel : ℕ) : Option Rounding :=
  let qty := s.ideal.map truncate
  whileLoop (fun r => decide (r.leftover > 0)) (fun r => some (serve s.ideal r)) fuel
    ⟨qty, s.totalQty - qty.sum, []⟩

def plan (s : VwapSlicer) (fuel : ℕ) : Option (List (Slice ℤ)) :=
  if s.fractions = [] ∨ s.totalQty ≤ 0 then some []
  else if s.fractions.sum ≤ 0 then some []
  else
    (s.round fuel).map fun r =>
      if s.fractions.length = 1 then [⟨s.totalQty, 0⟩]
      else
        (r.qty.zip (sendTimes s.duration s.fractions.sum 0 s.fractions)).map fun c => ⟨c.1, c.2⟩

end VwapSlicer

theorem truncate_of_nonneg {x : ℚ} (h : 0 ≤ x) : truncate x = ⌊x⌋ := by
  rw [truncate, Int.tdiv_eq_ediv_of_nonneg (Rat.num_nonneg.mpr h)]
  exact (Rat.floor_def x).symm

theorem tolerance_pos : 0 < tolerance := by norm_num [tolerance]

/-- What the search returns is within the tolerance of the largest remainder. -/
theorem search_spec (fracs : List ℚ) (i best : ℕ) (bestFrac : ℚ) :
    let found := search fracs i (best, bestFrac)
    bestFrac ≤ found.2 ∧ (∀ x ∈ fracs, x ≤ found.2 + tolerance) ∧
      (found = (best, bestFrac) ∨ ∃ k, fracs[k]? = some found.2 ∧ found.1 = i + k) := by
  induction fracs generalizing i best bestFrac with
  | nil => exact ⟨le_rfl, fun x hx => by simp at hx, .inl rfl⟩
  | cons frac fracs ih =>
    rw [search]
    split_ifs with h
    · obtain ⟨hle, hall, hfound⟩ := ih (i + 1) i frac
      have hhigher : bestFrac ≤ frac := (le_add_of_nonneg_right tolerance_pos.le).trans h.le
      refine ⟨hhigher.trans hle, List.forall_mem_cons.mpr ⟨?_, hall⟩, .inr ?_⟩
      · exact hle.trans (le_add_of_nonneg_right tolerance_pos.le)
      · rcases hfound with hfound | ⟨k, hk, hbest⟩
        · exact ⟨0, by rw [hfound]; rfl, by rw [hfound]; rfl⟩
        · exact ⟨k + 1, hk, by omega⟩
    · obtain ⟨hle, hall, hfound⟩ := ih (i + 1) best bestFrac
      have hlow : frac ≤ bestFrac + tolerance := not_lt.mp h
      refine ⟨hle, List.forall_mem_cons.mpr ⟨hlow.trans (add_le_add_left hle _), hall⟩, ?_⟩
      rcases hfound with hfound | ⟨k, hk, hbest⟩
      · exact .inl hfound
      · exact .inr ⟨k + 1, hk, by omega⟩

/-- With a whole unit to serve among fewer than `10 ^ 12` slots, the search finds a slot
with a remainder. -/
theorem search_remainder {fracs : List ℚ} (hlength : fracs.length < 10 ^ 12)
    (hsum : 1 ≤ fracs.sum) : ∃ m, fracs[(search fracs 0 (0, -1)).1]? = some m ∧ 0 < m := by
  obtain ⟨-, hall, hfound⟩ := search_spec fracs 0 0 (-1)
  obtain ⟨found, hdef⟩ : ∃ found, found = search fracs 0 (0, -1) := ⟨_, rfl⟩
  rw [← hdef] at hall hfound ⊢
  have hshare : 1 ≤ fracs.length * (found.2 + tolerance) := by
    calc 1 ≤ fracs.sum := hsum
      _ ≤ fracs.length • (found.2 + tolerance) := List.sum_le_card_nsmul _ _ hall
      _ = fracs.length * (found.2 + tolerance) := nsmul_eq_mul ..
  have hpos : 0 < found.2 := by
    by_contra hle
    have hsmall : found.2 + tolerance ≤ 1 / 10 ^ 12 := by
      rw [tolerance]
      linarith
    have hcount : (fracs.length : ℚ) < 10 ^ 12 := by exact_mod_cast hlength
    have hless : fracs.length * (found.2 + tolerance) ≤ fracs.length * (1 / 10 ^ 12) :=
      mul_le_mul_of_nonneg_left hsmall (Nat.cast_nonneg _)
    linarith
  rcases hfound with hfound | ⟨k, hk, hbest⟩
  · rw [hfound] at hpos
    exact absurd hpos (by norm_num)
  · rw [Nat.zero_add] at hbest
    exact ⟨found.2, by rw [hbest, hk], hpos⟩

/-- The parent order and the fractions are those of a plan that is not degenerate. -/
structure VwapSlicer.Valid (s : VwapSlicer) : Prop where
  total : 0 < s.totalQty
  duration : 0 ≤ s.duration
  nonneg : ∀ f ∈ s.fractions, 0 ≤ f
  sum : 0 < s.fractions.sum
  short : s.fractions.length < 10 ^ 12

namespace VwapSlicer
variable {s : VwapSlicer}

theorem Valid.ideal_nonneg (hs : s.Valid) : ∀ x ∈ s.ideal, 0 ≤ x := by
  intro x hx
  obtain ⟨f, hf, rfl⟩ := List.mem_map.mp hx
  have htotal : (0 : ℚ) ≤ s.totalQty := Int.cast_nonneg hs.total.le
  exact mul_nonneg htotal (div_nonneg (hs.nonneg f hf) hs.sum.le)

theorem Valid.ideal_sum (hs : s.Valid) : s.ideal.sum = s.totalQty := by
  have hne := hs.sum.ne'
  have hterm : ∀ f : ℚ, s.totalQty * (f / s.fractions.sum) = s.totalQty / s.fractions.sum * f := by
    intro f
    ring
  simp only [ideal, hterm]
  rw [List.sum_map_mul_left, List.map_id', div_mul_cancel₀ _ hne]

theorem ideal_length (s : VwapSlicer) : s.ideal.length = s.fractions.length := List.length_map _

theorem Valid.floors_eq (hs : s.Valid) : s.ideal.map truncate = floors s.ideal :=
  List.map_congr_left fun x hx => truncate_of_nonneg (hs.ideal_nonneg x hx)

/-- The loop after some iterations. -/
structure RoundingInv (s : VwapSlicer) (r : Rounding) : Prop where
  served : Served s.ideal r.served
  qty : r.qty = bump (floors s.ideal) r.served
  leftover : r.leftover = s.totalQty - r.qty.sum
  nonneg : 0 ≤ r.leftover

theorem RoundingInv.qty_length {r : Rounding} (hr : RoundingInv s r) :
    s.ideal.length = r.qty.length := by
  rw [hr.qty, bump_length, floors, List.length_map]

/-- The remainders of all slots add up to the leftover. -/
theorem RoundingInv.remainders_sum (hs : s.Valid) {r : Rounding} (hr : RoundingInv s r) :
    (remainders s.ideal r.qty).sum = r.leftover := by
  rw [sum_remainders hr.qty_length, hs.ideal_sum, hr.leftover, Int.cast_sub]

theorem RoundingInv.next (hs : s.Valid) {r : Rounding} (hr : RoundingInv s r)
    (hleft : 0 < r.leftover) : RoundingInv s (serve s.ideal r) := by
  have hlength : (remainders s.ideal r.qty).length < 10 ^ 12 := by
    rw [remainders, List.length_zipWith, ← hr.qty_length, Nat.min_self, ideal_length]
    exact hs.short
  have hunit : 1 ≤ (remainders s.ideal r.qty).sum := by
    rw [hr.remainders_sum hs]
    exact_mod_cast hleft
  obtain ⟨m, hm, hpos⟩ := search_remainder hlength hunit
  unfold serve
  obtain ⟨best, hbest⟩ : ∃ best, best = (search (remainders s.ideal r.qty) 0 (0, -1)).1 := ⟨_, rfl⟩
  rw [← hbest] at hm ⊢
  rw [hr.qty] at hm
  have hserved := hr.served.append hm hpos
  have hslot : best < r.qty.length := by
    rw [← hr.qty_length]
    exact hserved.lt_length (by simp)
  refine ⟨hserved, ?_, ?_, ?_⟩
  · dsimp only
    rw [bump_append_singleton, ← hr.qty]
  · dsimp only
    rw [sum_modify hslot, hr.leftover]
    ring
  · dsimp only
    omega

theorem Valid.leftover_bounds (hs : s.Valid) :
    0 ≤ s.totalQty - (floors s.ideal).sum ∧
      s.totalQty - (floors s.ideal).sum ≤ s.fractions.length := by
  obtain ⟨hlow, hhigh⟩ := floors_sum_bounds s.ideal
  rw [hs.ideal_sum] at hlow hhigh
  rw [ideal_length] at hhigh
  have hlow' : (floors s.ideal).sum ≤ s.totalQty := by exact_mod_cast hlow
  have hhigh' : s.totalQty ≤ (floors s.ideal).sum + s.fractions.length := by exact_mod_cast hhigh
  omega

/-- The leftover is served in as many iterations as it has units, and what every serve
keeps of the slots that were served holds at the end. -/
theorem Valid.round_run (hs : s.Valid) {P : List ℕ → Prop} (hnil : P [])
    (hserve : ∀ r, RoundingInv s r → P r.served → 0 < r.leftover → P (serve s.ideal r).served)
    {fuel : ℕ} (hfuel : s.fractions.length ≤ fuel) :
    ∃ r, s.round fuel = some r ∧ RoundingInv s r ∧ P r.served ∧ r.leftover = 0 := by
  obtain ⟨hlow, hhigh⟩ := hs.leftover_bounds
  have hstart : RoundingInv s ⟨floors s.ideal, s.totalQty - (floors s.ideal).sum, []⟩ :=
    ⟨served_nil, rfl, rfl, hlow⟩
  have hbody : ∀ r, RoundingInv s r ∧ P r.served → decide (r.leftover > 0) = true →
      ∃ r', (∀ _ : Unit, some (serve s.ideal r) = some r') ∧
        (RoundingInv s r' ∧ P r'.served) ∧ r'.leftover.toNat < r.leftover.toNat := by
    rintro r ⟨hr, hP⟩ hguard
    have hleft : 0 < r.leftover := of_decide_eq_true hguard
    refine ⟨_, fun _ => rfl, ⟨hr.next hs hleft, hserve r hr hP hleft⟩, ?_⟩
    simp only [serve]
    omega
  obtain ⟨r, hround, ⟨hr, hP⟩, hstop⟩ := whileLoop_total _
    (fun r => RoundingInv s r ∧ P r.served) (fun r => r.leftover.toNat)
    hbody (show (s.totalQty - (floors s.ideal).sum).toNat ≤ fuel by omega) ⟨hstart, hnil⟩
  refine ⟨r, ?_, hr, hP, ?_⟩
  · rw [round, hs.floors_eq]
    exact hround ()
  · have hnonneg := hr.nonneg
    have hnot := of_decide_eq_false hstop
    omega

end VwapSlicer

section SendTimes
variable {duration : ℤ} {sum cum : ℚ} {fs : List ℚ}

theorem sendTimes_length (duration : ℤ) (sum cum : ℚ) (fs : List ℚ) :
    (sendTimes duration sum cum fs).length = fs.length := by
  induction fs generalizing cum with
  | nil => rfl
  | cons f fs ih => rw [sendTimes, List.length_cons, List.length_cons, ih]

theorem truncate_le_truncate {x y : ℚ} (hx : 0 ≤ x) (h : x ≤ y) : truncate x ≤ truncate y := by
  rw [truncate_of_nonneg hx, truncate_of_nonneg (hx.trans h)]
  exact Int.floor_le_floor h

/-- Later on the curve is not earlier in time. -/
theorem sendTimes_sorted (hduration : 0 ≤ duration) (hsum : 0 ≤ sum) (hcum : 0 ≤ cum)
    (hfs : ∀ f ∈ fs, 0 ≤ f) :
    (∀ t ∈ sendTimes duration sum cum fs, truncate (duration * cum) ≤ t) ∧
      (sendTimes duration sum cum fs).Pairwise (· ≤ ·) := by
  have hduration' : (0 : ℚ) ≤ duration := Int.cast_nonneg hduration
  induction fs generalizing cum with
  | nil => exact ⟨fun t ht => by simp [sendTimes] at ht, List.Pairwise.nil⟩
  | cons f fs ih =>
    obtain ⟨hf, hfs⟩ := List.forall_mem_cons.mp hfs
    have hgrow : cum ≤ cum + f / sum := le_add_of_nonneg_right (div_nonneg hf hsum)
    obtain ⟨hlater, hpairs⟩ := ih (hcum.trans hgrow) hfs
    have hnow : truncate (duration * cum) ≤ truncate (duration * (cum + f / sum)) :=
      truncate_le_truncate (mul_nonneg hduration' hcum) (mul_le_mul_of_nonneg_left hgrow hduration')
    rw [sendTimes]
    exact ⟨List.forall_mem_cons.mpr ⟨hnow, fun t ht => hnow.trans (hlater t ht)⟩,
      List.pairwise_cons.mpr ⟨hlater, hpairs⟩⟩

theorem sendTimes_getLast? (hfs : fs ≠ []) :
    (sendTimes duration sum cum fs).getLast? =
      some (truncate (duration * (cum + fs.sum / sum))) := by
  induction fs generalizing cum with
  | nil => exact absurd rfl hfs
  | cons f fs ih =>
    cases fs with
    | nil => simp [sendTimes]
    | cons g fs =>
      have hrest := @ih (cum + f / sum) (List.cons_ne_nil g fs)
      have hcurve : cum + (f :: g :: fs).sum / sum = cum + f / sum + (g :: fs).sum / sum := by
        rw [List.sum_cons, add_div, add_assoc]
      rw [sendTimes, List.getLast?_cons, hrest, hcurve, Option.getD_some]

end SendTimes

namespace VwapSlicer
variable {s : VwapSlicer}

theorem Valid.fractions_ne_nil (hs : s.Valid) : s.fractions ≠ [] := by
  have hsum := hs.sum
  intro h
  simp [h] at hsum

theorem plan_eq_of_pos (htotal : 0 < s.totalQty) (hsum : 0 < s.fractions.sum) (fuel : ℕ) :
    s.plan fuel = (s.round fuel).map fun r =>
      if s.fractions.length = 1 then [⟨s.totalQty, 0⟩]
      else
        (r.qty.zip (sendTimes s.duration s.fractions.sum 0 s.fractions)).map fun c =>
          ⟨c.1, c.2⟩ := by
  have hne : s.fractions ≠ [] := by
    intro h
    simp [h] at hsum
  rw [plan, if_neg (not_or.mpr ⟨hne, not_le.mpr htotal⟩), if_neg (not_le.mpr hsum)]

/-- What the code emits for a fraction. -/
def Rounds (s : VwapSlicer) (f : ℚ) (q : ℤ) : Prop :=
  (q = ⌊s.totalQty * (f / s.fractions.sum)⌋ ∨ q = ⌈s.totalQty * (f / s.fractions.sum)⌉) ∧
    (f = 0 → q = 0)

theorem RoundingInv.rounds {r : Rounding} (hr : RoundingInv s r) :
    List.Forall₂ s.Rounds s.fractions r.qty := by
  have hround := hr.served.rounded
  rw [← hr.qty, ideal, List.forall₂_map_left_iff] at hround
  refine hround.imp ?_
  rintro f q ⟨hq, hkeep⟩
  refine ⟨hq, ?_⟩
  rintro rfl
  rw [hkeep (by simp)]
  simp

/-- The only slot gets the whole order. -/
theorem Valid.rounds_single (hs : s.Valid) {f : ℚ} (hf : s.fractions = [f]) :
    s.Rounds f s.totalQty := by
  have hsum := hs.sum
  rw [hf, List.sum_singleton] at hsum
  unfold Rounds
  rw [hf, List.sum_singleton, div_self hsum.ne', mul_one, Int.floor_intCast]
  exact ⟨.inl rfl, fun h => absurd h hsum.ne'⟩

end VwapSlicer

/-- The plan of an order over a volume curve, and the loop that rounds it. -/
theorem vwapSlicer_plan {s : VwapSlicer} (hs : s.Valid) {fuel : ℕ}
    (hfuel : s.fractions.length ≤ fuel) :
    ∃ r slices, s.round fuel = some r ∧ r.served.Nodup ∧ s.plan fuel = some slices ∧
      slices.length = s.fractions.length ∧ (slices.map Slice.qty).sum = s.totalQty ∧
      List.Forall₂ s.Rounds s.fractions (slices.map Slice.qty) ∧
      (2 ≤ s.fractions.length →
        (slices.map Slice.sendAt).Pairwise (· ≤ ·) ∧
          (slices.map Slice.sendAt).getLast? = some s.duration) := by
  obtain ⟨r, hround, hr, -, hleft⟩ :=
    hs.round_run (P := fun _ => True) trivial (fun _ _ _ _ => trivial) hfuel
  obtain ⟨times, htimes⟩ : ∃ ts, ts = sendTimes s.duration s.fractions.sum 0 s.fractions := ⟨_, rfl⟩
  have hplan := VwapSlicer.plan_eq_of_pos hs.total hs.sum fuel
  rw [hround, Option.map_some, ← htimes] at hplan
  split_ifs at hplan with hone
  · obtain ⟨f, hf⟩ := List.length_eq_one_iff.mp hone
    refine ⟨r, _, hround, hr.served.nodup, hplan, hone.symm, by simp, ?_, fun htwo => by omega⟩
    rw [hf]
    exact .cons (hs.rounds_single hf) .nil
  · have hlength : r.qty.length = times.length := by
      rw [htimes, sendTimes_length, ← hr.qty_length, VwapSlicer.ideal_length]
    have hqtys : ((r.qty.zip times).map fun c => Slice.mk c.1 c.2).map Slice.qty = r.qty := by
      rw [List.map_map]
      exact List.map_fst_zip hlength.le
    have hends : ((r.qty.zip times).map fun c => Slice.mk c.1 c.2).map Slice.sendAt = times := by
      rw [List.map_map]
      exact List.map_snd_zip hlength.ge
    have hfractions : s.fractions ≠ [] := hs.fractions_ne_nil
    refine ⟨r, _, hround, hr.served.nodup, hplan, ?_, ?_, ?_, fun _ => ?_⟩
    · rw [← List.length_map Slice.sendAt, hends, htimes, sendTimes_length]
    · have hsum := hr.leftover
      rw [hqtys]
      omega
    · rw [hqtys]
      exact hr.rounds
    · rw [hends, htimes]
      refine ⟨(sendTimes_sorted hs.duration hs.sum.le le_rfl hs.nonneg).2, ?_⟩
      rw [sendTimes_getLast? hfractions, zero_add, div_self hs.sum.ne', mul_one,
        truncate_of_nonneg (Int.cast_nonneg hs.duration), Int.floor_intCast]

/-- Eleven units over three buckets: the last half has the largest remainder. -/
theorem vwapSlicer_plan_halves :
    ∃ r slices, (VwapSlicer.mk 11 1000 [1 / 8, 3 / 8, 1 / 2]).round 3 = some r ∧ r.served.Nodup ∧
      (VwapSlicer.mk 11 1000 [1 / 8, 3 / 8, 1 / 2]).plan 3 = some slices ∧
      (slices.map Slice.qty).sum = 11 := by
  have hs : (VwapSlicer.mk 11 1000 [1 / 8, 3 / 8, 1 / 2]).Valid := by
    constructor <;> norm_num
  obtain ⟨r, slices, hround, hnodup, hplan, -, hsum, -⟩ := vwapSlicer_plan hs le_rfl
  exact ⟨r, slices, hround, hnodup, hplan, hsum⟩

end HftExercises.Slicing
