import Mathlib.Algebra.Order.BigOperators.Group.List
import Mathlib.Algebra.BigOperators.Ring.Finset
import Mathlib.Algebra.Order.Field.Rat
import Mathlib.Data.List.Induction
import Mathlib.Tactic.FieldSimp
import Mathlib.Tactic.Linarith
import Mathlib.Tactic.Positivity
import Mathlib.Tactic.Ring

/-! # Live statistics of a tick stream

Each tick is folded into a few accumulators, and the prices are kept for the moving
average. Prices are exact rationals; the counts of ticks and of traded quantity are
64-bit words.
-/
namespace HftExercises.Ticks

structure TickStatistics where
  count : UInt64
  last : ℚ
  min : ℚ
  max : ℚ
  sum : ℚ
  sumSq : ℚ
  pqSum : ℚ
  qSum : UInt64
  prices : List ℚ

namespace TickStatistics

def init : TickStatistics := ⟨0, 0, 0, 0, 0, 0, 0, 0, []⟩

def addTick (s : TickStatistics) (price : ℚ) (qty : UInt64) : TickStatistics where
  count := s.count + 1
  last := price
  min := if s.count = 0 then price else Min.min s.min price
  max := if s.count = 0 then price else Max.max s.max price
  sum := s.sum + price
  sumSq := s.sumSq + price * price
  pqSum := s.pqSum + price * qty.toNat
  qSum := s.qSum + qty
  prices := s.prices ++ [price]

/-- The reader `min()`. -/
def readMin (s : TickStatistics) : ℚ := if s.count = 0 then 0 else s.min

/-- The reader `max()`. -/
def readMax (s : TickStatistics) : ℚ := if s.count = 0 then 0 else s.max

def mean (s : TickStatistics) : ℚ := if s.count = 0 then 0 else s.sum / s.count.toNat

def variance (s : TickStatistics) : ℚ :=
  if s.count = 0 then 0 else s.sumSq / s.count.toNat - s.mean * s.mean

def vwap (s : TickStatistics) : ℚ := if s.qSum = 0 then 0 else s.pqSum / s.qSum.toNat

end TickStatistics

/-- The statistics after a stream of ticks, each a price and a quantity. -/
def observe (ticks : List (ℚ × UInt64)) : TickStatistics :=
  ticks.foldl (fun s tick => s.addTick tick.1 tick.2) .init

def priceSum (ticks : List (ℚ × UInt64)) : ℚ := (ticks.map Prod.fst).sum

def squareSum (ticks : List (ℚ × UInt64)) : ℚ := (ticks.map fun tick => tick.1 * tick.1).sum

def notional (ticks : List (ℚ × UInt64)) : ℚ := (ticks.map fun tick => tick.1 * (tick.2.toNat : ℚ)).sum

def volume (ticks : List (ℚ × UInt64)) : ℕ := (ticks.map fun tick => tick.2.toNat).sum

/-- The accumulators in terms of the ticks behind them. -/
structure Describes (ticks : List (ℚ × UInt64)) (s : TickStatistics) : Prop where
  count : s.count = UInt64.ofNat ticks.length
  sum : s.sum = priceSum ticks
  sumSq : s.sumSq = squareSum ticks
  pqSum : s.pqSum = notional ticks
  qSum : s.qSum = UInt64.ofNat (volume ticks)
  prices : s.prices = ticks.map Prod.fst
  last : ∀ tick ∈ ticks.getLast?, s.last = tick.1
  min : ticks ≠ [] → s.min ∈ ticks.map Prod.fst ∧ ∀ tick ∈ ticks, s.min ≤ tick.1
  max : ticks ≠ [] → s.max ∈ ticks.map Prod.fst ∧ ∀ tick ∈ ticks, tick.1 ≤ s.max

section Describes
variable {ticks : List (ℚ × UInt64)} {s : TickStatistics} {price : ℚ} {qty : UInt64}

theorem Describes.count_eq_zero (h : Describes ticks s) (hlen : ticks.length < 2 ^ 64) :
    s.count = 0 ↔ ticks = [] := by
  rw [h.count, ← UInt64.toNat_inj, UInt64.toNat_ofNat', UInt64.toNat_zero, Nat.mod_eq_of_lt hlen,
    List.length_eq_zero_iff]

theorem Describes.addTick (h : Describes ticks s) (hlen : ticks.length < 2 ^ 64) :
    Describes (ticks ++ [(price, qty)]) (s.addTick price qty) := by
  refine ⟨?_, ?_, ?_, ?_, ?_, ?_, ?_, fun _ => ?_, fun _ => ?_⟩
  · rw [List.length_append, List.length_singleton, UInt64.ofNat_add, ← h.count]
    rfl
  · simp [TickStatistics.addTick, h.sum, priceSum]
  · simp [TickStatistics.addTick, h.sumSq, squareSum]
  · simp [TickStatistics.addTick, h.pqSum, notional]
  · simp [TickStatistics.addTick, h.qSum, volume]
  · simp [TickStatistics.addTick, h.prices]
  · simp [TickStatistics.addTick]
  · by_cases hnil : ticks = []
    · simp [TickStatistics.addTick, (h.count_eq_zero hlen).mpr hnil, hnil]
    · obtain ⟨hmem, hle⟩ := h.min hnil
      have hcount := mt (h.count_eq_zero hlen).mp hnil
      simp only [TickStatistics.addTick, if_neg hcount, List.map_append, List.map_singleton,
        List.mem_append, List.mem_singleton]
      refine ⟨?_, ?_⟩
      · rcases min_choice s.min price with heq | heq
        · left
          rw [heq]
          exact hmem
        · exact .inr heq
      · rintro tick (htick | rfl)
        · exact (min_le_left _ _).trans (hle tick htick)
        · exact min_le_right _ _
  · by_cases hnil : ticks = []
    · simp [TickStatistics.addTick, (h.count_eq_zero hlen).mpr hnil, hnil]
    · obtain ⟨hmem, hle⟩ := h.max hnil
      have hcount := mt (h.count_eq_zero hlen).mp hnil
      simp only [TickStatistics.addTick, if_neg hcount, List.map_append, List.map_singleton,
        List.mem_append, List.mem_singleton]
      refine ⟨?_, ?_⟩
      · rcases max_choice s.max price with heq | heq
        · left
          rw [heq]
          exact hmem
        · exact .inr heq
      · rintro tick (htick | rfl)
        · exact (hle tick htick).trans (le_max_left _ _)
        · exact le_max_right _ _

theorem observe_describes (hlen : ticks.length < 2 ^ 64) : Describes ticks (observe ticks) := by
  induction ticks using List.reverseRecOn with
  | nil => exact ⟨rfl, rfl, rfl, rfl, rfl, rfl, nofun, fun h => absurd rfl h, fun h => absurd rfl h⟩
  | append_singleton ticks tick ih =>
    have hshort : ticks.length < 2 ^ 64 := by
      rw [List.length_append] at hlen
      omega
    rw [observe, List.foldl_append]
    exact (ih hshort).addTick hshort

end Describes

section Averages

/-- The squared deviations from any centre, by the sums of the values and their squares. -/
theorem sum_sq_sub (l : List ℚ) (c : ℚ) :
    (l.map fun p => (p - c) ^ 2).sum =
      (l.map fun p => p * p).sum - 2 * c * l.sum + l.length * (c * c) := by
  induction l with
  | nil => simp
  | cons p l ih =>
    rw [List.map_cons, List.sum_cons, ih, List.map_cons, List.sum_cons, List.sum_cons,
      List.length_cons]
    push_cast
    ring

end Averages

section Readers
variable {ticks : List (ℚ × UInt64)} {s : TickStatistics}

theorem Describes.count_toNat (h : Describes ticks s) (hlen : ticks.length < 2 ^ 64) :
    s.count.toNat = ticks.length := by
  rw [h.count, UInt64.toNat_ofNat', Nat.mod_eq_of_lt hlen]

theorem Describes.mean (h : Describes ticks s) (hlen : ticks.length < 2 ^ 64) (hne : ticks ≠ []) :
    s.mean = priceSum ticks / ticks.length := by
  rw [TickStatistics.mean, if_neg (mt (h.count_eq_zero hlen).mp hne), h.sum, h.count_toNat hlen]

theorem Describes.variance (h : Describes ticks s) (hlen : ticks.length < 2 ^ 64)
    (hne : ticks ≠ []) :
    s.variance = ((ticks.map Prod.fst).map fun p => (p - s.mean) ^ 2).sum / ticks.length := by
  have hpos : (ticks.length : ℚ) ≠ 0 := by
    simpa using hne
  have hsum : priceSum ticks = s.mean * ticks.length := by
    rw [h.mean hlen hne]
    field_simp
  rw [TickStatistics.variance, if_neg (mt (h.count_eq_zero hlen).mp hne), h.count_toNat hlen,
    sum_sq_sub, h.sumSq]
  change _ = (((ticks.map Prod.fst).map fun p => p * p).sum - 2 * s.mean * priceSum ticks +
    (ticks.map Prod.fst).length * (s.mean * s.mean)) / ticks.length
  rw [hsum, List.map_map, List.length_map]
  change squareSum ticks / _ - _ = (squareSum ticks - _ + _) / _
  field_simp
  ring

theorem Describes.vwap (h : Describes ticks s) (hvolume : volume ticks < 2 ^ 64) :
    s.vwap = notional ticks / volume ticks := by
  have hq : s.qSum.toNat = volume ticks := by
    rw [h.qSum, UInt64.toNat_ofNat', Nat.mod_eq_of_lt hvolume]
  rw [TickStatistics.vwap, h.pqSum, hq]
  split_ifs with hzero
  · rw [hzero] at hq
    rw [← hq, UInt64.toNat_zero, Nat.cast_zero, div_zero]
  · rfl

/-- More ticks spread the extremes. -/
theorem Describes.extremes_of_subset {ticks' : List (ℚ × UInt64)} {s' : TickStatistics}
    (h : Describes ticks s) (h' : Describes ticks' s') (hne : ticks ≠ []) (hne' : ticks' ≠ [])
    (hsub : ∀ tick ∈ ticks', tick ∈ ticks) : s.min ≤ s'.min ∧ s'.max ≤ s.max := by
  obtain ⟨low, hlow, hmin⟩ := List.mem_map.mp (h'.min hne').1
  obtain ⟨high, hhigh, hmax⟩ := List.mem_map.mp (h'.max hne').1
  rw [← hmin, ← hmax]
  exact ⟨(h.min hne).2 low (hsub low hlow), (h.max hne).2 high (hsub high hhigh)⟩

end Readers

/-- The order of the ticks matters to the last price and the moving average only. -/
theorem tickStatistics_order {ticks ticks' : List (ℚ × UInt64)} (hperm : ticks.Perm ticks')
    (hlen : ticks.length < 2 ^ 64) :
    (observe ticks).count = (observe ticks').count ∧
    (observe ticks).readMin = (observe ticks').readMin ∧
    (observe ticks).readMax = (observe ticks').readMax ∧
    (observe ticks).mean = (observe ticks').mean ∧
    (observe ticks).variance = (observe ticks').variance ∧
    (observe ticks).vwap = (observe ticks').vwap := by
  have hlen' : ticks'.length < 2 ^ 64 := hperm.length_eq ▸ hlen
  have h := observe_describes hlen
  have h' := observe_describes hlen'
  have hcount : (observe ticks).count = (observe ticks').count := by
    rw [h.count, h'.count, hperm.length_eq]
  have hsum : (observe ticks).sum = (observe ticks').sum := by
    rw [h.sum, h'.sum]
    exact (hperm.map _).sum_eq
  have hsumSq : (observe ticks).sumSq = (observe ticks').sumSq := by
    rw [h.sumSq, h'.sumSq]
    exact (hperm.map _).sum_eq
  have hpqSum : (observe ticks).pqSum = (observe ticks').pqSum := by
    rw [h.pqSum, h'.pqSum]
    exact (hperm.map _).sum_eq
  have hqSum : (observe ticks).qSum = (observe ticks').qSum := by
    rw [h.qSum, h'.qSum]
    exact congrArg _ (hperm.map _).sum_eq
  have hextremes : (observe ticks).readMin = (observe ticks').readMin ∧
      (observe ticks).readMax = (observe ticks').readMax := by
    rw [TickStatistics.readMin, TickStatistics.readMin, TickStatistics.readMax,
      TickStatistics.readMax, ← hcount]
    split_ifs with hzero
    · exact ⟨rfl, rfl⟩
    · have hne := mt (h.count_eq_zero hlen).mpr hzero
      have hne' := mt (h'.count_eq_zero hlen').mpr (hcount ▸ hzero)
      have hsub : ∀ tick ∈ ticks, tick ∈ ticks' := fun _ htick => hperm.mem_iff.mp htick
      have hsub' : ∀ tick ∈ ticks', tick ∈ ticks := fun _ htick => hperm.mem_iff.mpr htick
      obtain ⟨hmin, hmax⟩ := h.extremes_of_subset h' hne hne' hsub'
      obtain ⟨hmin', hmax'⟩ := h'.extremes_of_subset h hne' hne hsub
      exact ⟨le_antisymm hmin hmin', le_antisymm hmax' hmax⟩
  have hmean : (observe ticks).mean = (observe ticks').mean := by
    rw [TickStatistics.mean, TickStatistics.mean, hcount, hsum]
  refine ⟨hcount, hextremes.1, hextremes.2, hmean, ?_, ?_⟩
  · rw [TickStatistics.variance, TickStatistics.variance, hcount, hsumSq, hmean]
  · rw [TickStatistics.vwap, TickStatistics.vwap, hqSum, hpqSum]

theorem tickStatistics_order_swapped :
    (observe [(101, 5), (99, 2)]).variance = (observe [(99, 2), (101, 5)]).variance :=
  (tickStatistics_order (List.Perm.swap _ _ []) (by simp)).2.2.2.2.1

end HftExercises.Ticks
