import HftExercises.Core.MachineWord
import Mathlib.Algebra.BigOperators.Group.List.Basic
import Mathlib.Tactic.Ring

/-! # The evenly spaced slicer

A parent order is cut into slices of one size, and the last takes what the division
leaves over.
-/
namespace HftExercises.Slicing
open SignedWord

/-- A slice of a plan, over the integers its slicer computes with. -/
structure Slice (ι : Type) where
  qty : ι
  sendAt : ι
  deriving DecidableEq, Repr

structure TwapSlicer where
  totalQty : Int64
  duration : Int64
  nSlices : UInt64
  deriving DecidableEq

def TwapSlicer.plan (s : TwapSlicer) : List (Slice Int64) :=
  if s.nSlices = 0 ∨ s.totalQty ≤ 0 then []
  else
    let n := s.nSlices.toInt64
    let base := s.totalQty / n
    let rem := s.totalQty % n
    if s.nSlices = 1 then [⟨base + rem, 0⟩]
    else
      (List.range s.nSlices.toNat).map fun k =>
        let i := UInt64.ofNat k
        let t := (i + 1).toInt64
        ⟨base + if i + 1 = s.nSlices then rem else 0, s.duration * t / n⟩

/-- The total in `n` parts, the last of which takes the remainder. -/
def evenSplit (total : ℤ) (n : ℕ) : List ℤ :=
  List.replicate (n - 1) (total / n) ++ [total / n + total % n]

section EvenSplit
variable {total duration : ℤ} {n : ℕ}

theorem evenSplit_eq (hn : 0 < n) (total : ℤ) :
    evenSplit total n =
      (List.range n).map fun k => total / n + if k + 1 = n then total % n else 0 := by
  obtain ⟨m, rfl⟩ : ∃ m, n = m + 1 := ⟨n - 1, by omega⟩
  have hinit : (List.range m).map (fun k => total / ((m + 1 : ℕ) : ℤ) +
      if k + 1 = m + 1 then total % ((m + 1 : ℕ) : ℤ) else 0) =
        List.replicate m (total / ((m + 1 : ℕ) : ℤ)) := by
    rw [List.eq_replicate_iff]
    refine ⟨by simp, ?_⟩
    intro q hq
    obtain ⟨k, hk, rfl⟩ := List.mem_map.mp hq
    have hlt := List.mem_range.mp hk
    rw [if_neg (by omega), Int.add_zero]
  rw [evenSplit, List.range_succ, List.map_append, hinit, List.map_singleton, if_pos rfl]
  rfl

theorem evenSplit_nonneg (htotal : 0 ≤ total) : ∀ q ∈ evenSplit total n, 0 ≤ q := by
  have hbase : 0 ≤ total / (n : ℤ) := Int.ediv_nonneg htotal (Int.natCast_nonneg n)
  have hrem : 0 ≤ total % (n : ℤ) := by
    by_cases hn : n = 0
    · simpa [hn] using htotal
    · exact Int.emod_nonneg _ (by omega)
  intro q hq
  rcases List.mem_append.mp hq with hq | hq
  · rw [List.eq_of_mem_replicate hq]
    exact hbase
  · rw [List.mem_singleton.mp hq]
    exact Int.add_nonneg hbase hrem

theorem evenSplit_sum (hn : 0 < n) : (evenSplit total n).sum = total := by
  have hdiv := Int.mul_ediv_add_emod total n
  have hpred : ((n - 1 : ℕ) : ℤ) = n - 1 := by omega
  calc (evenSplit total n).sum
      = ((n - 1 : ℕ) : ℤ) * (total / n) + (total / n + total % n) := by
        simp [evenSplit]
    _ = n * (total / n) + total % n := by
      rw [hpred]
      ring
    _ = total := hdiv

end EvenSplit

/-- The parent order is not empty, and the schedule can be computed without overflow. -/
structure TwapSlicer.Valid (s : TwapSlicer) : Prop where
  total : 0 < s.totalQty.toInt
  slices : 1 ≤ s.nSlices.toNat
  slices_lt : s.nSlices.toNat < 2 ^ 63
  duration : 0 ≤ s.duration.toInt
  fits : s.duration.toInt * s.nSlices.toNat < 2 ^ 63

section Split
variable {total n : Int64} {m : ℕ}

/-- The quantity of one slice, computed in 64 bits. -/
theorem toInt_slice (htotal : 0 < total.toInt) (hn : n.toInt = m) (hm : 0 < m) (p : Prop)
    [Decidable p] :
    (total / n + if p then total % n else 0).toInt =
      total.toInt / m + if p then total.toInt % m else 0 := by
  have hbase : (total / n).toInt = total.toInt / m := by
    rw [toInt_div htotal.le (by omega), hn]
  have hrem : (total % n).toInt = total.toInt % m := by rw [toInt_mod htotal.le, hn]
  have hdiv := Int.mul_ediv_add_emod total.toInt m
  have hquot : 0 ≤ total.toInt / m := Int.ediv_nonneg htotal.le (Int.natCast_nonneg m)
  have hmod : 0 ≤ total.toInt % m := Int.emod_nonneg _ (by omega)
  have hmul : 1 * (total.toInt / m) ≤ m * (total.toInt / m) :=
    Int.mul_le_mul_of_nonneg_right (by omega) hquot
  have hle : total.toInt / m + (if p then total.toInt % m else 0) ≤ total.toInt := by
    split_ifs <;> omega
  have hlt := total.toInt_lt
  have hrest : (if p then total % n else 0).toInt = if p then total.toInt % m else 0 := by
    split_ifs
    · exact hrem
    · rfl
  rw [toInt_add, hbase, hrest]
  rw [hbase, hrest]
  exact .of_le (by split_ifs <;> omega) hle hlt

end Split

namespace TwapSlicer
variable {s : TwapSlicer}

theorem Valid.not_degenerate (hs : s.Valid) : ¬ (s.nSlices = 0 ∨ s.totalQty ≤ 0) := by
  have htotal := hs.total
  have hslices := hs.slices
  rintro (hzero | hle)
  · rw [hzero] at hslices
    exact absurd hslices (by decide)
  · have hle' := Int64.le_iff_toInt_le.mp hle
    rw [Int64.toInt_zero] at hle'
    omega

theorem Valid.plan_eq (hs : s.Valid) :
    s.plan =
      if s.nSlices = 1 then
        [⟨s.totalQty / s.nSlices.toInt64 + s.totalQty % s.nSlices.toInt64, 0⟩]
      else (List.range s.nSlices.toNat).map fun k =>
        ⟨s.totalQty / s.nSlices.toInt64 +
            if UInt64.ofNat k + 1 = s.nSlices then s.totalQty % s.nSlices.toInt64 else 0,
          s.duration * (UInt64.ofNat k + 1).toInt64 / s.nSlices.toInt64⟩ :=
  if_neg hs.not_degenerate

theorem Valid.toInt_slices (hs : s.Valid) : s.nSlices.toInt64.toInt = s.nSlices.toNat :=
  toInt_toInt64 hs.slices_lt

theorem slices_eq_one : s.nSlices = 1 ↔ s.nSlices.toNat = 1 := UInt64.toNat_inj.symm

theorem Valid.plan_qty (hs : s.Valid) :
    s.plan.map (fun c => c.qty.toInt) = evenSplit s.totalQty.toInt s.nSlices.toNat := by
  have hslice := toInt_slice hs.total hs.toInt_slices hs.slices
  rw [hs.plan_eq]
  split_ifs with hone
  · have hqty := hslice True
    simp only [if_true] at hqty
    rw [List.map_singleton, hqty, slices_eq_one.mp hone]
    rfl
  · rw [evenSplit_eq hs.slices, List.map_map]
    refine List.map_congr_left ?_
    intro k hk
    have hnext := toNat_ofNat_add_one (List.mem_range.mp hk)
    have hlast : UInt64.ofNat k + 1 = s.nSlices ↔ k + 1 = s.nSlices.toNat := by
      rw [← UInt64.toNat_inj, hnext]
    dsimp only [Function.comp_apply]
    rw [hslice]
    simp only [hlast]

end TwapSlicer
end HftExercises.Slicing
