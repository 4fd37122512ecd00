import HftExercises.Logic.TwapSlicer

/-! # Execution strategies

A strategy turns a parent order into child orders and hands them to a sink one by
one; the list of them is what the sink received.
-/
namespace HftExercises.Strategies
open SignedWord Slicing

inductive Side where
  | buy
  | sell
  deriving DecidableEq, Repr

/-- A child order, over the integers its strategy computes with. -/
structure ChildOrder (ι : Type) where
  parentId : ι
  side : Side
  qty : ι
  price : ι
  seq : ι
  postOnly : Bool
  deriving DecidableEq, Repr

structure ExecutionContext (ι : Type) where
  parentId : ι
  side : Side
  totalQty : ι
  limit : ι
  slices : UInt64
  weights : List ℚ
  postOnly : Bool

def TwapExecutionStrategy.run (ctx : ExecutionContext Int64) : List (ChildOrder Int64) :=
  if ctx.totalQty ≤ 0 ∨ ctx.slices = 0 then []
  else
    let slices := ctx.slices.toInt64
    let base := ctx.totalQty / slices
    let remainder := ctx.totalQty % slices
    (List.range slices.toInt.toNat).map fun k =>
      let i := Int64.ofNat k
      let qty := base + if i + 1 = slices then remainder else 0
      ⟨ctx.parentId, ctx.side, qty, ctx.limit, i + 1, false⟩

section Twap
variable {s : TwapSlicer} {ctx : ExecutionContext Int64}

theorem TwapExecutionStrategy.run_eq (hs : s.Valid) (htotal : ctx.totalQty = s.totalQty)
    (hslices : ctx.slices = s.nSlices) :
    run ctx = (List.range s.nSlices.toNat).map fun k =>
      ⟨ctx.parentId, ctx.side,
        s.totalQty / s.nSlices.toInt64 +
          if Int64.ofNat k + 1 = s.nSlices.toInt64 then s.totalQty % s.nSlices.toInt64 else 0,
        ctx.limit, Int64.ofNat k + 1, false⟩ := by
  unfold run
  dsimp only
  rw [htotal, hslices, hs.toInt_slices, Int.toNat_natCast]
  exact if_neg fun h => hs.not_degenerate h.symm

/-- The counter of the loop is numbered from one. -/
theorem toInt_seq (hs : s.Valid) {k : ℕ} (hk : k < s.nSlices.toNat) :
    (Int64.ofNat k + 1).toInt = k + 1 := by
  have hlt := hs.slices_lt
  have hcounter : (Int64.ofNat k).toInt = k := Int64.toInt_ofNat_of_lt (by omega)
  rw [toInt_add, hcounter, Int64.toInt_one]
  rw [hcounter, Int64.toInt_one]
  exact ⟨by omega, by omega⟩

theorem TwapExecutionStrategy.run_qty (hs : s.Valid) (htotal : ctx.totalQty = s.totalQty)
    (hslices : ctx.slices = s.nSlices) :
    (run ctx).map (fun c => c.qty.toInt) = evenSplit s.totalQty.toInt s.nSlices.toNat := by
  have hslice := toInt_slice hs.total hs.toInt_slices hs.slices
  rw [run_eq hs htotal hslices, evenSplit_eq hs.slices, List.map_map]
  refine List.map_congr_left ?_
  intro k hk
  have hlast : Int64.ofNat k + 1 = s.nSlices.toInt64 ↔ k + 1 = s.nSlices.toNat := by
    rw [← Int64.toInt_inj, toInt_seq hs (List.mem_range.mp hk), hs.toInt_slices]
    omega
  dsimp only [Function.comp_apply]
  rw [hslice]
  simp only [hlast]

theorem TwapExecutionStrategy.run_seq (hs : s.Valid) (htotal : ctx.totalQty = s.totalQty)
    (hslices : ctx.slices = s.nSlices) :
    (run ctx).map (fun c => c.seq.toInt) =
      (List.range s.nSlices.toNat).map fun (k : ℕ) => (k : ℤ) + 1 := by
  rw [run_eq hs htotal hslices, List.map_map]
  exact List.map_congr_left fun k hk => toInt_seq hs (List.mem_range.mp hk)

end Twap

end HftExercises.Strategies
