import HftExercises.Core.Apportionment
import HftExercises.Patterns.StrategyExecution
import Mathlib.Algebra.BigOperators.Ring.List
import Mathlib.Algebra.Order.BigOperators.Group.List
import Mathlib.Data.Rat.Floor

/-! # The strategy that follows volume weights

Each child is rounded down, and the leftover goes to the largest remainders, which are
sorted once. The source computes in doubles, here the shares are exact.
-/
namespace HftExercises.Strategies
open Apportionment

/-- A slice with its index in the weights, for the ties. -/
structure WeightedSlice where
  index : ℕ
  remainder : ℚ
  deriving DecidableEq, Repr

def normalize (weights : List ℚ) : List ℚ :=
  if weights.sum ≤ 0 then [] else weights.map fun w => w / weights.sum

/-- The state of the loop that rounds every slice down. -/
structure Floored where
  qty : List ℤ
  slices : List WeightedSlice
  assigned : ℤ
  deriving DecidableEq, Repr

def floorSlice (total : ℤ) (f : Floored) (norm : ℚ) : Floored :=
  if norm ≤ 0 then { f with qty := f.qty ++ [0] }
  else
    let raw := total * norm
    let floored := ⌊raw⌋
    let remainder := raw - floored
    ⟨f.qty ++ [floored],
      if remainder > 0 then f.slices ++ [⟨f.qty.length, remainder⟩] else f.slices,
      f.assigned + floored⟩

/-- The comparison of the sort. -/
def sortsBefore (a b : WeightedSlice) : Bool :=
  if a.remainder ≠ b.remainder then decide (a.remainder > b.remainder)
  else decide (a.index < b.index)

/-- The loop that hands out the leftover. -/
def handOut : List WeightedSlice → List ℤ → ℤ → List ℤ
  | [], qty, _ => qty
  | s :: slices, qty, leftover =>
    if leftover = 0 then qty else handOut slices (qty.modify s.index (· + 1)) (leftover - 1)

/-- The loop that sends the children, after `seq` of them. -/
def emit (ctx : ExecutionContext ℤ) : List ℤ → ℤ → List (ChildOrder ℤ)
  | [], _ => []
  | qty :: rest, seq =>
    if qty = 0 then emit ctx rest seq
    else ⟨ctx.parentId, ctx.side, qty, ctx.limit, seq + 1, false⟩ :: emit ctx rest (seq + 1)

namespace VwapExecutionStrategy

/-- The quantities of the slices, those of zero included. -/
def quantities (total : ℤ) (norm : List ℚ) : List ℤ :=
  let f := norm.foldl (floorSlice total) ⟨[], [], 0⟩
  handOut (f.slices.mergeSort fun a b => !sortsBefore b a) f.qty (total - f.assigned)

def run (ctx : ExecutionContext ℤ) : List (ChildOrder ℤ) :=
  if ctx.totalQty ≤ 0 ∨ ctx.weights = [] then []
  else
    let norm := normalize ctx.weights
    if norm = [] then [] else emit ctx (quantities ctx.totalQty norm) 0

end VwapExecutionStrategy

section Emit
variable (ctx : ExecutionContext ℤ) (qtys : List ℤ) (seq : ℤ)

/-- The children carry the quantities that are not zero. -/
theorem emit_qty : (emit ctx qtys seq).map ChildOrder.qty = qtys.filter (· ≠ 0) := by
  induction qtys generalizing seq with
  | nil => rfl
  | cons q qtys ih =>
    rw [emit]
    split_ifs with hq
    · rw [ih, List.filter_cons_of_neg (by simpa using hq)]
    · rw [List.map_cons, ih, List.filter_cons_of_pos (by simpa using hq)]

theorem emit_seq : (emit ctx qtys seq).map ChildOrder.seq =
    (List.range (emit ctx qtys seq).length).map fun (k : ℕ) => seq + k + 1 := by
  induction qtys generalizing seq with
  | nil => rfl
  | cons q qtys ih =>
    rw [emit]
    split_ifs with hq
    · exact ih seq
    · rw [List.map_cons, ih, List.length_cons, List.range_succ_eq_map, List.map_cons, List.map_map]
      refine congrArg₂ List.cons (by simp) (List.map_congr_left fun k _ => ?_)
      simp only [Function.comp_apply, Nat.cast_succ]
      ring

end Emit

theorem sum_filter_ne_zero (qtys : List ℤ) : (qtys.filter (· ≠ 0)).sum = qtys.sum := by
  induction qtys with
  | nil => rfl
  | cons q qtys ih =>
    by_cases hq : q = 0
    · rw [List.filter_cons_of_neg (by simpa using hq), ih, List.sum_cons, hq, zero_add]
    · rw [List.filter_cons_of_pos (by simpa using hq), List.sum_cons, List.sum_cons, ih]

theorem handOut_eq (slices : List WeightedSlice) (qty : List ℤ) (leftover : ℤ) :
    handOut slices qty leftover =
      bump qty ((if 0 ≤ leftover then slices.take leftover.toNat else slices).map
        WeightedSlice.index) := by
  induction slices generalizing qty leftover with
  | nil => simp [handOut, bump]
  | cons s slices ih =>
    rw [handOut]
    split_ifs with hzero hnonneg hnonneg
    · simp [hzero, bump]
    · omega
    · obtain ⟨n, hn⟩ : ∃ n : ℕ, leftover = n + 1 := ⟨(leftover - 1).toNat, by omega⟩
      have hrest : leftover - 1 = n := by omega
      have hwhole : leftover.toNat = n + 1 := by omega
      rw [ih, hrest, if_pos (Int.natCast_nonneg n), hwhole, Int.toNat_natCast, List.take_succ_cons]
      rfl
    · rw [ih, if_neg (by omega)]
      rfl

/-- The loop after some of the normalized weights. -/
structure FlooredInv (total : ℤ) (norm : List ℚ) (f : Floored) : Prop where
  qty : f.qty = norm.map fun x : ℚ => if x ≤ 0 then 0 else ⌊total * x⌋
  assigned : f.assigned = f.qty.sum
  mem : ∀ s, s ∈ f.slices ↔ ∃ x, norm[s.index]? = some x ∧ 0 < x ∧
    s.remainder = Int.fract (total * x) ∧ 0 < s.remainder
  indices : (f.slices.map WeightedSlice.index).Nodup
  parts : (f.assigned : ℚ) + (f.slices.map WeightedSlice.remainder).sum =
    ((norm.filter (0 < ·)).map fun x : ℚ => total * x).sum

theorem FlooredInv.qty_length {total : ℤ} {norm : List ℚ} {f : Floored}
    (hf : FlooredInv total norm f) : f.qty.length = norm.length := by
  rw [hf.qty, List.length_map]

theorem FlooredInv.index_lt {total : ℤ} {norm : List ℚ} {f : Floored}
    (hf : FlooredInv total norm f) {s : WeightedSlice} (hs : s ∈ f.slices) :
    s.index < norm.length := by
  obtain ⟨x, hx, -⟩ := (hf.mem s).mp hs
  exact (List.getElem?_eq_some_iff.mp hx).1

/-- The members of the list after one more weight: a slice is kept, or it is the new one. -/
theorem mem_snoc_iff {total : ℤ} {norm : List ℚ} {y : ℚ} (s : WeightedSlice) :
    (∃ x, (norm ++ [y])[s.index]? = some x ∧ 0 < x ∧ s.remainder = Int.fract (total * x) ∧
        0 < s.remainder) ↔
      (∃ x, norm[s.index]? = some x ∧ 0 < x ∧ s.remainder = Int.fract (total * x) ∧
        0 < s.remainder) ∨
      s = ⟨norm.length, Int.fract (total * y)⟩ ∧ 0 < y ∧ 0 < Int.fract (total * y) := by
  obtain ⟨index, remainder⟩ := s
  simp only [WeightedSlice.mk.injEq]
  rcases lt_trichotomy index norm.length with hlt | rfl | hgt
  · rw [List.getElem?_append_left hlt]
    simp [hlt.ne]
  · rw [List.getElem?_concat_length, List.getElem?_eq_none le_rfl]
    constructor
    · rintro ⟨x, hx, hpos, rfl, hrem⟩
      obtain rfl := Option.some.inj hx
      exact .inr ⟨⟨rfl, rfl⟩, hpos, hrem⟩
    · rintro (⟨x, hx, -⟩ | ⟨⟨-, rfl⟩, hpos, hrem⟩)
      · cases hx
      · exact ⟨y, rfl, hpos, rfl, hrem⟩
  · rw [List.getElem?_eq_none (by simp; omega), List.getElem?_eq_none hgt.le]
    simp [hgt.ne']

theorem FlooredInv.next {total : ℤ} {norm : List ℚ} {f : Floored} (hf : FlooredInv total norm f)
    (y : ℚ) : FlooredInv total (norm ++ [y]) (floorSlice total f y) := by
  unfold floorSlice
  split_ifs with hy
  · have hskip : ¬ 0 < y := not_lt.mpr hy
    refine ⟨?_, ?_, ?_, hf.indices, ?_⟩
    · simp [hf.qty, hy]
    · simp [hf.assigned]
    · intro s
      rw [hf.mem, mem_snoc_iff]
      simp [hskip]
    · rw [List.filter_append, List.filter_cons_of_neg (by simpa using hy), List.filter_nil,
        List.append_nil]
      exact hf.parts
  · have hpos : 0 < y := not_le.mp hy
    have hparts := hf.parts
    have hsplit := Int.self_sub_floor ((total : ℚ) * y)
    have hfract := Int.fract_nonneg ((total : ℚ) * y)
    dsimp only
    rw [hsplit]
    split_ifs with hrem
    · refine ⟨?_, ?_, ?_, ?_, ?_⟩
      · simp [hf.qty, hy]
      · simp [hf.assigned]
      · intro s
        rw [List.mem_append, List.mem_singleton, hf.mem, mem_snoc_iff, hf.qty_length]
        simp [hpos, hrem]
      · rw [List.map_append, List.nodup_append]
        refine ⟨hf.indices, List.nodup_singleton _, ?_⟩
        intro i hi j hj
        obtain ⟨s, hs, rfl⟩ := List.mem_map.mp hi
        have hlt := hf.index_lt hs
        rw [List.mem_singleton.mp hj, hf.qty_length]
        exact hlt.ne
      · rw [List.filter_append, List.filter_cons_of_pos (by simpa using hpos), List.filter_nil,
          List.map_append, List.map_append, List.sum_append, List.sum_append, ← hparts,
          List.map_singleton, List.map_singleton, List.sum_singleton, List.sum_singleton,
          Int.cast_add, ← hsplit]
        ring
    · have hzero : Int.fract ((total : ℚ) * y) = 0 := le_antisymm (not_lt.mp hrem) hfract
      refine ⟨?_, ?_, ?_, hf.indices, ?_⟩
      · simp [hf.qty, hy]
      · simp [hf.assigned]
      · intro s
        rw [hf.mem, mem_snoc_iff]
        simp [hzero]
      · rw [List.filter_append, List.filter_cons_of_pos (by simpa using hpos), List.filter_nil,
          List.map_append, List.sum_append, ← hparts, List.map_singleton, List.sum_singleton,
          Int.cast_add]
        linarith

theorem flooredInv (total : ℤ) (norm : List ℚ) :
    FlooredInv total norm (norm.foldl (floorSlice total) ⟨[], [], 0⟩) := by
  induction norm using List.reverseRecOn with
  | nil => exact ⟨rfl, rfl, fun s => by simp, List.nodup_nil, by simp⟩
  | append_singleton norm y ih =>
    rw [List.foldl_append]
    exact ih.next y

/-- The slices in the order of the sort. -/
def Floored.sorted (f : Floored) : List WeightedSlice :=
  f.slices.mergeSort fun a b => !sortsBefore b a

/-- The slots that get a unit of the leftover. -/
def Floored.handed (total : ℤ) (f : Floored) : List ℕ :=
  (if 0 ≤ total - f.assigned then f.sorted.take (total - f.assigned).toNat else f.sorted).map
    WeightedSlice.index

theorem quantities_eq (total : ℤ) (norm : List ℚ) :
    VwapExecutionStrategy.quantities total norm =
      let f := norm.foldl (floorSlice total) ⟨[], [], 0⟩
      bump f.qty (f.handed total) := handOut_eq ..

theorem Floored.sorted_perm (f : Floored) : f.sorted.Perm f.slices := List.mergeSort_perm ..

theorem Floored.handed_sublist (total : ℤ) (f : Floored) :
    (f.handed total).Sublist (f.sorted.map WeightedSlice.index) := by
  refine List.Sublist.map _ ?_
  split_ifs
  · exact List.take_sublist ..
  · exact List.Sublist.refl _

section Handed
variable {total : ℤ} {norm : List ℚ} {f : Floored}

theorem FlooredInv.sorted_nodup (hf : FlooredInv total norm f) :
    (f.sorted.map WeightedSlice.index).Nodup :=
  (f.sorted_perm.map _).nodup_iff.mpr hf.indices

theorem FlooredInv.handed_nodup (hf : FlooredInv total norm f) : (f.handed total).Nodup :=
  (f.handed_sublist total).nodup hf.sorted_nodup

theorem FlooredInv.handed_slice (hf : FlooredInv total norm f) {i : ℕ}
    (hi : i ∈ f.handed total) :
    ∃ x, norm[i]? = some x ∧ 0 < x ∧ 0 < Int.fract (total * x) := by
  obtain ⟨s, hs, rfl⟩ := List.mem_map.mp ((f.handed_sublist total).subset hi)
  obtain ⟨x, hx, hpos, hrem, hrempos⟩ := (hf.mem s).mp (f.sorted_perm.mem_iff.mp hs)
  exact ⟨x, hx, hpos, hrem ▸ hrempos⟩

theorem FlooredInv.bump_sum (hf : FlooredInv total norm f) :
    (bump f.qty (f.handed total)).sum = f.assigned + (f.handed total).length := by
  rw [hf.assigned]
  refine sum_bump fun i hi => ?_
  obtain ⟨x, hx, -⟩ := hf.handed_slice hi
  rw [hf.qty_length]
  exact (List.getElem?_eq_some_iff.mp hx).1

theorem FlooredInv.bump_nonneg (hf : FlooredInv total norm f) (htotal : 0 < total) :
    ∀ q ∈ bump f.qty (f.handed total), 0 ≤ q := by
  intro q hq
  obtain ⟨i, hi⟩ := List.mem_iff_getElem?.mp hq
  rw [getElem?_bump hf.handed_nodup, hf.qty, List.getElem?_map, Option.map_map] at hi
  obtain ⟨x, -, rfl⟩ := Option.map_eq_some_iff.mp hi
  have hfloor : 0 ≤ if x ≤ 0 then 0 else ⌊(total : ℚ) * x⌋ := by
    split_ifs with hx
    · exact le_rfl
    · have htotal' : (0 : ℚ) ≤ total := Int.cast_nonneg htotal.le
      exact Int.floor_nonneg.mpr (mul_nonneg htotal' (not_le.mp hx).le)
  have hunit : (0 : ℤ) ≤ if i ∈ f.handed total then 1 else 0 := by split_ifs <;> simp
  exact add_nonneg hfloor hunit

/-- Every remainder is less than a unit. -/
theorem FlooredInv.remainders_le (hf : FlooredInv total norm f) :
    (f.slices.map WeightedSlice.remainder).sum ≤ f.slices.length := by
  have hone : ∀ r ∈ f.slices.map WeightedSlice.remainder, r ≤ 1 := by
    intro r hr
    obtain ⟨s, hs, rfl⟩ := List.mem_map.mp hr
    obtain ⟨x, -, -, hrem, -⟩ := (hf.mem s).mp hs
    rw [hrem]
    exact (Int.fract_lt_one _).le
  have hsum := List.sum_le_card_nsmul _ _ hone
  rwa [List.length_map, nsmul_one] at hsum

end Handed

/-- A sum is that over the positive terms and that over the negative ones. -/
theorem sum_filter_pos_add_neg {f : ℚ → ℚ} (hf : f 0 = 0) (ws : List ℚ) :
    ((ws.filter (0 < ·)).map f).sum + ((ws.filter (· < 0)).map f).sum = (ws.map f).sum := by
  induction ws with
  | nil => simp
  | cons w ws ih =>
    rcases lt_trichotomy w 0 with hw | rfl | hw
    · rw [List.filter_cons_of_neg (by simpa using hw.le), List.filter_cons_of_pos (by simpa using hw),
        List.map_cons, List.map_cons, List.sum_cons, List.sum_cons, ← ih]
      ring
    · simpa [hf] using ih
    · rw [List.filter_cons_of_pos (by simpa using hw), List.filter_cons_of_neg (by simpa using hw.le),
        List.map_cons, List.map_cons, List.sum_cons, List.sum_cons, ← ih]
      ring

/-- The units that are assigned first are those of the positive weights. -/
theorem sum_floors_positive (total : ℤ) (norm : List ℚ) :
    (norm.map fun x : ℚ => if x ≤ 0 then 0 else ⌊total * x⌋).sum =
      ((norm.filter (0 < ·)).map fun x : ℚ => ⌊total * x⌋).sum := by
  induction norm with
  | nil => rfl
  | cons x norm ih =>
    rw [List.map_cons, List.sum_cons, ih]
    by_cases hx : x ≤ 0
    · rw [if_pos hx, zero_add, List.filter_cons_of_neg (by simpa using hx)]
    · rw [if_neg hx, List.filter_cons_of_pos (by simpa using hx), List.map_cons, List.sum_cons]

theorem sum_fract {ι : Type} (f : ι → ℚ) (xs : List ι) :
    (xs.map fun x => Int.fract (f x)).sum =
      (xs.map f).sum - ((xs.map fun x => ⌊f x⌋).sum : ℤ) := by
  induction xs with
  | nil => simp
  | cons x xs ih =>
    rw [List.map_cons, List.map_cons, List.map_cons, List.sum_cons, List.sum_cons, List.sum_cons, ih,
      ← Int.self_sub_floor, Int.cast_add]
    ring

/-- The exact share of a weight. -/
def ExecutionContext.share (ctx : ExecutionContext ℤ) (w : ℚ) : ℚ :=
  ctx.totalQty * (w / ctx.weights.sum)

section Run
variable {ctx : ExecutionContext ℤ}

theorem ne_nil_of_sum_pos {ws : List ℚ} (h : 0 < ws.sum) : ws ≠ [] := by
  rintro rfl
  simp at h

theorem VwapExecutionStrategy.run_eq (htotal : 0 < ctx.totalQty) (hsum : 0 < ctx.weights.sum) :
    run ctx = emit ctx (quantities ctx.totalQty (ctx.weights.map fun w => w / ctx.weights.sum)) 0 := by
  have hne := ne_nil_of_sum_pos hsum
  unfold run normalize
  dsimp only
  rw [if_neg (not_or.mpr ⟨not_le.mpr htotal, hne⟩), if_neg (not_le.mpr hsum),
    if_neg fun h => hne (List.map_eq_nil_iff.mp h)]

theorem VwapExecutionStrategy.run_sum (htotal : 0 < ctx.totalQty) (hsum : 0 < ctx.weights.sum) :
    ((run ctx).map ChildOrder.qty).sum =
      (quantities ctx.totalQty (ctx.weights.map fun w => w / ctx.weights.sum)).sum := by
  rw [run_eq htotal hsum, emit_qty, sum_filter_ne_zero]

theorem shares_sum (hsum : 0 < ctx.weights.sum) :
    (ctx.weights.map ctx.share).sum = ctx.totalQty := by
  have hterm : ∀ w, ctx.share w = ctx.totalQty / ctx.weights.sum * w := by
    intro w
    rw [ExecutionContext.share]
    ring
  rw [List.map_congr_left fun w _ => hterm w, List.sum_map_mul_left, List.map_id',
    div_mul_cancel₀ _ hsum.ne']

theorem share_zero (ctx : ExecutionContext ℤ) : ctx.share 0 = 0 := by
  rw [ExecutionContext.share, zero_div, mul_zero]

theorem filter_norm_pos (hsum : 0 < ctx.weights.sum) :
    (ctx.weights.map fun w => w / ctx.weights.sum).filter (0 < ·) =
      (ctx.weights.filter (0 < ·)).map fun w => w / ctx.weights.sum := by
  rw [List.filter_map]
  refine congrArg (List.map _) (List.filter_congr fun w _ => ?_)
  simp only [Function.comp_apply, div_pos_iff_of_pos_right hsum]

/-- The units that are rounded down first fit into the order exactly when what the
negative weights add to the other shares is lost in the rounding. -/
theorem assigned_le_iff (hsum : 0 < ctx.weights.sum) {f : Floored}
    (hf : FlooredInv ctx.totalQty (ctx.weights.map fun w => w / ctx.weights.sum) f) :
    f.assigned ≤ ctx.totalQty ↔
      -((ctx.weights.filter (· < 0)).map ctx.share).sum ≤
        ((ctx.weights.filter (0 < ·)).map fun w => Int.fract (ctx.share w)).sum := by
  have hassigned : f.assigned = ((ctx.weights.filter (0 < ·)).map fun w => ⌊ctx.share w⌋).sum := by
    rw [hf.assigned, hf.qty, sum_floors_positive, filter_norm_pos hsum, List.map_map]
    rfl
  have hsplit := sum_filter_pos_add_neg (share_zero ctx) ctx.weights
  rw [shares_sum hsum] at hsplit
  rw [sum_fract, ← hassigned, ← @Int.cast_le ℚ]
  constructor <;> intro h <;> linarith

/-- There are remainders enough for the leftover. -/
theorem leftover_le (hsum : 0 < ctx.weights.sum) {f : Floored}
    (hf : FlooredInv ctx.totalQty (ctx.weights.map fun w => w / ctx.weights.sum) f)
    (htotal : 0 < ctx.totalQty) : ctx.totalQty - f.assigned ≤ f.slices.length := by
  have hparts := hf.parts
  have hrem := hf.remainders_le
  have hsplit := sum_filter_pos_add_neg (share_zero ctx) ctx.weights
  rw [shares_sum hsum] at hsplit
  rw [filter_norm_pos hsum, List.map_map] at hparts
  have hneg : ((ctx.weights.filter (· < 0)).map ctx.share).sum ≤ 0 := by
    have hterm : ∀ x ∈ (ctx.weights.filter (· < 0)).map ctx.share, x ≤ 0 := by
      intro x hx
      obtain ⟨w, hw, rfl⟩ := List.mem_map.mp hx
      have hw' : w < 0 := by simpa using (List.mem_filter.mp hw).2
      have htotal' : (0 : ℚ) ≤ ctx.totalQty := Int.cast_nonneg htotal.le
      exact mul_nonpos_of_nonneg_of_nonpos htotal' (div_nonpos_of_nonpos_of_nonneg hw'.le hsum.le)
    have hbound := List.sum_le_card_nsmul _ _ hterm
    rwa [nsmul_zero] at hbound
  have hcast : (ctx.totalQty : ℚ) - f.assigned ≤ f.slices.length := by
    have hshares : ((ctx.weights.filter (0 < ·)).map ctx.share).sum =
        f.assigned + (f.slices.map WeightedSlice.remainder).sum := hparts.symm
    linarith
  exact_mod_cast hcast

/-- What the children add up to. -/
theorem Floored.handed_length {total : ℤ} {f : Floored}
    (hleft : total - f.assigned ≤ f.slices.length) :
    f.assigned + (f.handed total).length = total ∧ f.assigned ≤ total ∨
      total < f.assigned ∧ total < f.assigned + (f.handed total).length := by
  have hsorted : f.sorted.length = f.slices.length := f.sorted_perm.length_eq
  unfold Floored.handed
  rw [List.length_map]
  split_ifs with hfit
  · refine .inl ⟨?_, by omega⟩
    rw [List.length_take, hsorted]
    omega
  · exact .inr ⟨by omega, by omega⟩

end Run

/-- The children add up to the order exactly when the units that the negative weights add
to the other shares are lost in the rounding. -/
theorem vwapExecution_sum_iff {ctx : ExecutionContext ℤ} (htotal : 0 < ctx.totalQty)
    (hsum : 0 < ctx.weights.sum) :
    ((∀ c ∈ VwapExecutionStrategy.run ctx, 0 < c.qty) ∧
        ((VwapExecutionStrategy.run ctx).map ChildOrder.qty).sum = ctx.totalQty) ↔
      -((ctx.weights.filter (· < 0)).map ctx.share).sum ≤
        ((ctx.weights.filter (0 < ·)).map fun w => Int.fract (ctx.share w)).sum := by
  obtain ⟨norm, hnorm⟩ : ∃ norm, norm = ctx.weights.map fun w => w / ctx.weights.sum := ⟨_, rfl⟩
  have hf := flooredInv ctx.totalQty norm
  have hqtys := quantities_eq ctx.totalQty norm
  obtain ⟨f, hdef⟩ : ∃ f, f = norm.foldl (floorSlice ctx.totalQty) ⟨[], [], 0⟩ := ⟨_, rfl⟩
  rw [← hdef] at hf hqtys
  have hnonneg := hf.bump_nonneg htotal
  have hpositive : ∀ c ∈ VwapExecutionStrategy.run ctx, 0 < c.qty := by
    intro c hc
    have hmem : c.qty ∈ (VwapExecutionStrategy.run ctx).map ChildOrder.qty :=
      List.mem_map.mpr ⟨c, hc, rfl⟩
    rw [VwapExecutionStrategy.run_eq htotal hsum, emit_qty, ← hnorm, hqtys] at hmem
    obtain ⟨hmem, hne⟩ := List.mem_filter.mp hmem
    exact lt_of_le_of_ne (hnonneg _ hmem) (Ne.symm (by simpa using hne))
  rw [and_iff_right hpositive, VwapExecutionStrategy.run_sum htotal hsum, ← hnorm, hqtys, hf.bump_sum]
  rw [hnorm] at hf
  rw [← assigned_le_iff hsum hf]
  rcases Floored.handed_length (leftover_le hsum hf htotal) with ⟨heq, hle⟩ | ⟨hgt, hover⟩
  · exact iff_of_true heq hle
  · exact iff_of_false (ne_of_gt hover) (not_le.mpr hgt)

/-- A volume curve of a third and two thirds. -/
theorem vwapExecution_sum_iff_thirds :
    ((VwapExecutionStrategy.run ⟨7, .sell, 10, 0, 1, [1, 2], false⟩).map ChildOrder.qty).sum = 10 :=
  ((vwapExecution_sum_iff (by norm_num) (by norm_num)).mpr
    (by norm_num [ExecutionContext.share])).2

/-- The weights 3 and -1 make a child of 15 out of an order of 10. -/
theorem vwapExecution_negative_weight :
    ¬ ∀ ctx : ExecutionContext ℤ, 0 < ctx.totalQty → 0 < ctx.weights.sum →
      (∀ c ∈ VwapExecutionStrategy.run ctx, 0 < c.qty) ∧
        ((VwapExecutionStrategy.run ctx).map ChildOrder.qty).sum = ctx.totalQty := by
  intro h
  have hrun : VwapExecutionStrategy.run ⟨7, .sell, 10, 0, 1, [3, -1], false⟩ =
      [⟨7, .sell, 15, 0, 1, false⟩] := by
    rw [VwapExecutionStrategy.run_eq (by norm_num) (by norm_num)]
    norm_num [VwapExecutionStrategy.quantities, floorSlice, handOut, emit]
  have hsum := (h ⟨7, .sell, 10, 0, 1, [3, -1], false⟩ (by norm_num) (by norm_num)).2
  rw [hrun] at hsum
  norm_num at hsum

end HftExercises.Strategies
