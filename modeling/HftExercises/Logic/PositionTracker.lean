import Mathlib.Algebra.Order.BigOperators.Group.List
import Mathlib.Algebra.Order.Field.Rat
import Mathlib.Data.List.Induction
import Mathlib.Tactic.FieldSimp
import Mathlib.Tactic.Linarith
import Mathlib.Tactic.Ring

/-! # The average-cost position

A fill averages into the position, closes part of it, or closes all of it and opens
the other side with the rest. Prices and money are exact rationals, quantities
integers.
-/
namespace HftExercises.Position

inductive Side where
  | buy
  | sell
  deriving DecidableEq, Repr

structure PositionTracker where
  position : ℤ
  avgCost : ℚ
  realizedPnl : ℚ
  deriving DecidableEq, Repr

def PositionTracker.init : PositionTracker := ⟨0, 0, 0⟩

def Side.signedQty (side : Side) (qty : ℤ) : ℤ :=
  match side with
  | .buy => qty
  | .sell => -qty

namespace PositionTracker

def onFill (p : PositionTracker) (side : Side) (qty : ℤ) (price : ℚ) : PositionTracker :=
  if qty = 0 then p
  else
    let signedQty := side.signedQty qty
    if p.position = 0 then { p with position := signedQty, avgCost := price }
    else if decide (p.position > 0) = decide (signedQty > 0) then
      let totalCost := p.position * p.avgCost + signedQty * price
      let position := p.position + signedQty
      { p with position := position, avgCost := totalCost / position }
    else
      let oldPos := p.position
      let closing := min |oldPos| |signedQty|
      let realizedPnl :=
        if oldPos > 0 then p.realizedPnl + (price - p.avgCost) * closing
        else p.realizedPnl + (p.avgCost - price) * closing
      let position := p.position + signedQty
      let avgCost :=
        if position = 0 then 0
        else if decide (position > 0) ≠ decide (oldPos > 0) then price
        else p.avgCost
      ⟨position, avgCost, realizedPnl⟩

def unrealizedPnl (p : PositionTracker) (markPrice : ℚ) : ℚ :=
  if p.position = 0 then 0 else (markPrice - p.avgCost) * p.position

end PositionTracker

/-- What a fill of a signed quantity does. -/
inductive FillSpec (p : PositionTracker) (s : ℤ) (price : ℚ) : PositionTracker → Prop
  | ignored (hs : s = 0) : FillSpec p s price p
  | opened (hp : p.position = 0) (hs : s ≠ 0) : FillSpec p s price ⟨s, price, p.realizedPnl⟩
  | averaged (h : 0 < p.position ∧ 0 < s ∨ p.position < 0 ∧ s < 0) :
      FillSpec p s price ⟨p.position + s,
        (p.position * p.avgCost + s * price) / ((p.position + s : ℤ) : ℚ), p.realizedPnl⟩
  | reduced (h : s < 0 ∧ 0 < p.position + s ∨ 0 < s ∧ p.position + s < 0) :
      FillSpec p s price ⟨p.position + s, p.avgCost, p.realizedPnl + (p.avgCost - price) * s⟩
  | flattened (hp : p.position ≠ 0) (h : p.position + s = 0) :
      FillSpec p s price ⟨0, 0, p.realizedPnl + (p.avgCost - price) * s⟩
  | flipped (h : 0 < p.position ∧ p.position + s < 0 ∨ p.position < 0 ∧ 0 < p.position + s) :
      FillSpec p s price ⟨p.position + s, price, p.realizedPnl + (price - p.avgCost) * p.position⟩

/-- The closed quantity `k` counts against the position, whichever side that is on. -/
theorem closing_pnl {position closing k : ℤ}
    (h : 0 < position ∧ closing = -k ∨ position < 0 ∧ closing = k) (pnl price avgCost : ℚ) :
    (if position > 0 then pnl + (price - avgCost) * closing
      else pnl + (avgCost - price) * closing) = pnl + (avgCost - price) * k := by
  rcases h with ⟨hpos, rfl⟩ | ⟨hneg, rfl⟩
  · rw [if_pos hpos]
    push_cast
    ring
  · rw [if_neg (by omega)]

theorem onFill_spec (p : PositionTracker) (side : Side) (qty : ℤ) (price : ℚ) :
    FillSpec p (side.signedQty qty) price (p.onFill side qty price) := by
  have hzero : side.signedQty qty = 0 ↔ qty = 0 := by cases side <;> simp [Side.signedQty]
  obtain ⟨s, hs⟩ : ∃ s, s = side.signedQty qty := ⟨_, rfl⟩
  unfold PositionTracker.onFill
  rw [← hs] at hzero ⊢
  dsimp only
  by_cases hqty : qty = 0
  · rw [if_pos hqty]
    exact .ignored (hzero.mpr hqty)
  have hne : s ≠ 0 := fun h => hqty (hzero.mp h)
  rw [if_neg hqty]
  by_cases hflat : p.position = 0
  · rw [if_pos hflat]
    exact .opened hflat hne
  rw [if_neg hflat]
  by_cases hsame : (p.position > 0 ↔ s > 0)
  · rw [if_pos (decide_eq_decide.mpr hsame)]
    exact .averaged (by omega)
  rw [if_neg (fun h => hsame (decide_eq_decide.mp h))]
  have hposition := abs_cases p.position
  have hclosed := abs_cases s
  by_cases hnow : p.position + s = 0
  · rw [if_pos hnow, hnow, closing_pnl (k := s) (by omega)]
    exact .flattened hflat hnow
  rw [if_neg hnow]
  by_cases hcross : (p.position + s > 0 ↔ p.position > 0)
  · rw [if_neg (fun h => h (decide_eq_decide.mpr hcross)), closing_pnl (k := s) (by omega)]
    exact .reduced (by omega)
  · have hpnl : p.realizedPnl + (p.avgCost - price) * ((-p.position : ℤ) : ℚ) =
        p.realizedPnl + (price - p.avgCost) * p.position := by
      push_cast
      ring
    rw [if_pos (fun h => hcross (decide_eq_decide.mp h)), closing_pnl (k := -p.position) (by omega),
      hpnl]
    exact .flipped (by omega)

/-- Which fill it is is determined by the position. -/
theorem FillSpec.unique {p p' p'' : PositionTracker} {s : ℤ} {price : ℚ}
    (h : FillSpec p s price p') (h' : FillSpec p s price p'') : p' = p'' := by
  cases h <;> cases h' <;> first | rfl | omega

structure Fill where
  side : Side
  qty : ℤ
  price : ℚ
  deriving DecidableEq, Repr

def Fill.signedQty (f : Fill) : ℤ := f.side.signedQty f.qty

def PositionTracker.onFills (p : PositionTracker) (fills : List Fill) : PositionTracker :=
  fills.foldl (fun p f => p.onFill f.side f.qty f.price) p

/-- The position after a fill, and the fills since it last was zero or changed sign. -/
def trackOpening (acc : ℤ × List Fill) (f : Fill) : ℤ × List Fill :=
  (acc.1 + f.signedQty, if 0 < acc.1 * (acc.1 + f.signedQty) then acc.2 ++ [f] else [f])

def sinceOpened (fills : List Fill) : List Fill := (fills.foldl trackOpening (0, [])).2

section Accounting
variable {p p' : PositionTracker} {s : ℤ} {price mark : ℚ}

theorem unrealizedPnl_eq (p : PositionTracker) (mark : ℚ) :
    p.unrealizedPnl mark = (mark - p.avgCost) * p.position := by
  unfold PositionTracker.unrealizedPnl
  split_ifs with h
  · rw [h, Int.cast_zero, mul_zero]
  · rfl

theorem FillSpec.position (h : FillSpec p s price p') : p'.position = p.position + s := by
  cases h with
  | ignored hs => rw [hs, Int.add_zero]
  | opened hp _ => rw [hp, Int.zero_add]
  | flattened _ hflat => exact hflat.symm
  | _ => rfl

/-- Whatever it does to the books, a fill is worth its quantity at the difference
between mark and price. -/
theorem FillSpec.value (h : FillSpec p s price p') (mark : ℚ) :
    p'.realizedPnl + p'.unrealizedPnl mark =
      p.realizedPnl + p.unrealizedPnl mark + s * (mark - price) := by
  have hposition := h.position
  rw [unrealizedPnl_eq, unrealizedPnl_eq]
  cases h with
  | ignored hs =>
    rw [hs]
    push_cast
    ring
  | opened hp _ =>
    dsimp only
    rw [hp]
    push_cast
    ring
  | averaged hsame =>
    have hne : ((p.position + s : ℤ) : ℚ) ≠ 0 := Int.cast_ne_zero.mpr (by omega)
    have hcost : ((p.position * p.avgCost + s * price) / ((p.position + s : ℤ) : ℚ)) *
        ((p.position + s : ℤ) : ℚ) = p.position * p.avgCost + s * price := div_mul_cancel₀ _ hne
    dsimp only
    rw [sub_mul, hcost]
    push_cast
    ring
  | reduced _ =>
    dsimp only
    push_cast
    ring
  | flattened _ hflat =>
    have hs : (s : ℚ) = -p.position := by
      rw [← Int.cast_neg]
      exact congrArg Int.cast (by omega)
    dsimp only
    rw [hs]
    push_cast
    ring
  | flipped _ =>
    dsimp only
    push_cast
    ring

theorem average_between {a b x y : ℚ} (ha : 0 < a) (hb : 0 < b) :
    min x y ≤ (a * x + b * y) / (a + b) ∧ (a * x + b * y) / (a + b) ≤ max x y := by
  have hsum : 0 < a + b := add_pos ha hb
  have hlow := add_le_add (mul_le_mul_of_nonneg_left (min_le_left x y) ha.le)
    (mul_le_mul_of_nonneg_left (min_le_right x y) hb.le)
  have hhigh := add_le_add (mul_le_mul_of_nonneg_left (le_max_left x y) ha.le)
    (mul_le_mul_of_nonneg_left (le_max_right x y) hb.le)
  rw [← add_mul] at hlow hhigh
  constructor
  · rw [le_div_iff₀ hsum, mul_comm]
    exact hlow
  · rw [div_le_iff₀ hsum, mul_comm (max x y)]
    exact hhigh

/-- Averaging in keeps the cost between the old one and the price. -/
theorem cost_between {a b : ℤ} (h : 0 < a ∧ 0 < b ∨ a < 0 ∧ b < 0) (x y : ℚ) :
    min x y ≤ ((a : ℚ) * x + b * y) / ((a + b : ℤ) : ℚ) ∧
      ((a : ℚ) * x + b * y) / ((a + b : ℤ) : ℚ) ≤ max x y := by
  rw [Int.cast_add]
  rcases h with ⟨ha, hb⟩ | ⟨ha, hb⟩
  · exact average_between (Int.cast_pos.mpr ha) (Int.cast_pos.mpr hb)
  · have hneg : ((a : ℚ) * x + b * y) / (a + b) =
        (-(a : ℚ) * x + -(b : ℚ) * y) / (-(a : ℚ) + -b) := by
      rw [← neg_add, neg_mul, neg_mul, ← neg_add, neg_div_neg_eq]
    rw [hneg]
    exact average_between (neg_pos.mpr (Int.cast_lt_zero.mpr ha))
      (neg_pos.mpr (Int.cast_lt_zero.mpr hb))

/-- Some fill of the list is not dearer, and some not cheaper. -/
def Bracketed (fills : List Fill) (cost : ℚ) : Prop :=
  (∃ f ∈ fills, f.qty ≠ 0 ∧ f.price ≤ cost) ∧ ∃ f ∈ fills, f.qty ≠ 0 ∧ cost ≤ f.price

theorem Bracketed.append {fills : List Fill} {cost : ℚ} (h : Bracketed fills cost) (f : Fill) :
    Bracketed (fills ++ [f]) cost := by
  obtain ⟨⟨g, hg, hlow⟩, k, hk, hhigh⟩ := h
  exact ⟨⟨g, List.mem_append_left _ hg, hlow⟩, k, List.mem_append_left _ hk, hhigh⟩

theorem Bracketed.average {fills : List Fill} {cost : ℚ} (h : Bracketed fills cost) {f : Fill}
    (hf : f.qty ≠ 0) {cost' : ℚ} (hbetween : min cost f.price ≤ cost' ∧ cost' ≤ max cost f.price) :
    Bracketed (fills ++ [f]) cost' := by
  obtain ⟨⟨g, hg, hgqty, hlow⟩, k, hk, hkqty, hhigh⟩ := h
  obtain ⟨hmin, hmax⟩ := hbetween
  constructor
  · rcases min_le_iff.mp hmin with hle | hle
    · exact ⟨g, List.mem_append_left _ hg, hgqty, hlow.trans hle⟩
    · exact ⟨f, List.mem_append_right _ List.mem_cons_self, hf, hle⟩
  · rcases le_max_iff.mp hmax with hle | hle
    · exact ⟨k, List.mem_append_left _ hk, hkqty, hle.trans hhigh⟩
    · exact ⟨f, List.mem_append_right _ List.mem_cons_self, hf, hle⟩

theorem bracketed_singleton {f : Fill} (hf : f.qty ≠ 0) : Bracketed [f] f.price :=
  ⟨⟨f, List.mem_cons_self, hf, le_rfl⟩, f, List.mem_cons_self, hf, le_rfl⟩

/-- The tracker after some fills. -/
structure BooksInv (fills : List Fill) (p : PositionTracker) : Prop where
  position : p.position = (fills.map Fill.signedQty).sum
  tracked : (fills.foldl trackOpening (0, [])).1 = p.position
  value : ∀ mark, p.realizedPnl + p.unrealizedPnl mark =
    (fills.map (fun f => f.signedQty * (mark - f.price))).sum
  flat : p.position = 0 → p.avgCost = 0
  cost : p.position ≠ 0 → Bracketed (sinceOpened fills) p.avgCost

theorem sinceOpened_append (fills : List Fill) (f : Fill) :
    let position := (fills.foldl trackOpening (0, [])).1
    sinceOpened (fills ++ [f]) =
      if 0 < position * (position + f.signedQty) then sinceOpened fills ++ [f] else [f] := by
  simp [sinceOpened, trackOpening]

theorem BooksInv.onFill {fills : List Fill} (h : BooksInv fills p) (f : Fill) :
    BooksInv (fills ++ [f]) (p.onFill f.side f.qty f.price) := by
  have hs : FillSpec p f.signedQty f.price (p.onFill f.side f.qty f.price) := onFill_spec ..
  have hqty : f.signedQty ≠ 0 → f.qty ≠ 0 := by
    intro hne hzero
    apply hne
    unfold Fill.signedQty Side.signedQty
    cases f.side <;> simp [hzero]
  obtain ⟨p', hp'⟩ : ∃ p', p' = p.onFill f.side f.qty f.price := ⟨_, rfl⟩
  rw [← hp'] at hs ⊢
  have hsince := sinceOpened_append fills f
  simp only [h.tracked] at hsince
  refine ⟨?_, ?_, ?_, ?_, ?_⟩
  · rw [hs.position, h.position, List.map_append, List.sum_append, List.map_singleton,
      List.sum_singleton]
  · rw [List.foldl_append, hs.position, ← h.tracked]
    rfl
  · intro mark
    rw [hs.value mark, h.value mark, List.map_append, List.sum_append, List.map_singleton,
      List.sum_singleton]
  · intro hflat
    cases hs with
    | ignored _ => exact h.flat hflat
    | flattened _ _ => rfl
    | _ =>
      dsimp only at hflat
      omega
  · intro hopen
    rw [hsince]
    cases hs with
    | ignored hs =>
      rw [hs, Int.add_zero, if_pos (mul_self_pos.mpr hopen)]
      exact (h.cost hopen).append f
    | opened hp hne =>
      rw [hp, zero_mul, if_neg (lt_irrefl 0)]
      exact bracketed_singleton (hqty hne)
    | averaged hsame =>
      have hpos : 0 < p.position * (p.position + f.signedQty) := by
        rcases hsame with hsame | hsame
        · exact mul_pos hsame.1 (by omega)
        · exact mul_pos_of_neg_of_neg hsame.1 (by omega)
      rw [if_pos hpos]
      exact (h.cost (by omega)).average (hqty (by omega)) (cost_between hsame _ _)
    | reduced hleft =>
      have hpos : 0 < p.position * (p.position + f.signedQty) := by
        rcases hleft with hleft | hleft
        · exact mul_pos (by omega) hleft.2
        · exact mul_pos_of_neg_of_neg (by omega) hleft.2
      rw [if_pos hpos]
      exact (h.cost (by omega)).append f
    | flattened _ _ => exact absurd rfl hopen
    | flipped hcross =>
      have hneg : ¬ 0 < p.position * (p.position + f.signedQty) := by
        rcases hcross with hcross | hcross
        · exact (mul_neg_of_pos_of_neg hcross.1 hcross.2).not_gt
        · exact (mul_neg_of_neg_of_pos hcross.1 hcross.2).not_gt
      rw [if_neg hneg]
      exact bracketed_singleton (hqty (by omega))

theorem onFills_booksInv (fills : List Fill) :
    BooksInv fills (PositionTracker.init.onFills fills) := by
  induction fills using List.reverseRecOn with
  | nil =>
    refine ⟨rfl, rfl, ?_, fun _ => rfl, fun hopen => absurd rfl hopen⟩
    intro mark
    simp [PositionTracker.onFills, PositionTracker.init, PositionTracker.unrealizedPnl]
  | append_singleton fills f ih =>
    rw [PositionTracker.onFills, List.foldl_append]
    exact ih.onFill f

end Accounting

/-- After any fills and at any mark. -/
theorem positionTracker_books (fills : List Fill) (mark : ℚ) :
    let p := PositionTracker.init.onFills fills
    p.realizedPnl + p.unrealizedPnl mark =
        (fills.map (fun f => f.signedQty * (mark - f.price))).sum ∧
      p.position = (fills.map Fill.signedQty).sum ∧ (p.position = 0 → p.avgCost = 0) ∧
      (p.position ≠ 0 → Bracketed (sinceOpened fills) p.avgCost) := by
  have hi := onFills_booksInv fills
  exact ⟨hi.value mark, hi.position, hi.flat, hi.cost⟩

section Split
variable {p p' p'' : PositionTracker} {s s' : ℤ} {price : ℚ}

theorem average_same_price {a b : ℤ} (h : a + b ≠ 0) (x : ℚ) :
    ((a : ℚ) * x + b * x) / ((a + b : ℤ) : ℚ) = x := by
  have hne : ((a + b : ℤ) : ℚ) ≠ 0 := Int.cast_ne_zero.mpr h
  rw [← add_mul, ← Int.cast_add, mul_div_cancel_left₀ x hne]

theorem average_twice {a b c : ℤ} (h : a + b ≠ 0) (cost x : ℚ) :
    (((a + b : ℤ) : ℚ) * ((cost + b * x) / ((a + b : ℤ) : ℚ)) + c * x) / ((a + b + c : ℤ) : ℚ) =
      (cost + ((b + c : ℤ) : ℚ) * x) / ((a + (b + c) : ℤ) : ℚ) := by
  have hne : ((a + b : ℤ) : ℚ) ≠ 0 := Int.cast_ne_zero.mpr h
  have hcost : cost + b * x + c * x = cost + ((b + c : ℤ) : ℚ) * x := by
    push_cast
    ring
  rw [mul_div_cancel₀ _ hne, hcost, add_assoc]

theorem FillSpec.append_reduced (hside : 0 ≤ s ∧ 0 ≤ s' ∨ s ≤ 0 ∧ s' ≤ 0)
    (hleft : s < 0 ∧ 0 < p.position + s ∨ 0 < s ∧ p.position + s < 0) (hs' : s' ≠ 0)
    (h' : FillSpec ⟨p.position + s, p.avgCost, p.realizedPnl + (p.avgCost - price) * s⟩ s' price
      p'') : FillSpec p (s + s') price p'' := by
  obtain ⟨position, avgCost, pnl⟩ := p
  dsimp only at h' hleft
  have hpnl : pnl + (avgCost - price) * s + (avgCost - price) * s' =
      pnl + (avgCost - price) * ((s + s' : ℤ) : ℚ) := by
    push_cast
    ring
  by_cases hzero : position + s + s' = 0
  · rw [h'.unique (.flattened (by dsimp only; omega) hzero)]
    dsimp only
    rw [hpnl]
    exact .flattened (by dsimp only; omega) (by dsimp only; omega)
  by_cases hstill : (0 < position + s + s' ↔ 0 < position + s)
  · rw [h'.unique (.reduced (by dsimp only; omega))]
    dsimp only
    rw [hpnl, Int.add_assoc]
    exact .reduced (by dsimp only; omega)
  · have hflip : pnl + (avgCost - price) * s + (price - avgCost) * ((position + s : ℤ) : ℚ) =
        pnl + (price - avgCost) * position := by
      push_cast
      ring
    rw [h'.unique (.flipped (by dsimp only; omega))]
    dsimp only
    rw [hflip, Int.add_assoc]
    exact .flipped (by dsimp only; omega)

theorem FillSpec.append_flattened (hside : 0 ≤ s ∧ 0 ≤ s' ∨ s ≤ 0 ∧ s' ≤ 0)
    (hp : p.position ≠ 0) (hflat : p.position + s = 0) (hs' : s' ≠ 0)
    (h' : FillSpec ⟨0, 0, p.realizedPnl + (p.avgCost - price) * s⟩ s' price p'') :
    FillSpec p (s + s') price p'' := by
  obtain ⟨position, avgCost, pnl⟩ := p
  dsimp only at hp hflat h'
  have hpnl : pnl + (avgCost - price) * s = pnl + (price - avgCost) * position := by
    have hs : (s : ℚ) = -position := by
      rw [← Int.cast_neg]
      exact congrArg Int.cast (by omega)
    rw [hs]
    ring
  have hrest : s' = position + (s + s') := by omega
  rw [h'.unique (.opened rfl hs')]
  dsimp only
  rw [hpnl]
  nth_rewrite 2 [hrest]
  exact .flipped (by dsimp only; omega)

/-- Two fills on one side at one price are one fill. -/
theorem FillSpec.append (hside : 0 ≤ s ∧ 0 ≤ s' ∨ s ≤ 0 ∧ s' ≤ 0) (h : FillSpec p s price p')
    (h' : FillSpec p' s' price p'') : FillSpec p (s + s') price p'' := by
  by_cases hs' : s' = 0
  · obtain rfl := h'.unique (.ignored hs')
    rw [hs', Int.add_zero]
    exact h
  cases h with
  | ignored hs =>
    rw [hs, Int.zero_add]
    exact h'
  | opened hp hs =>
    have hsum : s + s' ≠ 0 := by omega
    have heq := h'.unique (.averaged (p := ⟨s, price, p.realizedPnl⟩) (by dsimp only; omega))
    rw [heq, average_same_price hsum]
    exact .opened hp hsum
  | averaged hsame =>
    have heq := h'.unique (.averaged (by dsimp only; omega))
    rw [heq]
    dsimp only
    rw [average_twice (by omega), Int.add_assoc]
    exact .averaged (by omega)
  | reduced hleft => exact h'.append_reduced hside hleft hs'
  | flattened hp hflat => exact h'.append_flattened hside hp hflat hs'
  | flipped hcross =>
    have hsum : p.position + s + s' ≠ 0 := by omega
    rw [h'.unique (.averaged (by dsimp only; omega))]
    dsimp only
    rw [average_same_price hsum, Int.add_assoc]
    exact .flipped (by omega)

/-- One fill of the sum is the fills one after the other. -/
theorem onFill_append (p : PositionTracker) (side : Side) (price : ℚ) {q₁ q₂ : ℤ} (h₁ : 0 ≤ q₁)
    (h₂ : 0 ≤ q₂) : (p.onFill side q₁ price).onFill side q₂ price = p.onFill side (q₁ + q₂) price := by
  have hsum : side.signedQty q₁ + side.signedQty q₂ = side.signedQty (q₁ + q₂) := by
    cases side with
    | buy => rfl
    | sell => exact (neg_add q₁ q₂).symm
  have hside : 0 ≤ side.signedQty q₁ ∧ 0 ≤ side.signedQty q₂ ∨
      side.signedQty q₁ ≤ 0 ∧ side.signedQty q₂ ≤ 0 := by
    cases side <;> simp only [Side.signedQty] <;> omega
  have happend := (onFill_spec p side q₁ price).append hside (onFill_spec _ side q₂ price)
  rw [hsum] at happend
  exact happend.unique (onFill_spec p side _ price)

end Split

/-- How an execution is split into partial fills does not change the books. -/
theorem onFill_split (p : PositionTracker) (side : Side) (price : ℚ) :
    (∀ q₁ q₂, 0 ≤ q₁ → 0 ≤ q₂ →
      (p.onFill side q₁ price).onFill side q₂ price = p.onFill side (q₁ + q₂) price) ∧
    ∀ parts : List ℤ, (∀ q ∈ parts, 0 ≤ q) →
      parts.foldl (fun p q => p.onFill side q price) p = p.onFill side parts.sum price := by
  refine ⟨fun q₁ q₂ h₁ h₂ => onFill_append p side price h₁ h₂, ?_⟩
  intro parts hparts
  induction parts generalizing p with
  | nil => rfl
  | cons q parts ih =>
    obtain ⟨hq, hparts⟩ := List.forall_mem_cons.mp hparts
    rw [List.foldl_cons, ih _ hparts, onFill_append p side price hq (List.sum_nonneg hparts),
      List.sum_cons]

/-- A short position of 3 is bought back in four parts, two of them beyond zero. -/
theorem onFill_split_cover :
    let p : PositionTracker := ⟨-3, 10, 0⟩
    (p.onFill .buy 3 12).onFill .buy 4 12 = p.onFill .buy 7 12 ∧
      [1, 2, 0, 4].foldl (fun p q => p.onFill .buy q 12) p = p.onFill .buy 7 12 :=
  ⟨(onFill_split _ _ _).1 3 4 (by decide) (by decide), (onFill_split _ _ _).2 [1, 2, 0, 4] (by decide)⟩

end HftExercises.Position
