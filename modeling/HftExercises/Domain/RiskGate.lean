import HftExercises.Core.MachineWord
import HftExercises.Core.Execution

/-! # The pre-trade risk gate

Both counters ride in one 64-bit word: the notional in the high half, the signed
position in the low one. All arithmetic is on 64-bit integers with wrap-around.
An iteration of either loop is a function of the word it last read; a call that
nobody interferes with commits its first candidate.
-/
namespace HftExercises.Risk

inductive Side where
  | buy
  | sell
  deriving DecidableEq, Repr

structure Order where
  id : Int64
  side : Side
  price : Int64
  qty : Int64
  deriving DecidableEq, Repr

def signExtend (lo : UInt32) : Int64 := lo.toInt32.toInt64

def pack (position notional : Int64) : UInt64 :=
  (position.toUInt64 &&& (0xFFFFFFFF : UInt64)) ||| (notional.toUInt64 <<< (32 : UInt64))

def unpackPosition (cur : UInt64) : Int64 := signExtend cur.toUInt32

def unpackNotional (cur : UInt64) : Int64 := (cur >>> (32 : UInt64)).toInt64

structure RiskGate where
  maxPosition : Int64
  maxNotional : Int64
  state : UInt64

def RiskGate.create (maxPosition maxNotional : Int64) : RiskGate := ⟨maxPosition, maxNotional, 0⟩

def RiskGate.position (g : RiskGate) : Int64 := unpackPosition g.state

def RiskGate.notionalUsed (g : RiskGate) : Int64 := unpackNotional g.state

def Order.reservePosDelta (o : Order) : Int64 := if o.side = .buy then o.qty else -o.qty

def Order.releasePosDelta (o : Order) : Int64 := if o.side = .buy then -o.qty else o.qty

/-- What `check_and_reserve` tries to commit over `cur`, unless it rejects. -/
def RiskGate.reserveCandidate (g : RiskGate) (order : Order) (cur : UInt64) : Option UInt64 :=
  let notionalDelta := order.price * order.qty
  let newPosition := unpackPosition cur + order.reservePosDelta
  let newNotional := unpackNotional cur + notionalDelta
  if newPosition > g.maxPosition ∨ newPosition < -g.maxPosition ∨
      newNotional > g.maxNotional ∨ newNotional < 0 then none
  else some (pack newPosition newNotional)

/-- The notional `release` computes over `cur`, before the clamp. -/
def releasedNotional (order : Order) (cur : UInt64) : Int64 :=
  unpackNotional cur + -(order.price * order.qty)

/-- What `release` tries to commit over `cur`. -/
def releaseCandidate (order : Order) (cur : UInt64) : UInt64 :=
  pack (unpackPosition cur + order.releasePosDelta) (max 0 (releasedNotional order cur))

def RiskGate.checkAndReserve (g : RiskGate) (order : Order) : Bool × RiskGate :=
  match g.reserveCandidate order g.state with
  | none => (false, g)
  | some word => (true, { g with state := word })

def RiskGate.release (g : RiskGate) (order : Order) : RiskGate :=
  { g with state := releaseCandidate order g.state }

/-- The signed quantity of an order, over the integers. -/
def Order.delta (o : Order) : ℤ := if o.side = .buy then o.qty.toInt else -o.qty.toInt

/-- The exact `price * qty`. -/
def Order.notional (o : Order) : ℤ := o.price.toInt * o.qty.toInt

/-- Prices and quantities are never negative. -/
structure Order.Valid (o : Order) : Prop where
  price : 0 ≤ o.price.toInt
  qty : 0 ≤ o.qty.toInt

/-- Limits that fit the halves of the word. -/
structure RiskGate.Limits (g : RiskGate) : Prop where
  position_nonneg : 0 ≤ g.maxPosition.toInt
  position_lt : g.maxPosition.toInt < 2 ^ 31
  notional_nonneg : 0 ≤ g.maxNotional.toInt
  notional_lt : g.maxNotional.toInt < 2 ^ 32

theorem RiskGate.Limits.congr {g g' : RiskGate} (h : g.Limits)
    (hp : g'.maxPosition = g.maxPosition) (hn : g'.maxNotional = g.maxNotional) : g'.Limits :=
  ⟨hp ▸ h.position_nonneg, hp ▸ h.position_lt, hn ▸ h.notional_nonneg, hn ▸ h.notional_lt⟩

/-- The position limit of the contract, `|x| <= max_position`. -/
def WithinPosition (maxPosition : Int64) (x : ℤ) : Prop :=
  -maxPosition.toInt ≤ x ∧ x ≤ maxPosition.toInt

instance (o : Order) : Decidable o.Valid :=
  decidable_of_iff (0 ≤ o.price.toInt ∧ 0 ≤ o.qty.toInt)
    ⟨fun h => ⟨h.1, h.2⟩, fun h => ⟨h.price, h.qty⟩⟩

instance (g : RiskGate) : Decidable g.Limits :=
  decidable_of_iff (0 ≤ g.maxPosition.toInt ∧ g.maxPosition.toInt < 2 ^ 31 ∧
      0 ≤ g.maxNotional.toInt ∧ g.maxNotional.toInt < 2 ^ 32)
    ⟨fun h => ⟨h.1, h.2.1, h.2.2.1, h.2.2.2⟩, fun h => ⟨h.1, h.2, h.3, h.4⟩⟩

instance (maxPosition : Int64) (x : ℤ) : Decidable (WithinPosition maxPosition x) :=
  inferInstanceAs (Decidable (_ ∧ _))

section Word
variable (position notional : Int64) (w : UInt64)

theorem toInt_unpackPosition_pack :
    (unpackPosition (pack position notional)).toInt = position.toInt.bmod (2 ^ 32) := by
  unfold unpackPosition signExtend pack
  have hp := toNat_toUInt64 position
  rw [toInt_low_half, toNat_mask_or_shift]
  rw [Int.bmod_def, Int.bmod_def]
  split_ifs <;> omega

theorem toInt_unpackNotional_pack :
    (unpackNotional (pack position notional)).toInt = notional.toInt % 2 ^ 32 := by
  unfold unpackNotional pack
  have hn := toNat_toUInt64 notional
  rw [toInt_high_half, toNat_mask_or_shift]
  omega

theorem unpackPosition_bounds :
    -2 ^ 31 ≤ (unpackPosition w).toInt ∧ (unpackPosition w).toInt < 2 ^ 31 := by
  unfold unpackPosition signExtend
  rw [toInt_low_half, Int.bmod_def]
  split_ifs <;> omega

theorem unpackNotional_bounds :
    0 ≤ (unpackNotional w).toInt ∧ (unpackNotional w).toInt < 2 ^ 32 := by
  unfold unpackNotional
  have hw := w.toNat_lt
  rw [toInt_high_half]
  omega

end Word

section Candidates
variable {g : RiskGate} {o : Order} {cur word : UInt64}

theorem bmod_eq_self {x : ℤ} (hlo : -2 ^ 63 ≤ x) (hhi : x < 2 ^ 63) : x.bmod (2 ^ 64) = x :=
  Int.bmod_eq_of_le (by omega) (by omega)

/-- A 64-bit value near an overflow is far outside any 32-bit limit. -/
theorem bmod_within_iff {x m : ℤ} (hlo : -2 ^ 63 - 2 ^ 31 ≤ x) (hhi : x < 2 ^ 63 + 2 ^ 31)
    (hm : m < 2 ^ 31) :
    (-m ≤ x.bmod (2 ^ 64) ∧ x.bmod (2 ^ 64) ≤ m) ↔ -m ≤ x ∧ x ≤ m := by
  rw [Int.bmod_def]
  split_ifs <;> omega

theorem bmod_nonneg_le_iff {y m : ℤ} (hm : m < 2 ^ 32) :
    (0 ≤ y.bmod (2 ^ 64) ∧ y.bmod (2 ^ 64) ≤ m) ↔ y % 2 ^ 64 ≤ m := by
  rw [Int.bmod_def]
  split_ifs <;> omega

theorem Order.Valid.toInt_reservePosDelta (ho : o.Valid) : o.reservePosDelta.toInt = o.delta := by
  have hq := o.qty.toInt_lt
  have hq0 := ho.qty
  unfold Order.reservePosDelta Order.delta
  split_ifs
  · rfl
  · rw [Int64.toInt_neg, bmod_eq_self (by omega) (by omega)]

theorem Order.Valid.toInt_releasePosDelta (ho : o.Valid) :
    o.releasePosDelta.toInt = -o.delta := by
  have hq := o.qty.toInt_lt
  have hq0 := ho.qty
  unfold Order.releasePosDelta Order.delta
  split_ifs
  · rw [Int64.toInt_neg, bmod_eq_self (by omega) (by omega)]
  · rw [Int.neg_neg]

theorem Order.Valid.delta_bounds (ho : o.Valid) : -2 ^ 63 < o.delta ∧ o.delta < 2 ^ 63 := by
  have hq := o.qty.toInt_lt
  have hq0 := ho.qty
  unfold Order.delta
  split_ifs <;> omega

theorem Order.Valid.notional_nonneg (ho : o.Valid) : 0 ≤ o.notional :=
  Int.mul_nonneg ho.price ho.qty

/-- The 64-bit checks decide the exact position limit, but the notional limit
only modulo `2 ^ 64`. -/
def RiskGate.Admits (g : RiskGate) (o : Order) (cur : UInt64) : Prop :=
  WithinPosition g.maxPosition ((unpackPosition cur).toInt + o.delta) ∧
    ((unpackNotional cur).toInt + o.notional) % 2 ^ 64 ≤ g.maxNotional.toInt

theorem reserveCandidate_cases (hg : g.Limits) (ho : o.Valid) (cur : UInt64) :
    (g.reserveCandidate o cur = none ∧ ¬ g.Admits o cur) ∨
      ∃ word, g.reserveCandidate o cur = some word ∧ g.Admits o cur ∧
        (unpackPosition word).toInt = (unpackPosition cur).toInt + o.delta ∧
        (unpackNotional word).toInt = ((unpackNotional cur).toInt + o.notional) % 2 ^ 64 := by
  obtain ⟨hM0, hM, hN0, hN⟩ := hg
  have hp := unpackPosition_bounds cur
  have hd := ho.delta_bounds
  have hmax : (-g.maxPosition).toInt = -g.maxPosition.toInt := by
    rw [Int64.toInt_neg, bmod_eq_self (by omega) (by omega)]
  have hpos : (unpackPosition cur + o.reservePosDelta).toInt =
      ((unpackPosition cur).toInt + o.delta).bmod (2 ^ 64) := by
    rw [Int64.toInt_add, ho.toInt_reservePosDelta]
  have hnot : (unpackNotional cur + o.price * o.qty).toInt =
      ((unpackNotional cur).toInt + o.notional).bmod (2 ^ 64) := by
    rw [Int64.toInt_add, Int64.toInt_mul, Int.add_bmod_bmod, Order.notional]
  have hadmits : g.Admits o cur ↔ _ :=
    and_congr (bmod_within_iff (by omega) (by omega) hM).symm (bmod_nonneg_le_iff hN).symm
  rw [hadmits, ← hpos, ← hnot]
  simp only [RiskGate.reserveCandidate, gt_iff_lt, Int64.lt_iff_toInt_lt, hmax, Int64.toInt_zero]
  split_ifs with hreject
  · left
    refine ⟨rfl, ?_⟩
    omega
  · right
    refine ⟨_, rfl, by omega, ?_, ?_⟩
    · rw [toInt_unpackPosition_pack, hpos]
      rw [hpos, Int.bmod_def] at hreject
      rw [Int.bmod_def, Int.bmod_def]
      split_ifs at hreject ⊢ <;> omega
    · rw [toInt_unpackNotional_pack, hnot]
      rw [hnot, Int.bmod_def (_ + o.notional)] at hreject
      rw [Int.bmod_def]
      split_ifs at hreject ⊢ <;> omega

/-- A release of an order that is part of the notional needs no clamp. -/
theorem releaseCandidate_spec (ho : o.Valid) (hfits : o.notional < 2 ^ 63)
    (hpart : o.notional ≤ (unpackNotional cur).toInt) :
    max 0 (releasedNotional o cur) = releasedNotional o cur ∧
      (unpackPosition (releaseCandidate o cur)).toInt =
        ((unpackPosition cur).toInt - o.delta).bmod (2 ^ 32) ∧
      (unpackNotional (releaseCandidate o cur)).toInt =
        (unpackNotional cur).toInt - o.notional := by
  have hn := unpackNotional_bounds cur
  have h0 := ho.notional_nonneg
  have hprod : (o.price * o.qty).toInt = o.notional := by
    rw [Int64.toInt_mul, ← Order.notional, bmod_eq_self (by omega) hfits]
  have hrel : (releasedNotional o cur).toInt = (unpackNotional cur).toInt - o.notional := by
    unfold releasedNotional
    rw [Int64.toInt_add, Int64.toInt_neg, hprod, Int.add_bmod_bmod, ← Int.sub_eq_add_neg,
      bmod_eq_self (by omega) (by omega)]
  have hclamp : max 0 (releasedNotional o cur) = releasedNotional o cur := by
    refine if_pos (Int64.le_iff_toInt_le.mpr ?_)
    rw [hrel, Int64.toInt_zero]
    omega
  refine ⟨hclamp, ?_, ?_⟩
  · unfold releaseCandidate
    rw [toInt_unpackPosition_pack, Int64.toInt_add, ho.toInt_releasePosDelta,
      Int.bmod_bmod_of_dvd (by decide), Int.sub_eq_add_neg]
  · unfold releaseCandidate
    rw [toInt_unpackNotional_pack, hclamp, hrel]
    omega

end Candidates
end HftExercises.Risk
