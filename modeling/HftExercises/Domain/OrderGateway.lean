import HftExercises.Core.HashTable
import HftExercises.Core.Execution

/-! # The idempotent order gateway

A table of first-forward stamps with lazy eviction. `submit` is split where the
code splits: the clock is read first, the rest runs under the mutex. Stamps and
ages are 64-bit words, so an age wraps when the stamp is newer than the reading.
Whether the sink throws is decided by the environment, call by call.
-/
namespace HftExercises.Gateway

abbrev ClientOrderId := UInt64

inductive OrderSide where
  | buy
  | sell
  deriving DecidableEq, Repr

structure Order where
  side : OrderSide
  price : Int64
  qty : Int64
  deriving DecidableEq, Repr

structure OrderGateway where
  dedupWindow : Int64
  seen : AList (fun _ : ClientOrderId => UInt64)

/-- The constructor clamps an invalid window to zero. -/
def OrderGateway.create (dedupWindow : Int64) : OrderGateway :=
  ⟨if dedupWindow ≤ 0 then 0 else dedupWindow, ∅⟩

/-- `static_cast<std::uint64_t>(dedup_window_.count())`. -/
def OrderGateway.windowCount (g : OrderGateway) : UInt64 := g.dedupWindow.toUInt64

def OrderGateway.compactLocked (g : OrderGateway) (now : UInt64) : OrderGateway :=
  { g with seen := keepEntries (fun stamp => !decide (now - stamp > g.windowCount)) g.seen }

inductive Outcome where
  | returned (accepted : Bool)
  | threw
  deriving DecidableEq, Repr

/-- How a submit ended, and the orders the sink took from it. -/
structure SubmitResult where
  outcome : Outcome
  forwarded : List Order
  deriving DecidableEq, Repr

/-- A submit after its clock read. -/
structure Submission where
  now : UInt64
  cid : ClientOrderId
  order : Order
  sinkThrows : Bool
  deriving DecidableEq, Repr

def OrderGateway.isDuplicate (g : OrderGateway) (now : UInt64) (cid : ClientOrderId) : Bool :=
  match g.seen.lookup cid with
  | none => false
  | some stamp => decide (now - stamp ≤ g.windowCount)

/-- The mutex-protected part of `submit`. -/
def OrderGateway.submitLocked (g : OrderGateway) (c : Submission) : SubmitResult × OrderGateway :=
  let compacted := g.compactLocked c.now
  if compacted.isDuplicate c.now c.cid then (⟨.returned false, []⟩, compacted)
  else
    let stamped := { compacted with seen := compacted.seen.insert c.cid c.now }
    if c.sinkThrows then (⟨.threw, []⟩, stamped)
    else (⟨.returned true, [c.order]⟩, stamped)

def OrderGateway.step (g : OrderGateway) (c : Submission) : Option (SubmitResult × OrderGateway) :=
  some (g.submitLocked c)

section Stamps
variable {g : OrderGateway} {c : Submission} {cid : ClientOrderId} {stamp : UInt64}

theorem lookup_compactLocked {now : UInt64} : (g.compactLocked now).seen.lookup cid = some stamp ↔
    g.seen.lookup cid = some stamp ∧ now - stamp ≤ g.windowCount := by
  unfold OrderGateway.compactLocked
  rw [lookup_keepEntries]
  simp

/-- After compaction only live stamps are left, so an id is a duplicate exactly
when it is still in the table. -/
theorem isDuplicate_compactLocked {now : UInt64} :
    (g.compactLocked now).isDuplicate now cid = ((g.compactLocked now).seen.lookup cid).isSome := by
  unfold OrderGateway.isDuplicate
  cases hl : (g.compactLocked now).seen.lookup cid with
  | none => rfl
  | some stamp => exact decide_eq_true (lookup_compactLocked.mp hl).2

@[simp] theorem submitLocked_window : (g.submitLocked c).2.dedupWindow = g.dedupWindow := by
  unfold OrderGateway.submitLocked
  dsimp only
  split_ifs <;> rfl

@[simp] theorem submitLocked_windowCount : (g.submitLocked c).2.windowCount = g.windowCount := by
  rw [OrderGateway.windowCount, submitLocked_window, OrderGateway.windowCount]

/-- A submit of an id with a live stamp returns false and only compacts. -/
theorem submitLocked_duplicate (h : (g.compactLocked c.now).seen.lookup c.cid = some stamp) :
    g.submitLocked c = (⟨.returned false, []⟩, g.compactLocked c.now) := by
  have hd : (g.compactLocked c.now).isDuplicate c.now c.cid = true := by
    rw [isDuplicate_compactLocked, h]
    rfl
  simp [OrderGateway.submitLocked, hd]

/-- Any other submit stamps the id and calls the sink. -/
theorem submitLocked_fresh (h : (g.compactLocked c.now).seen.lookup c.cid = none) :
    (g.submitLocked c).1 =
        (if c.sinkThrows then ⟨.threw, []⟩ else ⟨.returned true, [c.order]⟩) ∧
      (g.submitLocked c).2.seen = (g.compactLocked c.now).seen.insert c.cid c.now := by
  have hd : (g.compactLocked c.now).isDuplicate c.now c.cid = false := by
    rw [isDuplicate_compactLocked, h]
    rfl
  simp only [OrderGateway.submitLocked, hd]
  cases c.sinkThrows <;> simp

end Stamps

theorem windowCount_create (dedupWindow : Int64) :
    (OrderGateway.create dedupWindow).windowCount.toNat = dedupWindow.toInt.toNat := by
  have hle : dedupWindow ≤ 0 ↔ dedupWindow.toInt ≤ 0 := by
    rw [Int64.le_iff_toInt_le, Int64.toInt_zero]
  unfold OrderGateway.windowCount OrderGateway.create
  by_cases hw : dedupWindow ≤ 0
  · simp only [hw, if_true, Int.toNat_of_nonpos (hle.mp hw)]
    rfl
  · have hpos : ¬ dedupWindow.toInt ≤ 0 := fun h => hw (hle.mpr h)
    have hword : dedupWindow.toUInt64.toNat = dedupWindow.toBitVec.toNat := rfl
    have hint : dedupWindow.toInt = dedupWindow.toBitVec.toInt := rfl
    have hlt := dedupWindow.toBitVec.isLt
    rw [hint, BitVec.toInt_eq_toNat_cond] at hpos
    simp only [hw, if_false, hword, hint, BitVec.toInt_eq_toNat_cond]
    split_ifs at hpos ⊢ <;> omega

end HftExercises.Gateway
