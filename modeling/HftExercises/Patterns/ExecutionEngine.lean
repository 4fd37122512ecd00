import HftExercises.Core.Execution
import HftExercises.Patterns.VwapExecution

/-! # The execution engine

An engine holds one strategy, or none, and delegates to it. The children of the three
strategies are read over the integers.
-/
namespace HftExercises.Strategies
open SignedWord Slicing

inductive ExecutionStrategy where
  | twap
  | vwap
  | sniper
  deriving DecidableEq, Repr

def ChildOrder.toInts (c : ChildOrder Int64) : ChildOrder ℤ :=
  ⟨c.parentId.toInt, c.side, c.qty.toInt, c.price.toInt, c.seq.toInt, c.postOnly⟩

def ExecutionContext.toInts (ctx : ExecutionContext Int64) : ExecutionContext ℤ :=
  ⟨ctx.parentId.toInt, ctx.side, ctx.totalQty.toInt, ctx.limit.toInt, ctx.slices, ctx.weights,
    ctx.postOnly⟩

def SniperExecutionStrategy.run (ctx : ExecutionContext Int64) : List (ChildOrder Int64) :=
  if ctx.totalQty ≤ 0 then []
  else [⟨ctx.parentId, ctx.side, ctx.totalQty, ctx.limit, 1, ctx.postOnly⟩]

namespace ExecutionStrategy

def name : ExecutionStrategy → String
  | twap => "twap"
  | vwap => "vwap"
  | sniper => "sniper"

def run (ctx : ExecutionContext Int64) : ExecutionStrategy → List (ChildOrder ℤ)
  | twap => (TwapExecutionStrategy.run ctx).map ChildOrder.toInts
  | vwap => VwapExecutionStrategy.run ctx.toInts
  | sniper => (SniperExecutionStrategy.run ctx).map ChildOrder.toInts

end ExecutionStrategy

/-- The selector: a strategy by its name in any case, or the text of the exception. -/
def makeStrategy (name : String) : Except String ExecutionStrategy :=
  let lower := name.toList.map Char.toLower
  if lower = "twap".toList then .ok .twap
  else if lower = "vwap".toList then .ok .vwap
  else if lower = "sniper".toList then .ok .sniper
  else .error ("unknown execution strategy: " ++ name)

structure ExecutionEngine where
  strategy : Option ExecutionStrategy
  deriving DecidableEq, Repr

inductive EngineCall where
  | setStrategy (strategy : Option ExecutionStrategy)
  /-- `set_strategy(make_strategy(name))` -/
  | select (name : String)
  | execute (ctx : ExecutionContext Int64)
  | strategyName

inductive EngineResult where
  | done
  | threw (what : String)
  | sent (children : List (ChildOrder ℤ))
  | named (name : String)
  deriving DecidableEq, Repr

namespace ExecutionEngine

def execute (e : ExecutionEngine) (ctx : ExecutionContext Int64) : List (ChildOrder ℤ) :=
  match e.strategy with
  | none => []
  | some s => s.run ctx

def strategyName (e : ExecutionEngine) : String :=
  match e.strategy with
  | none => ""
  | some s => s.name

def step (e : ExecutionEngine) : EngineCall → Option (EngineResult × ExecutionEngine)
  | .setStrategy s => some (.done, ⟨s⟩)
  | .select name =>
    match makeStrategy name with
    | .ok s => some (.done, ⟨some s⟩)
    | .error what => some (.threw what, e)
  | .execute ctx => some (.sent (e.execute ctx), e)
  | .strategyName => some (.named e.strategyName, e)

end ExecutionEngine

/-! ## What every strategy sends -/

/-- The children of a parent order: they carry its identity, side and limit, are numbered
from one, and add up to `size`. -/
structure Fulfils (ctx : ExecutionContext ℤ) (postOnly : Bool) (size : ℤ)
    (children : List (ChildOrder ℤ)) : Prop where
  parent : ∀ c ∈ children, c.parentId = ctx.parentId ∧ c.side = ctx.side ∧ c.price = ctx.limit ∧
    c.postOnly = postOnly
  qty : ∀ c ∈ children, 0 ≤ c.qty
  sum : (children.map ChildOrder.qty).sum = size
  seq : children.map ChildOrder.seq = (List.range children.length).map fun (k : ℕ) => (k : ℤ) + 1

/-- The context gives the strategy something to send. -/
def ExecutionStrategy.Sends (ctx : ExecutionContext Int64) : ExecutionStrategy → Prop
  | .twap => 0 < ctx.totalQty.toInt ∧ ctx.slices ≠ 0
  | .vwap => 0 < ctx.totalQty.toInt ∧ 0 < ctx.weights.sum
  | .sniper => 0 < ctx.totalQty.toInt

instance (ctx : ExecutionContext Int64) (s : ExecutionStrategy) : Decidable (s.Sends ctx) :=
  match s with
  | .twap => inferInstanceAs (Decidable (_ ∧ _))
  | .vwap => inferInstanceAs (Decidable (_ ∧ _))
  | .sniper => inferInstanceAs (Decidable (_ < _))

/-- A slice count that is a count, and weights that are weights. -/
structure ExecutionContext.Sane (ctx : ExecutionContext Int64) : Prop where
  slices : ctx.slices.toNat < 2 ^ 63
  weights : ∀ w ∈ ctx.weights, 0 ≤ w

def ExecutionStrategy.postOnly (ctx : ExecutionContext Int64) (s : ExecutionStrategy) : Bool :=
  s == .sniper && ctx.postOnly

def ExecutionStrategy.size (ctx : ExecutionContext Int64) (s : ExecutionStrategy) : ℤ :=
  if s.Sends ctx then ctx.totalQty.toInt else 0

theorem fulfils_nil (ctx : ExecutionContext ℤ) (postOnly : Bool) : Fulfils ctx postOnly 0 [] :=
  ⟨by simp, by simp, rfl, rfl⟩

section Strategies
variable {ctx : ExecutionContext Int64}

theorem le_zero_iff_toInt (q : Int64) : q ≤ 0 ↔ q.toInt ≤ 0 := by
  rw [Int64.le_iff_toInt_le, Int64.toInt_zero]

theorem SniperExecutionStrategy.fulfils :
    Fulfils ctx.toInts ctx.postOnly (ExecutionStrategy.size ctx .sniper)
      ((SniperExecutionStrategy.run ctx).map ChildOrder.toInts) := by
  by_cases hpos : ExecutionStrategy.Sends ctx .sniper
  · have hrun : run ctx = [⟨ctx.parentId, ctx.side, ctx.totalQty, ctx.limit, 1, ctx.postOnly⟩] :=
      if_neg fun h => not_lt.mpr ((le_zero_iff_toInt _).mp h) hpos
    rw [hrun, ExecutionStrategy.size, if_pos hpos]
    exact ⟨by simp [ChildOrder.toInts, ExecutionContext.toInts],
      by simpa [ChildOrder.toInts] using le_of_lt hpos, by simp [ChildOrder.toInts],
      by simp [ChildOrder.toInts]⟩
  · have hrun : run ctx = [] := if_pos ((le_zero_iff_toInt _).mpr (not_lt.mp hpos))
    rw [hrun, ExecutionStrategy.size, if_neg hpos]
    exact fulfils_nil ..

theorem TwapExecutionStrategy.run_of_not_sends (h : ¬ ExecutionStrategy.Sends ctx .twap) :
    run ctx = [] := by
  refine if_pos ?_
  by_contra hnot
  rw [not_or, le_zero_iff_toInt, not_le] at hnot
  exact h hnot

theorem TwapExecutionStrategy.fulfils (hctx : ctx.Sane) :
    Fulfils ctx.toInts false (ExecutionStrategy.size ctx .twap)
      ((TwapExecutionStrategy.run ctx).map ChildOrder.toInts) := by
  by_cases hsends : ExecutionStrategy.Sends ctx .twap
  · obtain ⟨htotal, hslices⟩ := hsends
    have hpos : 0 < ctx.slices.toNat := by
      rw [Nat.pos_iff_ne_zero]
      exact fun h => hslices (UInt64.toNat_inj.mp h)
    have hs : (TwapSlicer.mk ctx.totalQty 0 ctx.slices).Valid :=
      ⟨htotal, hpos, hctx.slices, by simp, by simp⟩
    have hqty : ((run ctx).map ChildOrder.toInts).map ChildOrder.qty =
        evenSplit ctx.totalQty.toInt ctx.slices.toNat := by
      rw [List.map_map]
      exact run_qty hs rfl rfl
    refine ⟨?_, ?_, ?_, ?_⟩
    · rw [run_eq hs rfl rfl]
      simp [ChildOrder.toInts, ExecutionContext.toInts]
    · intro c hc
      have hmem := List.mem_map_of_mem (f := ChildOrder.qty) hc
      rw [hqty] at hmem
      exact evenSplit_nonneg htotal.le _ hmem
    · rw [hqty, evenSplit_sum hpos, ExecutionStrategy.size, if_pos ⟨htotal, hslices⟩]
    · rw [List.length_map, run_eq hs rfl rfl, List.length_map, List.length_range, List.map_map,
        ← run_eq hs rfl rfl]
      exact run_seq hs rfl rfl
  · rw [run_of_not_sends hsends, ExecutionStrategy.size, if_neg hsends]
    exact fulfils_nil ..

theorem mem_emit {ctx : ExecutionContext ℤ} {qtys : List ℤ} {seq : ℤ} {c : ChildOrder ℤ}
    (hc : c ∈ emit ctx qtys seq) : c.parentId = ctx.parentId ∧ c.side = ctx.side ∧
      c.price = ctx.limit ∧ c.postOnly = false := by
  induction qtys generalizing seq with
  | nil => cases hc
  | cons q qtys ih =>
    rw [emit] at hc
    split_ifs at hc with hq
    · exact ih hc
    · rcases List.mem_cons.mp hc with rfl | hc
      · exact ⟨rfl, rfl, rfl, rfl⟩
      · exact ih hc

theorem VwapExecutionStrategy.run_of_not_sends (h : ¬ ExecutionStrategy.Sends ctx .vwap) :
    run ctx.toInts = [] := by
  by_cases hnone : ctx.toInts.totalQty ≤ 0 ∨ ctx.toInts.weights = []
  · exact if_pos hnone
  · have hsum : ctx.toInts.weights.sum ≤ 0 := by
      by_contra hpos
      exact h ⟨not_le.mp (not_or.mp hnone).1, not_le.mp hpos⟩
    have hnorm : normalize ctx.toInts.weights = [] := if_pos hsum
    rw [run, if_neg hnone]
    exact if_pos hnorm

/-- Without negative weights the units that are rounded down first fit into the order. -/
theorem quantities_sum {ctx : ExecutionContext ℤ} (htotal : 0 < ctx.totalQty)
    (hsum : 0 < ctx.weights.sum) (hweights : ∀ w ∈ ctx.weights, 0 ≤ w) :
    (∀ q ∈ VwapExecutionStrategy.quantities ctx.totalQty
        (ctx.weights.map fun w => w / ctx.weights.sum), 0 ≤ q) ∧
      (VwapExecutionStrategy.quantities ctx.totalQty
        (ctx.weights.map fun w => w / ctx.weights.sum)).sum = ctx.totalQty := by
  have hf := flooredInv ctx.totalQty (ctx.weights.map fun w => w / ctx.weights.sum)
  have hnegative : ctx.weights.filter (· < 0) = [] := by
    rw [List.filter_eq_nil_iff]
    intro w hw
    simpa using hweights w hw
  have hfract : 0 ≤ ((ctx.weights.filter (0 < ·)).map fun w => Int.fract (ctx.share w)).sum := by
    refine List.sum_nonneg fun x hx => ?_
    obtain ⟨w, -, rfl⟩ := List.mem_map.mp hx
    exact Int.fract_nonneg _
  have hfits := (assigned_le_iff hsum hf).mpr (by simpa [hnegative] using hfract)
  rw [quantities_eq]
  refine ⟨hf.bump_nonneg htotal, ?_⟩
  rcases Floored.handed_length (leftover_le hsum hf htotal) with ⟨heq, -⟩ | ⟨hover, -⟩
  · rw [hf.bump_sum, heq]
  · exact absurd hfits (not_le.mpr hover)

theorem VwapExecutionStrategy.fulfils (hctx : ctx.Sane) :
    Fulfils ctx.toInts false (ExecutionStrategy.size ctx .vwap) (run ctx.toInts) := by
  by_cases hsends : ExecutionStrategy.Sends ctx .vwap
  · obtain ⟨hnonneg, hsum⟩ := @quantities_sum ctx.toInts hsends.1 hsends.2 hctx.weights
    rw [run_eq hsends.1 hsends.2]
    refine ⟨fun c hc => mem_emit hc, ?_, ?_, ?_⟩
    · intro c hc
      have hmem := List.mem_map_of_mem (f := ChildOrder.qty) hc
      rw [emit_qty] at hmem
      exact hnonneg _ (List.mem_filter.mp hmem).1
    · rw [emit_qty, sum_filter_ne_zero, hsum, ExecutionStrategy.size, if_pos hsends]
      rfl
    · rw [emit_seq]
      simp only [zero_add]
  · rw [run_of_not_sends hsends, ExecutionStrategy.size, if_neg hsends]
    exact fulfils_nil ..

theorem ExecutionStrategy.fulfils (hctx : ctx.Sane) (s : ExecutionStrategy) :
    Fulfils ctx.toInts (s.postOnly ctx) (s.size ctx) (s.run ctx) := by
  cases s with
  | twap => exact TwapExecutionStrategy.fulfils hctx
  | vwap => exact VwapExecutionStrategy.fulfils hctx
  | sniper => exact SniperExecutionStrategy.fulfils

end Strategies

/-! ## The selector and the run of an engine -/

/-- The strategy that goes by this name, in any case. -/
def called? (name : String) : Option ExecutionStrategy :=
  [.twap, .vwap, .sniper].find? fun s => name.toList.map Char.toLower = s.name.toList

theorem makeStrategy_eq (name : String) :
    makeStrategy name = match called? name with
      | some s => .ok s
      | none => .error ("unknown execution strategy: " ++ name) := by
  unfold makeStrategy called?
  dsimp only
  split_ifs with htwap hvwap hsniper
  · rw [List.find?_cons_of_pos (by exact decide_eq_true htwap)]
  · rw [List.find?_cons_of_neg (by exact of_decide_eq_true.mt htwap),
      List.find?_cons_of_pos (by exact decide_eq_true hvwap)]
  · rw [List.find?_cons_of_neg (by exact of_decide_eq_true.mt htwap),
      List.find?_cons_of_neg (by exact of_decide_eq_true.mt hvwap),
      List.find?_cons_of_pos (by exact decide_eq_true hsniper)]
  · rw [List.find?_cons_of_neg (by exact of_decide_eq_true.mt htwap),
      List.find?_cons_of_neg (by exact of_decide_eq_true.mt hvwap),
      List.find?_cons_of_neg (by exact of_decide_eq_true.mt hsniper), List.find?_nil]

/-- What a call hands to the engine, if it comes to it. -/
def EngineCall.handed? : EngineCall → Option (Option ExecutionStrategy)
  | .setStrategy s => some s
  | .select name => (called? name).map some
  | .execute _ => none
  | .strategyName => none

/-- The strategy after some calls: the last one that was handed over. -/
def held (initial : Option ExecutionStrategy) (calls : List EngineCall) :
    Option ExecutionStrategy :=
  (calls.filterMap EngineCall.handed?).getLast?.getD initial

/-- What a call has to answer while the engine holds this strategy. -/
def Answers (strategy : Option ExecutionStrategy) : EngineCall → EngineResult → Prop
  | .setStrategy _, r => r = .done
  | .select name, r => r = match called? name with
    | some _ => .done
    | none => .threw ("unknown execution strategy: " ++ name)
  | .execute ctx, r => ctx.Sane → ∃ children, r = .sent children ∧ match strategy with
    | none => children = []
    | some s => Fulfils ctx.toInts (s.postOnly ctx) (s.size ctx) children
  | .strategyName, r => r = .named (strategy.elim "" ExecutionStrategy.name)

theorem held_append_none {initial : Option ExecutionStrategy} {calls : List EngineCall}
    {call : EngineCall} (h : call.handed? = none) :
    held initial (calls ++ [call]) = held initial calls := by
  simp [held, List.filterMap_append, h]

theorem held_append_some {initial : Option ExecutionStrategy} {calls : List EngineCall}
    {call : EngineCall} {s : Option ExecutionStrategy} (h : call.handed? = some s) :
    held initial (calls ++ [call]) = s := by
  simp [held, List.filterMap_append, h]

theorem ExecutionEngine.step_answers {initial : Option ExecutionStrategy} {calls : List EngineCall}
    {e : ExecutionEngine} (he : e.strategy = held initial calls) (call : EngineCall) :
    ∃ r e', e.step call = some (r, e') ∧ Answers (held initial calls) call r ∧
      e'.strategy = held initial (calls ++ [call]) := by
  cases call with
  | setStrategy s => exact ⟨_, _, rfl, rfl, (held_append_some rfl).symm⟩
  | select name =>
    rw [step, makeStrategy_eq]
    cases hname : called? name with
    | some s =>
      have hhanded : EngineCall.handed? (.select name) = some (some s) := by
        rw [EngineCall.handed?, hname, Option.map_some]
      exact ⟨_, _, rfl, by simp [Answers, hname], (held_append_some hhanded).symm⟩
    | none =>
      have hhanded : EngineCall.handed? (.select name) = none := by
        rw [EngineCall.handed?, hname, Option.map_none]
      exact ⟨_, _, rfl, by simp [Answers, hname], he.trans (held_append_none hhanded).symm⟩
  | execute ctx =>
    refine ⟨_, e, rfl, fun hctx => ⟨_, rfl, ?_⟩, he.trans (held_append_none rfl).symm⟩
    rw [← he, execute]
    cases e.strategy with
    | none => rfl
    | some s => exact s.fulfils hctx
  | strategyName =>
    refine ⟨_, e, rfl, ?_, he.trans (held_append_none rfl).symm⟩
    rw [Answers, ← he, strategyName]
    cases e.strategy <;> rfl

/-- Every call so far was answered by the strategy handed over last. -/
def Served (initial : Option ExecutionStrategy)
    (es : List (Event ExecutionEngine EngineCall EngineResult)) (e : ExecutionEngine) : Prop :=
  e.strategy = held initial (es.map Event.call) ∧
    Admissible (fun l ev => Answers (held initial (l.map Event.call)) ev.call ev.result) es

theorem Served.step {initial : Option ExecutionStrategy}
    {es : List (Event ExecutionEngine EngineCall EngineResult)} {e : ExecutionEngine}
    (h : Served initial es e) (call : EngineCall) :
    ∃ r e', e.step call = some (r, e') ∧ Served initial (es ++ [⟨e, call, r⟩]) e' := by
  obtain ⟨r, e', hcall, hanswer, he'⟩ := ExecutionEngine.step_answers h.1 call
  refine ⟨r, e', hcall, ?_, admissible_append_singleton.mpr ⟨h.2, hanswer⟩⟩
  rw [he', List.map_append, List.map_singleton]

end HftExercises.Strategies
