import Mathlib.Algebra.BigOperators.Group.List.Basic
import HftExercises.Domain.MatchingEngineRuns

/-! # Conservation of quantity over whole runs

What an order came with is split, at every moment, into what it traded on
arrival, what it traded while resting, what still rests and what a cancel took
away. The ledger is kept call by call on the flat book.
-/
namespace HftExercises.Matching

abbrev History := List (Event MatchingEngine Call Result)

def Result.tradeList : Result → List Trade
  | .trades ts => ts
  | .cancelled _ => []

def runTrades (es : History) : List Trade := es.flatMap (fun e => e.result.tradeList)

/-- Quantity queued under an id in either tree. -/
def MatchingEngine.qtyOf (s : MatchingEngine) (id : OrderId) : ℤ :=
  ((s.queuedEntries.filter (fun e => e.id = id)).map LevelEntry.qty).sum

/-- Quantity that successful cancels of an id took out of the book. -/
def cancelledQty (es : History) (id : OrderId) : ℤ :=
  (es.map fun e =>
    if e.call = .cancelOrder id ∧ e.result = .cancelled true then e.before.qtyOf id else 0).sum

/-- Quantity that adds of an id brought; an add of nothing brings nothing. -/
def addedQty (calls : List Call) (id : OrderId) : ℤ :=
  (calls.map fun
    | .addOrder order => if order.id = id then max order.qty 0 else 0
    | .cancelOrder _ => 0).sum

/-- The limit of an order admits a trade price. -/
def Order.Admits (order : Order) (price : ℤ) : Prop :=
  match order.side with
  | .buy => price ≤ order.price
  | .sell => order.price ≤ price

theorem admits_iff_crosses {order : Order} {price : ℤ} :
    order.Admits price ↔ crosses order.side order.price price = true := by
  unfold Order.Admits crosses
  cases order.side <;> simp

theorem admits_self (order : Order) : order.Admits order.price := by
  unfold Order.Admits
  cases order.side <;> exact le_rfl

theorem Refines.qtyOf_eq {s : MatchingEngine} {b : PriceTimeBook} (h : Refines s b) (id : OrderId) :
    s.qtyOf id = restingQty b.resting id := by
  unfold MatchingEngine.qtyOf restingQty
  rw [((h.queuedEntries_perm.filter _).map LevelEntry.qty).sum_eq, List.filter_map, List.map_map]
  rfl

section Flat
variable {order : Order} {b : PriceTimeBook} {m : Match}

theorem aggressorFills_eq {ts : List Trade} (h : ∀ t ∈ ts, t.aggressorId = order.id) (id : OrderId) :
    aggressorFills ts id = if order.id = id then (ts.map Trade.qty).sum else 0 := by
  unfold aggressorFills
  split_ifs with hid
  · rw [List.filter_eq_self.mpr (fun t ht => decide_eq_true ((h t ht).trans hid))]
  · rw [List.filter_eq_nil_iff.mpr (fun t ht => by simpa [h t ht] using hid)]
    rfl

/-- One settled match keeps the ledger of every id. -/
theorem MatchInv.settle_balance (hm : MatchInv order b.resting m) (id : OrderId) :
    restingQty (b.settle order m).resting id + restingFills m.trades id +
        aggressorFills m.trades id =
      restingQty b.resting id + if order.id = id then max order.qty 0 else 0 := by
  have hrest : restingQty (b.settle order m).resting id =
      restingQty m.resting id + if order.id = id then max m.qty 0 else 0 := by
    unfold PriceTimeBook.settle
    by_cases hq : 0 < m.qty
    · simp [hq, max_eq_left hq.le]
    · simp [hq, max_eq_right (not_lt.mp hq)]
  have hbal := hm.balance id
  have hspent := hm.spent
  rw [hrest, aggressorFills_eq (fun t ht => (hm.trades t ht).2.1)]
  split_ifs
  · by_cases hq : 0 < order.qty
    · have hrem := hm.remaining hq
      omega
    · obtain ⟨hqty, hts, _⟩ := hm.untouched (by omega)
      rw [hts] at hbal hspent ⊢
      simp only [List.map_nil, List.sum_nil] at hspent ⊢
      omega
  · omega

theorem restingQty_filter_ne (l : List Resting) (id x : OrderId) :
    restingQty (l.filter (fun r => r.id ≠ id)) x = if x = id then 0 else restingQty l x := by
  induction l with
  | nil => simp
  | cons r l ih =>
    by_cases hr : r.id = id
    · rw [List.filter_cons_of_neg (by simp [hr]), ih, restingQty_cons]
      split_ifs with h₁ h₂
      · rfl
      · exact absurd (h₂.symm.trans hr) h₁
      · omega
    · rw [List.filter_cons_of_pos (by simp [hr]), restingQty_cons, ih, restingQty_cons]
      split_ifs with h₁ h₂ h₂
      · exact absurd (h₁.trans h₂) hr
      · rfl
      · rfl
      · rfl

theorem restingQty_eq_zero {l : List Resting} {id : OrderId} (h : ∀ r ∈ l, r.id ≠ id) :
    restingQty l id = 0 := by
  unfold restingQty
  rw [List.filter_eq_nil_iff.mpr (fun r hr => by simpa using h r hr)]
  rfl

end Flat

/-- Both parties of a trade were added with a positive quantity, on opposite
sides, and admit its price. -/
def TradeJustified (calls : List Call) (t : Trade) : Prop :=
  0 < t.qty ∧ ∃ a r, Call.addOrder a ∈ calls ∧ Call.addOrder r ∈ calls ∧
    a.id = t.aggressorId ∧ r.id = t.restingId ∧ r.side = a.side.opposite ∧
    0 < a.qty ∧ 0 < r.qty ∧ a.Admits t.price ∧ r.Admits t.price

theorem TradeJustified.mono {calls : List Call} {t : Trade} (h : TradeJustified calls t) (c : Call) :
    TradeJustified (calls ++ [c]) t := by
  obtain ⟨hq, a, r, ha, hr, hrest⟩ := h
  exact ⟨hq, a, r, List.mem_append_left _ ha, List.mem_append_left _ hr, hrest⟩

/-- The ledger of a run. -/
structure Ledger (es : History) (s : MatchingEngine) : Prop where
  balance : ∀ id, addedQty (es.map Event.call) id =
    aggressorFills (runTrades es) id + restingFills (runTrades es) id + s.qtyOf id +
      cancelledQty es id
  trades : ∀ t ∈ runTrades es, TradeJustified (es.map Event.call) t

section Append
variable (es : History) (s : MatchingEngine) (c : Call) (o : Result)

@[simp] theorem runTrades_append : runTrades (es ++ [⟨s, c, o⟩]) = runTrades es ++ o.tradeList := by
  simp [runTrades]

@[simp] theorem aggressorFills_append (ts us : List Trade) (id : OrderId) :
    aggressorFills (ts ++ us) id = aggressorFills ts id + aggressorFills us id := by
  simp [aggressorFills]

@[simp] theorem cancelledQty_append (id : OrderId) : cancelledQty (es ++ [⟨s, c, o⟩]) id =
    cancelledQty es id + if c = .cancelOrder id ∧ o = .cancelled true then s.qtyOf id else 0 := by
  simp [cancelledQty]

@[simp] theorem addedQty_append_add (calls : List Call) (order : Order) (id : OrderId) :
    addedQty (calls ++ [.addOrder order]) id =
      addedQty calls id + if order.id = id then max order.qty 0 else 0 := by
  simp [addedQty]

@[simp] theorem addedQty_append_cancel (calls : List Call) (x id : OrderId) :
    addedQty (calls ++ [.cancelOrder x]) id = addedQty calls id := by
  simp [addedQty]

end Append

section Step
variable {es : History} {s : MatchingEngine} {b : PriceTimeBook}

theorem Ledger.addOrder (h : Ledger es s) (hr : RunInv (es.map Event.call) s b) {order : Order}
    {m : Match} {s' : MatchingEngine} (hm : MatchInv order b.resting m)
    (hr' : Refines s' (b.settle order m)) :
    Ledger (es ++ [⟨s, .addOrder order, .trades m.trades⟩]) s' := by
  constructor
  · intro id
    have hstep := hm.settle_balance id
    have hold := h.balance id
    rw [hr.refines.qtyOf_eq] at hold
    simp only [List.map_append, List.map_cons, List.map_nil, addedQty_append_add, runTrades_append,
      Result.tradeList, aggressorFills_append, restingFills_append, cancelledQty_append,
      hr'.qtyOf_eq, reduceCtorEq, false_and, ↓reduceIte]
    omega
  · intro t ht
    rw [List.map_append, List.map_singleton]
    rw [runTrades_append] at ht
    rcases List.mem_append.mp ht with ht | ht
    · exact (h.trades t ht).mono _
    · obtain ⟨hq, hid, hcross, r, hrl, hrid, hrs, hrp⟩ := hm.trades t ht
      obtain ⟨x, hx, hxid, hxs, hxp, hxq⟩ := hr.known r hrl
      have hpos : 0 < order.qty := by
        by_contra hneg
        rw [(hm.untouched (by omega)).2.1] at ht
        simp [Result.tradeList] at ht
      refine ⟨hq, order, x, by simp, List.mem_append_left _ hx, hid.symm, hxid.trans hrid,
        hxs.trans hrs, hpos, hxq, admits_iff_crosses.mpr hcross, ?_⟩
      rw [← hrp, ← hxp]
      exact admits_self x

theorem Ledger.cancelOrder (h : Ledger es s) (hr : RunInv (es.map Event.call) s b) (id : OrderId) :
    Ledger (es ++ [⟨s, .cancelOrder id, .cancelled (s.cancelOrder id).1⟩]) (s.cancelOrder id).2 := by
  obtain ⟨hfound, hr'⟩ := hr.cancelOrder id
  constructor
  · intro x
    have hold := h.balance x
    have hnew : (s.cancelOrder id).2.qtyOf x = if x = id then 0 else s.qtyOf x := by
      rw [hr'.refines.qtyOf_eq, hr.refines.qtyOf_eq]
      exact restingQty_filter_ne _ id x
    have hmissing : (s.cancelOrder id).1 ≠ true → s.qtyOf id = 0 := by
      intro hno
      rw [hr.refines.qtyOf_eq]
      apply restingQty_eq_zero
      have hany : b.resting.any (fun r => r.id == id) = false := by
        rw [hfound] at hno
        exact Bool.eq_false_iff.mpr hno
      exact fun r hrl => by simpa using List.any_eq_false.mp hany r hrl
    simp only [List.map_append, List.map_cons, List.map_nil, addedQty_append_cancel,
      runTrades_append, Result.tradeList, List.append_nil, cancelledQty_append, hnew,
      Call.cancelOrder.injEq, Result.cancelled.injEq]
    by_cases hx : x = id
    · subst hx
      by_cases hc : (s.cancelOrder x).1 = true
      · simp only [hc, and_self, ↓reduceIte]
        omega
      · have hz := hmissing hc
        simp only [hc, ↓reduceIte]
        omega
    · have hx' : id ≠ x := fun he => hx he.symm
      simp only [hx, hx', false_and, ↓reduceIte]
      omega
  · intro t ht
    rw [List.map_append, List.map_singleton]
    rw [runTrades_append, Result.tradeList, List.append_nil] at ht
    exact (h.trades t ht).mono _

theorem Ledger.step (h : Ledger es s) (hr : RunInv (es.map Event.call) s b) {c : Call}
    (hf : FreshId (es.map Event.call) c) :
    ∃ o s', s.step c = some (o, s') ∧ ∃ b', RunInv ((es ++ [Event.mk s c o]).map Event.call) s' b' ∧
      Ledger (es ++ [⟨s, c, o⟩]) s' := by
  cases c with
  | addOrder order =>
    obtain ⟨m, s', _, hm, _, hs, hr', _⟩ := hr.addOrder hf
    refine ⟨.trades m.trades, s', by simp [MatchingEngine.step, hs], b.settle order m,
      by simpa using hr', h.addOrder hr hm hr'.refines⟩
  | cancelOrder id =>
    obtain ⟨_, hr'⟩ := hr.cancelOrder id
    exact ⟨.cancelled (s.cancelOrder id).1, _, rfl, _, by simpa using hr', h.cancelOrder hr id⟩

end Step

theorem Ledger.init : Ledger [] MatchingEngine.init :=
  ⟨fun _ => rfl, by simp [runTrades]⟩

theorem DistinctIds.addedQty_eq {calls : List Call} (h : DistinctIds calls) {order : Order}
    (ho : Call.addOrder order ∈ calls) : addedQty calls order.id = max order.qty 0 := by
  obtain ⟨l, r, rfl⟩ := List.append_of_mem ho
  have hzero : ∀ k : List Call, order.id ∉ addedIds k → addedQty k order.id = 0 := by
    intro k hk
    apply List.sum_eq_zero
    intro x hx
    obtain ⟨c, hc, rfl⟩ := List.mem_map.mp hx
    cases c with
    | cancelOrder _ => rfl
    | addOrder o =>
      have hne : o.id ≠ order.id := fun he => hk (mem_addedIds.mpr ⟨o, hc, he⟩)
      exact if_neg hne
  have hnd : (addedIds l ++ order.id :: addedIds r).Nodup := by
    simpa [DistinctIds, addedIds] using h
  rw [List.nodup_middle, List.nodup_cons, List.mem_append, not_or] at hnd
  have hl := hzero l hnd.1.1
  have hr := hzero r hnd.1.2
  simp only [addedQty] at hl hr
  simp [addedQty, hl, hr]

/-- What a run of `calls` conserves: each order's quantity is accounted for,
every trade is positive and within both limits, and orders without a positive
quantity neither trade nor rest. -/
structure QuantityConserved (calls : List Call) (es : History) (s : MatchingEngine) : Prop where
  accounted : ∀ order, Call.addOrder order ∈ calls → 0 < order.qty →
    order.qty = aggressorFills (runTrades es) order.id + restingFills (runTrades es) order.id +
      s.qtyOf order.id + cancelledQty es order.id
  trades : ∀ t ∈ runTrades es, 0 < t.qty ∧ ∃ a r, Call.addOrder a ∈ calls ∧
    Call.addOrder r ∈ calls ∧ a.id = t.aggressorId ∧ r.id = t.restingId ∧
    a.Admits t.price ∧ r.Admits t.price
  idle : ∀ order, Call.addOrder order ∈ calls → order.qty ≤ 0 →
    (∀ t ∈ runTrades es, t.aggressorId ≠ order.id ∧ t.restingId ≠ order.id) ∧
      ∀ e ∈ s.queuedEntries, e.id ≠ order.id

theorem engine_conserves_quantity (calls : List Call) (h : DistinctIds calls) :
    ∃ es s, exec MatchingEngine.step .init calls = some (es, s) ∧ QuantityConserved calls es s := by
  obtain ⟨es, s, hes, b, hr, hl⟩ := exec_total
    (fun es s => ∃ b, RunInv (es.map Event.call) s b ∧ Ledger es s)
    (fun es s c hr hf => by
      obtain ⟨b, hr, hl⟩ := hr
      exact hl.step hr hf)
    ⟨PriceTimeBook.init, RunInv.init, Ledger.init⟩ h.admissible
  rw [exec_calls hes] at hr
  have htrades := hl.trades
  rw [exec_calls hes] at htrades
  refine ⟨es, s, hes, ?_, ?_, ?_⟩
  · intro order ho hq
    have hbal := hl.balance order.id
    rw [exec_calls hes, h.addedQty_eq ho, max_eq_left hq.le] at hbal
    exact hbal
  · intro t ht
    obtain ⟨hq, a, r, ha, hr, hai, hri, _, _, _, hap, hrp⟩ := htrades t ht
    exact ⟨hq, a, r, ha, hr, hai, hri, hap, hrp⟩
  · intro order ho hq
    have hne : ∀ a : Order, Call.addOrder a ∈ calls → 0 < a.qty → a.id ≠ order.id := by
      intro a ha hpos hid
      have := h.order_eq ha ho hid
      subst this
      omega
    refine ⟨?_, ?_⟩
    · intro t ht
      obtain ⟨_, a, r, ha, hr, hai, hri, _, hap, hrp, _⟩ := htrades t ht
      exact ⟨hai ▸ hne a ha hap, hri ▸ hne r hr hrp⟩
    · intro e he
      obtain ⟨x, hx, rfl⟩ := List.mem_map.mp (hr.refines.queuedEntries_perm.subset he)
      obtain ⟨o, hoc, hid, _, _, hpos⟩ := hr.known x hx
      exact hid ▸ hne o hoc hpos

theorem engine_conserves_quantity_cancel :
    let calls := [.addOrder ⟨1, .sell, 100, 9⟩, .addOrder ⟨2, .buy, 100, 4⟩,
      .addOrder ⟨3, .buy, 101, 2⟩, .addOrder ⟨4, .buy, 101, 0⟩, .cancelOrder 1]
    DistinctIds calls ∧
      ∃ es s, exec MatchingEngine.step .init calls = some (es, s) ∧
        QuantityConserved calls es s :=
  ⟨by decide, engine_conserves_quantity _ (by decide)⟩

end HftExercises.Matching
