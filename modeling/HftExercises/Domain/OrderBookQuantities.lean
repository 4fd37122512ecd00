import Mathlib.Algebra.Ring.Nat
import HftExercises.Domain.OrderBookMarket

/-! # Orders without quantity

A market order takes an order out of the book when its quantity is used up. Nothing keeps an
order of quantity zero from coming in by an add or a modify, and it then stays at the front of
a level, is reported and is traded.
-/
namespace HftExercises.Book
variable {P : Type*} [LinearOrder P]

namespace OrderBook

/-- The total quantity at a price. -/
def depth (b : OrderBook P) (side : Side) (price : P) : ℕ :=
  ((b.queueAt side price).map fun n =>
    ((b.byId.lookup n.id).map fun o => o.qty.toNat).getD 0).sum

/-- The call brings an order of quantity zero into the book, or leaves one there. -/
def TakesEmpty (b : OrderBook P) : Call P → Prop
  | .addOrder id _ _ qty => b.byId.lookup id = none ∧ qty = 0
  | .modifyOrder id newQty => (b.byId.lookup id).isSome ∧ newQty = 0
  | _ => False

/-- No order is empty, and no price is reported with an empty quantity unless the sum
overflows. -/
structure NoEmpty (b : OrderBook P) : Prop where
  resting : ∀ id o, b.byId.lookup id = some o → 0 < o.qty
  bid : ∀ t, b.bestBid = some t → b.depth .buy t.price < 2 ^ 64 → 0 < t.qty
  ask : ∀ t, b.bestAsk = some t → b.depth .sell t.price < 2 ^ 64 → 0 < t.qty
  at_price : ∀ side price q, b.qtyAt side price = some q → b.depth side price < 2 ^ 64 → 0 < q

end OrderBook

/-- Every order of the table has a quantity. -/
def Positive (t : IdTable P) : Prop := ∀ id o, t.lookup id = some o → 0 < o.qty

omit [LinearOrder P] in
theorem Positive.erase {t : IdTable P} (h : Positive t) (id : OrderId) : Positive (t.erase id) :=
  fun i o ho => h i o (lookup_of_lookup_erase ho)

omit [LinearOrder P] in
theorem Positive.insert {t : IdTable P} (h : Positive t) {id : OrderId} {o : Order P}
    (ho : 0 < o.qty) : Positive (t.insert id o) := by
  intro i o' ho'
  rcases lookup_insert_eq_some ho' with ⟨rfl, rfl⟩ | ⟨_, ho'⟩
  · exact ho
  · exact h i o' ho'

omit [LinearOrder P] in
theorem Positive.empty : Positive (∅ : IdTable P) := by
  intro id o ho
  rw [AList.lookup_empty] at ho
  cases ho

theorem pos_iff_ne_zero {q : UInt64} : 0 < q ↔ q ≠ 0 := by
  rw [UInt64.lt_iff_toNat_lt, ne_eq, ← UInt64.toNat_inj]
  exact Nat.pos_iff_ne_zero

theorem min_pos {want qty : UInt64} (hw : want ≠ 0) (hq : 0 < qty) : 0 < min want qty := by
  have hmin : min want qty = if want ≤ qty then want else qty := rfl
  rw [hmin]
  split_ifs
  · exact pos_iff_ne_zero.mpr hw
  · exact hq

section Market
variable {b : OrderBook P} {side : Side}

omit [LinearOrder P] in
/-- The loop over a queue of orders with quantities makes trades with quantities. -/
theorem fillQueue_positive {trade : OrderId → UInt64 → Trade P}
    (htrade : ∀ id take, (trade id take).qty = take) {f f' : Fill P} (hp : Positive f.byId)
    (ht : ∀ t ∈ f.trades, 0 < t.qty) (h : fillQueue popFront trade f = some f') :
    Positive f'.byId ∧ ∀ t ∈ f'.trades, 0 < t.qty := by
  refine fillQueue_keeps (T := fun g => Positive g.byId ∧ ∀ t ∈ g.trades, 0 < t.qty) ?_ ⟨hp, ht⟩ h
  rintro g g' ⟨hp, ht⟩ hg hb
  have hwant : g.want ≠ 0 := by
    simp only [fillGuard, Bool.and_eq_true, bne_iff_ne] at hg
    exact hg.2
  obtain ⟨node, rest, hq, ⟨-, rfl⟩ | ⟨o, ho, rfl⟩⟩ := fillBody_cases hb
  · exact ⟨hp, ht⟩
  · refine ⟨?_, fun t htmem => ?_⟩
    · dsimp only
      split_ifs with hleft
      · exact hp.erase _
      · exact hp.insert (pos_iff_ne_zero.mpr hleft)
    · rcases List.mem_append.mp htmem with htmem | htmem
      · exact ht t htmem
      · rw [List.mem_singleton.mp htmem, htrade]
        exact min_pos hwant (hp _ o ho)

/-- So does a market order. -/
theorem BookInv.marketOrder_positive (hb : BookInv b) (hp : Positive b.byId) (side : Side)
    (qty : UInt64) {fill : FillResult P} {b' : OrderBook P}
    (hm : b.marketOrder side qty = some (fill, b')) :
    Positive b'.byId ∧ ∀ t ∈ fill.trades, 0 < t.qty := by
  have hlevel : ∀ (w : Sweep P) price drained v, SweepInv b side.opposite w →
      (Positive w.ob.byId ∧ ∀ t ∈ w.trades, 0 < t.qty) →
      Book.sweepLevel popFront side.opposite price w = some (drained, v) →
      ∀ _ : Option P, Positive v.ob.byId ∧ ∀ t ∈ v.trades, 0 < t.qty := by
    rintro w price drained v - ⟨hp, ht⟩ hs -
    unfold Book.sweepLevel at hs
    split at hs
    · cases hs
    · obtain ⟨f, hf, hv⟩ := Option.map_eq_some_iff.mp hs
      cases hv
      exact fillQueue_positive (fun _ _ => by cases side <;> rfl) hp ht hf
  obtain ⟨w, rfl, htrades, hw⟩ := hb.marketOrder_keeps qty
    (T := fun w => Positive w.ob.byId ∧ ∀ t ∈ w.trades, 0 < t.qty) hlevel
    (fun _ => ⟨hp, nofun⟩) hm
  exact ⟨hw.1, htrades ▸ hw.2⟩

end Market

/-! ## What is reported -/

section Reported
variable {b : OrderBook P}

theorem aggregateQty_concat {queue : List Node} {n : Node} {o : Order P}
    (ho : b.byId.lookup n.id = some o) :
    b.aggregateQty (queue ++ [n]) = b.aggregateQty queue + o.qty := by
  simp [OrderBook.aggregateQty, ho]

theorem aggregateQty_concat_none {queue : List Node} {n : Node}
    (ho : b.byId.lookup n.id = none) : b.aggregateQty (queue ++ [n]) = b.aggregateQty queue := by
  simp [OrderBook.aggregateQty, ho]

theorem aggregateQty_toNat (b : OrderBook P) (queue : List Node) :
    (b.aggregateQty queue).toNat = (queue.map fun n =>
      ((b.byId.lookup n.id).map fun o => o.qty.toNat).getD 0).sum % 2 ^ 64 := by
  induction queue using List.reverseRecOn with
  | nil => rfl
  | append_singleton queue n ih =>
    rw [List.map_append, List.sum_append, Nat.add_mod, ← ih]
    cases ho : b.byId.lookup n.id with
    | none =>
      rw [aggregateQty_concat_none ho]
      simp [ho, Nat.mod_eq_of_lt (b.aggregateQty queue).toNat_lt]
    | some o =>
      rw [aggregateQty_concat ho]
      simp [ho, UInt64.toNat_add]

theorem qtyAt_bestBid {t : Tick P} (h : b.bestBid = some t) :
    b.qtyAt .buy t.price = some t.qty := by
  obtain ⟨e, he, rfl⟩ := Option.map_eq_some_iff.mp h
  have hfind : b.bids.find? e.1 = some e.2 :=
    OrdMap.find?_eq_some_iff.mpr (List.mem_of_getLast? he)
  rw [OrderBook.qtyAt, show b.book .buy = b.bids from rfl, hfind]
  rfl

theorem qtyAt_bestAsk {t : Tick P} (h : b.bestAsk = some t) :
    b.qtyAt .sell t.price = some t.qty := by
  obtain ⟨e, he, rfl⟩ := Option.map_eq_some_iff.mp h
  rw [OrderBook.qtyAt, show b.book .sell = b.asks from rfl, OrdMap.find?_of_begin? he]
  rfl

/-- A level holds an order, and every order has a quantity. -/
theorem BookInv.noEmpty (hb : BookInv b) (hp : Positive b.byId) : b.NoEmpty := by
  have hat : ∀ side price q, b.qtyAt side price = some q → b.depth side price < 2 ^ 64 → 0 < q := by
    intro side price q hq hdepth
    obtain ⟨queue, hfind, rfl⟩ := Option.map_eq_some_iff.mp hq
    rw [OrderBook.depth, queueAt_of_find? hfind] at hdepth
    rw [pos_iff_ne_zero, ne_eq, ← UInt64.toNat_inj, aggregateQty_toNat, Nat.mod_eq_of_lt hdepth]
    cases queue with
    | nil => exact absurd hfind (hb.drained side price)
    | cons n rest =>
      have hmem : n ∈ b.queueAt side price := by
        rw [queueAt_of_find? hfind]
        exact List.mem_cons_self
      obtain ⟨o, ho, -⟩ := hb.linked.exists_order hmem
      have hpos := UInt64.lt_iff_toNat_lt.mp (hp n.id o ho)
      have hzero : UInt64.toNat 0 = 0 := rfl
      rw [List.map_cons, List.sum_cons, ho, Option.map_some, Option.getD_some]
      omega
  exact ⟨hp, fun t ht => hat .buy t.price t.qty (qtyAt_bestBid ht),
    fun t ht => hat .sell t.price t.qty (qtyAt_bestAsk ht), hat⟩

end Reported

/-! ## Over call sequences -/

section Runs
variable {b b' : OrderBook P} {c : Call P} {o : Result P}

/-- A call that brings no empty order in leaves none. -/
theorem BookInv.step_positive (hb : BookInv b) (hp : Positive b.byId) (hc : ¬ b.TakesEmpty c)
    (hs : b.step c = some (o, b')) : Positive b'.byId := by
  cases c with
  | addOrder id side price qty =>
    cases hs
    cases hid : b.byId.lookup id with
    | some x => simpa [OrderBook.addOrder, hid] using hp
    | none =>
      simp only [OrderBook.addOrder, hid]
      exact hp.insert (pos_iff_ne_zero.mpr fun hz => hc ⟨hid, hz⟩)
  | cancelOrder id =>
    obtain ⟨⟨ok, b''⟩, hcancel, heq⟩ := Option.map_eq_some_iff.mp hs
    cases heq
    intro i x hx
    rw [cancelOrder_lookup hcancel] at hx
    split_ifs at hx
    exact hp i x hx
  | modifyOrder id newQty =>
    cases hs
    cases hid : b.byId.lookup id with
    | none => simpa [OrderBook.modifyOrder, hid] using hp
    | some x =>
      simp only [OrderBook.modifyOrder, hid]
      exact hp.insert (pos_iff_ne_zero.mpr fun hz => hc ⟨by rw [hid]; rfl, hz⟩)
  | marketOrder side qty =>
    obtain ⟨⟨fill, b''⟩, hm, heq⟩ := Option.map_eq_some_iff.mp hs
    cases heq
    exact (hb.marketOrder_positive hp side qty hm).1
  | clear =>
    cases hs
    exact .empty

/-- A call that brings an empty order in leaves it there. -/
theorem step_empty (hc : b.TakesEmpty c) (hs : b.step c = some (o, b')) : ¬ Positive b'.byId := by
  intro hp
  cases c with
  | addOrder id side price qty =>
    obtain ⟨hid, rfl⟩ := hc
    cases hs
    simp only [OrderBook.addOrder, hid] at hp
    exact UInt64.lt_irrefl 0 (hp id _ (AList.lookup_insert _))
  | modifyOrder id newQty =>
    obtain ⟨hsome, rfl⟩ := hc
    obtain ⟨x, hid⟩ := Option.isSome_iff_exists.mp hsome
    cases hs
    simp only [OrderBook.modifyOrder, hid] at hp
    exact UInt64.lt_irrefl 0 (hp id _ (AList.lookup_insert _))
  | cancelOrder id => exact hc
  | marketOrder side qty => exact hc
  | clear => exact hc

theorem BookInv.step_filled (hb : BookInv b) (hp : Positive b.byId) {fill : FillResult P}
    (hs : b.step c = some (.filled fill, b')) : ∀ t ∈ fill.trades, 0 < t.qty := by
  cases c with
  | marketOrder side qty =>
    obtain ⟨⟨fill', b''⟩, hm, heq⟩ := Option.map_eq_some_iff.mp hs
    cases heq
    exact (hb.marketOrder_positive hp side qty hm).2
  | cancelOrder id =>
    obtain ⟨r, -, heq⟩ := Option.map_eq_some_iff.mp hs
    cases heq
  | addOrder id side price qty => cases hs
  | modifyOrder id newQty => cases hs
  | clear => cases hs

/-- Trades have quantities, no order is empty and no price is reported as empty all along a
run, if and only if no call of it brings an empty order in. -/
theorem quantities_positive_iff (calls : List (Call P)) :
    ∃ es b, exec OrderBook.step (.init : OrderBook P) calls = some (es, b) ∧
      (((∀ e ∈ es, ∀ fill, e.result = .filled fill → ∀ t ∈ fill.trades, 0 < t.qty) ∧
          (∀ e ∈ es, e.before.NoEmpty) ∧ b.NoEmpty) ↔
        ∀ e ∈ es, ¬ e.before.TakesEmpty e.call) := by
  obtain ⟨es, b, hrun, hend⟩ := exec_runInv calls
  have hbefore : ∀ e ∈ es, BookInv e.before ∧
      ∃ u, e.before.step e.call = some (e.result, u) := by
    intro e he
    obtain ⟨is, l, u, his, -, hcall⟩ := exec_mem hrun he
    exact ⟨exec_invariant (fun _ s => BookInv s) (fun _ _ _ _ _ hs hstep => hs.step hstep)
      (BookInv.empty 0) his, u, hcall⟩
  have hiff := exec_forall_iff BookInv (fun s : OrderBook P => Positive s.byId)
    OrderBook.TakesEmpty (fun _ _ _ _ hs hstep => hs.step hstep)
    (fun _ _ _ _ hs hp hc hstep => hs.step_positive hp hc hstep)
    (fun _ _ _ _ _ hc hstep => step_empty hc hstep) (BookInv.empty 0) .empty hrun
  refine ⟨es, b, hrun, ⟨fun h => ?_, fun h => ?_⟩⟩
  · exact hiff.mp ⟨fun e he => (h.2.1 e he).resting, h.2.2.resting⟩
  · obtain ⟨hpos, ht⟩ := hiff.mpr h
    refine ⟨fun e he fill hfill => ?_, fun e he => (hbefore e he).1.noEmpty (hpos e he),
      hend.inv.noEmpty ht⟩
    obtain ⟨hb, u, hcall⟩ := hbefore e he
    rw [hfill] at hcall
    exact hb.step_filled (hpos e he) hcall

end Runs

/-- An order of quantity zero is the best ask, and a market order trades with it. -/
theorem empty_order_traded :
    ∃ es b, exec OrderBook.step (.init : OrderBook ℕ)
        [.addOrder 1 .sell 100 0, .addOrder 2 .sell 101 5, .marketOrder .buy 3] = some (es, b) ∧
      (∃ e ∈ es, e.before.bestAsk = some ⟨.sell, 100, 0⟩ ∧ e.before.depth .sell 100 < 2 ^ 64) ∧
      ∃ e ∈ es, e.result = .filled ⟨[⟨0, 1, 100, 0⟩, ⟨0, 2, 101, 3⟩], 0⟩ := by
  have hrun : exec OrderBook.step (.init : OrderBook ℕ)
    [.addOrder 1 .sell 100 0, .addOrder 2 .sell 101 5, .marketOrder .buy 3] = some (_, _) := rfl
  refine ⟨_, _, hrun, ⟨_, List.mem_of_getElem? (i := 1) rfl, by decide, by decide⟩,
    ⟨_, List.mem_of_getElem? (i := 2) rfl, by decide⟩⟩

end HftExercises.Book
