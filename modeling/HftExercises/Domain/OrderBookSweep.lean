import HftExercises.Domain.OrderBookLinks

/-! # Market orders keep the order book linked

The loop over a queue keeps the level it works on linked with the table, so it
never meets an id the table lacks, and it pops an order or exhausts the
aggressor. The loops over the levels always stand on a level of the map, also
while they erase through a reverse iterator, and move towards the end.
-/
namespace HftExercises.Book
variable {P : Type*} [LinearOrder P]

/-- What holds between calls, whatever the calls were. -/
structure BookInv (b : OrderBook P) : Prop where
  linked : Linked b.byId b.queueAt
  drained : ∀ side price, (b.book side).find? price ≠ some []
  fresh : ∀ id o, b.byId.lookup id = some o → o.queuePos < b.nextNode

theorem queueAt_of_find? {b : OrderBook P} {side : Side} {price : P} {queue : List Node}
    (h : (b.book side).find? price = some queue) : b.queueAt side price = queue := by
  rw [OrderBook.queueAt, h]
  rfl

/-- A queued order sits in a level of its map. -/
theorem exists_level_of_mem {b : OrderBook P} {side : Side} {price : P} {n : Node}
    (h : n ∈ b.queueAt side price) : ∃ queue, (b.book side).find? price = some queue ∧ n ∈ queue := by
  unfold OrderBook.queueAt at h
  cases hq : (b.book side).find? price with
  | none =>
    rw [hq] at h
    cases h
  | some queue =>
    rw [hq] at h
    exact ⟨queue, rfl, h⟩

/-- The maps of `b'` are those of `b` with one queue written back. -/
def Stores (b b' : OrderBook P) (side : Side) (price : P) (queue : List Node) : Prop :=
  ∀ s, b'.book s = if s = side then storeQueue (b.book side) price queue else b.book s

section Store
variable {b b' : OrderBook P} {side : Side} {price : P} {queue : List Node} {m : PriceMap P}

theorem stores_setBook (t : IdTable P) (n : ℕ) : Stores b
    { b.setBook side (storeQueue (b.book side) price queue) with byId := t, nextNode := n }
    side price queue := by
  intro s
  cases side <;> cases s <;> rfl

theorem nextNode_setBook : (b.setBook side m).nextNode = b.nextNode := by
  cases side <;> rfl

theorem find?_storeQueue (p : P) : (storeQueue m price queue).find? p =
    if p = price then (if queue = [] then none else some queue) else m.find? p := by
  unfold storeQueue
  cases queue with
  | nil => simp [OrdMap.find?_erase]
  | cons n rest => simp [OrdMap.find?_set]

theorem keys_storeQueue (hp : price ∈ m.keys) : (storeQueue m price queue).keys =
    if queue.isEmpty then m.keys.filter (fun p => p ≠ price) else m.keys := by
  unfold storeQueue
  split_ifs
  · rw [OrdMap.keys_erase]
  · rw [OrdMap.keys_set hp]

theorem Stores.queueAt (h : Stores b b' side price queue) :
    b'.queueAt = place b.queueAt side price queue := by
  funext s p
  unfold OrderBook.queueAt place
  rw [h s]
  by_cases hs : s = side
  · subst hs
    rw [if_pos rfl, find?_storeQueue]
    by_cases hp : p = price
    · simp only [hp, if_true, and_self]
      split_ifs with hq
      · rw [hq]
        rfl
      · rfl
    · simp [hp]
  · simp [hs]

/-- Writing back one queue keeps the book, once the table is linked with it. -/
theorem BookInv.store (h : BookInv b) (hs : Stores b b' side price queue)
    (hl : Linked b'.byId (place b.queueAt side price queue))
    (hf : ∀ id o, b'.byId.lookup id = some o → o.queuePos < b'.nextNode) : BookInv b' where
  linked := by
    rw [hs.queueAt]
    exact hl
  drained := by
    intro s p
    rw [hs s]
    split_ifs
    · rw [find?_storeQueue]
      split_ifs with hp hq
      · simp
      · simpa using hq
      · exact h.drained side p
    · exact h.drained s p
  fresh := hf

end Store

/-- The level under the loop, with the other levels `q` as they were. -/
structure FillInv (q : Side → P → List Node) (side : Side) (price : P) (bound : ℕ)
    (f : Fill P) : Prop where
  linked : Linked f.byId (place q side price f.queue)
  sub : f.queue.Sublist (q side price)
  fresh : ∀ id o, f.byId.lookup id = some o → o.queuePos < bound

def fillMeasure (f : Fill P) : ℕ := f.queue.length + if f.want = 0 then 0 else 1

section Fill
variable {q : Side → P → List Node} {side : Side} {price : P} {bound : ℕ} {f : Fill P}

/-- Either the front order or the aggressor is exhausted. -/
theorem min_exhausts {want qty : UInt64} (h : qty - min want qty ≠ 0) :
    want - min want qty = 0 := by
  have hmin : min want qty = if want ≤ qty then want else qty := rfl
  rw [hmin] at h ⊢
  split_ifs at h ⊢
  · exact UInt64.sub_self want
  · exact absurd (UInt64.sub_self qty) h

theorem FillInv.body (h : FillInv q side price bound f) (hg : fillGuard f = true)
    (trade : OrderId → UInt64 → Trade P) :
    ∃ f', (∀ d, fillBody d trade f = some f') ∧ FillInv q side price bound f' ∧
      fillMeasure f' < fillMeasure f := by
  obtain ⟨byId, queue, want, trades⟩ := f
  cases queue with
  | nil => simp [fillGuard] at hg
  | cons node rest =>
    have hwant : want ≠ 0 := by simpa [fillGuard] using hg
    have hplace : place q side price (node :: rest) side price = node :: rest := place_self
    have hmem : node ∈ place q side price (node :: rest) side price := by
      rw [hplace]
      exact List.mem_cons_self
    obtain ⟨resting, hrest, _⟩ := h.linked.exists_order hmem
    by_cases hleft : resting.qty - min want resting.qty = 0
    · refine ⟨⟨byId.erase node.id, rest, want - min want resting.qty,
        trades ++ [trade node.id (min want resting.qty)]⟩, ?_, ⟨?_, ?_, ?_⟩, ?_⟩
      · intro d
        simp [fillBody, hrest, hleft]
      · have hrem := h.linked.remove hmem
          (by rw [hplace]; exact List.sublist_cons_self node rest)
          (h.linked.mem_tail_iff hplace)
        rwa [place_place] at hrem
      · exact (List.sublist_cons_self node rest).trans h.sub
      · exact fun id o ho => h.fresh id o (lookup_of_lookup_erase ho)
      · simp only [fillMeasure, List.length_cons, hwant, if_false]
        split_ifs <;> omega
    · refine ⟨⟨byId.insert node.id { resting with qty := resting.qty - min want resting.qty },
        node :: rest, want - min want resting.qty,
        trades ++ [trade node.id (min want resting.qty)]⟩, ?_, ⟨?_, h.sub, ?_⟩, ?_⟩
      · intro d
        simp [fillBody, hrest, hleft]
      · exact h.linked.requantify hrest _
      · intro id o ho
        rcases lookup_insert_eq_some ho with ⟨rfl, rfl⟩ | ⟨_, ho⟩
        · exact h.fresh node.id resting hrest
        · exact h.fresh id o ho
      · simp [fillMeasure, hwant, min_exhausts hleft]

theorem FillInv.fillQueue (h : FillInv q side price bound f)
    (trade : OrderId → UInt64 → Trade P) :
    ∃ f', (∀ d, fillQueue d trade f = some f') ∧ FillInv q side price bound f' := by
  have hfuel : fillMeasure f ≤ f.queue.length + 1 := by
    unfold fillMeasure
    split_ifs <;> omega
  obtain ⟨f', hf', hi, _⟩ := whileLoop_total (fun d => fillBody d trade)
    (FillInv q side price bound) fillMeasure (fun f hf hg => hf.body hg trade) hfuel h
  exact ⟨f', hf', hi⟩

end Fill

/-- Every queue only loses nodes, and the rest keep their order. -/
def Shrinks (b b' : OrderBook P) : Prop :=
  ∀ side price, (b'.queueAt side price).Sublist (b.queueAt side price)

/-- The loop over a queue starts on a level of the book. -/
theorem BookInv.fillInv {b : OrderBook P} (h : BookInv b) {side : Side} {price : P}
    {queue : List Node} (hq : (b.book side).find? price = some queue) (want : UInt64)
    (trades : List (Trade P)) :
    FillInv b.queueAt side price b.nextNode ⟨b.byId, queue, want, trades⟩ := by
  have hat := queueAt_of_find? hq
  refine ⟨?_, hat ▸ List.Sublist.refl _, h.fresh⟩
  rw [place_eq_self hat]
  exact h.linked

theorem BookInv.sweepLevel {w : Sweep P} (h : BookInv w.ob) (side : Side) {price : P}
    (hp : price ∈ (w.ob.book side).keys) :
    ∃ p, (∀ d, sweepLevel d side price w = some p) ∧ BookInv p.2.ob ∧ Shrinks w.ob p.2.ob ∧
      (p.2.ob.book side).keys = if p.1 then (w.ob.book side).keys.filter (fun k => k ≠ price)
        else (w.ob.book side).keys := by
  obtain ⟨queue, hq⟩ := OrdMap.mem_keys_iff.mp hp
  obtain ⟨f, hf, hi⟩ := (h.fillInv hq w.want w.trades).fillQueue (tradeAgainst side price)
  have hstores : Stores w.ob
      { w.ob.setBook side (storeQueue (w.ob.book side) price f.queue) with byId := f.byId }
      side price f.queue := stores_setBook f.byId _
  refine ⟨(f.queue.isEmpty, { w with
    ob := { w.ob.setBook side (storeQueue (w.ob.book side) price f.queue) with byId := f.byId }
    want := f.want
    trades := f.trades }), ?_, h.store hstores hi.linked ?_, ?_, ?_⟩
  · intro d
    simp [Book.sweepLevel, hq, hf d]
  · intro id o ho
    exact (hi.fresh id o ho).trans_eq nextNode_setBook.symm
  · intro s p
    rw [hstores.queueAt]
    exact place_sublist hi.sub s p
  · have hbook := hstores side
    rw [if_pos rfl] at hbook
    simp only [hbook, keys_storeQueue hp]

theorem keys_sublist {m m' : PriceMap P} {drained : Bool} {price : P}
    (h : m'.keys = if drained then m.keys.filter (fun k => k ≠ price) else m.keys) :
    m'.keys.Sublist m.keys := by
  rw [h]
  split_ifs
  · exact List.filter_sublist
  · exact List.Sublist.refl _

/-- The loop stands on a level of the swept side, or at its end. -/
structure SweepInv (b : OrderBook P) (side : Side) (w : Sweep P) : Prop where
  inv : BookInv w.ob
  shrinks : Shrinks b w.ob
  onLevel : ∀ p ∈ w.it, p ∈ (w.ob.book side).keys

/-- The loops start on the best level. -/
theorem BookInv.asksStart {b : OrderBook P} (h : BookInv b) (qty : UInt64) :
    SweepInv b .sell ⟨b, b.asks.firstKey?, qty, []⟩ :=
  ⟨h, fun _ _ => List.Sublist.refl _, fun _ hp => List.mem_of_mem_head? hp⟩

theorem BookInv.bidsStart {b : OrderBook P} (h : BookInv b) (qty : UInt64) :
    SweepInv b .buy ⟨b, none, qty, []⟩ :=
  ⟨h, fun _ _ => List.Sublist.refl _, fun _ hp => by cases hp⟩

def asksLeft (w : Sweep P) : ℕ :=
  match w.it with
  | none => 0
  | some p => (w.ob.asks.keys.filter (fun k => decide (p ≤ k))).length

def bidsLeft (w : Sweep P) : ℕ := (w.ob.bids.keys.filter (OrdMap.isBefore (fun p q => p < q) w.it)).length

theorem asksLeft_le (w : Sweep P) : asksLeft w ≤ w.ob.asks.entries.length := by
  have hkeys : w.ob.asks.keys.length = w.ob.asks.entries.length := List.length_map _
  unfold asksLeft
  split
  · exact Nat.zero_le _
  · exact (List.length_filter_le _ _).trans_eq hkeys

theorem bidsLeft_le (w : Sweep P) : bidsLeft w ≤ w.ob.bids.entries.length := by
  have hkeys : w.ob.bids.keys.length = w.ob.bids.entries.length := List.length_map _
  exact (List.length_filter_le _ _).trans_eq hkeys

section Loops
variable {b : OrderBook P} {w : Sweep P}

theorem SweepInv.asksBody (h : SweepInv b .sell w) (hg : asksGuard w = true) :
    ∃ w', (∀ d, asksBody d w = some w') ∧ SweepInv b .sell w' ∧ asksLeft w' < asksLeft w := by
  cases hit : w.it with
  | none => simp [asksGuard, hit] at hg
  | some price =>
    have hp : price ∈ w.ob.asks.keys := h.onLevel price (by rw [hit]; rfl)
    obtain ⟨p, hsweep, hinv, hshrink, hkeys⟩ := h.inv.sweepLevel .sell hp
    refine ⟨{ p.2 with it := p.2.ob.asks.nextKey? price }, ?_, ⟨hinv, ?_, ?_⟩, ?_⟩
    · intro d
      simp [Book.asksBody, hit, hsweep d]
    · exact fun s k => (hshrink s k).trans (h.shrinks s k)
    · exact fun k hk => (OrdMap.nextKey?_mem hk).1
    · have hsub : p.2.ob.asks.keys.Sublist w.ob.asks.keys := keys_sublist hkeys
      cases hnext : p.2.ob.asks.nextKey? price with
      | none =>
        simp only [asksLeft, hit]
        exact List.length_pos_of_mem (List.mem_filter.mpr ⟨hp, decide_eq_true le_rfl⟩)
      | some next =>
        have hlt : price < next := (OrdMap.nextKey?_mem hnext).2
        simp only [asksLeft, hit]
        refine ((hsub.filter _).length_le).trans_lt ?_
        refine length_filter_lt_of_imp ?_ hp (decide_eq_true le_rfl) (decide_eq_false hlt.not_ge)
        intro k _ hk
        exact decide_eq_true (hlt.le.trans (of_decide_eq_true hk))

theorem SweepInv.bidsBody (h : SweepInv b .buy w) (hg : bidsGuard w = true) :
    ∃ w', (∀ d, bidsBody d w = some w') ∧ SweepInv b .buy w' ∧ bidsLeft w' < bidsLeft w := by
  have hne : w.it ≠ w.ob.bids.firstKey? := by
    intro he
    simp [bidsGuard, he] at hg
  obtain ⟨price, hprev⟩ : ∃ price, w.ob.bids.prevKey? w.it = some price :=
    OrdMap.exists_prevKey? h.onLevel hne
  obtain ⟨hp, hbefore⟩ := OrdMap.prevKey?_mem hprev
  have hfewer := OrdMap.length_before_lt hp hbefore
  obtain ⟨⟨drained, v⟩, hsweep, hinv, hshrink, hkeys⟩ := h.inv.sweepLevel .buy hp
  have hshrinks : Shrinks b v.ob := fun s k => (hshrink s k).trans (h.shrinks s k)
  cases drained with
  | true =>
    refine ⟨{ v with it := v.ob.bids.nextKey? price }, ?_, ⟨hinv, hshrinks, ?_⟩, ?_⟩
    · intro d
      simp [Book.bidsBody, hprev, hsweep d]
    · exact fun k hk => (OrdMap.nextKey?_mem hk).1
    · have hbelow : ∀ k ∈ v.ob.bids.keys,
          OrdMap.isBefore (fun p q : P => p < q) (v.ob.bids.nextKey? price) k = true →
          OrdMap.isBefore (fun p q : P => p < q) (some price) k = true := by
        intro k hk hb
        have hk' := hk
        rw [show v.ob.bids.keys = _ from hkeys] at hk'
        have hne : k ≠ price := by simpa using (List.mem_filter.mp hk').2
        exact decide_eq_true (OrdMap.isBefore_nextKey? hk hne hb)
      have hle := List.countP_mono_left hbelow
      rw [List.countP_eq_length_filter, List.countP_eq_length_filter] at hle
      have hsub : v.ob.bids.keys.Sublist w.ob.bids.keys := keys_sublist hkeys
      exact (hle.trans (hsub.filter _).length_le).trans_lt hfewer
  | false =>
    refine ⟨{ v with it := some price }, ?_, ⟨hinv, hshrinks, ?_⟩, ?_⟩
    · intro d
      simp [Book.bidsBody, hprev, hsweep d]
    · rintro k ⟨⟩
      exact hkeys ▸ hp
    · unfold bidsLeft
      rw [show v.ob.bids.keys = w.ob.bids.keys from hkeys]
      exact hfewer

end Loops

/-- A market order returns whatever the defensive branch would do, and keeps the
book. -/
theorem BookInv.marketOrderWith {b : OrderBook P} (h : BookInv b) (side : Side) (qty : UInt64) :
    ∃ p, (∀ d, b.marketOrderWith d side qty = some p) ∧ BookInv p.2 ∧ Shrinks b p.2 := by
  cases side with
  | buy =>
    have hfuel := (asksLeft_le ⟨b, b.asks.firstKey?, qty, []⟩).trans (Nat.le_succ _)
    obtain ⟨w, hw, hi, _⟩ := whileLoop_total Book.asksBody (SweepInv b .sell) asksLeft
      (fun w hw hg => hw.asksBody hg) hfuel (h.asksStart qty)
    refine ⟨(⟨w.trades, w.want⟩, w.ob), fun d => ?_, hi.inv, hi.shrinks⟩
    simp [OrderBook.marketOrderWith, hw d]
  | sell =>
    have hfuel := (bidsLeft_le ⟨b, none, qty, []⟩).trans (Nat.le_succ _)
    obtain ⟨w, hw, hi, _⟩ := whileLoop_total Book.bidsBody (SweepInv b .buy) bidsLeft
      (fun w hw hg => hw.bidsBody hg) hfuel (h.bidsStart qty)
    refine ⟨(⟨w.trades, w.want⟩, w.ob), fun d => ?_, hi.inv, hi.shrinks⟩
    simp [OrderBook.marketOrderWith, hw d]

end HftExercises.Book
