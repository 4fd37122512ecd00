import HftExercises.Domain.OrderBookSweep

/-! # The order book over call sequences

No call sequence faults, and in every state it reaches the id table and the two
price maps describe the same orders, each level in the order of the adds.
-/
namespace HftExercises.Book
variable {P : Type*} [LinearOrder P]

section Calls
variable {b : OrderBook P}

theorem BookInv.empty (n : ℕ) : BookInv (⟨∅, OrdMap.empty, OrdMap.empty, n⟩ : OrderBook P) where
  linked := by
    refine ⟨?_, ?_, ?_⟩
    · intro side price node
      cases side <;> simp [OrderBook.queueAt, OrderBook.book]
    · intro side price
      cases side <;> simp [OrderBook.queueAt, OrderBook.book]
    · simp
  drained := by
    intro side price
    cases side <;> simp [OrderBook.book]
  fresh := by simp

theorem BookInv.addOrder (h : BookInv b) {id : OrderId} (hid : b.byId.lookup id = none)
    (side : Side) (price : P) (qty : UInt64) :
    (b.addOrder id side price qty).1 = true ∧ BookInv (b.addOrder id side price qty).2 ∧
      (b.addOrder id side price qty).2.queueAt =
        place b.queueAt side price (b.queueAt side price ++ [⟨b.nextNode, id⟩]) := by
  have hset : (b.book side).set price (b.queueAt side price ++ [⟨b.nextNode, id⟩]) =
      storeQueue (b.book side) price (b.queueAt side price ++ [⟨b.nextNode, id⟩]) := by
    simp [storeQueue]
  have hstores : Stores b (b.addOrder id side price qty).2 side price
      (b.queueAt side price ++ [⟨b.nextNode, id⟩]) := by
    simp only [OrderBook.addOrder, hid, hset]
    exact stores_setBook _ _
  refine ⟨by simp [OrderBook.addOrder, hid], h.store hstores ?_ ?_, hstores.queueAt⟩
  · simp only [OrderBook.addOrder, hid]
    exact h.linked.add hid (fun i o ho => (h.fresh i o ho).ne) qty
  · intro i o ho
    simp only [OrderBook.addOrder, hid] at ho ⊢
    rcases lookup_insert_eq_some ho with ⟨rfl, rfl⟩ | ⟨_, ho⟩
    · exact Nat.lt_succ_self _
    · exact (h.fresh i o ho).trans (Nat.lt_succ_self _)

/-- The level and the node that a cancel needs are always there. -/
theorem BookInv.cancelOrder (h : BookInv b) (id : OrderId) :
    ∃ ok b', b.cancelOrder id = some (ok, b') ∧ BookInv b' ∧ Shrinks b b' := by
  cases hid : b.byId.lookup id with
  | none =>
    exact ⟨false, b, by simp [OrderBook.cancelOrder, hid], h, fun _ _ => List.Sublist.refl _⟩
  | some order =>
    have hreg := h.linked.registered hid
    obtain ⟨queue, hq, hnode⟩ := exists_level_of_mem hreg
    have hat := queueAt_of_find? hq
    have hany : queue.any (fun n => n.addr == order.queuePos) = true := by
      rw [List.any_eq_true]
      exact ⟨_, hnode, by simp⟩
    have hsub : (queue.eraseP (fun n => n.addr == order.queuePos)).Sublist queue :=
      List.eraseP_sublist
    have hmem := h.linked.mem_eraseP_iff hid
    rw [hat] at hmem
    have hstores : Stores b { b.setBook order.side (storeQueue (b.book order.side) order.price
        (queue.eraseP (fun n => n.addr == order.queuePos))) with byId := b.byId.erase id }
        order.side order.price (queue.eraseP (fun n => n.addr == order.queuePos)) :=
      stores_setBook _ _
    refine ⟨true, _, by simp [OrderBook.cancelOrder, hid, hq, hany], h.store hstores ?_ ?_, ?_⟩
    · exact h.linked.remove hreg (hat ▸ hsub) (hat ▸ hmem)
    · intro i o ho
      exact (h.fresh i o (lookup_of_lookup_erase ho)).trans_eq nextNode_setBook.symm
    · intro s p
      rw [hstores.queueAt]
      exact place_sublist (hat ▸ hsub) s p

theorem cancelOrder_lookup {id : OrderId} {ok : Bool} {b' : OrderBook P}
    (h : b.cancelOrder id = some (ok, b')) (i : OrderId) :
    b'.byId.lookup i = if i = id then none else b.byId.lookup i := by
  cases hid : b.byId.lookup id with
  | none =>
    simp only [OrderBook.cancelOrder, hid, Option.some.injEq, Prod.mk.injEq] at h
    obtain ⟨_, rfl⟩ := h
    split_ifs with hi
    · rw [hi, hid]
    · rfl
  | some order =>
    simp only [OrderBook.cancelOrder, hid] at h
    split at h
    · cases h
    · split_ifs at h
      cases h
      split_ifs with hi
      · rw [hi, AList.lookup_erase]
      · exact AList.lookup_erase_ne hi

/-- A cancel takes the order out of every queue and moves nothing else. -/
theorem BookInv.cancelOrder_queueAt {id : OrderId} {ok : Bool} {b' : OrderBook P} (h : BookInv b)
    (h' : BookInv b') (hs : Shrinks b b') (hc : b.cancelOrder id = some (ok, b')) (side : Side)
    (price : P) :
    b'.queueAt side price = (b.queueAt side price).filter (fun n => n.id ≠ id) := by
  refine eq_filter_of_sublist (hs side price) (List.Nodup.of_map _ (h.linked.ids side price)) ?_
  intro n
  rw [h.linked.placed, h'.linked.placed, cancelOrder_lookup hc]
  by_cases hn : n.id = id <;> simp [hn]

theorem BookInv.modifyOrder (h : BookInv b) (id : OrderId) (newQty : UInt64) :
    BookInv (b.modifyOrder id newQty).2 := by
  cases hid : b.byId.lookup id with
  | none =>
    simp only [OrderBook.modifyOrder, hid]
    exact h
  | some order =>
    simp only [OrderBook.modifyOrder, hid]
    refine ⟨h.linked.requantify hid newQty, h.drained, ?_⟩
    intro i o ho
    rcases lookup_insert_eq_some ho with ⟨rfl, rfl⟩ | ⟨_, ho⟩
    · exact h.fresh i order hid
    · exact h.fresh i o ho

/-- The recorded place of an order. -/
def Order.placement (o : Order P) : Side × P × ℕ := (o.side, o.price, o.queuePos)

theorem modifyOrder_placement (b : OrderBook P) (id : OrderId) (newQty : UInt64) :
    (b.modifyOrder id newQty).2.bids = b.bids ∧ (b.modifyOrder id newQty).2.asks = b.asks ∧
      ∀ i, ((b.modifyOrder id newQty).2.byId.lookup i).map Order.placement =
        (b.byId.lookup i).map Order.placement := by
  cases hid : b.byId.lookup id with
  | none => simp [OrderBook.modifyOrder, hid]
  | some order =>
    simp only [OrderBook.modifyOrder, hid, true_and]
    intro i
    by_cases hi : i = id
    · rw [hi, AList.lookup_insert, hid]
      rfl
    · rw [AList.lookup_insert_ne hi]

end Calls

/-- Every call that returns keeps the book. -/
theorem BookInv.step (h : BookInv b) {c : Call P} {o : Result P} {b' : OrderBook P}
    (hs : b.step c = some (o, b')) : BookInv b' := by
  cases c with
  | addOrder id side price qty =>
    cases hs
    cases hid : b.byId.lookup id with
    | some x => simpa [OrderBook.addOrder, hid] using h
    | none => exact (h.addOrder hid side price qty).2.1
  | cancelOrder id =>
    obtain ⟨ok, b'', hc, hinv, -⟩ := h.cancelOrder id
    rw [OrderBook.step, hc] at hs
    cases hs
    exact hinv
  | modifyOrder id newQty =>
    cases hs
    exact h.modifyOrder id newQty
  | marketOrder side qty =>
    obtain ⟨p, hp, hinv, -⟩ := h.marketOrderWith side qty
    rw [OrderBook.step, OrderBook.marketOrder, hp] at hs
    cases hs
    exact hinv
  | clear =>
    cases hs
    exact BookInv.empty b.nextNode

/-- Every queued id, level by level. -/
def OrderBook.levels (b : OrderBook P) : List ((Side × P) × List Node) :=
  b.bids.entries.map (fun e => ((.buy, e.1), e.2)) ++ b.asks.entries.map (fun e => ((.sell, e.1), e.2))

def OrderBook.queuedIds (b : OrderBook P) : List OrderId :=
  b.levels.flatMap (fun l => l.2.map Node.id)

abbrev BookEvent (P : Type*) [LinearOrder P] := Event (OrderBook P) (Call P) (Result P)

/-- The ids in the order of their latest accepted add. -/
def arrivals (es : List (BookEvent P)) : List OrderId :=
  es.foldl (fun seen e => match e.call, e.result with
    | .addOrder id _ _ _, .accepted true => seen.filter (fun i => i ≠ id) ++ [id]
    | _, _ => seen) []

section Levels
variable {b : OrderBook P}

theorem mem_levels {side : Side} {price : P} {queue : List Node} :
    ((side, price), queue) ∈ b.levels ↔ (b.book side).find? price = some queue := by
  rw [OrdMap.find?_eq_some_iff]
  cases side <;> simp [OrderBook.levels, OrderBook.book]

theorem sideKeys_nodup (side : Side) (m : PriceMap P) :
    ((m.entries.map (fun e => ((side, e.1), e.2))).map Prod.fst).Nodup := by
  have hkeys : (m.entries.map (fun e => ((side, e.1), e.2))).map Prod.fst =
      (m.entries.map Prod.fst).map (Prod.mk side) := by
    rw [List.map_map, List.map_map]
    rfl
  rw [hkeys]
  exact m.keys_nodup.map (fun _ _ h => (Prod.mk.inj h).2)

theorem levels_nodup : (b.levels.map Prod.fst).Nodup := by
  unfold OrderBook.levels
  rw [List.map_append, List.nodup_append]
  refine ⟨sideKeys_nodup .buy b.bids, sideKeys_nodup .sell b.asks, ?_⟩
  intro x hx y hy hxy
  simp only [List.map_map, List.mem_map, Function.comp_apply] at hx hy
  obtain ⟨e, _, rfl⟩ := hx
  obtain ⟨e', _, rfl⟩ := hy
  cases hxy

theorem queueAt_of_mem_levels {l : (Side × P) × List Node} (hl : l ∈ b.levels) :
    b.queueAt l.1.1 l.1.2 = l.2 := by
  obtain ⟨⟨side, price⟩, queue⟩ := l
  rw [OrderBook.queueAt, mem_levels.mp hl]
  rfl

theorem Linked.queuedIds_nodup (h : Linked b.byId b.queueAt) : b.queuedIds.Nodup := by
  unfold OrderBook.queuedIds
  rw [List.nodup_flatMap]
  constructor
  · intro l hl
    rw [← queueAt_of_mem_levels hl]
    exact h.ids l.1.1 l.1.2
  · have hkeys := List.pairwise_map.mp (levels_nodup (b := b))
    refine hkeys.imp_of_mem ?_
    intro l l' hl hl' hne id hid hid'
    obtain ⟨n, hn, rfl⟩ := List.mem_map.mp hid
    obtain ⟨n', hn', hsame⟩ := List.mem_map.mp hid'
    rw [← queueAt_of_mem_levels hl] at hn
    rw [← queueAt_of_mem_levels hl'] at hn'
    obtain ⟨o, ho, hs, hp, _⟩ := h.exists_order hn
    obtain ⟨o', ho', hs', hp', _⟩ := h.exists_order hn'
    rw [hsame, ho] at ho'
    cases ho'
    exact hne (Prod.ext (hs.symm.trans hs') (hp.symm.trans hp'))

theorem Linked.mem_queuedIds (h : Linked b.byId b.queueAt) (id : OrderId) :
    id ∈ b.queuedIds ↔ id ∈ b.byId := by
  unfold OrderBook.queuedIds
  rw [List.mem_flatMap, ← AList.lookup_isSome, Option.isSome_iff_exists]
  constructor
  · rintro ⟨l, hl, hid⟩
    obtain ⟨n, hn, rfl⟩ := List.mem_map.mp hid
    rw [← queueAt_of_mem_levels hl] at hn
    obtain ⟨o, ho, _⟩ := h.exists_order hn
    exact ⟨o, ho⟩
  · rintro ⟨o, ho⟩
    obtain ⟨queue, hq, hnode⟩ := exists_level_of_mem (h.registered ho)
    exact ⟨_, mem_levels.mpr hq, List.mem_map_of_mem hnode⟩

/-- The table counts exactly the queued orders. -/
theorem Linked.orderCount_eq (h : Linked b.byId b.queueAt) : b.orderCount = b.queuedIds.length := by
  have hperm : b.byId.keys.Perm b.queuedIds := by
    refine (List.perm_ext_iff_of_nodup b.byId.keys_nodup h.queuedIds_nodup).mpr ?_
    intro id
    rw [h.mem_queuedIds, AList.mem_keys]
  rw [← hperm.length_eq]
  exact (List.length_map _).symm

end Levels

/-- What the three copies of an order say, and in which order a level is. -/
structure Consistent (es : List (BookEvent P)) (b : OrderBook P) : Prop where
  registered : ∀ id o, b.byId.lookup id = some o → ∃ queue,
    (b.book o.side).find? o.price = some queue ∧
      queue.find? (fun n => n.addr == o.queuePos) = some ⟨o.queuePos, id⟩
  once : b.queuedIds.Nodup
  known : ∀ id, id ∈ b.queuedIds ↔ id ∈ b.byId
  levels : ∀ side price, (b.book side).find? price ≠ some []
  fifo : ∀ side price, ((b.queueAt side price).map Node.id).Sublist (arrivals es)

/-- What a run keeps. -/
structure RunInv (es : List (BookEvent P)) (b : OrderBook P) : Prop where
  inv : BookInv b
  fifo : ∀ side price, ((b.queueAt side price).map Node.id).Sublist (arrivals es)

section Runs
variable {es : List (BookEvent P)} {b b' : OrderBook P}

theorem RunInv.consistent (h : RunInv es b) : Consistent es b where
  registered := by
    intro id o ho
    have haddrs := h.inv.linked.addrs o.side o.price
    obtain ⟨queue, hq, hnode⟩ := exists_level_of_mem (h.inv.linked.registered ho)
    rw [queueAt_of_find? hq] at haddrs
    exact ⟨queue, hq, find?_key_of_mem haddrs hnode⟩
  once := h.inv.linked.queuedIds_nodup
  known := h.inv.linked.mem_queuedIds
  levels := h.inv.drained
  fifo := h.fifo

theorem arrivals_append_singleton (e : BookEvent P) : arrivals (es ++ [e]) =
    match e.call, e.result with
    | .addOrder id _ _ _, .accepted true => (arrivals es).filter (fun i => i ≠ id) ++ [id]
    | _, _ => arrivals es := by
  unfold arrivals
  rw [List.foldl_append]
  rfl

/-- A call that only takes orders out. -/
theorem RunInv.shrink (h : RunInv es b) {e : BookEvent P} (hb : BookInv b')
    (hs : Shrinks b b') (he : arrivals (es ++ [e]) = arrivals es) : RunInv (es ++ [e]) b' := by
  refine ⟨hb, fun side price => ?_⟩
  rw [he]
  exact ((hs side price).map Node.id).trans (h.fifo side price)

theorem RunInv.addOrder (h : RunInv es b) (id : OrderId) (side : Side) (price : P)
    (qty : UInt64) :
    RunInv (es ++ [⟨b, .addOrder id side price qty, .accepted (b.addOrder id side price qty).1⟩])
      (b.addOrder id side price qty).2 := by
  cases hid : b.byId.lookup id with
  | some o =>
    have hreject : b.addOrder id side price qty = (false, b) := by simp [OrderBook.addOrder, hid]
    rw [hreject]
    exact h.shrink h.inv (fun _ _ => List.Sublist.refl _) (arrivals_append_singleton _)
  | none =>
    obtain ⟨hok, hinv, hqueue⟩ := h.inv.addOrder hid side price qty
    refine ⟨hinv, ?_⟩
    rw [arrivals_append_singleton, hok, hqueue]
    have hold : ∀ s p, ((b.queueAt s p).map Node.id).Sublist
        ((arrivals es).filter (fun i => i ≠ id)) := by
      intro s p
      have hnot : ∀ i ∈ (b.queueAt s p).map Node.id, i ≠ id := by
        rintro i hi rfl
        obtain ⟨n, hn, hni⟩ := List.mem_map.mp hi
        obtain ⟨o, ho, _⟩ := h.inv.linked.exists_order hn
        rw [hni, hid] at ho
        cases ho
      have hsame : ((b.queueAt s p).map Node.id).filter (fun i => i ≠ id) =
          (b.queueAt s p).map Node.id := List.filter_eq_self.mpr (fun i hi => by simpa using hnot i hi)
      rw [← hsame]
      exact (h.fifo s p).filter _
    refine forall_place (fun l => (l.map Node.id).Sublist _)
      (fun s p => (hold s p).trans (List.sublist_append_left _ _)) ?_
    rw [List.map_append]
    exact (hold side price).append (List.Sublist.refl _)

theorem RunInv.step (h : RunInv es b) (c : Call P) :
    ∃ o b', b.step c = some (o, b') ∧ RunInv (es ++ [⟨b, c, o⟩]) b' := by
  cases c with
  | addOrder id side price qty => exact ⟨_, _, rfl, h.addOrder id side price qty⟩
  | cancelOrder id =>
    obtain ⟨ok, b', hc, hinv, hs⟩ := h.inv.cancelOrder id
    exact ⟨.accepted ok, b', by simp [OrderBook.step, hc],
      h.shrink hinv hs (arrivals_append_singleton _)⟩
  | modifyOrder id newQty =>
    obtain ⟨hbids, hasks, _⟩ := modifyOrder_placement b id newQty
    have hqueue : (b.modifyOrder id newQty).2.queueAt = b.queueAt := by
      funext side price
      cases side <;> simp [OrderBook.queueAt, OrderBook.book, hbids, hasks]
    refine ⟨_, _, rfl, h.shrink (h.inv.modifyOrder id newQty) ?_ (arrivals_append_singleton _)⟩
    intro side price
    rw [hqueue]
  | marketOrder side qty =>
    obtain ⟨p, hp, hinv, hs⟩ := h.inv.marketOrderWith side qty
    exact ⟨.filled p.1, p.2, by simp [OrderBook.step, OrderBook.marketOrder, hp],
      h.shrink hinv hs (arrivals_append_singleton _)⟩
  | clear =>
    refine ⟨_, _, rfl, h.shrink (BookInv.empty b.nextNode) ?_ (arrivals_append_singleton _)⟩
    intro side price
    have hnil : b.clear.queueAt side price = [] := by cases side <;> rfl
    rw [hnil]
    exact List.nil_sublist _

end Runs

/-- No call sequence faults. -/
theorem exec_runInv (calls : List (Call P)) :
    ∃ es b, exec OrderBook.step (.init : OrderBook P) calls = some (es, b) ∧ RunInv es b := by
  have hstart : RunInv [] (.init : OrderBook P) := by
    refine ⟨BookInv.empty 0, fun side price => ?_⟩
    cases side <;> exact List.Sublist.refl _
  exact exec_total RunInv (fun es b c hi _ => hi.step c) hstart
    (fun _ _ _ _ => trivial : Admissible (fun _ _ => True) calls)

/-- No call sequence faults, so a cancel always finds its level and its node. The
table and the maps agree in every state reached, the defensive branch of
`market_order` could be anything, and a modify moves nothing. -/
theorem orderBook_consistent (calls : List (Call P)) :
    ∃ es b, exec OrderBook.step (.init : OrderBook P) calls = some (es, b) ∧ Consistent es b ∧
      b.orderCount = b.queuedIds.length ∧
      (∀ id, (b.cancelOrder id).isSome) ∧
      (∀ defensive side qty,
        b.marketOrderWith defensive side qty = b.marketOrder side qty ∧
          (b.marketOrder side qty).isSome) ∧
      ∀ id newQty, (b.modifyOrder id newQty).2.bids = b.bids ∧
        (b.modifyOrder id newQty).2.asks = b.asks ∧
        ∀ i, ((b.modifyOrder id newQty).2.byId.lookup i).map Order.placement =
          (b.byId.lookup i).map Order.placement := by
  obtain ⟨es, b, hes, hi⟩ := exec_runInv calls
  refine ⟨es, b, hes, hi.consistent, hi.inv.linked.orderCount_eq, ?_, ?_, ?_⟩
  · intro id
    obtain ⟨ok, b', hc, _⟩ := hi.inv.cancelOrder id
    rw [hc]
    rfl
  · intro defensive side qty
    obtain ⟨p, hp, _⟩ := hi.inv.marketOrderWith side qty
    rw [OrderBook.marketOrder, hp, hp]
    exact ⟨rfl, rfl⟩
  · exact modifyOrder_placement b

end HftExercises.Book
