import HftExercises.Domain.OrderBookFill
import HftExercises.Domain.OrderBookRuns

/-! # What a market order leaves of the book

The lots that the order takes are known; here are the trades themselves, the table and the
queues behind them. What both mirrored loops keep from level to level is proved once.
-/
namespace HftExercises.Book
variable {P : Type*}

/-- The id of the order of one side of a trade, 0 for the aggressor. -/
def Trade.orderOn (side : Side) (t : Trade P) : OrderId :=
  match side with
  | .buy => t.buyOrder
  | .sell => t.sellOrder

theorem Side.opposite_ne (side : Side) : side.opposite ≠ side := by
  cases side <;> nofun

/-- Orders may have left the table or changed their quantity, nothing else. -/
def Requantified (byId byId' : IdTable P) : Prop :=
  ∀ id o', byId'.lookup id = some o' →
    ∃ o, byId.lookup id = some o ∧ o'.placement = o.placement

namespace Requantified
variable {t t' t'' : IdTable P} {id : OrderId} {o : Order P}

theorem refl (t : IdTable P) : Requantified t t := fun _ o ho => ⟨o, ho, rfl⟩

theorem trans (h : Requantified t t') (h' : Requantified t' t'') : Requantified t t'' := by
  intro id o'' ho''
  obtain ⟨o', ho', hp'⟩ := h' id o'' ho''
  obtain ⟨o, ho, hp⟩ := h id o' ho'
  exact ⟨o, ho, hp'.trans hp⟩

theorem erase (t : IdTable P) (id : OrderId) : Requantified t (t.erase id) :=
  fun _ o ho => ⟨o, lookup_of_lookup_erase ho, rfl⟩

theorem insert (ho : t.lookup id = some o) (qty : UInt64) :
    Requantified t (t.insert id { o with qty := qty }) := by
  intro i o' ho'
  rcases lookup_insert_eq_some ho' with ⟨rfl, rfl⟩ | ⟨_, ho'⟩
  · exact ⟨o, ho, rfl⟩
  · exact ⟨o', ho', rfl⟩

end Requantified

section Fill
variable {trade : OrderId → UInt64 → Trade P} {f f' : Fill P}

/-- One iteration drops a stale front or trades with the front order. -/
theorem fillBody_cases (hb : fillBody popFront trade f = some f') :
    ∃ node rest, f.queue = node :: rest ∧
      (f.byId.lookup node.id = none ∧ f' = { f with queue := rest } ∨
        ∃ o, f.byId.lookup node.id = some o ∧
          f' = { byId := if o.qty - min f.want o.qty = 0 then f.byId.erase node.id
                  else f.byId.insert node.id { o with qty := o.qty - min f.want o.qty }
                 queue := if o.qty - min f.want o.qty = 0 then rest else f.queue
                 want := f.want - min f.want o.qty
                 trades := f.trades ++ [trade node.id (min f.want o.qty)] }) := by
  unfold fillBody at hb
  split at hb
  · cases hb
  · rename_i node rest hq
    refine ⟨node, rest, hq, ?_⟩
    split at hb
    · rename_i hid
      cases hb
      exact .inl ⟨hid, by rw [hq]; rfl⟩
    · rename_i o hid
      exact .inr ⟨o, hid, (Option.some.inj hb).symm⟩

/-- The loop over a queue keeps what every iteration keeps. -/
theorem fillQueue_keeps {T : Fill P → Prop}
    (hbody : ∀ f f', T f → fillGuard f = true → fillBody popFront trade f = some f' → T f')
    (hf : T f) (h : fillQueue popFront trade f = some f') : T f' :=
  (whileLoop_invariant T hbody hf h).1

/-- Whatever the queue is, orders are only requantified and every new trade is one of the
level. -/
theorem fillQueue_trades (h : fillQueue popFront trade f = some f') :
    Requantified f.byId f'.byId ∧ ∀ t ∈ f'.trades, t ∈ f.trades ∨ ∃ id take, t = trade id take := by
  refine fillQueue_keeps (T := fun g => Requantified f.byId g.byId ∧
    ∀ t ∈ g.trades, t ∈ f.trades ∨ ∃ id take, t = trade id take) ?_ ⟨.refl _, fun t ht => .inl ht⟩ h
  rintro g g' ⟨hreq, htrades⟩ - hb
  obtain ⟨node, rest, hq, ⟨-, rfl⟩ | ⟨o, ho, rfl⟩⟩ := fillBody_cases hb
  · exact ⟨hreq, htrades⟩
  · refine ⟨hreq.trans ?_, fun t ht => ?_⟩
    · dsimp only
      split_ifs
      · exact .erase _ _
      · exact .insert ho _
    · rcases List.mem_append.mp ht with ht | ht
      · exact htrades t ht
      · exact .inr ⟨node.id, _, List.mem_singleton.mp ht⟩

end Fill

variable [LinearOrder P]

section Sweep
variable {b : OrderBook P} {side : Side} {w : Sweep P}

theorem asksBody_level {w' : Sweep P} (hb : asksBody popFront w = some w') :
    ∃ price drained v, sweepLevel popFront .sell price w = some (drained, v) ∧
      ∃ it, w' = { v with it := it } := by
  unfold asksBody at hb
  split at hb
  · cases hb
  · obtain ⟨p, hp, rfl⟩ := Option.map_eq_some_iff.mp hb
    exact ⟨_, p.1, p.2, hp, _, rfl⟩

theorem bidsBody_level {w' : Sweep P} (hb : bidsBody popFront w = some w') :
    ∃ price drained v, sweepLevel popFront .buy price w = some (drained, v) ∧
      ∃ it, w' = { v with it := it } := by
  unfold bidsBody at hb
  split at hb
  · cases hb
  · obtain ⟨p, hp, rfl⟩ := Option.map_eq_some_iff.mp hb
    refine ⟨_, p.1, p.2, hp, ?_⟩
    split_ifs
    · exact ⟨_, rfl⟩
    · exact ⟨_, rfl⟩

/-- A market order keeps what every level keeps, on either side of the book. -/
theorem BookInv.marketOrder_keeps (h : BookInv b) (qty : UInt64) {T : Sweep P → Prop}
    (hlevel : ∀ w price drained v, SweepInv b side.opposite w → T w →
      Book.sweepLevel popFront side.opposite price w = some (drained, v) → ∀ it, T { v with it := it })
    (hstart : ∀ it, T ⟨b, it, qty, []⟩) {fill : FillResult P} {b' : OrderBook P}
    (hm : b.marketOrder side qty = some (fill, b')) :
    ∃ w, w.ob = b' ∧ w.trades = fill.trades ∧ T w := by
  obtain ⟨w, hw, he⟩ := Option.map_eq_some_iff.mp hm
  cases he
  refine ⟨w, rfl, rfl, ?_⟩
  cases side with
  | buy =>
    refine (whileLoop_invariant (fun w => SweepInv b .sell w ∧ T w) ?_
      ⟨h.asksStart qty, hstart _⟩ hw).1.2
    rintro w w' ⟨hi, ht⟩ hg hb
    obtain ⟨w'', hb', hi', -⟩ := hi.asksBody hg
    obtain ⟨price, drained, v, hsweep, it, rfl⟩ := asksBody_level hb
    exact ⟨Option.some.inj ((hb' popFront).symm.trans hb) ▸ hi',
      hlevel w price drained v hi ht hsweep it⟩
  | sell =>
    refine (whileLoop_invariant (fun w => SweepInv b .buy w ∧ T w) ?_
      ⟨h.bidsStart qty, hstart _⟩ hw).1.2
    rintro w w' ⟨hi, ht⟩ hg hb
    obtain ⟨w'', hb', hi', -⟩ := hi.bidsBody hg
    obtain ⟨price, drained, v, hsweep, it, rfl⟩ := bidsBody_level hb
    exact ⟨Option.some.inj ((hb' popFront).symm.trans hb) ▸ hi',
      hlevel w price drained v hi ht hsweep it⟩

/-- The loop over the levels of `side` has touched nothing of the other side. -/
structure Keeps (b : OrderBook P) (side : Side) (w : Sweep P) : Prop where
  requantified : Requantified b.byId w.ob.byId
  other : w.ob.book side.opposite = b.book side.opposite
  frame : ∀ id, (∀ price n, n ∈ b.queueAt side price → n.id ≠ id) →
    w.ob.byId.lookup id = b.byId.lookup id
  passive : ∀ t ∈ w.trades, t.orderOn side.opposite = 0

theorem Keeps.sweepLevel {price : P} {drained : Bool} {v : Sweep P} (hi : SweepInv b side w)
    (hk : Keeps b side w) (hs : Book.sweepLevel popFront side price w = some (drained, v))
    (it : Option P) : Keeps b side { v with it := it } := by
  unfold Book.sweepLevel at hs
  split at hs
  · cases hs
  · rename_i queue hq
    obtain ⟨f, hf, hv⟩ := Option.map_eq_some_iff.mp hs
    cases hv
    obtain ⟨hreq, htrades⟩ := fillQueue_trades hf
    have hframe := ((hi.inv.fillInv hq w.want w.trades).fillQueue_takes hf).1.frame
    refine ⟨hk.requantified.trans hreq, ?_, fun id hid => ?_, fun t ht => ?_⟩
    · rw [← hk.other]
      cases side <;> rfl
    · rw [← hk.frame id hid]
      refine hframe id fun hmem => ?_
      obtain ⟨n, hn, hnid⟩ := List.mem_map.mp hmem
      have hat : n ∈ w.ob.queueAt side price := by rwa [queueAt_of_find? hq]
      exact hid price n ((hi.shrinks side price).subset hat) hnid
    · rcases htrades t ht with ht | ⟨id, take, rfl⟩
      · exact hk.passive t ht
      · cases side <;> rfl

end Sweep

/-! ## The lots and the table -/

section Lots
variable {b b' : OrderBook P} {side : Side}

/-- The lots of a side are its orders. -/
theorem BookInv.mem_lots (h : BookInv b) {id : OrderId} {price : P} {q : ℤ} :
    ((id, price), q) ∈ b.lots side ↔ ∃ o, b.byId.lookup id = some o ∧ o.side = side ∧
      o.price = price ∧ q = o.qty.toNat := by
  simp only [OrderBook.lots, List.mem_flatMap, levelLots, List.mem_map]
  constructor
  · rintro ⟨e, he, n, hn, heq⟩
    cases heq
    have hat := queueAt_of_find? (OrdMap.find?_eq_some_iff.mpr (mem_byPriority.mp he))
    obtain ⟨o, ho, hside, hprice, -⟩ := h.linked.exists_order (hat.symm ▸ hn)
    exact ⟨o, ho, hside, hprice, qtyOf_eq ho⟩
  · rintro ⟨o, ho, rfl, rfl, rfl⟩
    obtain ⟨queue, hq, hn⟩ := exists_level_of_mem (h.linked.registered ho)
    exact ⟨(o.price, queue), mem_byPriority.mpr (OrdMap.find?_eq_some_iff.mp hq), _, hn,
      by rw [← qtyOf_eq ho]⟩

theorem BookInv.lots_ids_nodup (h : BookInv b) : ((b.lots side).map fun l => l.1.1).Nodup := by
  have hat : ∀ e ∈ byPriority side (b.book side).entries, b.queueAt side e.1 = e.2 := fun e he =>
    queueAt_of_find? (OrdMap.find?_eq_some_iff.mpr (mem_byPriority.mp he))
  have hids : ∀ e, (levelLots b.byId e).map (fun l => l.1.1) = e.2.map Node.id := fun e =>
    List.map_map
  rw [OrderBook.lots, List.map_flatMap, List.nodup_flatMap]
  refine ⟨fun e he => ?_, ?_⟩
  · rw [hids, ← hat e he]
    exact h.linked.ids side e.1
  · refine (List.pairwise_map.mp (byPriority_keys_nodup side (b.book side))).imp_of_mem ?_
    intro e e' he he' hne id hid hid'
    simp only [hids] at hid hid'
    obtain ⟨n, hn, rfl⟩ := List.mem_map.mp hid
    exact h.levels_disjoint (mem_byPriority.mp he) (mem_byPriority.mp he') hne hn hid'

theorem BookInv.lots_labels_nodup (h : BookInv b) : ((b.lots side).map Prod.fst).Nodup :=
  List.Nodup.of_map Prod.fst (by rw [List.map_map]; exact h.lots_ids_nodup)

/-- Best price first. -/
theorem lots_bestFirst (b : OrderBook P) (side : Side) : (b.lots side).Pairwise fun l l' =>
    match side with
    | .buy => l'.1.2 ≤ l.1.2
    | .sell => l.1.2 ≤ l'.1.2 := by
  rw [OrderBook.lots, List.pairwise_flatMap]
  refine ⟨fun e _ => ?_, ?_⟩
  · rw [levelLots, List.pairwise_map]
    exact List.pairwise_of_forall fun _ _ => by cases side <;> exact le_rfl
  · cases side with
    | sell =>
      refine (b.book .sell).sorted.imp fun {e e'} hlt l hl l' hl' => ?_
      obtain ⟨n, -, rfl⟩ := List.mem_map.mp hl
      obtain ⟨n', -, rfl⟩ := List.mem_map.mp hl'
      exact le_of_lt hlt
    | buy =>
      refine (List.pairwise_reverse.mpr (b.book .buy).sorted).imp fun {e e'} hlt l hl l' hl' => ?_
      obtain ⟨n, -, rfl⟩ := List.mem_map.mp hl
      obtain ⟨n', -, rfl⟩ := List.mem_map.mp hl'
      exact le_of_lt hlt

end Lots

/-- A market order of `qty` on `side` leads from `b` to `b'`: it walks the lots of the other
side, and what it does not trade with stays as it is. -/
structure MarketOrdered (b : OrderBook P) (side : Side) (qty : UInt64) (fill : FillResult P)
    (b' : OrderBook P) : Prop where
  bestFirst : (b.lots side.opposite).Pairwise fun l l' =>
    match side with
    | .buy => l.1.2 ≤ l'.1.2
    | .sell => l'.1.2 ≤ l.1.2
  walk : consume qty.toNat (b.lots side.opposite) =
    ⟨fill.trades.map (Trade.lot side.opposite), b'.lots side.opposite, fill.remainingQty.toNat⟩
  aggressor : ∀ t ∈ fill.trades, t.orderOn side = 0
  spent : (fill.trades.map fun t => t.qty.toNat).sum + fill.remainingQty.toNat = qty.toNat
  unmet : fill.remainingQty ≠ 0 → (b'.book side.opposite).entries = []
  once : (fill.trades.map (Trade.orderOn side.opposite)).Nodup
  filled : ∀ t ∈ fill.trades, ∃ o, b.byId.lookup (t.orderOn side.opposite) = some o ∧
    o.side = side.opposite ∧ o.price = t.price ∧ t.qty ≤ o.qty ∧
    b'.byId.lookup (t.orderOn side.opposite) =
      if t.qty = o.qty then none else some { o with qty := o.qty - t.qty }
  lastOnly : ∀ t ∈ fill.trades.dropLast, b'.byId.lookup (t.orderOn side.opposite) = none
  others : ∀ id, (∀ t ∈ fill.trades, t.orderOn side.opposite ≠ id) →
    b'.byId.lookup id = b.byId.lookup id
  queues : ∀ s p, b'.queueAt s p = (b.queueAt s p).filter fun n => (b'.byId.lookup n.id).isSome
  levels : ∀ s p, (b'.book s).find? p ≠ some []

section Market
variable {b b' : OrderBook P} {side : Side} {qty : UInt64} {fill : FillResult P}

omit [LinearOrder P] in
theorem lot_eq (side : Side) (t : Trade P) :
    t.lot side = ((t.orderOn side, t.price), (t.qty.toNat : ℤ)) := by
  cases side <;> rfl

theorem Requantified.eq {o : Order P} {id : OrderId} (h : Requantified b.byId b'.byId)
    (ho : b.byId.lookup id = some o) {o' : Order P} (ho' : b'.byId.lookup id = some o') :
    o' = { o with qty := o'.qty } := by
  obtain ⟨x, hx, hp⟩ := h id o' ho'
  rw [ho] at hx
  cases hx
  simp only [Order.placement, Prod.mk.injEq] at hp
  obtain ⟨hs, hp, hq⟩ := hp
  rw [← hs, ← hp, ← hq]

/-- What is not among the lots any more is not in the table any more. -/
theorem Requantified.gone {o : Order P} {id : OrderId} (h : Requantified b.byId b'.byId)
    (h' : BookInv b') (ho : b.byId.lookup id = some o)
    (hgone : (id, o.price) ∉ (b'.lots o.side).map Prod.fst) : b'.byId.lookup id = none := by
  cases ho' : b'.byId.lookup id with
  | none => rfl
  | some o' =>
    have heq := h.eq ho ho'
    refine absurd (List.mem_map_of_mem (h'.mem_lots.mpr ⟨o', ho', ?_, ?_, rfl⟩)) hgone <;> rw [heq]

/-- A queue keeps the nodes of the orders that are left, in their order. -/
theorem Requantified.queueAt (h : Requantified b.byId b'.byId) (hb : BookInv b) (hb' : BookInv b')
    (hs : Shrinks b b') (s : Side) (p : P) :
    b'.queueAt s p = (b.queueAt s p).filter fun n => (b'.byId.lookup n.id).isSome := by
  refine eq_filter_of_sublist (hs s p) (List.Nodup.of_map _ (hb.linked.ids s p)) fun n => ?_
  constructor
  · intro hn
    obtain ⟨o', ho', -⟩ := hb'.linked.exists_order hn
    exact ⟨(hs s p).subset hn, by rw [ho']; rfl⟩
  · rintro ⟨hn, hsome⟩
    obtain ⟨o', ho'⟩ := Option.isSome_iff_exists.mp hsome
    obtain ⟨o, ho, hside, hprice, hpos⟩ := hb.linked.exists_order hn
    have heq := h.eq ho ho'
    refine (hb'.linked.placed s p n).mpr ⟨o', ho', ?_, ?_, ?_⟩ <;> rw [heq] <;> assumption

/-- The orders that a walk fills, in terms of the table. -/
theorem Requantified.filled (h : Requantified b.byId b'.byId) (hb : BookInv b) (hb' : BookInv b')
    {want left : ℤ} {trades : List (Trade P)} (hwant : 0 ≤ want)
    (hwalk : consume want (b.lots side) = ⟨trades.map (Trade.lot side), b'.lots side, left⟩)
    {t : Trade P} (ht : t ∈ trades) : ∃ o, b.byId.lookup (t.orderOn side) = some o ∧
      o.side = side ∧ o.price = t.price ∧ t.qty ≤ o.qty ∧
      b'.byId.lookup (t.orderOn side) =
        if t.qty = o.qty then none else some { o with qty := o.qty - t.qty } := by
  have hfill : ((t.orderOn side, t.price), (t.qty.toNat : ℤ)) ∈
      (consume want (b.lots side)).fills := by
    rw [hwalk, ← lot_eq]
    exact List.mem_map_of_mem ht
  obtain ⟨q, hq, hcase⟩ := consume_filled hwant hb.lots_labels_nodup hfill
  obtain ⟨o, ho, rfl, hprice, rfl⟩ := hb.mem_lots.mp hq
  rw [hwalk] at hcase
  rcases hcase with ⟨hall, hgone⟩ | ⟨hpart, hleft⟩
  · have hqty : t.qty = o.qty := UInt64.toNat_inj.mp (Int.natCast_inj.mp hall)
    refine ⟨o, ho, rfl, hprice, hqty ▸ UInt64.le_refl _, ?_⟩
    rw [if_pos hqty]
    exact h.gone hb' ho (hprice ▸ hgone)
  · have hlt : t.qty < o.qty := UInt64.lt_iff_toNat_lt.mpr (Int.ofNat_lt.mp hpart)
    obtain ⟨o', ho', -, -, hqty⟩ := hb'.mem_lots.mp hleft
    have hrest : o'.qty = o.qty - t.qty := by
      rw [← toInt_sub_of_le (UInt64.le_of_lt hlt)] at hqty
      exact UInt64.toNat_inj.mp (Int.natCast_inj.mp hqty).symm
    refine ⟨o, ho, rfl, hprice, UInt64.le_of_lt hlt, ?_⟩
    rw [if_neg (UInt64.ne_of_lt hlt), ho', h.eq ho ho', hrest]

omit [LinearOrder P] in
theorem sum_lots (side : Side) (trades : List (Trade P)) :
    ((trades.map (Trade.lot side)).map Prod.snd).sum =
      ((trades.map fun t => t.qty.toNat).sum : ℕ) := by
  induction trades with
  | nil => rfl
  | cons t trades ih =>
    simp only [List.map_cons, List.sum_cons]
    rw [ih, lot_eq, Nat.cast_add]

/-- A side without orders has no levels. -/
theorem BookInv.entries_eq_nil (hb : BookInv b) (h : b.lots side = []) :
    (b.book side).entries = [] := by
  refine List.eq_nil_iff_forall_not_mem.mpr fun e he => ?_
  have hnil := List.flatMap_eq_nil_iff.mp h e (mem_byPriority.mpr he)
  have hfind : (b.book side).find? e.1 = some e.2 := OrdMap.find?_eq_some_iff.mpr he
  rw [levelLots, List.map_eq_nil_iff] at hnil
  exact hb.drained side e.1 (hfind.trans (congrArg some hnil))

/-- What a market order on a consistent book does. -/
theorem BookInv.marketOrder_ordered (hb : BookInv b) (side : Side) (qty : UInt64) :
    ∃ fill b', b.marketOrder side qty = some (fill, b') ∧ BookInv b' ∧
      MarketOrdered b side qty fill b' := by
  obtain ⟨fill, b', hm, hwalk⟩ := hb.marketOrder_takes side qty
  obtain ⟨_, hm', hb', hshrinks⟩ := hb.marketOrderWith side qty
  cases (hm' popFront).symm.trans hm
  obtain ⟨w, rfl, htrades, hk⟩ := hb.marketOrder_keeps qty (T := Keeps b side.opposite)
    (fun w _ _ _ hi hk hs it => hk.sweepLevel hi hs it)
    (fun _ => ⟨.refl _, rfl, fun _ _ => rfl, nofun⟩) hm
  have hreq := hk.requantified
  have hwant : (0 : ℤ) ≤ qty.toNat := Int.natCast_nonneg _
  have hfilled := fun t (ht : t ∈ fill.trades) => hreq.filled hb hb' hwant hwalk ht
  refine ⟨fill, w.ob, hm, hb', ?_⟩
  constructor
  case bestFirst =>
    refine (lots_bestFirst b side.opposite).imp fun hle => ?_
    cases side <;> exact hle
  case walk => exact hwalk
  case aggressor =>
    intro t ht
    have hzero := hk.passive t (htrades ▸ ht)
    cases side <;> exact hzero
  case spent =>
    have hspent := consume_spent qty.toNat (b.lots side.opposite)
    rw [hwalk] at hspent
    dsimp only at hspent
    rw [sum_lots] at hspent
    omega
  case unmet =>
    intro hne
    have hpos : fill.remainingQty.toNat ≠ 0 := fun h => hne (UInt64.toNat_inj.mp h)
    have hleft := consume_left_nil hwant (l := b.lots side.opposite)
      (by rw [hwalk]; exact Int.natCast_ne_zero.mpr hpos)
    rw [hwalk] at hleft
    exact hb'.entries_eq_nil hleft
  case once =>
    have hsub := (consume_fills_sublist hwant (b.lots side.opposite)).map Prod.fst
    rw [hwalk, List.map_map, List.map_map, List.map_map] at hsub
    have hids : fill.trades.map (Trade.orderOn side.opposite) =
        fill.trades.map (Prod.fst ∘ Prod.fst ∘ Trade.lot side.opposite) :=
      List.map_congr_left fun t _ => congrArg (fun l => l.1.1) (lot_eq _ t).symm
    rw [hids]
    exact hb.lots_ids_nodup.sublist hsub
  case filled => exact hfilled
  case lastOnly =>
    intro t ht
    obtain ⟨o, ho, hside, hprice, -⟩ := hfilled t (List.dropLast_subset _ ht)
    have hmem : t.lot side.opposite ∈ (consume qty.toNat (b.lots side.opposite)).fills.dropLast := by
      rw [hwalk, ← List.map_dropLast]
      exact List.mem_map_of_mem ht
    rw [lot_eq] at hmem
    have hgone := consume_dropLast hwant hb.lots_labels_nodup hmem
    rw [hwalk] at hgone
    exact hreq.gone hb' ho (by rwa [hside, hprice])
  case others =>
    intro id hid
    by_cases hon : ∃ o, b.byId.lookup id = some o ∧ o.side = side.opposite
    · obtain ⟨o, ho, hside⟩ := hon
      have hlot := hb.mem_lots.mpr ⟨o, ho, hside, rfl, rfl⟩
      have hleft := consume_untouched hwant hlot (by
        rw [hwalk, List.map_map]
        intro hmem
        obtain ⟨t, ht, heq⟩ := List.mem_map.mp hmem
        rw [Function.comp_apply, lot_eq] at heq
        exact hid t ht (congrArg Prod.fst heq))
      rw [hwalk] at hleft
      obtain ⟨o', ho', -, -, hqty⟩ := hb'.mem_lots.mp hleft
      have hsame : o.qty = o'.qty := UInt64.toNat_inj.mp (Int.natCast_inj.mp hqty)
      rw [ho', ho, hreq.eq ho ho', ← hsame]
    · refine hk.frame id fun price n hn hnid => hon ?_
      obtain ⟨o, ho, hside, -⟩ := hb.linked.exists_order hn
      exact ⟨o, hnid ▸ ho, hside⟩
  case queues => exact hreq.queueAt hb hb' hshrinks
  case levels => exact hb'.drained

end Market

/-- In every state that calls lead to, a market order of either side and any quantity walks
the other side, the queues of which are in the order of the adds. -/
theorem market_order_walks (calls : List (Call P)) :
    ∃ es b, exec OrderBook.step (.init : OrderBook P) calls = some (es, b) ∧
      (∀ side price, ((b.queueAt side price).map Node.id).Sublist (arrivals es)) ∧
      ∀ side qty, ∃ fill b', b.marketOrder side qty = some (fill, b') ∧
        MarketOrdered b side qty fill b' := by
  obtain ⟨es, b, hes, hi⟩ := exec_runInv calls
  refine ⟨es, b, hes, hi.fifo, fun side qty => ?_⟩
  obtain ⟨fill, b', hm, -, hspec⟩ := hi.inv.marketOrder_ordered side qty
  exact ⟨fill, b', hm, hspec⟩

end HftExercises.Book
