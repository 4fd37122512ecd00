import HftExercises.Core.Consume
import HftExercises.Domain.OrderBookSweep

/-! # A market order consumes the other side in priority order

A side of the book is read as one list of lots, best price first and oldest
first inside a price: the asks in the order of their map, the bids in reverse.
The loop over a queue takes from the front of that list and touches no other
level; the loops over the levels stand on its first level while they still want
something.
-/
namespace HftExercises.Book
variable {P : Type*}

/-- The quantity the table records for an id, none when the id is missing. -/
def qtyOf (byId : IdTable P) (id : OrderId) : ℤ :=
  ((byId.lookup id).map fun order => (order.qty.toNat : ℤ)).getD 0

def levelLots (byId : IdTable P) (level : P × List Node) : List ((OrderId × P) × ℤ) :=
  level.2.map fun n => ((n.id, level.1), qtyOf byId n.id)

/-- The trade as seen by the order resting on `side`. -/
def Trade.lot (side : Side) (t : Trade P) : (OrderId × P) × ℤ :=
  match side with
  | .buy => ((t.buyOrder, t.price), t.qty.toNat)
  | .sell => ((t.sellOrder, t.price), t.qty.toNat)

/-- The levels of an ascending map, best price first. -/
def byPriority (side : Side) (levels : List (P × List Node)) : List (P × List Node) :=
  match side with
  | .buy => levels.reverse
  | .sell => levels

/-- The resting orders of one side in priority order. -/
def OrderBook.lots [LinearOrder P] (b : OrderBook P) (side : Side) : List ((OrderId × P) × ℤ) :=
  (byPriority side (b.book side).entries).flatMap (levelLots b.byId)

section Words
variable (want qty : UInt64)

theorem toInt_sub_of_le {a b : UInt64} (h : b ≤ a) : ((a - b).toNat : ℤ) = a.toNat - b.toNat := by
  rw [UInt64.toNat_sub_of_le _ _ h]
  rw [UInt64.le_iff_toNat_le] at h
  omega

theorem toInt_min : ((min want qty).toNat : ℤ) = min (want.toNat : ℤ) qty.toNat := by
  have hmin : min want qty = if want ≤ qty then want else qty := rfl
  rw [hmin]
  split_ifs with h <;> rw [UInt64.le_iff_toNat_le] at h <;> omega

theorem toInt_want_sub_min : ((want - min want qty).toNat : ℤ) =
    want.toNat - min (want.toNat : ℤ) qty.toNat := by
  have hmin := toInt_min want qty
  have hle : min want qty ≤ want := by
    rw [UInt64.le_iff_toNat_le]
    omega
  rw [toInt_sub_of_le hle, hmin]

theorem toInt_qty_sub_min : ((qty - min want qty).toNat : ℤ) =
    qty.toNat - min (want.toNat : ℤ) qty.toNat := by
  have hmin := toInt_min want qty
  have hle : min want qty ≤ qty := by
    rw [UInt64.le_iff_toNat_le]
    omega
  rw [toInt_sub_of_le hle, hmin]

end Words

section Level
variable {byId byId' : IdTable P}

/-- A level reads the table at its own ids only. -/
theorem levelLots_congr {level : P × List Node}
    (h : ∀ n ∈ level.2, byId'.lookup n.id = byId.lookup n.id) :
    levelLots byId' level = levelLots byId level := by
  refine List.map_congr_left ?_
  intro n hn
  rw [qtyOf, qtyOf, h n hn]

theorem levelLots_append (byId : IdTable P) (price : P) (queue queue' : List Node) :
    levelLots byId (price, queue ++ queue') =
      levelLots byId (price, queue) ++ levelLots byId (price, queue') := List.map_append

theorem qtyOf_eq {id : OrderId} {order : Order P} (h : byId.lookup id = some order) :
    qtyOf byId id = order.qty.toNat := by
  rw [qtyOf, h]
  rfl

end Level

@[simp] theorem lot_tradeAgainst (side : Side) (price : P) (id : OrderId) (take : UInt64) :
    (tradeAgainst side price id take).lot side = ((id, price), (take.toNat : ℤ)) := by
  cases side <;> rfl

/-- Between two states of the loop over a queue, whatever lots follow the level:
the trades made and the demand left at the later one are those of the demand at
the earlier one. Ids outside the queue keep their entry. -/
structure FillTakes (side : Side) (price : P) (f f' : Fill P) : Prop where
  takes : ∀ rest, (consume f.want.toNat (levelLots f.byId (price, f.queue) ++ rest)).after
      (f.trades.map (Trade.lot side)) =
    (consume f'.want.toNat (levelLots f'.byId (price, f'.queue) ++ rest)).after
      (f'.trades.map (Trade.lot side))
  frame : ∀ id, id ∉ f.queue.map Node.id → f'.byId.lookup id = f.byId.lookup id
  sub : f'.queue.Sublist f.queue

namespace FillTakes
variable {side : Side} {price : P} {f f' f'' : Fill P}

theorem refl (f : Fill P) : FillTakes side price f f :=
  ⟨fun _ => rfl, fun _ _ => rfl, List.Sublist.refl _⟩

theorem trans (h : FillTakes side price f f') (h' : FillTakes side price f' f'') :
    FillTakes side price f f'' where
  takes := fun rest => (h.takes rest).trans (h'.takes rest)
  frame := fun id hid =>
    (h'.frame id (fun hmem => hid ((h.sub.map Node.id).subset hmem))).trans (h.frame id hid)
  sub := h'.sub.trans h.sub

end FillTakes

section Fill
variable [LinearOrder P] {q : Side → P → List Node} {side : Side} {price : P} {bound : ℕ}
variable {f f' : Fill P} {d : Fill P → Option (Fill P)}

omit [LinearOrder P] in
/-- The level after a fill of its front order, as lots. -/
theorem levelLots_front {byId : IdTable P} {node : Node} {rest : List Node} {resting : Order P}
    (hids : node.id ∉ rest.map Node.id) (left : UInt64) :
    levelLots (if left = 0 then byId.erase node.id
        else byId.insert node.id { resting with qty := left })
      (price, if left = 0 then rest else node :: rest) =
    remainder (node.id, price) left.toNat ++ levelLots byId (price, rest) := by
  have hne : ∀ n ∈ rest, n.id ≠ node.id := fun n hn he => hids (he ▸ List.mem_map_of_mem hn)
  unfold remainder
  by_cases hleft : left = 0
  · subst hleft
    exact levelLots_congr (fun n hn => AList.lookup_erase_ne (hne n hn))
  · have hpos : (left.toNat : ℤ) ≠ 0 := by
      intro h
      exact hleft (UInt64.toNat_inj.mp (Int.natCast_eq_zero.mp h))
    have hrest : levelLots (byId.insert node.id { resting with qty := left }) (price, rest) =
        levelLots byId (price, rest) :=
      levelLots_congr (fun n hn => AList.lookup_insert_ne (hne n hn))
    rw [if_neg hleft, if_neg hleft, if_neg hpos, List.singleton_append, ← hrest]
    simp [levelLots, qtyOf]

theorem FillInv.body_takes (h : FillInv q side price bound f) (hg : fillGuard f = true)
    (hb : fillBody d (tradeAgainst side price) f = some f') : FillTakes side price f f' := by
  obtain ⟨byId, queue, want, trades⟩ := f
  cases queue with
  | nil => simp [fillGuard] at hg
  | cons node rest =>
    have hwant : want ≠ 0 := by simpa [fillGuard] using hg
    have hpos : (0 : ℤ) < want.toNat := by
      have hne : want.toNat ≠ 0 := fun h => hwant (UInt64.toNat_inj.mp h)
      omega
    have hids := h.linked.ids side price
    rw [place_self, List.map_cons, List.nodup_cons] at hids
    have hmem : node ∈ place q side price (node :: rest) side price := by
      rw [place_self]
      exact List.mem_cons_self
    obtain ⟨resting, hrest, _⟩ := h.linked.exists_order hmem
    simp only [fillBody, hrest, Option.some.injEq] at hb
    subst hb
    refine ⟨?_, ?_, ?_⟩
    · intro lots
      have hlots : levelLots byId (price, node :: rest) =
          ((node.id, price), (resting.qty.toNat : ℤ)) :: levelLots byId (price, rest) := by
        rw [← qtyOf_eq hrest]
        rfl
      rw [levelLots_front hids.1, hlots, List.cons_append, consume_cons hpos, Consumed.after_after,
        toInt_want_sub_min, toInt_qty_sub_min, List.append_assoc, List.map_append, List.map_singleton,
        lot_tradeAgainst, toInt_min]
    · intro id hid
      have hne : id ≠ node.id := fun he => hid (he ▸ List.mem_cons_self)
      dsimp only
      split_ifs
      · exact AList.lookup_erase_ne hne
      · exact AList.lookup_insert_ne hne
    · dsimp only
      split_ifs
      · exact List.sublist_cons_self node rest
      · exact List.Sublist.refl _

/-- The loop over a queue stops when the level or the demand is exhausted. -/
theorem FillInv.fillQueue_takes (h : FillInv q side price bound f)
    (hf : Book.fillQueue d (tradeAgainst side price) f = some f') :
    FillTakes side price f f' ∧ (f'.queue = [] ∨ f'.want = 0) := by
  have hbody : ∀ g g', FillInv q side price bound g ∧ FillTakes side price f g →
      fillGuard g = true → fillBody d (tradeAgainst side price) g = some g' →
      FillInv q side price bound g' ∧ FillTakes side price f g' := by
    rintro g g' ⟨hi, ht⟩ hg hb
    obtain ⟨g'', hb', hi', _⟩ := hi.body hg (tradeAgainst side price)
    rw [hb' d] at hb
    cases hb
    exact ⟨hi', ht.trans (hi.body_takes hg (hb' d))⟩
  obtain ⟨⟨_, ht⟩, hg⟩ := whileLoop_invariant _ hbody ⟨h, FillTakes.refl f⟩ hf
  refine ⟨ht, ?_⟩
  by_contra hnot
  rw [not_or] at hnot
  simp [fillGuard, hnot.1, hnot.2] at hg

end Fill

section Levels
variable [LinearOrder P] {side : Side} {price : P} {queue : List Node} {rest : List (P × List Node)}

/-- What the map holds once the queue of one of its levels is written back. -/
theorem entries_storeQueue {m : PriceMap P} {l₁ l₂ : List (P × List Node)}
    (h : m.entries = l₁ ++ (price, queue) :: l₂) (queue' : List Node) :
    (storeQueue m price queue').entries =
      if queue' = [] then l₁ ++ l₂ else l₁ ++ (price, queue') :: l₂ := by
  unfold storeQueue
  cases queue' with
  | nil => exact OrdMap.entries_erase h
  | cons n queue' => exact OrdMap.entries_set h (n :: queue')

/-- The same for the best level of a side. -/
theorem byPriority_storeQueue {m : PriceMap P}
    (h : byPriority side m.entries = (price, queue) :: rest) (queue' : List Node) :
    byPriority side (storeQueue m price queue').entries =
      if queue' = [] then rest else (price, queue') :: rest := by
  cases side with
  | sell =>
    have hsplit : m.entries = [] ++ (price, queue) :: rest := h
    exact entries_storeQueue hsplit queue'
  | buy =>
    have hsplit : m.entries = rest.reverse ++ (price, queue) :: [] := by
      rw [← List.reverse_reverse m.entries]
      exact (congrArg List.reverse h).trans List.reverse_cons
    rw [entries_storeQueue hsplit]
    split_ifs <;> simp [byPriority]

omit [LinearOrder P] in
theorem mem_byPriority {levels : List (P × List Node)} {e : P × List Node} :
    e ∈ byPriority side levels ↔ e ∈ levels := by
  cases side with
  | sell => exact Iff.rfl
  | buy => exact List.mem_reverse

theorem byPriority_keys_nodup (side : Side) (m : PriceMap P) :
    ((byPriority side m.entries).map Prod.fst).Nodup := by
  cases side with
  | sell => exact m.keys_nodup
  | buy =>
    rw [byPriority, List.map_reverse]
    exact List.nodup_reverse.mpr m.keys_nodup

/-- The orders of two levels of a side have different ids. -/
theorem BookInv.levels_disjoint {b : OrderBook P} (h : BookInv b) {e e' : P × List Node}
    (he : e ∈ (b.book side).entries) (he' : e' ∈ (b.book side).entries) (hne : e.1 ≠ e'.1)
    {n : Node} (hn : n ∈ e.2) : n.id ∉ e'.2.map Node.id := by
  have hat : ∀ {e : P × List Node}, e ∈ (b.book side).entries → b.queueAt side e.1 = e.2 :=
    fun he => queueAt_of_find? (OrdMap.find?_eq_some_iff.mpr he)
  intro hmem
  obtain ⟨n', hn', hid⟩ := List.mem_map.mp hmem
  obtain ⟨o, ho, _, hp, _⟩ := h.linked.exists_order ((hat he).symm ▸ hn)
  obtain ⟨o', ho', _, hp', _⟩ := h.linked.exists_order ((hat he').symm ▸ hn')
  rw [hid, ho] at ho'
  cases ho'
  exact hne (hp.symm.trans hp')

/-- Filling against the best level of a side takes the front of its lots. -/
theorem BookInv.sweepLevel_takes {w : Sweep P} (h : BookInv w.ob)
    (hbest : byPriority side (w.ob.book side).entries = (price, queue) :: rest)
    {d : Fill P → Option (Fill P)} {p : Bool × Sweep P}
    (hp : Book.sweepLevel d side price w = some p) :
    (consume w.want.toNat (w.ob.lots side)).after (w.trades.map (Trade.lot side)) =
      (consume p.2.want.toNat (p.2.ob.lots side)).after (p.2.trades.map (Trade.lot side)) ∧
    (p.1 = true ∧ byPriority side (p.2.ob.book side).entries = rest ∨
      p.1 = false ∧ p.2.want = 0) := by
  have hin : ∀ e ∈ (price, queue) :: rest, e ∈ (w.ob.book side).entries :=
    fun e he => mem_byPriority.mp (hbest ▸ he)
  have hmem : (price, queue) ∈ (w.ob.book side).entries := hin _ List.mem_cons_self
  have hq : (w.ob.book side).find? price = some queue := OrdMap.find?_eq_some_iff.mpr hmem
  simp only [Book.sweepLevel, hq, Option.map_eq_some_iff] at hp
  obtain ⟨f, hf, rfl⟩ := hp
  obtain ⟨ht, hend⟩ := (h.fillInv hq w.want w.trades).fillQueue_takes hf
  have hbook : ({ w.ob.setBook side (storeQueue (w.ob.book side) price f.queue) with
      byId := f.byId } : OrderBook P).book side = storeQueue (w.ob.book side) price f.queue := by
    cases side <;> rfl
  have hprio := byPriority_storeQueue hbest f.queue
  have hkeys := byPriority_keys_nodup side (w.ob.book side)
  rw [hbest, List.map_cons, List.nodup_cons] at hkeys
  have hrest : rest.flatMap (levelLots f.byId) = rest.flatMap (levelLots w.ob.byId) := by
    refine List.flatMap_congr ?_
    intro e he
    have hne : e.1 ≠ price := fun heq => hkeys.1 (List.mem_map.mpr ⟨e, he, heq⟩)
    have he' := hin e (List.mem_cons_of_mem _ he)
    exact levelLots_congr (fun n hn => ht.frame n.id (h.levels_disjoint he' hmem hne hn))
  have hbefore : w.ob.lots side =
      levelLots w.ob.byId (price, queue) ++ rest.flatMap (levelLots w.ob.byId) := by
    rw [OrderBook.lots, hbest, List.flatMap_cons]
  have hafter : (byPriority side (storeQueue (w.ob.book side) price f.queue).entries).flatMap
      (levelLots f.byId) = levelLots f.byId (price, f.queue) ++ rest.flatMap (levelLots f.byId) := by
    rw [hprio]
    split_ifs with hempty
    · rw [hempty]
      rfl
    · rw [List.flatMap_cons]
  refine ⟨?_, ?_⟩
  · dsimp only [OrderBook.lots]
    rw [hbook, hafter, hrest]
    dsimp only [OrderBook.lots] at hbefore
    rw [hbefore]
    exact ht.takes _
  · cases hempty : f.queue.isEmpty with
    | true =>
      refine Or.inl ⟨rfl, ?_⟩
      dsimp only
      rw [hbook, hprio, if_pos (List.isEmpty_iff.mp hempty)]
    | false =>
      refine Or.inr ⟨rfl, hend.resolve_left ?_⟩
      simpa using hempty

end Levels

/-- The best level is where the loop over the levels stands. -/
def atBest [LinearOrder P] (side : Side) (w : Sweep P) : Prop :=
  match side with
  | .buy => w.it = none
  | .sell => w.it = w.ob.asks.firstKey?

/-- The loop over the levels of `side`, part of the way through the demand. -/
structure SweepTakes [LinearOrder P] (b : OrderBook P) (side : Side) (want : UInt64) (w : Sweep P) :
    Prop where
  takes : consume want.toNat (b.lots side) =
    (consume w.want.toNat (w.ob.lots side)).after (w.trades.map (Trade.lot side))
  best : w.want ≠ 0 → atBest side w

section Loops
variable [LinearOrder P] {b : OrderBook P} {want : UInt64} {w w' : Sweep P}
variable {d : Fill P → Option (Fill P)}

theorem SweepTakes.asksBody (h : SweepTakes b .sell want w) (hi : BookInv w.ob)
    (hg : asksGuard w = true) (hb : Book.asksBody d w = some w') : SweepTakes b .sell want w' := by
  simp only [asksGuard, Bool.and_eq_true, bne_iff_ne, ne_eq] at hg
  obtain ⟨price, hit⟩ := Option.isSome_iff_exists.mp hg.1
  have hfirst : w.ob.asks.firstKey? = some price := (h.best hg.2).symm.trans hit
  obtain ⟨queue, rest, hentries⟩ := OrdMap.exists_split_of_firstKey? hfirst
  simp only [Book.asksBody, hit, Option.map_eq_some_iff] at hb
  obtain ⟨p, hp, rfl⟩ := hb
  have hbest : byPriority .sell (w.ob.book .sell).entries = (price, queue) :: rest := hentries
  obtain ⟨htakes, hend⟩ := hi.sweepLevel_takes hbest hp
  refine ⟨h.takes.trans htakes, ?_⟩
  intro hwant
  have hrest : p.2.ob.asks.entries = rest := (hend.resolve_right (fun hz => hwant hz.2)).2
  have hsplit : w.ob.asks.entries = [] ++ (price, queue) :: rest := hentries
  refine OrdMap.nextKey?_eq_firstKey? ?_
  intro e he
  exact OrdMap.gt_of_split hsplit e (hrest ▸ he)

theorem SweepTakes.bidsBody (h : SweepTakes b .buy want w) (hi : BookInv w.ob)
    (hg : bidsGuard w = true) (hb : Book.bidsBody d w = some w') : SweepTakes b .buy want w' := by
  simp only [bidsGuard, Bool.and_eq_true, bne_iff_ne, ne_eq] at hg
  have hit : w.it = none := h.best hg.2
  unfold Book.bidsBody at hb
  split at hb
  · cases hb
  · rename_i price hprev
    rw [hit] at hprev
    obtain ⟨queue, rest, hentries⟩ := OrdMap.exists_split_of_prevKey? hprev
    obtain ⟨p, hp, hw⟩ := Option.map_eq_some_iff.mp hb
    have hbest : byPriority .buy (w.ob.book .buy).entries = (price, queue) :: rest.reverse := by
      show w.ob.bids.entries.reverse = _
      rw [hentries, List.reverse_append]
      rfl
    obtain ⟨htakes, hend⟩ := hi.sweepLevel_takes hbest hp
    rcases hend with ⟨hdrained, hrest⟩ | ⟨hstays, hz⟩
    · rw [if_pos hdrained] at hw
      cases hw
      refine ⟨h.takes.trans htakes, fun _ => ?_⟩
      have hrest : p.2.ob.bids.entries = rest := List.reverse_injective hrest
      refine OrdMap.nextKey?_eq_none ?_
      intro e he
      have hlt := OrdMap.lt_of_split hentries e (hrest ▸ he)
      exact lt_asymm hlt
    · rw [if_neg (by simp [hstays])] at hw
      cases hw
      exact ⟨h.takes.trans htakes, fun hwant => absurd hz hwant⟩

end Loops

def Side.opposite : Side → Side
  | .buy => .sell
  | .sell => .buy

/-- At the end nothing is wanted or nothing is left. -/
theorem SweepTakes.finished [LinearOrder P] {b : OrderBook P} {side : Side} {want : UInt64}
    {w : Sweep P} (h : SweepTakes b side want w)
    (hend : w.want ≠ 0 → (w.ob.book side).entries = []) :
    consume want.toNat (b.lots side) =
      ⟨w.trades.map (Trade.lot side), w.ob.lots side, w.want.toNat⟩ := by
  rw [h.takes]
  by_cases hz : w.want = 0
  · have hnot : ¬ (0 : ℤ) < w.want.toNat := by
      rw [hz]
      decide
    rw [consume_of_not_pos hnot]
    simp [Consumed.after]
  · have hempty : w.ob.lots side = [] := by
      rw [OrderBook.lots, hend hz]
      cases side <;> rfl
    rw [hempty]
    simp [consume, Consumed.after]

/-- A loop whose body keeps both invariants. -/
theorem SweepTakes.loop [LinearOrder P] {b : OrderBook P} {side : Side} {want : UInt64}
    {w w' : Sweep P} {guard : Sweep P → Bool} {μ : Sweep P → ℕ} {n : ℕ}
    {body : (Fill P → Option (Fill P)) → Sweep P → Option (Sweep P)}
    (hinv : ∀ w, SweepInv b side w → guard w = true →
      ∃ w', (∀ d, body d w = some w') ∧ SweepInv b side w' ∧ μ w' < μ w)
    (htakes : ∀ w w', SweepTakes b side want w → BookInv w.ob → guard w = true →
      body popFront w = some w' → SweepTakes b side want w')
    (hi : SweepInv b side w) (ht : SweepTakes b side want w)
    (hw : whileLoop guard (body popFront) n w = some w') :
    SweepTakes b side want w' ∧ guard w' = false := by
  have hbody : ∀ w w', SweepInv b side w ∧ SweepTakes b side want w → guard w = true →
      body popFront w = some w' → SweepInv b side w' ∧ SweepTakes b side want w' := by
    rintro w w' ⟨hi, ht⟩ hg hb
    obtain ⟨w'', hb', hi', _⟩ := hinv w hi hg
    rw [hb' popFront] at hb
    cases hb
    exact ⟨hi', htakes w w' ht hi.inv hg (hb' popFront)⟩
  obtain ⟨⟨_, ht'⟩, hg⟩ := whileLoop_invariant _ hbody ⟨hi, ht⟩ hw
  exact ⟨ht', hg⟩

/-- A market order takes the lots of the other side in priority order, and what
it could not take remains. -/
theorem BookInv.marketOrder_takes [LinearOrder P] {b : OrderBook P} (h : BookInv b) (side : Side)
    (qty : UInt64) : ∃ fill b', b.marketOrder side qty = some (fill, b') ∧
      consume qty.toNat (b.lots side.opposite) =
        ⟨fill.trades.map (Trade.lot side.opposite), b'.lots side.opposite,
          fill.remainingQty.toNat⟩ := by
  obtain ⟨⟨fill, b'⟩, hmarket, _, _⟩ := h.marketOrderWith side qty
  refine ⟨fill, b', hmarket popFront, ?_⟩
  have hm := hmarket popFront
  cases side with
  | buy =>
    obtain ⟨w, hw, he⟩ := Option.map_eq_some_iff.mp hm
    cases he
    obtain ⟨ht, hg⟩ := SweepTakes.loop (fun w hi hg => hi.asksBody hg)
      (fun w w' ht hi hg hb => ht.asksBody hi hg hb) (h.asksStart qty) ⟨rfl, fun _ => rfl⟩ hw
    refine ht.finished ?_
    intro hwant
    have hit : w.it = none := by simpa [asksGuard, hwant] using hg
    exact OrdMap.entries_eq_nil_of_firstKey? ((ht.best hwant).symm.trans hit)
  | sell =>
    obtain ⟨w, hw, he⟩ := Option.map_eq_some_iff.mp hm
    cases he
    obtain ⟨ht, hg⟩ := SweepTakes.loop (fun w hi hg => hi.bidsBody hg)
      (fun w w' ht hi hg hb => ht.bidsBody hi hg hb) (h.bidsStart qty) ⟨rfl, fun _ => rfl⟩ hw
    refine ht.finished ?_
    intro hwant
    have hit : w.it = w.ob.bids.firstKey? := by simpa [bidsGuard, hwant] using hg
    exact OrdMap.entries_eq_nil_of_firstKey? (hit.symm.trans (ht.best hwant))

end HftExercises.Book
