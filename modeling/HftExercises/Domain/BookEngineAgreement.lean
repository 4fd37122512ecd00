import HftExercises.Domain.OrderBookRuns
import HftExercises.Domain.OrderBookFill
import HftExercises.Domain.MatchingEngineFill

/-! # The order book and the matching engine agree

While the engine makes no trades, the order book given the same adds and cancels
mirrors the flat list of resting orders that the engine refines, level by level.
A market order on the one and an order with the most permissive limit on the
other then consume the same lots. The engine's integer prices reach the order
book through a conversion into its price type; all that is asked of it is that
the prices of the run keep their order.
-/
namespace HftExercises.Agreement
open Matching (Resting RunInv)
variable {P : Type*} [LinearOrder P]

def bookSide : Matching.Side → Book.Side
  | .buy => .buy
  | .sell => .sell

/-- The call on the order book that corresponds to a call on the engine. -/
def bookCall (toPrice : ℤ → P) : Matching.Call → Book.Call P
  | .addOrder order =>
    .addOrder order.id (bookSide order.side) (toPrice order.price) (UInt64.ofNat order.qty.toNat)
  | .cancelOrder id => .cancelOrder id

/-- The limit that no price of the other side is beyond: `INT64_MAX` for a buy,
`INT64_MIN` for a sell. -/
def permissiveLimit : Matching.Side → ℤ
  | .buy => 2 ^ 63 - 1
  | .sell => -2 ^ 63

/-- The prices that the adds of a run carry. -/
def prices (calls : List Matching.Call) : Set ℤ :=
  {price | ∃ order, Matching.Call.addOrder order ∈ calls ∧ order.price = price}

/-- The conversion keeps the order of these prices. -/
def KeepsOrder (toPrice : ℤ → P) (S : Set ℤ) : Prop :=
  ∀ p ∈ S, ∀ q ∈ S, p < q → toPrice p < toPrice q

/-- A resting order as a lot. -/
def restingLot (toPrice : ℤ → P) (r : Resting) : (UInt64 × P) × ℤ := ((r.id, toPrice r.price), r.qty)

/-- The lots of one level of the flat list, oldest first. -/
def restingLots (toPrice : ℤ → P) (l : List Resting) (side : Matching.Side) (price : P) :
    List ((UInt64 × P) × ℤ) :=
  (l.filter (fun r => r.side = side && toPrice r.price = price)).map (restingLot toPrice)

/-- The order book holds, level by level, the resting orders of the flat list. -/
structure Mirrors (toPrice : ℤ → P) (ob : Book.OrderBook P) (l : List Resting) : Prop where
  inv : Book.BookInv ob
  levels : ∀ side price, Book.levelLots ob.byId (price, ob.queueAt (bookSide side) price) =
    restingLots toPrice l side price

theorem exists_bookSide (side : Book.Side) : ∃ s, bookSide s = side := by
  cases side
  · exact ⟨.buy, rfl⟩
  · exact ⟨.sell, rfl⟩

theorem bookSide_inj {s t : Matching.Side} : bookSide s = bookSide t ↔ s = t := by
  cases s <;> cases t <;> simp [bookSide]

theorem bookSide_opposite (side : Matching.Side) :
    (bookSide side).opposite = bookSide side.opposite := by
  cases side <;> rfl

theorem restingLots_append (toPrice : ℤ → P) (l₁ l₂ : List Resting) (side : Matching.Side)
    (price : P) : restingLots toPrice (l₁ ++ l₂) side price =
      restingLots toPrice l₁ side price ++ restingLots toPrice l₂ side price := by
  simp [restingLots]

theorem toNat_ofNat_qty {qty : ℤ} (h : 0 < qty ∧ qty < 2 ^ 63) :
    ((UInt64.ofNat qty.toNat).toNat : ℤ) = qty := by
  rw [UInt64.toNat_ofNat_of_lt' (by change qty.toNat < 2 ^ 64; omega)]
  omega

section Steps
variable {toPrice : ℤ → P} {ob : Book.OrderBook P} {l : List Resting}

theorem Mirrors.init : Mirrors toPrice Book.OrderBook.init [] where
  inv := Book.BookInv.empty 0
  levels := by
    intro side price
    cases side <;> rfl

/-- An id of the table is an id of the list. -/
theorem Mirrors.exists_resting (h : Mirrors toPrice ob l) {id : UInt64} {o : Book.Order P}
    (ho : ob.byId.lookup id = some o) : ∃ r ∈ l, r.id = id := by
  obtain ⟨side, hside⟩ := exists_bookSide o.side
  have hreg := h.inv.linked.registered ho
  have hmem : ((id, o.price), Book.qtyOf ob.byId id) ∈
      Book.levelLots ob.byId (o.price, ob.queueAt (bookSide side) o.price) := by
    rw [hside]
    exact List.mem_map.mpr ⟨_, hreg, rfl⟩
  rw [h.levels] at hmem
  obtain ⟨r, hr, he⟩ := List.mem_map.mp hmem
  simp only [restingLot, Prod.mk.injEq] at he
  exact ⟨r, (List.mem_filter.mp hr).1, he.1.1⟩

theorem Mirrors.addOrder (h : Mirrors toPrice ob l) {order : Matching.Order}
    (hfresh : order.id ∉ l.map Resting.id) (hqty : 0 < order.qty ∧ order.qty < 2 ^ 63) (arrival : ℕ) :
    Mirrors toPrice (ob.addOrder order.id (bookSide order.side) (toPrice order.price)
        (UInt64.ofNat order.qty.toNat)).2
      (l ++ [⟨order.id, order.side, order.price, order.qty, arrival⟩]) := by
  have hid : ob.byId.lookup order.id = none := by
    cases ho : ob.byId.lookup order.id with
    | none => rfl
    | some o =>
      obtain ⟨r, hr, he⟩ := h.exists_resting ho
      exact absurd (List.mem_map.mpr ⟨r, hr, he⟩) hfresh
  obtain ⟨_, hinv, hqueue⟩ := h.inv.addOrder hid (bookSide order.side) (toPrice order.price)
    (UInt64.ofNat order.qty.toNat)
  refine ⟨hinv, ?_⟩
  have hbyId : (ob.addOrder order.id (bookSide order.side) (toPrice order.price)
      (UInt64.ofNat order.qty.toNat)).2.byId = ob.byId.insert order.id
        ⟨bookSide order.side, toPrice order.price, UInt64.ofNat order.qty.toNat, ob.nextNode⟩ := by
    simp [Book.OrderBook.addOrder, hid]
  intro side price
  have hold : ∀ n ∈ ob.queueAt (bookSide side) price, n.id ≠ order.id := by
    intro n hn he
    obtain ⟨o, ho, _⟩ := h.inv.linked.exists_order hn
    rw [he, hid] at ho
    cases ho
  have hkeep : Book.levelLots (ob.byId.insert order.id
        ⟨bookSide order.side, toPrice order.price, UInt64.ofNat order.qty.toNat, ob.nextNode⟩)
      (price, ob.queueAt (bookSide side) price) = restingLots toPrice l side price := by
    rw [← h.levels]
    exact Book.levelLots_congr (fun n hn => AList.lookup_insert_ne (hold n hn))
  rw [hbyId, hqueue, restingLots_append]
  by_cases hsp : order.side = side ∧ toPrice order.price = price
  · obtain ⟨rfl, rfl⟩ := hsp
    rw [Book.place_self, Book.levelLots_append, hkeep]
    have hnew : Book.qtyOf (ob.byId.insert order.id ⟨bookSide order.side, toPrice order.price,
        UInt64.ofNat order.qty.toNat, ob.nextNode⟩) order.id = order.qty :=
      (Book.qtyOf_eq (AList.lookup_insert _)).trans (toNat_ofNat_qty hqty)
    simp [Book.levelLots, hnew, restingLots, restingLot]
  · have hother : ¬ (bookSide side = bookSide order.side ∧ price = toPrice order.price) := by
      rw [bookSide_inj]
      exact fun he => hsp ⟨he.1.symm, he.2.symm⟩
    have hnone : restingLots toPrice
        [⟨order.id, order.side, order.price, order.qty, arrival⟩] side price = [] := by
      simp [restingLots, hsp]
    rw [Book.place_other hother, hkeep, hnone, List.append_nil]

theorem Mirrors.cancelOrder (h : Mirrors toPrice ob l) (id : UInt64) :
    ∃ ok ob', ob.cancelOrder id = some (ok, ob') ∧
      Mirrors toPrice ob' (l.filter (fun r => r.id ≠ id)) := by
  obtain ⟨ok, ob', hc, hinv, hshrinks⟩ := h.inv.cancelOrder id
  refine ⟨ok, ob', hc, hinv, ?_⟩
  intro side price
  have hqueue := h.inv.cancelOrder_queueAt hinv hshrinks hc (bookSide side) price
  have hkeep : Book.levelLots ob'.byId (price, ob'.queueAt (bookSide side) price) =
      Book.levelLots ob.byId (price, ob'.queueAt (bookSide side) price) := by
    refine Book.levelLots_congr ?_
    intro n hn
    have hne : n.id ≠ id := by
      rw [hqueue] at hn
      simpa using (List.mem_filter.mp hn).2
    rw [Book.cancelOrder_lookup hc, if_neg hne]
  have hfilter : Book.levelLots ob.byId (price, ob'.queueAt (bookSide side) price) =
      (Book.levelLots ob.byId (price, ob.queueAt (bookSide side) price)).filter
        (fun lot => lot.1.1 ≠ id) := by
    rw [hqueue, Book.levelLots, Book.levelLots, List.filter_map]
    rfl
  rw [hkeep, hfilter, h.levels, restingLots, restingLots, List.filter_map, List.filter_filter,
    List.filter_filter]
  refine congrArg _ (List.filter_congr ?_)
  intro r _
  exact Bool.and_comm _ _

end Steps

section Order
variable {toPrice : ℤ → P} {ob : Book.OrderBook P} {l : List Resting} {side : Matching.Side}

/-- The price is served first on a side of the order book. -/
def ahead (side : Matching.Side) : P → P → Prop
  | p, q => match side with
    | .buy => q < p
    | .sell => p < q

instance (side : Matching.Side) : IsStrictTotalOrder P (ahead side) :=
  match side with
  | .buy => inferInstanceAs (IsStrictTotalOrder P (· > ·))
  | .sell => inferInstanceAs (IsStrictTotalOrder P (· < ·))

theorem byPriority_sorted (side : Matching.Side) (m : Book.PriceMap P) :
    (Book.byPriority (bookSide side) m.entries).Pairwise (fun a b => ahead side a.1 b.1) := by
  cases side with
  | buy => exact List.pairwise_reverse.mpr m.sorted
  | sell => exact m.sorted

theorem KeepsOrder.eq_iff {S : Set ℤ} (h : KeepsOrder toPrice S) {p q : ℤ} (hp : p ∈ S) (hq : q ∈ S) :
    toPrice p = toPrice q ↔ p = q := by
  refine ⟨fun heq => ?_, fun heq => by rw [heq]⟩
  rcases lt_trichotomy p q with hlt | rfl | hgt
  · exact absurd heq (h p hp q hq hlt).ne
  · rfl
  · exact absurd heq (h q hq p hp hgt).ne'

theorem ahead_of_better (hkeeps : KeepsOrder toPrice {p | ∃ r ∈ l, r.price = p}) {r x : Resting}
    (hr : r ∈ l) (hx : x ∈ l) (h : Matching.better side r.price x.price) :
    ahead side (toPrice r.price) (toPrice x.price) := by
  cases side with
  | buy => exact hkeeps _ ⟨x, hx, rfl⟩ _ ⟨r, hr, rfl⟩ h
  | sell => exact hkeeps _ ⟨r, hr, rfl⟩ _ ⟨x, hx, rfl⟩ h

/-- A level of the flat list is the same level under its converted price. -/
theorem restingLots_eq (hkeeps : KeepsOrder toPrice {p | ∃ r ∈ l, r.price = p}) {x : Resting}
    (hx : x ∈ l) : restingLots toPrice l side (toPrice x.price) =
      (Matching.levelOf l side x.price).map (Matching.LevelEntry.lot toPrice x.price) := by
  have hsame : l.filter (fun r => r.side = side && toPrice r.price = toPrice x.price) =
      l.filter (fun r => r.side = side && r.price = x.price) := by
    refine List.filter_congr ?_
    intro r hr
    have hiff : toPrice r.price = toPrice x.price ↔ r.price = x.price :=
      hkeeps.eq_iff ⟨r, hr, rfl⟩ ⟨x, hx, rfl⟩
    simp only [hiff]
  rw [restingLots, Matching.levelOf, hsame, List.map_map]
  refine List.map_congr_left ?_
  intro r hr
  have hp : r.price = x.price := by
    have := (List.mem_filter.mp hr).2
    simp only [Bool.and_eq_true, decide_eq_true_eq] at this
    exact this.2
  rw [restingLot, hp]
  rfl

/-- The levels of the order book, read as lots, are the nonempty levels of the
flat list. -/
theorem Mirrors.mem_levels (h : Mirrors toPrice ob l) {e : P × List ((UInt64 × P) × ℤ)} :
    e ∈ (Book.byPriority (bookSide side) (ob.book (bookSide side)).entries).map
        (fun level => (level.1, Book.levelLots ob.byId level)) ↔
      e.2 = restingLots toPrice l side e.1 ∧ e.2 ≠ [] := by
  rw [List.mem_map]
  constructor
  · rintro ⟨⟨price, queue⟩, hmem, rfl⟩
    have hq := OrdMap.find?_eq_some_iff.mpr (Book.mem_byPriority.mp hmem)
    have hat := Book.queueAt_of_find? hq
    refine ⟨?_, ?_⟩
    · rw [← h.levels, hat]
    · intro hnil
      have hempty : queue = [] := List.map_eq_nil_iff.mp hnil
      exact h.inv.drained _ _ (hempty ▸ hq)
  · obtain ⟨price, lots⟩ := e
    rintro ⟨hlots, hne⟩
    dsimp only at hlots hne
    subst hlots
    cases hq : (ob.book (bookSide side)).find? price with
    | none =>
      rw [← h.levels, Book.OrderBook.queueAt, hq] at hne
      exact absurd rfl hne
    | some queue =>
      have hat := Book.queueAt_of_find? hq
      refine ⟨(price, queue), Book.mem_byPriority.mpr (OrdMap.find?_eq_some_iff.mp hq), ?_⟩
      rw [← h.levels, hat]

/-- So are the levels of the engine's tree. -/
theorem mem_treeLevels {book : Matching.Book side} (h : Matching.SideRefines book l)
    (hkeeps : KeepsOrder toPrice {p | ∃ r ∈ l, r.price = p}) {e : P × List ((UInt64 × P) × ℤ)} :
    e ∈ book.entries.map (fun level => (toPrice level.1, Matching.levelLots toPrice level)) ↔
      e.2 = restingLots toPrice l side e.1 ∧ e.2 ≠ [] := by
  rw [List.mem_map]
  constructor
  · rintro ⟨⟨price, queue⟩, hmem, rfl⟩
    have hq := OrdMap.find?_eq_some_iff.mpr hmem
    obtain ⟨x, hx, _, rfl⟩ := h.exists_resting hmem
    refine ⟨?_, ?_⟩
    · rw [restingLots_eq hkeeps hx, ← h.find? hq]
      rfl
    · intro hnil
      have hempty : queue = [] := List.map_eq_nil_iff.mp hnil
      exact h.drained _ (hempty ▸ hq)
  · obtain ⟨price, lots⟩ := e
    rintro ⟨hlots, hne⟩
    dsimp only at hlots hne
    subst hlots
    obtain ⟨lot, hlot⟩ := List.exists_mem_of_ne_nil _ hne
    obtain ⟨x, hmem, _⟩ := List.mem_map.mp hlot
    obtain ⟨hx, hat⟩ := List.mem_filter.mp hmem
    simp only [Bool.and_eq_true, decide_eq_true_eq] at hat
    obtain ⟨hside, rfl⟩ := hat
    refine ⟨(x.price, Matching.levelOf l side x.price),
      OrdMap.find?_eq_some_iff.mp (h.find?_isSome hx hside), ?_⟩
    rw [restingLots_eq hkeeps hx]
    rfl

/-- Both implementations hold the same orders in the same priority order. -/
theorem Mirrors.lots_eq (h : Mirrors toPrice ob l) {book : Matching.Book side}
    (hb : Matching.SideRefines book l)
    (hkeeps : KeepsOrder toPrice {p | ∃ r ∈ l, r.price = p}) :
    ob.lots (bookSide side) = Matching.treeLots toPrice book := by
  have hbook : ((Book.byPriority (bookSide side) (ob.book (bookSide side)).entries).map
      (fun level => (level.1, Book.levelLots ob.byId level))).Pairwise
        (fun a b => ahead side a.1 b.1) :=
    List.pairwise_map.mpr (byPriority_sorted side _)
  have htree : (book.entries.map (fun level => (toPrice level.1,
      Matching.levelLots toPrice level))).Pairwise (fun a b => ahead side a.1 b.1) := by
    refine List.pairwise_map.mpr (book.sorted.imp_of_mem ?_)
    intro a b ha hb' hab
    obtain ⟨r, hr, _, hrp⟩ := hb.exists_resting ha
    obtain ⟨x, hx, _, hxp⟩ := hb.exists_resting hb'
    rw [← hrp, ← hxp] at hab ⊢
    exact ahead_of_better hkeeps hr hx hab
  have heq := OrdMap.eq_of_sorted_of_mem_iff hbook htree
    (fun e => h.mem_levels.trans (mem_treeLevels hb hkeeps).symm)
  have hflat := congrArg (List.flatMap Prod.snd) heq
  rw [List.flatMap_map, List.flatMap_map] at hflat
  exact hflat

end Order

section Runs
variable {toPrice : ℤ → P}

/-- The quantities are ones that both implementations can hold, and positive. -/
def Sized (calls : List Matching.Call) : Prop :=
  ∀ order, Matching.Call.addOrder order ∈ calls → 0 < order.qty ∧ order.qty < 2 ^ 63

/-- After a run of the engine without trades, the order book given the same calls
mirrors the flat list that the engine refines. -/
def Paired (toPrice : ℤ → P) (calls : List Matching.Call) (s : Matching.MatchingEngine) : Prop :=
  ∃ fs ob b, exec Book.OrderBook.step .init (calls.map (bookCall toPrice)) = some (fs, ob) ∧
    RunInv calls s b ∧ Mirrors toPrice ob b.resting

theorem exec_bookCall {calls : List Matching.Call} {c : Matching.Call} {ob ob' : Book.OrderBook P}
    {fs : List (Book.BookEvent P)} {o : Book.Result P}
    (h : exec Book.OrderBook.step .init (calls.map (bookCall toPrice)) = some (fs, ob))
    (hc : ob.step (bookCall toPrice c) = some (o, ob')) :
    ∃ fs', exec Book.OrderBook.step .init ((calls ++ [c]).map (bookCall toPrice)) =
      some (fs', ob') := by
  refine ⟨fs ++ [⟨ob, bookCall toPrice c, o⟩], ?_⟩
  rw [List.map_append, List.map_singleton]
  exact exec_snoc h hc

theorem Paired.addOrder {calls : List Matching.Call} {s s' : Matching.MatchingEngine}
    (h : Paired toPrice calls s) {order : Matching.Order}
    (hf : Matching.FreshId calls (.addOrder order)) (hqty : 0 < order.qty ∧ order.qty < 2 ^ 63)
    (hs : s.addOrder order = some ([], s')) :
    Paired toPrice (calls ++ [.addOrder order]) s' := by
  obtain ⟨fs, ob, b, hexec, hr, hmir⟩ := h
  obtain ⟨m, t, hmatch, _, _, ht, hr', _⟩ := hr.addOrder hf
  rw [hs] at ht
  obtain ⟨htrades, rfl⟩ := Prod.mk.inj (Option.some.inj ht)
  obtain rfl := Matching.matchOrder_eq_of_no_trades hmatch htrades.symm
  have hsettle : (b.settle order ⟨b.resting, order.qty, []⟩).resting =
      b.resting ++ [⟨order.id, order.side, order.price, order.qty, b.next⟩] := by
    rw [Matching.PriceTimeBook.settle, if_pos hqty.1]
  obtain ⟨fs', hnext⟩ := exec_bookCall hexec (c := .addOrder order) rfl
  refine ⟨fs', _, _, hnext, hr', ?_⟩
  rw [hsettle]
  exact hmir.addOrder (hr.fresh_resting hf) hqty b.next

theorem Paired.cancelOrder {calls : List Matching.Call} {s : Matching.MatchingEngine}
    (h : Paired toPrice calls s) (id : UInt64) :
    Paired toPrice (calls ++ [.cancelOrder id]) (s.cancelOrder id).2 := by
  obtain ⟨fs, ob, b, hexec, hr, hmir⟩ := h
  obtain ⟨_, hr'⟩ := hr.cancelOrder id
  obtain ⟨ok, ob', hc, hmir'⟩ := hmir.cancelOrder id
  have hstep : ob.step (bookCall toPrice (.cancelOrder id)) = some (.accepted ok, ob') := by
    rw [bookCall, Book.OrderBook.step, hc]
    rfl
  obtain ⟨fs', hnext⟩ := exec_bookCall hexec hstep
  exact ⟨fs', ob', _, hnext, hr', hmir'⟩

/-- What a history of the engine promises once its calls meet their preconditions. -/
def PairedAfter (toPrice : ℤ → P) (es : Matching.History) (s : Matching.MatchingEngine) : Prop :=
  Admissible Matching.FreshId (es.map Event.call) → Sized (es.map Event.call) →
    Matching.runTrades es = [] → Paired toPrice (es.map Event.call) s

theorem PairedAfter.step {es : Matching.History} {s s' : Matching.MatchingEngine} {c : Matching.Call}
    {o : Matching.Result} (h : PairedAfter toPrice es s) (hs : s.step c = some (o, s')) :
    PairedAfter toPrice (es ++ [Event.mk s c o]) s' := by
  intro hadm hsized hquiet
  rw [List.map_append, List.map_singleton] at hadm hsized ⊢
  obtain ⟨hadm, hf⟩ := admissible_append_singleton.mp hadm
  rw [Matching.runTrades_append, List.append_eq_nil_iff] at hquiet
  have hp := h hadm (fun x hx => hsized x (List.mem_append_left _ hx)) hquiet.1
  cases c with
  | addOrder order =>
    obtain ⟨⟨ts, t⟩, hadd, he⟩ := Option.map_eq_some_iff.mp hs
    cases he
    obtain rfl : ts = [] := hquiet.2
    exact hp.addOrder hf (hsized order (by simp)) hadd
  | cancelOrder id =>
    cases hs
    exact hp.cancelOrder id

theorem paired_of_exec (toPrice : ℤ → P) {calls : List Matching.Call} {s : Matching.MatchingEngine}
    {es : Matching.History} (hids : Matching.DistinctIds calls) (hsized : Sized calls)
    (hrun : exec Matching.MatchingEngine.step .init calls = some (es, s))
    (hquiet : Matching.runTrades es = []) : Paired toPrice calls s := by
  have hstart : PairedAfter toPrice [] Matching.MatchingEngine.init :=
    fun _ _ _ => ⟨[], .init, .init, rfl, RunInv.init, Mirrors.init⟩
  have hend := exec_invariant (PairedAfter toPrice) (fun _ _ _ _ _ h hs => h.step hs) hstart hrun
  unfold PairedAfter at hend
  rw [exec_calls hrun] at hend
  exact hend hids.admissible hsized hquiet

end Runs

/-- A market order on the order book and an order under a fresh id with the most
permissive limit on the engine: the same trades, as resting id, price and
quantity; the same orders left on the swept side, in the same priority order; and
what the one could not fill is what the other rests. -/
def SameFills (toPrice : ℤ → P) (calls : List Matching.Call) (ob : Book.OrderBook P)
    (s : Matching.MatchingEngine) : Prop :=
  ∀ (side : Matching.Side) (q : ℕ) (id : UInt64), 0 < q → q < 2 ^ 63 →
    id ∉ Matching.addedIds calls →
    ∃ fill ob' ts s', ob.marketOrder (bookSide side) (UInt64.ofNat q) = some (fill, ob') ∧
      s.addOrder ⟨id, side, permissiveLimit side, q⟩ = some (ts, s') ∧
      fill.trades.map (Book.Trade.lot (bookSide side.opposite)) =
        ts.map (Matching.Trade.lot toPrice) ∧
      ob'.lots (bookSide side.opposite) = s'.lots toPrice side.opposite ∧
      (fill.remainingQty.toNat : ℤ) = s'.qtyOf id

theorem crosses_permissiveLimit (side : Matching.Side) {price : ℤ} (hlo : -2 ^ 63 ≤ price)
    (hhi : price < 2 ^ 63) : Matching.crosses side (permissiveLimit side) price = true := by
  cases side with
  | buy => exact decide_eq_true (Int.le_sub_one_of_lt hhi)
  | sell => exact decide_eq_true hlo

/-- Take any cancels and any adds with distinct ids, positive quantities and prices
of either sign, within the 64-bit fields, during which the engine makes no trades:
the order book takes the same calls, and the two then fill every order alike. -/
theorem orderBook_agrees_with_engine (toPrice : ℤ → P) (calls : List Matching.Call)
    (es : Matching.History) (s : Matching.MatchingEngine)
    (hids : Matching.DistinctIds calls) (hsized : Sized calls)
    (hrange : ∀ price ∈ prices calls, -2 ^ 63 ≤ price ∧ price < 2 ^ 63)
    (hkeeps : KeepsOrder toPrice (prices calls))
    (hrun : exec Matching.MatchingEngine.step .init calls = some (es, s))
    (hquiet : Matching.runTrades es = []) :
    ∃ fs ob, exec Book.OrderBook.step .init (calls.map (bookCall toPrice)) = some (fs, ob) ∧
      SameFills toPrice calls ob s := by
  obtain ⟨fs, ob, b, hexec, hr, hmir⟩ := paired_of_exec toPrice hids hsized hrun hquiet
  refine ⟨fs, ob, hexec, ?_⟩
  intro side q id hpos hlt hfresh
  have hknown : ∀ r ∈ b.resting, r.price ∈ prices calls := by
    intro r hr'
    obtain ⟨order, ho, _, _, hp, _⟩ := hr.known r hr'
    exact ⟨order, ho, hp⟩
  have hkeeps' : KeepsOrder toPrice {p | ∃ r ∈ b.resting, r.price = p} := by
    rintro _ ⟨r, hr', rfl⟩ _ ⟨x, hx, rfl⟩ hlt
    exact hkeeps _ (hknown r hr') _ (hknown x hx) hlt
  have hlots : ob.lots (bookSide side.opposite) = s.lots toPrice side.opposite := by
    cases side with
    | buy => exact hmir.lots_eq hr.refines.asks hkeeps'
    | sell => exact hmir.lots_eq hr.refines.bids hkeeps'
  have hcross : ∀ r ∈ b.resting, r.side = side.opposite →
      Matching.crosses side (permissiveLimit side) r.price = true := by
    intro r hr' _
    obtain ⟨hlo, hhi⟩ := hrange r.price (hknown r hr')
    exact crosses_permissiveLimit side hlo hhi
  have hf : Matching.FreshId calls (.addOrder ⟨id, side, permissiveLimit side, q⟩) := hfresh
  have hqty : (0 : ℤ) < q := by omega
  obtain ⟨ts, s', hadd, htakes⟩ := hr.addOrder_takes toPrice hf hqty hcross
  obtain ⟨fill, ob', hmarket, hbook⟩ := hmir.inv.marketOrder_takes (bookSide side) (UInt64.ofNat q)
  have hq : (UInt64.ofNat q).toNat = q := UInt64.toNat_ofNat_of_lt' (by change q < 2 ^ 64; omega)
  rw [bookSide_opposite, hq, hlots] at hbook
  have hsame := hbook.symm.trans htakes
  obtain ⟨htrades, hleft, hwant⟩ := Consumed.mk.inj hsame
  exact ⟨fill, ob', ts, s', hmarket, hadd, htrades, hleft, hwant⟩

theorem orderBook_agrees_with_engine_ladder :
    let calls := [.addOrder ⟨1, .sell, 101, 4⟩, .addOrder ⟨2, .buy, 98, 3⟩,
      .addOrder ⟨3, .sell, 100, 5⟩, .addOrder ⟨4, .sell, 100, 2⟩, .addOrder ⟨5, .buy, 99, 1⟩,
      .cancelOrder 2]
    ∃ es s, exec Matching.MatchingEngine.step .init calls = some (es, s) ∧
      Matching.runTrades es = [] ∧
      ∃ fs ob, exec Book.OrderBook.step .init (calls.map (bookCall id)) = some (fs, ob) ∧
        SameFills id calls ob s := by
  intro calls
  have hvalue : (exec Matching.MatchingEngine.step .init calls).map
      (fun p => Matching.runTrades p.1) = some [] := by decide
  obtain ⟨⟨es, s⟩, hrun, hquiet⟩ := Option.map_eq_some_iff.mp hvalue
  have hsized : Sized calls := by
    intro order ho
    simp only [calls, List.mem_cons, List.not_mem_nil, Matching.Call.addOrder.injEq, reduceCtorEq,
      or_false] at ho
    rcases ho with rfl | rfl | rfl | rfl | rfl <;> decide
  have hrange : ∀ price ∈ prices calls, -2 ^ 63 ≤ price ∧ price < 2 ^ 63 := by
    rintro price ⟨order, ho, rfl⟩
    simp only [calls, List.mem_cons, List.not_mem_nil, Matching.Call.addOrder.injEq, reduceCtorEq,
      or_false] at ho
    rcases ho with rfl | rfl | rfl | rfl | rfl <;> decide
  exact ⟨es, s, hrun, hquiet, orderBook_agrees_with_engine id calls es s (by decide) hsized hrange
    (fun _ _ _ _ h => h) hrun hquiet⟩

end HftExercises.Agreement
