import Mathlib.Data.List.AList
import Mathlib.Order.Lattice
import HftExercises.Core.OrdMap
import HftExercises.Core.Execution

/-! # The limit order book

An order is stored three times: in the id table, as a node of the queue of its
price level, and as the iterator from the table to that node. A list iterator is
the address of its node; addresses come from a counter, so that a stale iterator
never designates a newer node. Undefined behaviour, the dereference of a missing
level or of a stale iterator, is the value `none`. Prices are any linear order.
-/
namespace HftExercises.Book

abbrev OrderId := UInt64

inductive Side where
  | buy
  | sell
  deriving DecidableEq, Repr

/-- A node of `std::list<std::uint64_t>`. -/
structure Node where
  addr : ℕ
  id : OrderId
  deriving DecidableEq, Repr

structure Order (P : Type*) where
  side : Side
  price : P
  qty : UInt64
  queuePos : ℕ
  deriving DecidableEq, Repr

structure Tick (P : Type*) where
  side : Side
  price : P
  qty : UInt64
  deriving DecidableEq, Repr

structure Trade (P : Type*) where
  buyOrder : OrderId
  sellOrder : OrderId
  price : P
  qty : UInt64
  deriving DecidableEq, Repr

structure FillResult (P : Type*) where
  trades : List (Trade P)
  remainingQty : UInt64
  deriving DecidableEq, Repr

variable {P : Type*} [LinearOrder P]

/-- Both sides are ascending in price. -/
abbrev PriceMap (P : Type*) [LinearOrder P] := OrdMap (fun p q : P => p < q) (List Node)

abbrev IdTable (P : Type*) := AList (fun _ : OrderId => Order P)

structure OrderBook (P : Type*) [LinearOrder P] where
  byId : IdTable P
  bids : PriceMap P
  asks : PriceMap P
  nextNode : ℕ

namespace OrderBook

def init : OrderBook P := ⟨∅, OrdMap.empty, OrdMap.empty, 0⟩

def book (b : OrderBook P) : Side → PriceMap P
  | .buy => b.bids
  | .sell => b.asks

def setBook (b : OrderBook P) (side : Side) (m : PriceMap P) : OrderBook P :=
  match side with
  | .buy => { b with bids := m }
  | .sell => { b with asks := m }

/-- The queue of a level, empty when the level is missing. -/
def queueAt (b : OrderBook P) (side : Side) (price : P) : List Node :=
  ((b.book side).find? price).getD []

def addOrder (b : OrderBook P) (id : OrderId) (side : Side) (price : P) (qty : UInt64) :
    Bool × OrderBook P :=
  match b.byId.lookup id with
  | some _ => (false, b)
  | none =>
    let queue := b.queueAt side price ++ [⟨b.nextNode, id⟩]
    (true, { b.setBook side ((b.book side).set price queue) with
      byId := b.byId.insert id ⟨side, price, qty, b.nextNode⟩
      nextNode := b.nextNode + 1 })

end OrderBook

/-- Write a queue back into its level; a drained level leaves the map. -/
def storeQueue (m : PriceMap P) (price : P) (queue : List Node) : PriceMap P :=
  if queue.isEmpty then m.erase price else m.set price queue

namespace OrderBook

def cancelOrder (b : OrderBook P) (id : OrderId) : Option (Bool × OrderBook P) :=
  match b.byId.lookup id with
  | none => some (false, b)
  | some order =>
    match (b.book order.side).find? order.price with
    | none => none
    | some queue =>
      if queue.any (fun n => n.addr == order.queuePos) then
        let rest := queue.eraseP (fun n => n.addr == order.queuePos)
        some (true, { b.setBook order.side (storeQueue (b.book order.side) order.price rest) with
          byId := b.byId.erase id })
      else none

def modifyOrder (b : OrderBook P) (id : OrderId) (newQty : UInt64) : Bool × OrderBook P :=
  match b.byId.lookup id with
  | none => (false, b)
  | some order => (true, { b with byId := b.byId.insert id { order with qty := newQty } })

end OrderBook

/-- The variables of the loop over one queue. -/
structure Fill (P : Type*) where
  byId : IdTable P
  queue : List Node
  want : UInt64
  trades : List (Trade P)

def fillGuard (f : Fill P) : Bool := !f.queue.isEmpty && f.want != 0

/-- The branch for a queued id that is not in the table. -/
def popFront (f : Fill P) : Option (Fill P) := some { f with queue := f.queue.tail }

/-- One iteration over the front of the queue. The branch for a missing id is a
parameter, to say that no run takes it. -/
def fillBody (defensive : Fill P → Option (Fill P)) (trade : OrderId → UInt64 → Trade P)
    (f : Fill P) : Option (Fill P) :=
  match f.queue with
  | [] => none
  | node :: rest =>
    match f.byId.lookup node.id with
    | none => defensive f
    | some resting =>
      let take := min f.want resting.qty
      let left := resting.qty - take
      some {
        byId := if left = 0 then f.byId.erase node.id
          else f.byId.insert node.id { resting with qty := left }
        queue := if left = 0 then rest else f.queue
        want := f.want - take
        trades := f.trades ++ [trade node.id take] }

def fillQueue (defensive : Fill P → Option (Fill P)) (trade : OrderId → UInt64 → Trade P)
    (f : Fill P) : Option (Fill P) :=
  whileLoop fillGuard (fillBody defensive trade) (f.queue.length + 1) f

/-- The variables of the loop over the levels of one side. -/
structure Sweep (P : Type*) [LinearOrder P] where
  ob : OrderBook P
  it : Option P
  want : UInt64
  trades : List (Trade P)

/-- The trade of an aggressor of the other side against a resting order. -/
def tradeAgainst (resting : Side) (price : P) (id : OrderId) (take : UInt64) : Trade P :=
  match resting with
  | .buy => ⟨id, 0, price, take⟩
  | .sell => ⟨0, id, price, take⟩

/-- Fill against the level at `price` and store what is left of it. Tells whether
the level was drained. -/
def sweepLevel (defensive : Fill P → Option (Fill P)) (side : Side) (price : P) (w : Sweep P) :
    Option (Bool × Sweep P) :=
  match (w.ob.book side).find? price with
  | none => none
  | some queue =>
    (fillQueue defensive (tradeAgainst side price) ⟨w.ob.byId, queue, w.want, w.trades⟩).map
      fun f => (f.queue.isEmpty, { w with
        ob := { w.ob.setBook side (storeQueue (w.ob.book side) price f.queue) with byId := f.byId }
        want := f.want
        trades := f.trades })

def asksGuard (w : Sweep P) : Bool := w.it.isSome && w.want != 0

/-- `asks_.erase(it)` and `++it` both lead to the next level. -/
def asksBody (defensive : Fill P → Option (Fill P)) (w : Sweep P) : Option (Sweep P) :=
  match w.it with
  | none => none
  | some price =>
    (sweepLevel defensive .sell price w).map fun p =>
      { p.2 with it := p.2.ob.asks.nextKey? price }

/-- The reverse iterator is its base, and it has reached `rend()` when the base
is the first level. -/
def bidsGuard (w : Sweep P) : Bool := w.it != w.ob.bids.firstKey? && w.want != 0

/-- The level is the one before the base. When it is erased, the base of the next
iterator is what the erase returned; else the base moves down to the level. -/
def bidsBody (defensive : Fill P → Option (Fill P)) (w : Sweep P) : Option (Sweep P) :=
  match w.ob.bids.prevKey? w.it with
  | none => none
  | some price =>
    (sweepLevel defensive .buy price w).map fun p =>
      if p.1 then { p.2 with it := p.2.ob.bids.nextKey? price }
      else { p.2 with it := some price }

namespace OrderBook

/-- `market_order`, with the defensive branch left open. -/
def marketOrderWith (defensive : Fill P → Option (Fill P)) (b : OrderBook P) (side : Side)
    (qty : UInt64) : Option (FillResult P × OrderBook P) :=
  let swept := match side with
    | .buy => whileLoop asksGuard (asksBody defensive) (b.asks.entries.length + 1)
        ⟨b, b.asks.firstKey?, qty, []⟩
    | .sell => whileLoop bidsGuard (bidsBody defensive) (b.bids.entries.length + 1)
        ⟨b, none, qty, []⟩
  swept.map fun w => (⟨w.trades, w.want⟩, w.ob)

def marketOrder (b : OrderBook P) (side : Side) (qty : UInt64) :
    Option (FillResult P × OrderBook P) :=
  b.marketOrderWith popFront side qty

def orderCount (b : OrderBook P) : ℕ := b.byId.entries.length

def clear (b : OrderBook P) : OrderBook P :=
  { b with byId := ∅, bids := OrdMap.empty, asks := OrdMap.empty }

def aggregateQty (b : OrderBook P) (ids : List Node) : UInt64 :=
  ids.foldl (fun total n => match b.byId.lookup n.id with
    | some order => total + order.qty
    | none => total) 0

def bestBid (b : OrderBook P) : Option (Tick P) :=
  b.bids.entries.getLast?.map fun e => ⟨.buy, e.1, b.aggregateQty e.2⟩

def bestAsk (b : OrderBook P) : Option (Tick P) :=
  b.asks.begin?.map fun e => ⟨.sell, e.1, b.aggregateQty e.2⟩

def qtyAt (b : OrderBook P) (side : Side) (price : P) : Option UInt64 :=
  ((b.book side).find? price).map b.aggregateQty

end OrderBook

inductive Call (P : Type*) where
  | addOrder (id : OrderId) (side : Side) (price : P) (qty : UInt64)
  | cancelOrder (id : OrderId)
  | modifyOrder (id : OrderId) (newQty : UInt64)
  | marketOrder (side : Side) (qty : UInt64)
  | clear
  deriving DecidableEq, Repr

inductive Result (P : Type*) where
  | accepted (ok : Bool)
  | filled (fills : FillResult P)
  | cleared
  deriving DecidableEq, Repr

def OrderBook.step (b : OrderBook P) : Call P → Option (Result P × OrderBook P)
  | .addOrder id side price qty =>
    some (.accepted (b.addOrder id side price qty).1, (b.addOrder id side price qty).2)
  | .cancelOrder id => (b.cancelOrder id).map fun p => (.accepted p.1, p.2)
  | .modifyOrder id newQty =>
    some (.accepted (b.modifyOrder id newQty).1, (b.modifyOrder id newQty).2)
  | .marketOrder side qty => (b.marketOrder side qty).map fun p => (.filled p.1, p.2)
  | .clear => some (.cleared, b.clear)

end HftExercises.Book
