import Mathlib.Data.List.AList
import Mathlib.Algebra.Order.Ring.Int
import HftExercises.Core.OrdMap
import HftExercises.Core.Execution

/-! # The price-time matching engine

The two price trees, the FIFO queues inside their levels and the side index, with
the two mirrored sweep loops of `add_order` and the level removal of
`cancel_order`. Prices are only compared and a fill never exceeds either
quantity, so the signed 64-bit fields are integers here. Undefined behaviour, the
front of an empty queue, is the value `none`.
-/
namespace HftExercises.Matching

abbrev OrderId := UInt64

inductive Side where
  | buy
  | sell
  deriving DecidableEq, Repr

structure Order where
  id : OrderId
  side : Side
  price : ℤ
  qty : ℤ
  deriving DecidableEq, Repr

structure Trade where
  restingId : OrderId
  aggressorId : OrderId
  price : ℤ
  qty : ℤ
  deriving DecidableEq, Repr

structure LevelEntry where
  id : OrderId
  qty : ℤ
  deriving DecidableEq, Repr

structure Loc where
  side : Side
  price : ℤ
  deriving DecidableEq, Repr

/-- The key order of each tree: `std::greater` on bids, `std::less` on asks. -/
def better : Side → ℤ → ℤ → Prop
  | .buy => fun p q => q < p
  | .sell => fun p q => p < q

instance (side : Side) : DecidableRel (better side) :=
  match side with
  | .buy => fun p q => inferInstanceAs (Decidable (q < p))
  | .sell => fun p q => inferInstanceAs (Decidable (p < q))

instance (side : Side) : IsStrictTotalOrder ℤ (better side) :=
  match side with
  | .buy => inferInstanceAs (IsStrictTotalOrder ℤ (· > ·))
  | .sell => inferInstanceAs (IsStrictTotalOrder ℤ (· < ·))

abbrev Book (side : Side) := OrdMap (better side) (List LevelEntry)

structure MatchingEngine where
  bids : Book .buy
  asks : Book .sell
  index : AList (fun _ : OrderId => Loc)

def MatchingEngine.init : MatchingEngine := ⟨OrdMap.empty, OrdMap.empty, ∅⟩

/-- The variables of one sweep loop: the swept tree, the quantity the aggressor
still wants and the trades pushed so far. -/
structure Sweep (side : Side) where
  book : Book side
  qty : ℤ
  trades : List Trade

/-- The loop condition together with the `break` at the first level that does
not cross. -/
def sweepGuard {side : Side} (crosses : ℤ → Bool) (w : Sweep side) : Bool :=
  decide (0 < w.qty) && match w.book.begin? with
    | none => false
    | some (price, _) => crosses price

/-- Write a queue back into its level; a drained level leaves the tree. -/
def storeQueue {side : Side} (book : Book side) (price : ℤ) (queue : List LevelEntry) : Book side :=
  if queue.isEmpty then book.erase price else book.set price queue

def sweepBody {side : Side} (aggressor : OrderId) (w : Sweep side) : Option (Sweep side) :=
  match w.book.begin? with
  | none => none
  | some (_, []) => none
  | some (price, head :: rest) =>
    let fill := min w.qty head.qty
    let queue := if head.qty - fill = 0 then rest else ⟨head.id, head.qty - fill⟩ :: rest
    some {
      book := storeQueue w.book price queue
      qty := w.qty - fill
      trades := w.trades ++ [⟨head.id, aggressor, price, fill⟩] }

/-- Number of orders queued in a tree. Every iteration pops one of them or
exhausts the aggressor, so one more than this is fuel enough. -/
def queued {side : Side} (book : Book side) : ℕ := (book.entries.map (fun e => e.2.length)).sum

def sweep {side : Side} (crosses : ℤ → Bool) (order : Order) (book : Book side) :
    Option (Sweep side) :=
  whileLoop (sweepGuard crosses) (sweepBody order.id) (queued book + 1) ⟨book, order.qty, []⟩

def sweepAsks (order : Order) (asks : Book .sell) : Option (Sweep .sell) :=
  sweep (fun price => !decide (price > order.price)) order asks

def sweepBids (order : Order) (bids : Book .buy) : Option (Sweep .buy) :=
  sweep (fun price => !decide (price < order.price)) order bids

/-- `book[price].push_back(entry)`, creating the level when it is missing. -/
def pushBack {side : Side} (book : Book side) (price : ℤ) (entry : LevelEntry) : Book side :=
  book.set price ((book.find? price).getD [] ++ [entry])

def MatchingEngine.addOrder (s : MatchingEngine) (order : Order) :
    Option (List Trade × MatchingEngine) :=
  match order.side with
  | .buy =>
    (sweepAsks order s.asks).map fun w =>
      if 0 < w.qty then
        (w.trades, {
          bids := pushBack s.bids order.price ⟨order.id, w.qty⟩
          asks := w.book
          index := s.index.insert order.id ⟨.buy, order.price⟩ })
      else (w.trades, { s with asks := w.book })
  | .sell =>
    (sweepBids order s.bids).map fun w =>
      if 0 < w.qty then
        (w.trades, {
          bids := w.book
          asks := pushBack s.asks order.price ⟨order.id, w.qty⟩
          index := s.index.insert order.id ⟨.sell, order.price⟩ })
      else (w.trades, { s with bids := w.book })

/-- The generic lambda of `cancel_order`: the first entry carrying the id leaves
its queue, and a drained level leaves the tree. -/
def removeFromLevel {side : Side} (id : OrderId) (price : ℤ) (book : Book side) :
    Bool × Book side :=
  match book.find? price with
  | none => (false, book)
  | some queue =>
    if queue.any (fun e => e.id == id) then
      (true, storeQueue book price (queue.eraseP (fun e => e.id == id)))
    else (false, book)

def MatchingEngine.cancelOrder (s : MatchingEngine) (id : OrderId) : Bool × MatchingEngine :=
  match s.index.lookup id with
  | none => (false, s)
  | some loc =>
    let index := s.index.erase id
    match loc.side with
    | .buy =>
      let p := removeFromLevel id loc.price s.bids
      (p.1, { s with bids := p.2, index := index })
    | .sell =>
      let p := removeFromLevel id loc.price s.asks
      (p.1, { s with asks := p.2, index := index })

inductive Call where
  | addOrder (order : Order)
  | cancelOrder (id : OrderId)
  deriving DecidableEq, Repr

inductive Result where
  | trades (ts : List Trade)
  | cancelled (found : Bool)
  deriving DecidableEq, Repr

def MatchingEngine.step (s : MatchingEngine) : Call → Option (Result × MatchingEngine)
  | .addOrder order => (s.addOrder order).map fun p => (.trades p.1, p.2)
  | .cancelOrder id => some (.cancelled (s.cancelOrder id).1, (s.cancelOrder id).2)

def addedIds (calls : List Call) : List OrderId :=
  calls.filterMap fun
    | .addOrder order => some order.id
    | .cancelOrder _ => none

/-- The caller's duty: no two adds carry the same id. -/
def DistinctIds (calls : List Call) : Prop := (addedIds calls).Nodup

instance (calls : List Call) : Decidable (DistinctIds calls) :=
  inferInstanceAs (Decidable (addedIds calls).Nodup)

def MatchingEngine.level? (s : MatchingEngine) : Side → ℤ → Option (List LevelEntry)
  | .buy, price => s.bids.find? price
  | .sell, price => s.asks.find? price

/-- The queue of a level, empty when the tree has no such level. -/
def MatchingEngine.queueAt (s : MatchingEngine) (side : Side) (price : ℤ) : List LevelEntry :=
  (s.level? side price).getD []

/-- Every queued entry of both trees, level by level. -/
def MatchingEngine.queuedEntries (s : MatchingEngine) : List LevelEntry :=
  s.bids.entries.flatMap Prod.snd ++ s.asks.entries.flatMap Prod.snd

end HftExercises.Matching
