import Mathlib.Data.Int.Notation
import Mathlib.Logic.Function.Basic
import HftExercises.Core.ListFacts
import HftExercises.Core.Execution

/-! # The market-data feed

A publish copies the subscribers under the lock and runs their callbacks without it.
What a callback does is up to its owner: it may subscribe, unsubscribe, publish again
and throw, and other threads may do the same meanwhile. A thread is therefore a stack
of publish calls, and a run is a list of calls in which each `proceed` is one iteration of
the innermost loop over a snapshot.
-/
namespace HftExercises.Feed

/-- A subscription for it gets the events of every symbol. -/
def kAnySymbol : UInt64 := 0

structure Quote where
  symbol : UInt64
  bid : Int64
  bidSize : Int64
  ask : Int64
  askSize : Int64
  seq : UInt64
  deriving DecidableEq, Repr

structure Trade where
  symbol : UInt64
  price : Int64
  qty : Int64
  seq : UInt64
  deriving DecidableEq, Repr

/-- The callback that a publish invokes, with what it passes on. -/
inductive Callback where
  | onQuote (quote : Quote)
  | onTrade (trade : Trade)
  deriving DecidableEq, Repr

def Callback.symbol : Callback → UInt64
  | .onQuote quote => quote.symbol
  | .onTrade trade => trade.symbol

/-- Identifiers come from a counter that is never exhausted. -/
structure Slot (O : Type*) where
  id : ℕ
  observer : O
  symbol : UInt64
  deriving DecidableEq, Repr

/-- The loop over the snapshot does not `continue` past the slot. -/
def Slot.wants {O : Type*} (slot : Slot O) (symbol : UInt64) : Bool :=
  !(slot.symbol != kAnySymbol && slot.symbol != symbol)

structure MarketDataFeed (O : Type*) where
  slots : List (Slot O)
  nextId : ℕ

variable {O T : Type*} [DecidableEq T]

namespace MarketDataFeed

def init : MarketDataFeed O := ⟨[], 1⟩

def subscribe (f : MarketDataFeed O) (observer : Option O) (symbol : UInt64) :
    ℕ × MarketDataFeed O :=
  match observer with
  | none => (0, f)
  | some o => (f.nextId, ⟨f.slots ++ [⟨f.nextId, o, symbol⟩], f.nextId + 1⟩)

def unsubscribe (f : MarketDataFeed O) (id : ℕ) : Bool × MarketDataFeed O :=
  if f.slots.any (fun slot => slot.id == id) then
    (true, { f with slots := f.slots.eraseP fun slot => slot.id == id })
  else (false, f)

def subscriberCount (f : MarketDataFeed O) : ℕ := f.slots.length

end MarketDataFeed

/-- A publish call in progress: its number, the slots that the loop has yet to see and the
one whose callback is running. -/
structure Publish (O : Type*) where
  call : ℕ
  callback : Callback
  snapshot : List (Slot O)
  running : Option (Slot O)

/-- `calls` is the number of publish calls so far; the innermost call of a thread comes first. -/
structure System (O T : Type*) where
  feed : MarketDataFeed O
  calls : ℕ
  stack : T → List (Publish O)

inductive Action (O T : Type*) where
  | subscribe (t : T) (observer : Option O) (symbol : UInt64)
  | unsubscribe (t : T) (id : ℕ)
  | subscriberCount (t : T)
  | publishQuote (t : T) (quote : Quote)
  | publishTrade (t : T) (trade : Trade)
  /-- the next iteration of the loop of a publish call, or its end -/
  | proceed (t : T)
  /-- the callback that is running returns -/
  | returns (t : T)
  /-- the callback that is running throws -/
  | throws (t : T)

inductive Result (O : Type*) where
  | done
  | id (n : ℕ)
  | removed (b : Bool)
  | count (n : ℕ)
  | invoked (call : ℕ) (slot : Slot O) (callback : Callback)
  | evicted (slot : Slot O)

namespace System

def init : System O T where
  feed := .init
  calls := 0
  stack := fun _ => []

/-- The thread runs code of the program: outside of every publish, or in a callback. -/
def inProgram (s : System O T) (t : T) : Bool :=
  match s.stack t with
  | [] => true
  | p :: _ => p.running.isSome

/-- The innermost publish call of the thread goes on as `p`. -/
def setTop (s : System O T) (t : T) (p : Publish O) : System O T :=
  { s with stack := Function.update s.stack t (p :: (s.stack t).tail) }

/-- The snapshot is taken under the lock. -/
def publish (s : System O T) (t : T) (callback : Callback) : System O T :=
  { s with
    calls := s.calls + 1
    stack := Function.update s.stack t (⟨s.calls, callback, s.feed.slots, none⟩ :: s.stack t) }

/-- `none` is a step that the thread is not at. -/
def step (s : System O T) : Action O T → Option (Result O × System O T)
  | .subscribe t observer symbol =>
    if s.inProgram t then
      let r := s.feed.subscribe observer symbol
      some (.id r.1, { s with feed := r.2 })
    else none
  | .unsubscribe t id =>
    if s.inProgram t then
      let r := s.feed.unsubscribe id
      some (.removed r.1, { s with feed := r.2 })
    else none
  | .subscriberCount t =>
    if s.inProgram t then some (.count s.feed.subscriberCount, s) else none
  | .publishQuote t quote =>
    if s.inProgram t then some (.done, s.publish t (.onQuote quote)) else none
  | .publishTrade t trade =>
    if s.inProgram t then some (.done, s.publish t (.onTrade trade)) else none
  | .proceed t =>
    match s.stack t with
    | ⟨_, _, [], none⟩ :: outer =>
      some (.done, { s with stack := Function.update s.stack t outer })
    | ⟨call, callback, slot :: rest, none⟩ :: _ =>
      if slot.wants callback.symbol then
        some (.invoked call slot callback, s.setTop t ⟨call, callback, rest, some slot⟩)
      else some (.done, s.setTop t ⟨call, callback, rest, none⟩)
    | _ => none
  | .returns t =>
    match s.stack t with
    | ⟨call, callback, rest, some _⟩ :: _ => some (.done, s.setTop t ⟨call, callback, rest, none⟩)
    | _ => none
  | .throws t =>
    match s.stack t with
    | ⟨call, callback, rest, some slot⟩ :: _ =>
      let s := s.setTop t ⟨call, callback, rest, none⟩
      some (.evicted slot, { s with feed := (s.feed.unsubscribe slot.id).2 })
    | _ => none

end System
end HftExercises.Feed
