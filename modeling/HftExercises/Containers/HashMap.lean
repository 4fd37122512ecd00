import Mathlib.Logic.Function.Basic
import HftExercises.Core.LinearProbing

/-! # The open-addressing hash map

`nodes` is the array behind the pointer, of which the first `capacity` slots are
the table; a map without a table has capacity zero. A hash value is any natural
number and the hasher moves and copies with its map. The loop of `grow` that
looks for an empty slot, and the retry of `insert`, give `none` when they would
not end. `tombstones` wraps as the counter of the source does.
-/
namespace HftExercises.Hashing

inductive Slot (K V : Type*) where
  | empty
  | filled (k : K) (v : V)
  | tombstone
  deriving DecidableEq, Repr

namespace Slot
variable {K V : Type*}

/-- The pair of a filled slot. -/
def entry : Slot K V → Option (K × V)
  | filled k v => some (k, v)
  | _ => none

def isFilled : Slot K V → Bool
  | filled _ _ => true
  | _ => false

def isEmpty : Slot K V → Bool
  | empty => true
  | _ => false

end Slot

structure HashMap (K V : Type*) where
  hash : K → ℕ
  nodes : ℕ → Slot K V
  capacity : ℕ
  size : ℕ
  tombstones : UInt64

def kInitialCapacity : ℕ := 8

variable {K V : Type*}

def allocEmpty : ℕ → Slot K V := fun _ => Slot.empty

/-- `while (cap < n) cap *= 2`, in at most `fuel` rounds. -/
def doubleWhileBelow (n : ℕ) : ℕ → ℕ → ℕ
  | 0, cap => cap
  | fuel + 1, cap => if cap < n then doubleWhileBelow n fuel (cap * 2) else cap

/-- `while (t[idx].slot != kEmpty)`: every slot of the ring is looked at at most once. -/
def emptySlotFrom (t : ℕ → Slot K V) (cap : ℕ) : ℕ → ℕ → Option ℕ
  | 0, _ => none
  | n + 1, idx =>
    if (t idx).isEmpty then some idx else emptySlotFrom t cap n ((idx + 1) &&& (cap - 1))

namespace HashMap

def create (hash : K → ℕ) (capacityHint : ℕ) : HashMap K V :=
  if capacityHint > 0 then
    ⟨hash, allocEmpty, doubleWhileBelow capacityHint capacityHint kInitialCapacity, 0, 0⟩
  else ⟨hash, allocEmpty, 0, 0, 0⟩

def home (m : HashMap K V) (key : K) : ℕ := m.hash key &&& (m.capacity - 1)

def next (m : HashMap K V) (idx : ℕ) : ℕ := (idx + 1) &&& (m.capacity - 1)

/-- The copy constructor: the filled slots at their places, in a table of empty ones. -/
def copy (o : HashMap K V) : HashMap K V :=
  if o.capacity ≠ 0 then
    { hash := o.hash
      nodes := fun i =>
        if i < o.capacity then if (o.nodes i).isFilled then o.nodes i else .empty else .empty
      capacity := o.capacity
      size := o.size
      tombstones := 0 }
  else ⟨o.hash, allocEmpty, 0, 0, 0⟩

/-- What a move leaves of its source. -/
def movedFrom (o : HashMap K V) : HashMap K V := ⟨o.hash, allocEmpty, 0, 0, 0⟩

/-- The move constructor: the new map and the source after it. -/
def moveConstruct (o : HashMap K V) : HashMap K V × HashMap K V := (o, o.movedFrom)

/-- The move assignment between two maps: the target and the source after it. -/
def moveAssign (_this o : HashMap K V) : HashMap K V × HashMap K V := (o, o.movedFrom)

/-- The copy assignment from another map. -/
def copyAssign (this o : HashMap K V) : HashMap K V := (moveAssign this (copy o)).1

/-- The iterations of `grow` from slot `i` on, `n` of them. -/
def rehashFrom (m : HashMap K V) (newCap : ℕ) : ℕ → ℕ → (ℕ → Slot K V) → Option (ℕ → Slot K V)
  | 0, _, t => some t
  | n + 1, i, t =>
    match m.nodes i with
    | .filled k v =>
      match emptySlotFrom t newCap newCap (m.hash k &&& (newCap - 1)) with
      | none => none
      | some idx => rehashFrom m newCap n (i + 1) (Function.update t idx (.filled k v))
    | _ => rehashFrom m newCap n (i + 1) t

def grow (m : HashMap K V) (newCap : ℕ) : Option (HashMap K V) :=
  let newCap := if newCap < kInitialCapacity then kInitialCapacity else newCap
  (rehashFrom m newCap m.capacity 0 allocEmpty).map fun t =>
    { m with nodes := t, capacity := newCap, tombstones := 0 }

def reserve (m : HashMap K V) (n : ℕ) : Option (HashMap K V) :=
  if n ≤ m.capacity then some m
  else grow m (doubleWhileBelow n n (if m.capacity = 0 then kInitialCapacity else m.capacity))

/-- The filled slots become empty; tombstones stay. -/
def clear (m : HashMap K V) : HashMap K V :=
  { m with
    nodes := fun i => if i < m.capacity ∧ (m.nodes i).isFilled then .empty else m.nodes i
    size := 0
    tombstones := 0 }

/-- A pair is constructed in the slot `ins`. -/
def put (m : HashMap K V) (ins : ℕ) (kv : K × V) : HashMap K V :=
  { m with
    nodes := Function.update m.nodes ins (.filled kv.1 kv.2)
    size := m.size + 1
    tombstones := match m.nodes ins with
      | .tombstone => m.tombstones - 1
      | _ => m.tombstones }

/-- The pair in the slot `n` gives way to a tombstone. -/
def bury (m : HashMap K V) (n : ℕ) : HashMap K V :=
  { m with
    nodes := Function.update m.nodes n .tombstone
    size := m.size - 1
    tombstones := m.tombstones + 1 }

section Keys
variable [DecidableEq K]

/-- The probes of `find_node` from `idx` on, `n` of them. -/
def findNodeFrom (m : HashMap K V) (key : K) : ℕ → ℕ → Option ℕ
  | 0, _ => none
  | n + 1, idx =>
    match m.nodes idx with
    | .empty => none
    | .filled k _ => if k = key then some idx else findNodeFrom m key n (m.next idx)
    | .tombstone => findNodeFrom m key n (m.next idx)

/-- The slot of the key; the null pointer is `none`. -/
def findNode (m : HashMap K V) (key : K) : Option ℕ :=
  if m.capacity = 0 then none else findNodeFrom m key m.capacity (m.home key)

/-- The probes of `insert` from `idx` on, `n` of them, `tomb` the first tombstone seen: the
map, the slot and whether it is new, or `none` when the table is saturated. -/
def insertFrom (m : HashMap K V) (kv : K × V) :
    ℕ → ℕ → Option ℕ → Option (HashMap K V × ℕ × Bool)
  | 0, _, _ => none
  | n + 1, idx, tomb =>
    match m.nodes idx with
    | .filled k _ =>
      if k = kv.1 then some (m, idx, false) else insertFrom m kv n (m.next idx) tomb
    | .tombstone => insertFrom m kv n (m.next idx) (some (tomb.getD idx))
    | .empty => some (m.put (tomb.getD idx) kv, tomb.getD idx, true)

/-- The load test, and the growth before the probes. -/
def growForInsert (m : HashMap K V) : Option (HashMap K V) :=
  if m.capacity = 0 ∨ 10 * (m.size + 1) > 7 * m.capacity then
    grow m (if m.capacity = 0 then kInitialCapacity else m.capacity * 2)
  else some m

/-- `insert` with at most `n` calls nested in it. -/
def insertWithin : ℕ → HashMap K V → K × V → Option (HashMap K V × ℕ × Bool)
  | 0, _, _ => none
  | n + 1, m, kv =>
    match m.growForInsert with
    | none => none
    | some m =>
      match insertFrom m kv m.capacity (m.home kv.1) none with
      | some r => some r
      | none =>
        match grow m (m.capacity * 2) with
        | none => none
        | some m => insertWithin n m kv

/-- The call and its one retry. -/
def insert (m : HashMap K V) (kv : K × V) : Option (HashMap K V × ℕ × Bool) := insertWithin 2 m kv

/-- `operator[]`: the slot of the value the reference is to. -/
def index [Inhabited V] (m : HashMap K V) (key : K) : Option (HashMap K V × ℕ) :=
  (insert m (key, default)).map fun r => (r.1, r.2.1)

/-- The value in a filled slot. -/
def valueAt (m : HashMap K V) (idx : ℕ) : Option V := (m.nodes idx).entry.map Prod.snd

/-- Assignment through a reference to the value in a slot. -/
def assignAt (m : HashMap K V) (idx : ℕ) (v : V) : HashMap K V :=
  { m with nodes := match m.nodes idx with
      | .filled k _ => Function.update m.nodes idx (.filled k v)
      | _ => m.nodes }

def «at» (m : HashMap K V) (key : K) : Except String ℕ :=
  match m.findNode key with
  | none => .error "HashMap::at"
  | some n => .ok n

def contains (m : HashMap K V) (key : K) : Bool := (m.findNode key).isSome

/-- The iterator to the key; `end()` is `none`. -/
def find (m : HashMap K V) (key : K) : Option ℕ := m.findNode key

def erase (m : HashMap K V) (key : K) : Bool × HashMap K V :=
  match m.findNode key with
  | none => (false, m)
  | some n => (true, m.bury n)

end Keys

section Iterator

/-- The first filled slot of the `n` from `i` on. -/
def filledFrom (m : HashMap K V) : ℕ → ℕ → Option ℕ
  | 0, _ => none
  | n + 1, i => if (m.nodes i).isFilled then some i else filledFrom m n (i + 1)

def begin (m : HashMap K V) : Option ℕ :=
  if m.capacity = 0 then none else filledFrom m m.capacity 0

/-- `++it` at the slot `cur`. -/
def increment (m : HashMap K V) (cur : ℕ) : Option ℕ :=
  filledFrom m (m.capacity - (cur + 1)) (cur + 1)

/-- The pairs that `for (it; it != end(); ++it)` visits, in at most `n` rounds. -/
def visitFrom (m : HashMap K V) : ℕ → Option ℕ → List (K × V)
  | 0, _ => []
  | _ + 1, none => []
  | n + 1, some cur => (m.nodes cur).entry.toList ++ visitFrom m n (m.increment cur)

def visited (m : HashMap K V) : List (K × V) := visitFrom m (m.capacity + 1) m.begin

end Iterator

end HashMap

end HftExercises.Hashing
