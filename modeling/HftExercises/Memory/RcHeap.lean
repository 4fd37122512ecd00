import HftExercises.Core.Worklist
import Mathlib.Data.List.ReduceOption

/-! # The reference-counted heap and its cycle collector

A node is a name; `strong`, `marked` and `payload` are what the object of that
name holds. Destroying a node runs the destructors of its payload's handles,
which may destroy further nodes and erase them from the registry that the first
erasure is still shifting. So each operation takes the `delete` it calls as an
argument, and `deleteNode` ties the knot with a fuel: every nested deletion has
taken one more node out of the registry.
-/
namespace HftExercises.Rc
variable {N : Type*}

structure RcHeap (N : Type*) where
  /-- `nodes_`. A null `unique_ptr` is `none`, and so is every slot behind the end. -/
  nodes : List (Option N)
  live : Finset N
  roots : List N
  sweeping : Bool
  strong : N → ℕ
  marked : N → Bool
  /-- the `RcPtr` members of a payload, in the order of their destruction -/
  payload : N → List (Option N)
  /-- the `RcPtr` objects that no payload holds -/
  outside : List (Option N)
  /-- the nodes that have been destroyed, in this order -/
  destroyed : List N
  /-- the nodes whose count was touched after their destruction -/
  stale : List N

/-- `--strong` on a `std::size_t`. -/
def decrement (count : ℕ) : ℕ := if count = 0 then 2 ^ 64 - 1 else count - 1

/-- What the `unique_ptr` in slot `j` owns. -/
def slotAt (slots : List (Option N)) (j : ℕ) : Option N := slots[j]?.join

/-- Slot `j` takes over what slot `j + 1` owns. -/
def takeOver (slots : List (Option N)) (j : ℕ) : List (Option N) :=
  (slots.set j (slotAt slots (j + 1))).set (j + 1) none

namespace RcHeap

/-- `delete` of what a `unique_ptr` owned, if anything. -/
def deleteOwned (delete : RcHeap N → N → Option (RcHeap N)) (h : RcHeap N) :
    Option N → Option (RcHeap N)
  | none => some h
  | some x => delete h x

/-- `*result = std::move(*first)`: the old node of the slot is deleted at that moment. -/
def moveAssign (delete : RcHeap N → N → Option (RcHeap N)) (h : RcHeap N) (j : ℕ) :
    Option (RcHeap N) :=
  deleteOwned delete { h with nodes := takeOver h.nodes j } (slotAt h.nodes j)

/-- The element-wise moves of `erase`, as many as the end read before them asks for. -/
def shiftLeft (delete : RcHeap N → N → Option (RcHeap N)) : ℕ → ℕ → RcHeap N → Option (RcHeap N)
  | 0, _, h => some h
  | moves + 1, j, h => (moveAssign delete h j).bind (shiftLeft delete moves (j + 1))

/-- The end moves down by one and the slot it passes is destroyed. -/
def popBack (delete : RcHeap N → N → Option (RcHeap N)) (h : RcHeap N) : Option (RcHeap N) :=
  h.nodes.getLast?.bind (deleteOwned delete { h with nodes := h.nodes.dropLast })

/-- `nodes_.erase(nodes_.begin() + i)` -/
def erase (delete : RcHeap N → N → Option (RcHeap N)) (h : RcHeap N) (i : ℕ) :
    Option (RcHeap N) :=
  (shiftLeft delete (h.nodes.length - (i + 1)) i h).bind (popBack delete)

variable [DecidableEq N]

def destroyNow (delete : RcHeap N → N → Option (RcHeap N)) (h : RcHeap N) (x : N) :
    Option (RcHeap N) :=
  if x ∈ h.live then
    if some x ∈ h.nodes then
      erase delete { h with live := h.live.erase x } (h.nodes.idxOf (some x))
    else some { h with live := h.live.erase x }
  else some h

/-- The decrement of `drop`. -/
def retire (h : RcHeap N) (x : N) : RcHeap N :=
  { h with
    strong := Function.update h.strong x (decrement (h.strong x))
    stale := if x ∈ h.destroyed then h.stale ++ [x] else h.stale }

def drop (delete : RcHeap N → N → Option (RcHeap N)) (h : RcHeap N) :
    Option N → Option (RcHeap N)
  | none => some h
  | some x =>
    if (h.retire x).strong x = 0 ∧ h.sweeping = false then destroyNow delete (h.retire x) x
    else some (h.retire x)

def dropAll (delete : RcHeap N → N → Option (RcHeap N)) :
    RcHeap N → List (Option N) → Option (RcHeap N)
  | h, [] => some h
  | h, p :: ps => (drop delete h p).bind (dropAll delete · ps)

/-- The destructor of a node. Its count outlives its payload, being a field of the
base class, so the node is destroyed only behind the drops. -/
def deleteNode : ℕ → RcHeap N → N → Option (RcHeap N)
  | 0, _, _ => none
  | fuel + 1, h, x =>
    (dropAll (deleteNode fuel) h (h.payload x)).map
      fun h => { h with destroyed := h.destroyed ++ [x] }

/-- `delete` with a fuel that no nesting exhausts. -/
def delete (h : RcHeap N) (x : N) : Option (RcHeap N) := deleteNode (h.nodes.length + 1) h x

/-- `drop` of a handle when no deletion is under way. -/
def release (h : RcHeap N) (p : Option N) : Option (RcHeap N) :=
  drop (deleteNode (h.nodes.length + 1)) h p

/-! ## The collector -/

/-- The edges a node's `trace` visits. -/
def edges (trace : N → List (Option N) → List N) (h : RcHeap N) (n : N) : List N :=
  trace n (h.payload n)

/-- `++internal[m]` for every edge to a live node, one registered node after the other. -/
def countInternal (trace : N → List (Option N) → List N) (h : RcHeap N) (ids : List N) : N → ℕ :=
  ids.foldl (fun internal n => (h.edges trace n).foldl (fun internal m =>
    if m ∈ h.live then Function.update internal m (internal m + 1) else internal) internal)
    fun _ => 0

/-- What `stack` starts with, its back end last. -/
def seeds (trace : N → List (Option N) → List N) (h : RcHeap N) (ids : List N) : List N :=
  h.roots ++ ids.filter fun n => h.countInternal trace ids n < h.strong n

/-- The heap, the iterator and `trash` of the sweep. -/
structure Sweep (N : Type*) where
  heap : RcHeap N
  it : ℕ
  trash : List N

/-- One round of the sweep. An unmarked node leaves its slot null before that is erased. -/
def sweepNext (s : Sweep N) : Option (Sweep N) :=
  (slotAt s.heap.nodes s.it).bind fun n =>
    if s.heap.marked n then
      some ⟨{ s.heap with marked := Function.update s.heap.marked n false }, s.it + 1, s.trash⟩
    else
      (erase delete { s.heap with
        live := s.heap.live.erase n
        nodes := s.heap.nodes.set s.it none } s.it).map fun h => ⟨h, s.it, s.trash ++ [n]⟩

def sweep (h : RcHeap N) : Option (Sweep N) :=
  whileLoop (fun s => decide (s.it < s.heap.nodes.length)) sweepNext h.nodes.length ⟨h, 0, []⟩

/-- `trash.clear()` destroys the elements from the front on. -/
def clear : RcHeap N → List N → Option (RcHeap N)
  | h, [] => some h
  | h, x :: trash => (delete h x).bind (clear · trash)

/-- `none` is the access through a null entry of `nodes_`. -/
def collectCycles (trace : N → List (Option N) → List N) (heap : RcHeap N) :
    Option (ℕ × RcHeap N) := do
  let h := { heap with sweeping := true }
  let ids ← h.nodes.mapM id
  let stack := (h.seeds trace ids).reverse
  let (marked, _) ← Worklist.visitAll h.live (h.edges trace)
    (Worklist.work h.live (h.edges trace) (h.marked, stack)) (h.marked, stack)
  let swept ← sweep { h with marked := marked }
  let h ← clear swept.heap swept.trash
  return (swept.trash.length,
    { h with sweeping := false, roots := h.roots.filter (· ∈ h.live) })

end RcHeap
end HftExercises.Rc
