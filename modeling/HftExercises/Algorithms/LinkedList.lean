import HftExercises.Core.DoubleLinks
import HftExercises.Core.Execution
import Mathlib.Data.Nat.Notation

/-! # The doubly linked list

A list object has two sentinels, its payload nodes are allocated one by one. Following a
null or a dead link, and deleting what is not an allocated node, is `none`. The addresses
of new objects and nodes are given to the operations that make them.
-/
namespace HftExercises.LinkedList

/-- The address of a link: a sentinel of a list object or a payload node. -/
inductive Addr where
  | head (l : ℕ)
  | tail (l : ℕ)
  | node (n : ℕ)
  deriving DecidableEq, Repr

/-- The values of the allocated nodes and the sizes of the list objects, with the links
of both. -/
@[ext]
structure Heap (T : Type) where
  links : Links Addr
  value : ℕ → Option T
  size : ℕ → Option ℕ

namespace Heap
variable {T : Type}

def empty : Heap T := ⟨⟨fun _ => none, fun _ => none⟩, fun _ => none, fun _ => none⟩

def live (h : Heap T) : Addr → Bool
  | .head l => (h.size l).isSome
  | .tail l => (h.size l).isSome
  | .node n => (h.value n).isSome

def readNext (h : Heap T) (p : Option Addr) : Option (Option Addr) := do
  let a ← p
  if h.live a then some (h.links.next a) else none

def readPrev (h : Heap T) (p : Option Addr) : Option (Option Addr) := do
  let a ← p
  if h.live a then some (h.links.prev a) else none

def writeNext (h : Heap T) (p v : Option Addr) : Option (Heap T) := do
  let a ← p
  if h.live a then some { h with links := h.links.setNext a v } else none

def writePrev (h : Heap T) (p v : Option Addr) : Option (Heap T) := do
  let a ← p
  if h.live a then some { h with links := h.links.setPrev a v } else none

def setSize (h : Heap T) (l k : ℕ) : Option (Heap T) :=
  if (h.size l).isSome then some { h with size := Function.update h.size l (some k) } else none

def newNode (h : Heap T) (n : ℕ) (prev next : Option Addr) (v : T) : Option (Heap T) :=
  if (h.value n).isSome then none
  else
    some
      { h with
        links := (h.links.setPrev (.node n) prev).setNext (.node n) next
        value := Function.update h.value n (some v) }

def deleteNode (h : Heap T) : Option Addr → Option (Heap T)
  | none => some h
  | some (.node n) =>
    if (h.value n).isSome then some { h with value := Function.update h.value n none } else none
  | some _ => none

/-- What an iterator points to. -/
def read (h : Heap T) : Option Addr → Option (ℕ × T)
  | some (.node n) => (h.value n).map fun v => (n, v)
  | _ => none

/-- A list object whose sentinels are zero. -/
def allocate (h : Heap T) (l : ℕ) : Option (Heap T) :=
  if (h.size l).isSome then none
  else
    some
      { h with
        links := (((h.links.setPrev (.head l) none).setNext (.head l) none).setPrev
          (.tail l) none).setNext (.tail l) none
        size := Function.update h.size l (some 0) }

def construct (h : Heap T) (l : ℕ) : Option (Heap T) := do
  let h ← h.allocate l
  let h ← h.writeNext (some (.head l)) (some (.tail l))
  h.writePrev (some (.tail l)) (some (.head l))

def linkBack (h : Heap T) (l : ℕ) (n : Addr) : Option (Heap T) := do
  let p ← h.readPrev (some (.tail l))
  let h ← h.writePrev (some n) p
  let h ← h.writeNext (some n) (some (.tail l))
  let p ← h.readPrev (some (.tail l))
  let h ← h.writeNext p (some n)
  let h ← h.writePrev (some (.tail l)) (some n)
  let k ← h.size l
  h.setSize l (k + 1)

def pushBack (h : Heap T) (l n : ℕ) (v : T) : Option (Heap T) := do
  let h ← h.newNode n (some (.tail l)) (some (.tail l)) v
  h.linkBack l (.node n)

def pushFront (h : Heap T) (l n : ℕ) (v : T) : Option (Heap T) := do
  let p ← h.readNext (some (.head l))
  let h ← h.newNode n (some (.head l)) p v
  let p ← h.readNext (some (.head l))
  let h ← h.writePrev p (some (.node n))
  let h ← h.writeNext (some (.head l)) (some (.node n))
  let k ← h.size l
  h.setSize l (k + 1)

def erase (h : Heap T) (l : ℕ) (pos : Option Addr) : Option (Option Addr × Heap T) :=
  if pos = some (.head l) ∨ pos = some (.tail l) then some (some (.tail l), h)
  else do
    let nx ← h.readNext pos
    let p ← h.readPrev pos
    let h ← h.writeNext p nx
    let p ← h.readPrev pos
    let h ← h.writePrev nx p
    let h ← h.deleteNode pos
    let k ← h.size l
    let h ← h.setSize l (k - 1)
    return (nx, h)

def popFront (h : Heap T) (l : ℕ) : Option (Heap T) := do
  let k ← h.size l
  if k = 0 then some h
  else
    let pos ← h.readNext (some (.head l))
    let (_, h) ← h.erase l pos
    return h

def popBack (h : Heap T) (l : ℕ) : Option (Heap T) := do
  let k ← h.size l
  if k = 0 then some h
  else
    let pos ← h.readPrev (some (.tail l))
    let (_, h) ← h.erase l pos
    return h

/-- The state of a loop over the nodes. -/
structure Walk (T : Type) where
  heap : Heap T
  cur : Option Addr

def Walk.goesOn (stop : Option Addr) (w : Walk T) : Bool := decide (w.cur ≠ stop)

def clearNode (w : Walk T) : Option (Walk T) := do
  let next ← w.heap.readNext w.cur
  let h ← w.heap.deleteNode w.cur
  return ⟨h, next⟩

def clear (fuel : ℕ) (h : Heap T) (l : ℕ) : Option (Heap T) := do
  let cur ← h.readNext (some (.head l))
  let w ← whileLoop (Walk.goesOn (some (.tail l))) clearNode fuel ⟨h, cur⟩
  let h ← w.heap.writeNext (some (.head l)) (some (.tail l))
  let h ← h.writePrev (some (.tail l)) (some (.head l))
  h.setSize l 0

def reverseNode (w : Walk T) : Option (Walk T) := do
  let next ← w.heap.readNext w.cur
  let p ← w.heap.readPrev w.cur
  let n ← w.heap.readNext w.cur
  let h ← w.heap.writePrev w.cur n
  let h ← h.writeNext w.cur p
  return ⟨h, next⟩

def reverse (fuel : ℕ) (h : Heap T) (l : ℕ) : Option (Heap T) := do
  let k ← h.size l
  if k < 2 then some h
  else
    let first ← h.readNext (some (.head l))
    let last ← h.readPrev (some (.tail l))
    let w ← whileLoop (Walk.goesOn (some (.tail l))) reverseNode fuel ⟨h, first⟩
    let h ← w.heap.writeNext (some (.head l)) last
    let h ← h.writePrev last (some (.head l))
    let h ← h.writePrev (some (.tail l)) first
    h.writeNext first (some (.tail l))

/-- The loop over the elements of `other` that appends their copies, in the nodes `ns`. -/
def copyNodes (this other : ℕ) : List ℕ → Heap T → Option Addr → Option (Heap T)
  | [], h, cur => if cur = some (.tail other) then some h else none
  | n :: ns, h, cur =>
    if cur = some (.tail other) then some h
    else do
      let x ← h.read cur
      let h ← h.pushBack this n x.2
      let cur ← h.readNext cur
      copyNodes this other ns h cur

def copyConstruct (h : Heap T) (this other : ℕ) (ns : List ℕ) : Option (Heap T) := do
  let h ← h.construct this
  let cur ← h.readNext (some (.head other))
  copyNodes this other ns h cur

/-- The destructor, after which the object is gone. -/
def destroy (fuel : ℕ) (h : Heap T) (l : ℕ) : Option (Heap T) := do
  let h ← clear fuel h l
  return { h with size := Function.update h.size l none }

def steal (h : Heap T) (this other : ℕ) : Option (Heap T) := do
  let first ← h.readNext (some (.head other))
  let h ← h.writeNext (some (.head this)) first
  let last ← h.readPrev (some (.tail other))
  let h ← h.writePrev (some (.tail this)) last
  let k ← h.size other
  let h ← h.setSize this k
  let first ← h.readNext (some (.head this))
  let h ← if first = none then some h else h.writePrev first (some (.head this))
  let last ← h.readPrev (some (.tail this))
  let h ← if last = none then some h else h.writeNext last (some (.tail this))
  let h ← h.writeNext (some (.head other)) (some (.tail other))
  let h ← h.writePrev (some (.tail other)) (some (.head other))
  h.setSize other 0

def moveConstruct (h : Heap T) (this other : ℕ) : Option (Heap T) := do
  let h ← h.allocate this
  h.steal this other

def moveAssign (fuel : ℕ) (h : Heap T) (this other : ℕ) : Option (Heap T) :=
  if this ≠ other then do
    let h ← clear fuel h this
    h.steal this other
  else some h

def swap (fuel : ℕ) (h : Heap T) (this other tmp : ℕ) : Option (Heap T) := do
  let h ← h.construct tmp
  let h ← h.steal tmp this
  let h ← h.steal this other
  let h ← h.steal other tmp
  destroy fuel h tmp

/-- The copy is built in the object `tmp` and the nodes `ns`; `tmp'` is the object that the
exchange goes through. -/
def copyAssign (fuel : ℕ) (h : Heap T) (this other tmp tmp' : ℕ) (ns : List ℕ) :
    Option (Heap T) :=
  if this ≠ other then do
    let h ← h.copyConstruct tmp other ns
    let h ← swap fuel h this tmp tmp'
    destroy fuel h tmp
  else some h

/-- The state of an iteration that collects what it passes. -/
structure Collecting (T : Type) where
  cur : Option Addr
  passed : List (ℕ × T)

def Collecting.goesOn (stop : Option Addr) (c : Collecting T) : Bool := decide (c.cur ≠ stop)

def collectNext (h : Heap T) (c : Collecting T) : Option (Collecting T) := do
  let x ← h.read c.cur
  let next ← h.readNext c.cur
  return ⟨next, c.passed ++ [x]⟩

def collectPrev (h : Heap T) (c : Collecting T) : Option (Collecting T) := do
  let prev ← h.readPrev c.cur
  let x ← h.read prev
  return ⟨prev, c.passed ++ [x]⟩

/-- From `begin()` to `end()`. -/
def collect (fuel : ℕ) (h : Heap T) (l : ℕ) : Option (List (ℕ × T)) := do
  let cur ← h.readNext (some (.head l))
  let c ← whileLoop (Collecting.goesOn (some (.tail l))) h.collectNext fuel ⟨cur, []⟩
  return c.passed

/-- From `end()` back to `begin()`. -/
def collectBack (fuel : ℕ) (h : Heap T) (l : ℕ) : Option (List (ℕ × T)) := do
  let first ← h.readNext (some (.head l))
  let c ← whileLoop (Collecting.goesOn first) h.collectPrev fuel ⟨some (.tail l), []⟩
  return c.passed

section Primitives
variable (h : Heap T) (a : Addr) (p : Option Addr) (n : ℕ)

@[simp] theorem readNext_some :
    h.readNext (some a) = if h.live a then some (h.links.next a) else none := rfl

@[simp] theorem readPrev_some :
    h.readPrev (some a) = if h.live a then some (h.links.prev a) else none := rfl

@[simp] theorem writeNext_some : h.writeNext (some a) p =
    if h.live a then some { h with links := h.links.setNext a p } else none := rfl

@[simp] theorem writePrev_some : h.writePrev (some a) p =
    if h.live a then some { h with links := h.links.setPrev a p } else none := rfl

@[simp] theorem deleteNode_node : h.deleteNode (some (.node n)) =
    if (h.value n).isSome then some { h with value := Function.update h.value n none }
    else none := rfl

@[simp] theorem read_node : h.read (some (.node n)) = (h.value n).map fun v => (n, v) := rfl

/-- Whether an address is live is a matter of the nodes and the objects alone. -/
theorem live_congr (h' : Heap T) (hvalue : h'.value = h.value) (hsize : h'.size = h.size) :
    h'.live a = h.live a := by
  cases a <;> simp [live, hvalue, hsize]

end Primitives

end Heap

end HftExercises.LinkedList
