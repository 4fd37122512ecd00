import HftExercises.Core.Answers
import HftExercises.Core.SearchTree
import Mathlib.Algebra.Order.Group.Unbundled.Int

/-! # The binary search tree

A slot is what a `Node*&` refers to: the root of a tree object or a child link of a node.
Reading a null or a dead node, using a dead slot and deleting what is not allocated is
`none`. The recursive helpers carry a fuel.
-/
namespace HftExercises.Bst

scoped instance linearOrderInt32 : LinearOrder Int32 where
  le_refl := Int32.le_refl
  le_trans _ _ _ := Int32.le_trans
  lt_iff_le_not_ge a b := by
    simp only [Int32.lt_iff_toInt_lt, Int32.le_iff_toInt_le]
    omega
  le_antisymm _ _ := Int32.le_antisymm
  le_total := Int32.le_total
  toDecidableLE := inferInstance
  toDecidableEq := inferInstance
  toDecidableLT := inferInstance

/-- `std::llabs`. -/
def llabs (x : Int64) : Int64 := if x < 0 then -x else x

inductive Slot (ι : Type) where
  | root (t : ι)
  | left (n : ℕ)
  | right (n : ℕ)
  deriving DecidableEq, Repr

/-- The keys of the allocated nodes, the links of the trees and of the nodes, and the sizes
of the tree objects. -/
structure Heap (ι : Type) where
  key : ℕ → Option Int32
  slot : Slot ι → Option ℕ
  size : ι → Option UInt64
  fresh : ℕ
  unused : ∀ a, fresh ≤ a → key a = none

namespace Heap
variable {ι : Type}

def empty : Heap ι := ⟨fun _ => none, fun _ => none, fun _ => none, 0, fun _ _ => rfl⟩

def live (h : Heap ι) : Slot ι → Bool
  | .root t => (h.size t).isSome
  | .left n => (h.key n).isSome
  | .right n => (h.key n).isSome

def load (h : Heap ι) (s : Slot ι) : Option (Option ℕ) := if h.live s then some (h.slot s) else none

theorem lt_fresh {h : Heap ι} {n : ℕ} (hn : (h.key n).isSome) : n < h.fresh := by
  refine not_le.mp fun hle => ?_
  rw [h.unused n hle] at hn
  cases hn

/-- The key of an allocated node is replaced, or the node goes. -/
@[simps]
def rekey (h : Heap ι) (n : ℕ) (k : Option Int32) (hn : (h.key n).isSome) : Heap ι where
  key := Function.update h.key n k
  slot := h.slot
  size := h.size
  fresh := h.fresh
  unused a ha := by
    rw [Function.update_of_ne ((lt_fresh hn).trans_le ha).ne', h.unused a ha]

def setKey (h : Heap ι) (n : ℕ) (k : Int32) : Option (Heap ι) :=
  if hn : (h.key n).isSome then some (h.rekey n (some k) hn) else none

def delete (h : Heap ι) (n : ℕ) : Option (Heap ι) :=
  if hn : (h.key n).isSome then some (h.rekey n none hn) else none

def destroyNode : ℕ → Heap ι → Option ℕ → Option (Heap ι)
  | 0, _, _ => none
  | _ + 1, h, none => some h
  | fuel + 1, h, some n => do
    let h ← destroyNode fuel h (← h.load (.left n))
    let h ← destroyNode fuel h (← h.load (.right n))
    h.delete n

def findMin (h : Heap ι) : ℕ → ℕ → Option ℕ
  | 0, _ => none
  | fuel + 1, n => do
    match ← h.load (.left n) with
    | none => return n
    | some next => findMin h fuel next

def findMax (h : Heap ι) : ℕ → ℕ → Option ℕ
  | 0, _ => none
  | fuel + 1, n => do
    match ← h.load (.right n) with
    | none => return n
    | some next => findMax h fuel next

def collectInOrder (h : Heap ι) : ℕ → Option ℕ → List Int32 → Option (List Int32)
  | 0, _, _ => none
  | _ + 1, none, out => some out
  | fuel + 1, some n, out => do
    let out ← collectInOrder h fuel (← h.load (.left n)) out
    let k ← h.key n
    collectInOrder h fuel (← h.load (.right n)) (out ++ [k])

/-- The loop of `contains`. -/
def containsFrom (h : Heap ι) (key : Int32) : ℕ → Option ℕ → Option Bool
  | 0, _ => none
  | _ + 1, none => some false
  | fuel + 1, some n => do
    let k ← h.key n
    if key = k then return true
    containsFrom h key fuel (← h.load (if key < k then .left n else .right n))

/-- The loop of `nearest`, at `cur` with the best key so far. -/
def nearestFrom (h : Heap ι) (key : Int32) : ℕ → Option ℕ → Int32 → Option Int32
  | 0, _, _ => none
  | _ + 1, none, best => some best
  | fuel + 1, some cur, best => do
    let k ← h.key cur
    let d := llabs (k.toInt64 - key.toInt64)
    let bd := llabs (best.toInt64 - key.toInt64)
    let best := if d < bd ∨ (d = bd ∧ k < best) then k else best
    if key = k then return key
    nearestFrom h key fuel (← h.load (if key < k then .left cur else .right cur)) best

def contains (h : Heap ι) (t : ι) (key : Int32) : Option Bool := do
  h.containsFrom key (h.fresh + 1) (← h.load (.root t))

def min (h : Heap ι) (t : ι) : Option (Except String Int32) := do
  match ← h.load (.root t) with
  | none => return .error "BinarySearchTree::min on empty"
  | some root =>
    let n ← h.findMin (h.fresh + 1) root
    let k ← h.key n
    return .ok k

def max (h : Heap ι) (t : ι) : Option (Except String Int32) := do
  match ← h.load (.root t) with
  | none => return .error "BinarySearchTree::max on empty"
  | some root =>
    let n ← h.findMax (h.fresh + 1) root
    let k ← h.key n
    return .ok k

def nearest (h : Heap ι) (t : ι) (key : Int32) : Option (Except String Int32) := do
  match ← h.load (.root t) with
  | none => return .error "BinarySearchTree::nearest on empty"
  | some root =>
    let best ← h.key root
    let k ← h.nearestFrom key (h.fresh + 1) (some root) best
    return .ok k

def inOrder (h : Heap ι) (t : ι) : Option (List Int32) := do
  h.collectInOrder (h.fresh + 1) (← h.load (.root t)) []

/-- The loop `while (succ->left)`, which ends with the parent of the successor and itself. -/
def successor (h : Heap ι) : ℕ → ℕ → ℕ → Option (ℕ × ℕ)
  | 0, _, _ => none
  | fuel + 1, parent, succ => do
    match ← h.load (.left succ) with
    | none => return (parent, succ)
    | some next => successor h fuel succ next

variable [DecidableEq ι]

/-- The links with one of them replaced. -/
@[simps]
def link (h : Heap ι) (s : Slot ι) (p : Option ℕ) : Heap ι :=
  { h with slot := Function.update h.slot s p }

def store (h : Heap ι) (s : Slot ι) (p : Option ℕ) : Option (Heap ι) :=
  if h.live s then some (h.link s p) else none

/-- A tree object comes, changes its size or goes. -/
@[simps]
def resize (h : Heap ι) (t : ι) (size : Option UInt64) : Heap ι :=
  { h with size := Function.update h.size t size }

/-- `new Node(key)`, whose address is the first one not used before. -/
@[simps]
def newNode (h : Heap ι) (k : Int32) : Heap ι where
  key := Function.update h.key h.fresh (some k)
  slot := Function.update (Function.update h.slot (.left h.fresh) none) (.right h.fresh) none
  size := h.size
  fresh := h.fresh + 1
  unused a ha := by
    rw [Function.update_of_ne (by omega), h.unused a (by omega)]

def insertNode : ℕ → Heap ι → Slot ι → Int32 → Option (Bool × Heap ι)
  | 0, _, _, _ => none
  | fuel + 1, h, n, key => do
    match ← h.load n with
    | none =>
      let h ← (h.newNode key).store n h.fresh
      return (true, h)
    | some a =>
      let k ← h.key a
      if key = k then return (false, h)
      insertNode fuel h (if key < k then .left a else .right a) key

/-- The branches of `erase_node` at the node with the key, which choose the victim. -/
def unlink (h : Heap ι) (n : Slot ι) (a : ℕ) : Option (ℕ × Heap ι) := do
  let left ← h.load (.left a)
  let right ← h.load (.right a)
  match left, right with
  | none, none =>
    let h ← h.store n none
    return (a, h)
  | none, some _ =>
    let h ← h.store n right
    return (a, h)
  | some _, none =>
    let h ← h.store n left
    return (a, h)
  | some _, some b =>
    let (parent, succ) ← h.successor (h.fresh + 1) a b
    let k ← h.key succ
    let h ← h.setKey a k
    let child ← h.load (.right succ)
    let h ← h.store (if parent = a then .right a else .left parent) child
    return (succ, h)

def eraseNode : ℕ → Heap ι → Slot ι → Int32 → Option (Bool × Heap ι)
  | 0, _, _, _ => none
  | fuel + 1, h, n, key => do
    match ← h.load n with
    | none => return (false, h)
    | some a =>
      let k ← h.key a
      if key < k then eraseNode fuel h (.left a) key
      else if k < key then eraseNode fuel h (.right a) key
      else
        let (victim, h) ← h.unlink n a
        let h ← h.delete victim
        return (true, h)

def clone : ℕ → Heap ι → Option ℕ → Option (Option ℕ × Heap ι)
  | 0, _, _ => none
  | _ + 1, h, none => some (none, h)
  | fuel + 1, h, some n => do
    let k ← h.key n
    let c := h.fresh
    let h := h.newNode k
    let (left, h) ← clone fuel h (← h.load (.left n))
    let h ← h.store (.left c) left
    let (right, h) ← clone fuel h (← h.load (.right n))
    let h ← h.store (.right c) right
    return (some c, h)

def insert (h : Heap ι) (t : ι) (key : Int32) : Option (Bool × Heap ι) := do
  let (inserted, h) ← h.insertNode (h.fresh + 1) (.root t) key
  if inserted then
    let size ← h.size t
    return (true, h.resize t (some (size + 1)))
  return (false, h)

def erase (h : Heap ι) (t : ι) (key : Int32) : Option (Bool × Heap ι) := do
  let (erased, h) ← h.eraseNode (h.fresh + 1) (.root t) key
  if erased then
    let size ← h.size t
    return (true, h.resize t (some (size - 1)))
  return (false, h)

def construct (h : Heap ι) (t : ι) : Option (Heap ι) :=
  if (h.size t).isSome then none else some ((h.resize t (some 0)).link (.root t) none)

def copyConstruct (h : Heap ι) (t other : ι) : Option (Heap ι) := do
  if (h.size t).isSome then none
  let (root, h) ← h.clone (h.fresh + 1) (← h.load (.root other))
  let size ← h.size other
  return (h.resize t (some size)).link (.root t) root

def assign (h : Heap ι) (t other : ι) : Option (Heap ι) := do
  if t = other then return h
  let (root, h) ← h.clone (h.fresh + 1) (← h.load (.root other))
  let h ← h.destroyNode (h.fresh + 1) (← h.load (.root t))
  let h ← h.store (.root t) root
  let size ← h.size other
  return h.resize t (some size)

def destroy (h : Heap ι) (t : ι) : Option (Heap ι) := do
  let h ← h.destroyNode (h.fresh + 1) (← h.load (.root t))
  return h.resize t none

end Heap

inductive Command (ι : Type) where
  | construct (t : ι)
  | copyConstruct (t other : ι)
  | assign (t other : ι)
  | destroy (t : ι)
  | insert (t : ι) (key : Int32)
  | erase (t : ι) (key : Int32)
  | contains (t : ι) (key : Int32)
  | size (t : ι)
  | empty (t : ι)
  | min (t : ι)
  | max (t : ι)
  | nearest (t : ι) (key : Int32)
  | inOrder (t : ι)
  deriving DecidableEq, Repr

inductive Answer where
  | done
  | flag (b : Bool)
  | count (n : ℕ)
  | key (k : Int32)
  | keys (ks : List Int32)
  | thrown (what : String)
  deriving DecidableEq, Repr

def Answer.ofExcept : Except String Int32 → Answer
  | .ok k => .key k
  | .error what => .thrown what

namespace Heap
variable {ι : Type} [DecidableEq ι]

def step (h : Heap ι) : Command ι → Option (Answer × Heap ι)
  | .construct t => (h.construct t).map fun h => (.done, h)
  | .copyConstruct t other => (h.copyConstruct t other).map fun h => (.done, h)
  | .assign t other => (h.assign t other).map fun h => (.done, h)
  | .destroy t => (h.destroy t).map fun h => (.done, h)
  | .insert t key => (h.insert t key).map fun p => (.flag p.1, p.2)
  | .erase t key => (h.erase t key).map fun p => (.flag p.1, p.2)
  | .contains t key => (h.contains t key).map fun b => (.flag b, h)
  | .size t => (h.size t).map fun n => (.count n.toNat, h)
  | .empty t => (h.size t).map fun n => (.flag (n == 0), h)
  | .min t => (h.min t).map fun k => (.ofExcept k, h)
  | .max t => (h.max t).map fun k => (.ofExcept k, h)
  | .nearest t key => (h.nearest t key).map fun k => (.ofExcept k, h)
  | .inOrder t => (h.inOrder t).map fun ks => (.keys ks, h)

end Heap

/-! ## Sets of keys

What the trees are for: each tree object stands for a set of keys.
-/

abbrev Directory (ι : Type) := ι → Option (Finset Int32)

/-- No key of `S` is closer to `x` than `k`. -/
def Closest (S : Finset Int32) (x k : Int32) : Prop :=
  ∀ j ∈ S, |k.toInt - x.toInt| ≤ |j.toInt - x.toInt|

-- Only the keys of `S` are looked at, not every `Int32`.
instance (S : Finset Int32) (x : Int32) : DecidablePred (Closest S x) :=
  fun _ => Finset.decidableDforallFinset

def closestKeys (S : Finset Int32) (x : Int32) : Finset Int32 :=
  S.filter (Closest S x)

theorem closestKeys_nonempty {S : Finset Int32} (hS : S.Nonempty) (x : Int32) :
    (closestKeys S x).Nonempty := by
  obtain ⟨k, hk, hle⟩ := S.exists_min_image (fun k => |k.toInt - x.toInt|) hS
  exact ⟨k, Finset.mem_filter.mpr ⟨hk, hle⟩⟩

/-- The closest key, the smaller one of two at the same distance. -/
def nearestKey (S : Finset Int32) (x : Int32) (hS : S.Nonempty) : Int32 :=
  (closestKeys S x).min' (closestKeys_nonempty hS x)

/-- A key of a non-empty set, or the exception of the operation. -/
def pick (S : Finset Int32) (what : String) (f : S.Nonempty → Int32) : Answer :=
  if hS : S.Nonempty then .key (f hS) else .thrown what

namespace Directory
variable {ι : Type}

def get (d : Directory ι) (t : ι) : Finset Int32 := (d t).getD ∅

variable [DecidableEq ι]

def step (d : Directory ι) : Command ι → Answer × Directory ι
  | .construct t => (.done, Function.update d t (some ∅))
  | .copyConstruct t other => (.done, Function.update d t (d other))
  | .assign t other => (.done, Function.update d t (d other))
  | .destroy t => (.done, Function.update d t none)
  | .insert t key => (.flag (key ∉ d.get t), Function.update d t (some (insert key (d.get t))))
  | .erase t key => (.flag (key ∈ d.get t), Function.update d t (some ((d.get t).erase key)))
  | .contains t key => (.flag (key ∈ d.get t), d)
  | .size t => (.count (d.get t).card, d)
  | .empty t => (.flag (d.get t = ∅), d)
  | .min t => (pick (d.get t) "BinarySearchTree::min on empty" (d.get t).min', d)
  | .max t => (pick (d.get t) "BinarySearchTree::max on empty" (d.get t).max', d)
  | .nearest t key =>
    (pick (d.get t) "BinarySearchTree::nearest on empty" (nearestKey (d.get t) key), d)
  | .inOrder t => (.keys ((d.get t).sort (· ≤ ·)), d)

/-- Calls are made on constructed trees, and construction where there is none. -/
def Allowed (d : Directory ι) : Command ι → Prop
  | .construct t => d t = none
  | .copyConstruct t other => d t = none ∧ (d other).isSome
  | .assign t other => (d t).isSome ∧ (d other).isSome
  | .destroy t | .insert t _ | .erase t _ | .contains t _ | .size t | .empty t | .min t | .max t
  | .nearest t _ | .inOrder t => (d t).isSome

end Directory

/-- The sets after a sequence of calls. -/
def contents {ι : Type} [DecidableEq ι] (calls : List (Command ι)) : Directory ι :=
  stateAfter Directory.step (fun _ => none) calls

end HftExercises.Bst
