import HftExercises.Core.Execution
import Mathlib.Data.Finset.Option
import Mathlib.Logic.Relation

/-! # Exclusive ownership

Objects are numbered as they are constructed. A `UniquePtr` is a variable or a member of an
object, so that a deletion runs the destructors of the members, which may delete further objects.
A raw pointer that `new` or `release()` has handed out is loose until its holder gives it back.
-/
namespace HftExercises.Unique
variable {V D : Type*}

inductive Place (V : Type*) where
  | var (v : V)
  | member (object index : ℕ)
  deriving DecidableEq, Repr

def Place.holder : Place V → Option ℕ
  | .var _ => none
  | .member o _ => some o

structure UniquePtr (D : Type*) where
  ptr : Option ℕ
  deleter : D
  deriving DecidableEq, Repr

structure Heap (V D : Type*) where
  place : Place V → Option (UniquePtr D)
  /-- how many members of an object are pointers -/
  members : ℕ → ℕ
  alive : Finset ℕ
  loose : Finset ℕ
  created : ℕ
  /-- the calls of deleters, in this order -/
  deleted : List (ℕ × D)

namespace Heap

def empty : Heap V D where
  place := fun _ => none
  members := fun _ => 0
  alive := ∅
  loose := ∅
  created := 0
  deleted := []

def points (h : Heap V D) (a : Place V) (p : ℕ) : Prop := ∃ u, h.place a = some u ∧ u.ptr = some p

/-- A member of the one points to the other. -/
def owns (h : Heap V D) (x y : ℕ) : Prop := ∃ i, h.points (.member x i) y

variable [DecidableEq V]

def put (h : Heap V D) (a : Place V) (u : Option (UniquePtr D)) : Heap V D :=
  { h with place := Function.update h.place a u }

def release (h : Heap V D) (a : Place V) : Option (Option ℕ × Heap V D) :=
  (h.place a).map fun u => (u.ptr, h.put a (some { u with ptr := none }))

/-- `delete` is what the call of a deleter does. -/
def reset (delete : Heap V D → ℕ → D → Option (Heap V D)) (h : Heap V D) (a : Place V)
    (p : Option ℕ) : Option (Heap V D) :=
  (h.place a).bind fun u =>
    match u.ptr with
    | none => some (h.put a (some { u with ptr := p }))
    | some old => delete (h.put a (some { u with ptr := p })) old u.deleter

/-- `~UniquePtr()` -/
def destroy (delete : Heap V D → ℕ → D → Option (Heap V D)) (h : Heap V D) (a : Place V) :
    Option (Heap V D) :=
  (h.reset delete a none).map fun h => h.put a none

/-- The members are destroyed from the last to the first. -/
def destroyMembers (delete : Heap V D → ℕ → D → Option (Heap V D)) (o : ℕ) :
    ℕ → Heap V D → Option (Heap V D)
  | 0, h => some h
  | i + 1, h => (h.destroy delete (.member o i)).bind (destroyMembers delete o i)

def deleteObject : ℕ → Heap V D → ℕ → D → Option (Heap V D)
  | 0, _, _, _ => none
  | fuel + 1, h, o, d =>
    if o ∈ h.alive then
      destroyMembers (deleteObject fuel) o (h.members o)
        { h with alive := h.alive.erase o, deleted := h.deleted ++ [(o, d)] }
    else none

/-- `deleter_(old)`, with a fuel that no nesting exhausts. -/
def delete (h : Heap V D) (o : ℕ) (d : D) : Option (Heap V D) := deleteObject h.alive.card h o d

/-- `deleter_ = std::move(o.deleter_)` -/
def takeDeleter (moved : D → D) (h : Heap V D) (a o : Place V) : Option (Heap V D) :=
  (h.place o).bind fun u => (h.place a).map fun w =>
    (h.put a (some { w with deleter := u.deleter })).put o
      (some { u with deleter := moved u.deleter })

def moveAssign (moved : D → D) (h : Heap V D) (a o : Place V) : Option (Heap V D) :=
  if a = o then (h.place a).map fun _ => h
  else (h.release o).bind fun r => (r.2.reset delete a r.1).bind fun h => h.takeDeleter moved a o

/-- `UniquePtr(p, d)` -/
def construct (h : Heap V D) (v : V) (p : Option ℕ) (d : D) : Option (Heap V D) :=
  match h.place (.var v) with
  | none => some (h.put (.var v) (some ⟨p, d⟩))
  | some _ => none

def moveConstruct (moved : D → D) (h : Heap V D) (v : V) (o : Place V) : Option (Heap V D) :=
  (h.place o).bind fun u =>
    (h.construct v u.ptr u.deleter).map fun h => h.put o (some ⟨none, moved u.deleter⟩)

def swap (h : Heap V D) (a o : Place V) : Option (Heap V D) :=
  (h.place a).bind fun u => (h.place o).map fun w => (h.put a (some w)).put o (some u)

/-- `new T`, whose members are empty and have these deleters. -/
def newObject (h : Heap V D) (deleters : List D) : Heap V D where
  place
    | .var v => h.place (.var v)
    | .member o i =>
      if o = h.created then deleters[i]?.map fun d => ⟨none, d⟩ else h.place (.member o i)
  members := Function.update h.members h.created deleters.length
  alive := insert h.created h.alive
  loose := h.loose
  created := h.created + 1
  deleted := h.deleted

def makeUnique (h : Heap V D) (v : V) (deleters : List D) (d : D) : Option (Heap V D) :=
  (h.newObject deleters).construct v (some h.created) d

/-- The caller answers for this pointer from now on. -/
def handOut (h : Heap V D) (p : Option ℕ) : Heap V D := { h with loose := h.loose ∪ p.toFinset }

def handBack (h : Heap V D) (p : Option ℕ) : Heap V D := { h with loose := h.loose \ p.toFinset }

end Heap

/-- `dispose` is the caller who deletes what it holds a raw pointer to. -/
inductive Call (V D : Type*) where
  | new (deleters : List D)
  | makeUnique (v : V) (deleters : List D) (d : D)
  | construct (v : V) (p : Option ℕ) (d : D)
  | moveConstruct (v : V) (o : Place V)
  | moveAssign (a o : Place V)
  | release (a : Place V)
  | reset (a : Place V) (p : Option ℕ)
  | swap (a o : Place V)
  | destroy (v : V)
  | dispose (p : ℕ) (d : D)

/-- `moved` is what a move leaves of a deleter. -/
def Heap.step [DecidableEq V] (moved : D → D) (h : Heap V D) :
    Call V D → Option (Option ℕ × Heap V D)
  | .new deleters => some (some h.created, (h.newObject deleters).handOut (some h.created))
  | .makeUnique v deleters d => (h.makeUnique v deleters d).map fun h => (none, h)
  | .construct v p d => ((h.handBack p).construct v p d).map fun h => (none, h)
  | .moveConstruct v o => (h.moveConstruct moved v o).map fun h => (none, h)
  | .moveAssign a o => (h.moveAssign moved a o).map fun h => (none, h)
  | .release a => (h.release a).map fun r => (r.1, r.2.handOut r.1)
  | .reset a p => ((h.handBack p).reset Heap.delete a p).map fun h => (none, h)
  | .swap a o => (h.swap a o).map fun h => (none, h)
  | .destroy v => (h.destroy Heap.delete (.var v)).map fun h => (none, h)
  | .dispose p d => ((h.handBack (some p)).delete p d).map fun h => (none, h)

/-- A raw pointer is given to one owner only. -/
def Call.Contract (h : Heap V D) : Call V D → Prop
  | .construct _ (some p) _ | .reset _ (some p) | .dispose p _ => p ∈ h.loose
  | _ => True

/-- The pointers that a call uses exist, and the one that it constructs does not. -/
def Call.Present (h : Heap V D) : Call V D → Prop
  | .new _ | .dispose _ _ => True
  | .makeUnique v _ _ | .construct v _ _ => h.place (.var v) = none
  | .moveConstruct v o => h.place (.var v) = none ∧ h.place o ≠ none
  | .moveAssign a o | .swap a o => h.place a ≠ none ∧ h.place o ≠ none
  | .release a | .reset a _ => h.place a ≠ none
  | .destroy v => h.place (.var v) ≠ none

end HftExercises.Unique
