import HftExercises.Core.Throwing
import Mathlib.Data.Nat.Notation
import Mathlib.Logic.Function.Basic

/-! # The dynamic vector

Objects own blocks of storage, whose cells are raw or hold an element. The constructions of
elements are counted, and each may throw unless it moves an element whose moves do not.
Reading a cell that is raw or gone, and destroying one, is undefined.
-/
namespace HftExercises.DynVector
open Throwing

/-- An exception of an element or of `at`. -/
inductive Thrown where
  | element
  | outOfRange (what : String)
  deriving DecidableEq, Repr

/-- An element type: whether its moves cannot throw, what `T()` makes and what a move leaves,
and which constructions throw, in the order in which they are tried. -/
structure Element (T : Type) where
  nothrowMove : Bool
  value : T
  moved : T → T
  throws : ℕ → Bool

structure Vec where
  data : Option ℕ := none
  size : ℕ := 0
  capacity : ℕ := 0
  deriving DecidableEq, Repr

/-- The objects, the storage and the elements constructed and destroyed so far. -/
structure World (ι T : Type) where
  vec : ι → Option Vec
  block : ℕ → Option (List (Option T))
  next : ℕ
  attempts : ℕ
  constructed : ℕ
  destroyed : ℕ

variable {ι T X : Type} [DecidableEq ι]

def World.empty : World ι T := ⟨fun _ => none, fun _ => none, 0, 0, 0, 0⟩

section Memory

def World.cells (w : World ι T) (p : Option ℕ) : Option (ℕ × List (Option T)) :=
  p.bind fun b => (w.block b).map fun cells => (b, cells)

/-- Cell `i` of a block is replaced. -/
def World.putCell (w : World ι T) (b i : ℕ) (cells : List (Option T)) (x : Option T) : World ι T :=
  { w with block := Function.update w.block b (some (cells.set i x)) }

def operatorNew (n : ℕ) : Throwing (World ι T) X ℕ :=
  perform fun w =>
    some (w.next,
      { w with
        block := Function.update w.block w.next (some (List.replicate n none))
        next := w.next + 1 })

def operatorDelete (p : Option ℕ) : Throwing (World ι T) X Unit :=
  perform fun w =>
    match p with
    | none => some ((), w)
    | some b =>
      if (w.block b).isSome then some ((), { w with block := Function.update w.block b none })
      else none

/-- The placement `new` of an element at `p + i`. -/
def construct (E : Element T) (mayThrow : Bool) (e : X) (p : Option ℕ) (i : ℕ) (x : T) :
    Throwing (World ι T) X Unit := fun w =>
  (w.cells p).bind fun c =>
    if c.2[i]?.any Option.isNone then
      if mayThrow && E.throws w.attempts then some (.error e, { w with attempts := w.attempts + 1 })
      else
        some (.ok (),
          { w.putCell c.1 i c.2 (some x) with
            attempts := w.attempts + 1
            constructed := w.constructed + 1 })
    else none

def destroy (p : Option ℕ) (i : ℕ) : Throwing (World ι T) X Unit :=
  perform fun w =>
    (w.cells p).bind fun c =>
      c.2[i]?.join.map fun _ =>
        ((), { w.putCell c.1 i c.2 none with destroyed := w.destroyed + 1 })

def load (p : Option ℕ) (i : ℕ) : Throwing (World ι T) X T :=
  perform fun w => (w.cells p).bind fun c => c.2[i]?.join.map fun x => (x, w)

/-- What a move leaves in the cell that it moved from. -/
def store (p : Option ℕ) (i : ℕ) (x : T) : Throwing (World ι T) X Unit :=
  perform fun w =>
    (w.cells p).bind fun c => c.2[i]?.join.map fun _ => ((), w.putCell c.1 i c.2 (some x))

end Memory

section Objects

def fields (v : ι) : Throwing (World ι T) X Vec := perform fun w => (w.vec v).map fun f => (f, w)

def setFields (v : ι) (f : Vec) : Throwing (World ι T) X Unit :=
  perform fun w =>
    if (w.vec v).isSome then some ((), { w with vec := Function.update w.vec v (some f) }) else none

/-- The storage of an object begins, with the initialisers of its members. -/
def beginObject (v : ι) (f : Vec) : Throwing (World ι T) X Unit :=
  perform fun w =>
    if (w.vec v).isSome then none else some ((), { w with vec := Function.update w.vec v (some f) })

def endObject (v : ι) : Throwing (World ι T) X Unit :=
  perform fun w =>
    if (w.vec v).isSome then some ((), { w with vec := Function.update w.vec v none }) else none

/-- The body of a constructor; the destructor is not called for an object whose constructor
throws. -/
def constructing (v : ι) (body : Throwing (World ι T) Thrown Unit) :
    Throwing (World ι T) Thrown Unit := do
  beginObject v {}
  catching body fun e => do
    endObject v
    throwing e

end Objects

section Growth

/-- `for (; j < size_; ++j) data_[j].~T()` -/
def destroyFrom (p : Option ℕ) : ℕ → ℕ → Throwing (World ι T) X Unit
  | 0, _ => pure ()
  | n + 1, j => do
    destroy p j
    destroyFrom p n (j + 1)

/-- `while (i > 0) { --i; nd[i].~T(); }` -/
def destroyBack (p : Option ℕ) : ℕ → Throwing (World ι T) X Unit
  | 0 => pure ()
  | i + 1 => do
    destroy p i
    destroyBack p i

/-- An element is moved or copied to the new block; the exception carries the `i` at which the
loop is. -/
def transferOne (E : Element T) (data nd : Option ℕ) (i : ℕ) : Throwing (World ι T) ℕ Unit := do
  let x ← load data i
  if E.nothrowMove then do
    construct E false i nd i x
    store data i (E.moved x)
  else construct E true i nd i x

def transferFrom (E : Element T) (data nd : Option ℕ) : ℕ → ℕ → Throwing (World ι T) ℕ Unit
  | 0, _ => pure ()
  | n + 1, i => do
    transferOne E data nd i
    transferFrom E data nd n (i + 1)

/-- The new block, in which the elements are, or nothing where none is needed. -/
def newData (E : Element T) (f : Vec) (newCap : ℕ) : Throwing (World ι T) Thrown (Option ℕ) :=
  if newCap = 0 then pure none
  else do
    let nd ← operatorNew newCap
    catching (transferFrom E f.data (some nd) f.size 0) fun i => do
      destroyBack (some nd) i
      operatorDelete (some nd)
      throwing Thrown.element
    pure (some nd)

def growTo (E : Element T) (v : ι) (newCap : ℕ) : Throwing (World ι T) Thrown Unit := do
  let f ← fields v
  let nd ← newData E f newCap
  destroyFrom f.data f.size 0
  operatorDelete f.data
  setFields v { f with data := nd, capacity := newCap }

end Growth

section Constructors

/-- The loop of a constructor that constructs `n` elements from `i` on. -/
def fillFrom (E : Element T) (this : ι) (source : ℕ → Throwing (World ι T) Thrown T) :
    ℕ → ℕ → Throwing (World ι T) Thrown Unit
  | 0, _ => pure ()
  | n + 1, i => do
    let x ← source i
    let f ← fields this
    construct E true .element f.data i x
    fillFrom E this source n (i + 1)

/-- What the constructors of elements do: storage, the elements and last the size. -/
def constructFilled (E : Element T) (this : ι) (n : ℕ)
    (source : ℕ → Throwing (World ι T) Thrown T) : Throwing (World ι T) Thrown Unit :=
  constructing this do
    growTo E this n
    fillFrom E this source n 0
    let f ← fields this
    setFields this { f with size := n }

/-- `Vector() = default` -/
def defaultConstruct (this : ι) : Throwing (World ι T) Thrown Unit := beginObject this {}

/-- `Vector(n)` -/
def constructSized (E : Element T) (this : ι) (n : ℕ) : Throwing (World ι T) Thrown Unit :=
  constructFilled E this n fun _ => pure E.value

/-- `Vector(n, value)` -/
def constructWith (E : Element T) (this : ι) (n : ℕ) (value : T) :
    Throwing (World ι T) Thrown Unit := constructFilled E this n fun _ => pure value

def copyConstruct (E : Element T) (this o : ι) : Throwing (World ι T) Thrown Unit := do
  let f ← fields o
  constructFilled E this f.size fun i => do
    let f ← fields o
    load f.data i

def moveConstruct (this o : ι) : Throwing (World ι T) Thrown Unit := do
  let f ← fields o
  beginObject this f
  setFields o {}

def destruct (v : ι) : Throwing (World ι T) Thrown Unit := do
  let f ← fields v
  destroyFrom f.data f.size 0
  operatorDelete f.data
  endObject v

def moveAssign (this o : ι) : Throwing (World ι T) Thrown Unit :=
  if this ≠ o then do
    let f ← fields this
    destroyFrom f.data f.size 0
    operatorDelete f.data
    let f ← fields o
    setFields this f
    setFields o {}
  else pure ()

/-- `tmp` is the object of the copy. -/
def copyAssign (E : Element T) (this o tmp : ι) : Throwing (World ι T) Thrown Unit :=
  if this ≠ o then do
    copyConstruct E tmp o
    moveAssign this tmp
    destruct tmp
  else pure ()

end Constructors

section Operations

/-- The argument of an append: a value elsewhere, or an element of the vector itself. -/
inductive Arg (T : Type) where
  | value (x : T)
  | element (i : ℕ)

/-- The location that the argument is bound to before the call. -/
def Arg.bound (v : ι) : Arg T → Throwing (World ι T) Thrown (Throwing (World ι T) Thrown T)
  | .value x => pure (pure x)
  | .element i => do
    let f ← fields v
    pure (load f.data i)

def growIfFull (E : Element T) (v : ι) : Throwing (World ι T) Thrown Unit := do
  let f ← fields v
  if f.size = f.capacity then
    growTo E v (if f.capacity = 0 then 1 else f.capacity * 2)
  else pure ()

/-- The append of an element whose constructor reads the argument last. -/
def append (E : Element T) (mayThrow : Bool) (v : ι) (arg : Throwing (World ι T) Thrown T) :
    Throwing (World ι T) Thrown Unit := do
  growIfFull E v
  let f ← fields v
  let x ← arg
  construct E mayThrow .element f.data f.size x
  setFields v { f with size := f.size + 1 }

/-- `push_back(const T&)` -/
def pushBack (E : Element T) (v : ι) (arg : Arg T) : Throwing (World ι T) Thrown Unit := do
  let read ← arg.bound v
  append E true v read

/-- `push_back(T&&)`, of a value elsewhere. -/
def pushBackMove (E : Element T) (v : ι) (x : T) : Throwing (World ι T) Thrown Unit :=
  append E (!E.nothrowMove) v (pure x)

/-- `emplace_back`, which returns a reference to the new element; what it refers to is read. -/
def emplaceBack (E : Element T) (v : ι) (arg : Arg T) : Throwing (World ι T) Thrown T := do
  let read ← arg.bound v
  append E true v read
  let f ← fields v
  load f.data (f.size - 1)

def popBack (v : ι) : Throwing (World ι T) Thrown Unit := do
  let f ← fields v
  setFields v { f with size := f.size - 1 }
  destroy f.data (f.size - 1)

def clear (v : ι) : Throwing (World ι T) Thrown Unit := do
  let f ← fields v
  destroyFrom f.data f.size 0
  setFields v { f with size := 0 }

def reserve (E : Element T) (v : ι) (n : ℕ) : Throwing (World ι T) Thrown Unit := do
  let f ← fields v
  if n > f.capacity then growTo E v n else pure ()

def shrinkToFit (E : Element T) (v : ι) : Throwing (World ι T) Thrown Unit := do
  let f ← fields v
  if f.size < f.capacity then growTo E v f.size else pure ()

def «at» (v : ι) (i : ℕ) : Throwing (World ι T) Thrown T := do
  let f ← fields v
  if i ≥ f.size then throwing (.outOfRange "Vector::at") else load f.data i

end Operations

end HftExercises.DynVector
