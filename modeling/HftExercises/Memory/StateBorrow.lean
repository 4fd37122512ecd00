import HftExercises.Core.AddressSpace
import HftExercises.Core.History
import Mathlib.Data.Fintype.EquivFin
import Mathlib.Data.UInt

/-! # Typestate borrowing

An owner is an `SBox` or a `LockedBox`; a value moves from one to the other while `SRef`s
and `SMut`s point to it. Variables of each type are at addresses, values are numbered as
they are made, and the use of a variable that is not there is undefined.
-/
namespace HftExercises.Typestate

/-- The address of a variable, in words of 8 bytes. -/
structure Place where
  word : Fin (2 ^ 61)
  deriving DecidableEq, Repr

def Place.equiv : Place ≃ Fin (2 ^ 61) := ⟨Place.word, Place.mk, fun _ => rfl, fun _ => rfl⟩

instance : Finite Place := Finite.of_equiv _ Place.equiv.symm

/-- Places are counted, never listed. -/
noncomputable instance : Fintype Place := Fintype.ofFinite Place

theorem Place.card : Fintype.card Place = 2 ^ 61 :=
  (Fintype.card_congr Place.equiv).trans (Fintype.card_fin _)

/-- The type of an owner: `SBox` or `LockedBox`, which has an `SBox` as its member. -/
inductive State where
  | free
  | locked
  deriving DecidableEq, Repr

structure Box where
  value : Option ℕ
  readers : UInt64
  deriving DecidableEq, Repr

/-- `SRef`; `owner` is the `SBox` it was borrowed from. -/
structure Ref where
  ptr : Option ℕ
  owner : Option Place
  deriving DecidableEq, Repr

def Ref.empty : Ref := ⟨none, none⟩

/-- `muts` has the `ptr_` of every `SMut`. `underflow` tells whether a count was taken
below zero. -/
structure World where
  boxes : State × Place → Option Box
  refs : Place → Option Ref
  muts : Place → Option (Option ℕ)
  fresh : ℕ
  underflow : Bool

inductive Call where
  | makeBox (a : Place)
  /-- the defaulted move constructor of an owner -/
  | moveBox (s : State) (source target : Place)
  /-- the defaulted move assignment of an owner -/
  | assignBox (s : State) (source target : Place)
  | borrow (b a : Place)
  /-- the pair that is returned has its lock at `l` and its handle at `m` -/
  | borrowMut (b l m : Place)
  | makeRef (a : Place)
  | copyRef (source target : Place)
  | moveRef (source target : Place)
  | assignRef (source target : Place)
  | moveAssignRef (source target : Place)
  | dropRef (a : Place)
  | makeMut (a : Place)
  | moveMut (source target : Place)
  | assignMut (source target : Place)
  | dropMut (a : Place)
  /-- the handle at `m` is moved into the parameter, and the box that is returned is at `b` -/
  | release (l m b : Place)

inductive Result where
  | done
  /-- `std::logic_error("SBox::borrow_mut with live shared borrows")` -/
  | threw
  deriving DecidableEq, Repr

namespace World

def empty : World := ⟨fun _ => none, fun _ => none, fun _ => none, 0, false⟩

def setBox (w : World) (k : State × Place) (x : Box) : World :=
  { w with boxes := Function.update w.boxes k (some x) }

/-- The value-constructing constructor of `SBox`. -/
def makeBox (w : World) (a : Place) : World :=
  { w.setBox (.free, a) ⟨some w.fresh, 0⟩ with fresh := w.fresh + 1 }

def setRef (w : World) (a : Place) (r : Option Ref) : World :=
  { w with refs := Function.update w.refs a r }

def setMut (w : World) (a : Place) (p : Option (Option ℕ)) : World :=
  { w with muts := Function.update w.muts a p }

def addReader (w : World) (b : Place) : Option World :=
  (w.boxes (.free, b)).map fun x => w.setBox (.free, b) { x with readers := x.readers + 1 }

def releaseReader (w : World) (b : Place) : Option World :=
  (w.boxes (.free, b)).map fun (x : Box) =>
    { w.setBox (.free, b) { x with readers := x.readers - 1 } with
      underflow := w.underflow || x.readers == 0 }

/-- The reader that a copy of a reference adds. -/
def acquire (w : World) (r : Ref) : Option World :=
  match r.owner with
  | none => some w
  | some b => w.addReader b

/-- `SRef::release()` -/
def releaseRef (w : World) (a : Place) : Option World :=
  (w.refs a).bind fun r =>
    match r.owner with
    | none => some w
    | some b => (w.releaseReader b).map fun w => w.setRef a (some .empty)

/-- The members are moved one by one: the value leaves the source, the count is copied. -/
def moveInto (w : World) (source target : State × Place) (x : Box) : World :=
  (w.setBox source { x with value := none }).setBox target x

/-- The handle at the target takes over what the one at the source points to. -/
def stealMut (w : World) (source target : Place) (p : Option ℕ) : World :=
  (w.setMut source (some none)).setMut target (some p)

def stealRef (w : World) (source target : Place) (r : Ref) : World :=
  (w.setRef source (some .empty)).setRef target (some r)

def step (w : World) : Call → Option (Result × World)
  | .makeBox a => some (.done, w.makeBox a)
  | .moveBox s source target =>
    (w.boxes (s, source)).map fun x => (.done, w.moveInto (s, source) (s, target) x)
  | .assignBox s source target =>
    (w.boxes (s, source)).bind fun x => (w.boxes (s, target)).map fun _ =>
      (.done, if source = target then w else w.moveInto (s, source) (s, target) x)
  | .borrow b a => (w.boxes (.free, b)).map fun x =>
    (.done, (w.setBox (.free, b) { x with readers := x.readers + 1 }).setRef a
      (some ⟨x.value, some b⟩))
  | .borrowMut b l m => (w.boxes (.free, b)).map fun x =>
    if x.readers != 0 then (.threw, w)
    else (.done, (w.moveInto (.free, b) (.locked, l) x).setMut m (some x.value))
  | .makeRef a => some (.done, w.setRef a (some .empty))
  | .copyRef source target => (w.refs source).bind fun r => (w.acquire r).map fun w =>
    (.done, w.setRef target (some r))
  | .moveRef source target => (w.refs source).map fun r => (.done, w.stealRef source target r)
  | .assignRef source target =>
    if source = target then (w.refs target).map fun _ => (.done, w)
    else (w.releaseRef target).bind fun w => (w.refs source).bind fun r =>
      (w.acquire r).map fun w => (.done, w.setRef target (some r))
  | .moveAssignRef source target =>
    if source = target then (w.refs target).map fun _ => (.done, w)
    else (w.releaseRef target).bind fun w => (w.refs source).map fun r =>
      (.done, w.stealRef source target r)
  | .dropRef a => (w.releaseRef a).map fun w => (.done, w.setRef a none)
  | .makeMut a => some (.done, w.setMut a (some none))
  | .moveMut source target => (w.muts source).map fun p => (.done, w.stealMut source target p)
  | .assignMut source target =>
    (w.muts source).bind fun p => (w.muts target).map fun _ =>
      (.done, if source = target then w else w.stealMut source target p)
  | .dropMut a => (w.muts a).map fun _ => (.done, w.setMut a none)
  | .release l m b => (w.boxes (.locked, l)).bind fun x => (w.muts m).map fun _ =>
    (.done, (w.setMut m (some none)).moveInto (.locked, l) (.free, b) x)

/-- Variables are made where none is and used where they are. -/
def Allowed (w : World) : Call → Prop
  | .makeBox a => w.boxes (.free, a) = none
  | .moveBox s source target => w.boxes (s, source) ≠ none ∧ w.boxes (s, target) = none
  | .assignBox s source target => w.boxes (s, source) ≠ none ∧ w.boxes (s, target) ≠ none
  | .borrow b a => w.boxes (.free, b) ≠ none ∧ w.refs a = none
  | .borrowMut b l m => w.boxes (.free, b) ≠ none ∧ w.boxes (.locked, l) = none ∧ w.muts m = none
  | .makeRef a => w.refs a = none
  | .copyRef source target => w.refs source ≠ none ∧ w.refs target = none
  | .moveRef source target => w.refs source ≠ none ∧ w.refs target = none
  | .assignRef source target => w.refs source ≠ none ∧ w.refs target ≠ none
  | .moveAssignRef source target => w.refs source ≠ none ∧ w.refs target ≠ none
  | .dropRef a => w.refs a ≠ none
  | .makeMut a => w.muts a = none
  | .moveMut source target => w.muts source ≠ none ∧ w.muts target = none
  | .assignMut source target => w.muts source ≠ none ∧ w.muts target ≠ none
  | .dropMut a => w.muts a ≠ none
  | .release l m b =>
    w.boxes (.locked, l) ≠ none ∧ w.muts m ≠ none ∧ w.boxes (.free, b) = none

end World
end HftExercises.Typestate
