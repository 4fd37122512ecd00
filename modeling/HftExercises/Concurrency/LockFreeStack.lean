import HftExercises.Concurrency.ObjectPool

/-! # The lock-free stack

A list of nodes from `head_`, claimed by compare-exchanges on the head. A popped
node is parked behind a cell of a second list, from `retired_`, until the stack is
destroyed, so that an address is never used twice. A step of a thread is one access
to `head_`, `retired_` or a link, with the local work that follows or precedes it:
a new node or cell is nobody else's, and so is the value of a node that was claimed.
-/
namespace HftExercises.LockFreeStack
open Pool (Linked)
variable {α T : Type*}

/-- Where a thread is, with its locals. `popTake` has exchanged the head and not yet
read the value; the places after it are inside `retire`. -/
inductive Control (α : Type*) where
  | idle
  | pushLink (node : ℕ) (value : α) (cur : Option ℕ)
  | pushCas (node : ℕ) (value : α) (cur : Option ℕ)
  | popNext (cur : ℕ)
  | popCas (cur : ℕ) (next : Option ℕ)
  | popTake (node : ℕ)
  | retireLink (node : ℕ) (value : α) (cell : ℕ) (r : Option ℕ)
  | retireCas (node : ℕ) (value : α) (cell : ℕ) (r : Option ℕ)
  deriving DecidableEq, Repr

/-- Addresses below `fresh` and `freshCell` have been given out; `out` is what each
thread passes to `try_pop`. -/
structure System (α T : Type*) where
  head : Option ℕ
  value : ℕ → Option α
  next : ℕ → Option ℕ
  fresh : ℕ
  retired : Option ℕ
  cellNode : ℕ → Option ℕ
  cellNext : ℕ → Option ℕ
  freshCell : ℕ
  out : T → Option α
  control : T → Control α

def System.init : System α T where
  head := none
  value := fun _ => none
  next := fun _ => none
  fresh := 0
  retired := none
  cellNode := fun _ => none
  cellNext := fun _ => none
  freshCell := 0
  out := fun _ => none
  control := fun _ => .idle

inductive Action (α T : Type*) where
  | push (thread : T) (value : α)
  | tryPop (thread : T)
  | proceed (thread : T) (spurious : Bool)
  deriving DecidableEq, Repr

def Action.thread : Action α T → T
  | .push t _ => t
  | .tryPop t => t
  | .proceed t _ => t

def Action.starts : Action α T → Bool
  | .proceed _ _ => false
  | _ => true

/-- `pushed` and `claimed` are successful exchanges of the head; `empty` and
`popped` are what `try_pop` returns; `fault` reads a node that does not exist. -/
inductive StepResult (α : Type*) where
  | running
  | pushed (node : ℕ) (value : α)
  | claimed (node : ℕ)
  | empty
  | popped (node : ℕ) (value : α)
  | fault
  deriving DecidableEq, Repr

section Model
variable [DecidableEq T]

def System.setControl (s : System α T) (t : T) (c : Control α) : System α T :=
  { s with control := Function.update s.control t c }

/-- `new Node`, and the first load of the head. -/
def System.startPush (s : System α T) (t : T) (value : α) : System α T :=
  { s.setControl t (.pushLink s.fresh value s.head) with
    value := Function.update s.value s.fresh (some value)
    next := Function.update s.next s.fresh none
    fresh := s.fresh + 1 }

/-- The loop head of `try_pop`, on the head just read. -/
def System.popLoop (s : System α T) (t : T) : StepResult α × System α T :=
  match s.head with
  | none => (.empty, s.setControl t .idle)
  | some cur => (.running, s.setControl t (.popNext cur))

/-- Read the value, `new RetiredCell`, and load the head of the retired list. -/
def System.startRetire (s : System α T) (t : T) (node : ℕ) (value : α) : System α T :=
  { s.setControl t (.retireLink node value s.freshCell s.retired) with
    out := Function.update s.out t (some value)
    cellNode := Function.update s.cellNode s.freshCell (some node)
    cellNext := Function.update s.cellNext s.freshCell none
    freshCell := s.freshCell + 1 }

def System.proceed (s : System α T) (t : T) (spurious : Bool) :
    Option (StepResult α × System α T) :=
  match s.control t with
  | .idle => none
  | .pushLink node value cur =>
    some (.running, { s.setControl t (.pushCas node value cur) with
      next := Function.update s.next node cur })
  | .pushCas node value cur =>
    match compareExchangeWeak s.head cur (some node) spurious with
    | none => some (.running, s.setControl t (.pushLink node value s.head))
    | some head => some (.pushed node value, { s.setControl t .idle with head := head })
  | .popNext cur =>
    match s.value cur with
    | none => some (.fault, s)
    | some _ => some (.running, s.setControl t (.popCas cur (s.next cur)))
  | .popCas cur next =>
    match compareExchangeWeak s.head (some cur) next spurious with
    | none => some (s.popLoop t)
    | some head => some (.claimed cur, { s.setControl t (.popTake cur) with head := head })
  | .popTake node =>
    match s.value node with
    | none => some (.fault, s)
    | some value => some (.running, s.startRetire t node value)
  | .retireLink node value cell r =>
    some (.running, { s.setControl t (.retireCas node value cell r) with
      cellNext := Function.update s.cellNext cell r })
  | .retireCas node value cell r =>
    match compareExchangeWeak s.retired r (some cell) spurious with
    | none => some (.running, s.setControl t (.retireLink node value cell s.retired))
    | some retired => some (.popped node value, { s.setControl t .idle with retired := retired })

def System.step (s : System α T) : Action α T → Option (StepResult α × System α T)
  | .push t value =>
    match s.control t with
    | .idle => some (.running, s.startPush t value)
    | _ => none
  | .tryPop t =>
    match s.control t with
    | .idle => some (s.popLoop t)
    | _ => none
  | .proceed t spurious => s.proceed t spurious

end Model

section Destructor

/-- What the destructor has deleted, and where it is. -/
structure Teardown where
  nodes : List ℕ
  cells : List ℕ
  cursor : Option ℕ

/-- `delete n`, which is undefined for what is not there any more. -/
def deleteOnce (deleted : List ℕ) (allocated : Bool) (n : ℕ) : Option (List ℕ) :=
  if allocated && !decide (n ∈ deleted) then some (n :: deleted) else none

def System.deleteNode (s : System α T) (d : Teardown) : Option Teardown :=
  match d.cursor with
  | none => none
  | some n =>
    (deleteOnce d.nodes (s.value n).isSome n).map fun nodes =>
      { d with nodes := nodes, cursor := s.next n }

def System.deleteCell (s : System α T) (d : Teardown) : Option Teardown :=
  match d.cursor with
  | none => none
  | some c =>
    match s.cellNode c with
    | none => none
    | some n =>
      (deleteOnce d.nodes (s.value n).isSome n).bind fun nodes =>
        (deleteOnce d.cells true c).map fun cells =>
          { nodes := nodes, cells := cells, cursor := s.cellNext c }

/-- The two loops of the destructor. -/
def System.destroy (s : System α T) : Option Teardown :=
  (whileLoop (fun d => d.cursor.isSome) s.deleteNode s.fresh ⟨[], [], s.head⟩).bind fun d =>
    whileLoop (fun d => d.cursor.isSome) s.deleteCell s.freshCell { d with cursor := s.retired }

end Destructor

abbrev StepEvent (α T : Type*) := Event (System α T) (Action α T) (StepResult α)

section History

/-- The abstract stack: the successful exchanges of the head, as push and pop. -/
def StepResult.apply (stack : List α) : StepResult α → List α
  | .pushed _ value => value :: stack
  | .claimed _ => stack.tail
  | _ => stack

def replay (es : List (StepEvent α T)) : List α :=
  es.foldl (fun stack e => e.result.apply stack) []

def StepResult.pushed? : StepResult α → Option (ℕ × α)
  | .pushed node value => some (node, value)
  | _ => none

def StepResult.claimed? : StepResult α → Option ℕ
  | .claimed node => some node
  | _ => none

def StepResult.popped? : StepResult α → Option (ℕ × α)
  | .popped node value => some (node, value)
  | _ => none

/-- The nodes with their values in the order in which they were pushed. -/
def pushes (es : List (StepEvent α T)) : List (ℕ × α) := es.filterMap fun e => e.result.pushed?

/-- The nodes in the order in which they were claimed. -/
def claimed (es : List (StepEvent α T)) : List ℕ := es.filterMap fun e => e.result.claimed?

/-- The nodes with their values in the order in which `try_pop` returned them. -/
def returns (es : List (StepEvent α T)) : List (ℕ × α) := es.filterMap fun e => e.result.popped?

end History

section Places

/-- The node a push has in hand. -/
def Control.pushing? : Control α → Option ℕ
  | .pushLink node _ _ | .pushCas node _ _ => some node
  | _ => none

/-- The node a pop has claimed and not yet retired. -/
def Control.popping? : Control α → Option ℕ
  | .popTake node | .retireLink node _ _ _ | .retireCas node _ _ _ => some node
  | _ => none

/-- The node a thread has in hand. -/
def Control.node? : Control α → Option ℕ
  | .pushLink node _ _ | .pushCas node _ _ => some node
  | .popTake node | .retireLink node _ _ _ | .retireCas node _ _ _ => some node
  | _ => none

/-- The cell a thread has in hand. -/
def Control.cell? : Control α → Option ℕ
  | .retireLink _ _ cell _ | .retireCas _ _ cell _ => some cell
  | _ => none

/-- A pop that has claimed nothing yet. -/
def Control.searching : Control α → Bool
  | .popNext _ | .popCas _ _ => true
  | _ => false

end Places

/-- `try_pop` is about to look at the head: at its start, or after a failed exchange. -/
def LoopHead (s : System α T) (a : Action α T) (t : T) : Prop :=
  (s.control t = .idle ∧ a.starts = true) ∨
    ((∃ cur next, s.control t = .popCas cur next) ∧ a.starts = false)

/-- What a step can do. -/
inductive StepSpec [DecidableEq T] (s : System α T) (a : Action α T) :
    StepResult α → System α T → Prop
  | startPush {t : T} {value : α} (hthread : a.thread = t) (ha : a.starts = true)
      (ht : s.control t = .idle) : StepSpec s a .running (s.startPush t value)
  | empty {t : T} (hthread : a.thread = t) (ht : LoopHead s a t) (hhead : s.head = none) :
      StepSpec s a .empty (s.setControl t .idle)
  | load {t : T} {cur : ℕ} (hthread : a.thread = t) (ht : LoopHead s a t)
      (hhead : s.head = some cur) : StepSpec s a .running (s.setControl t (.popNext cur))
  | link {t : T} {node : ℕ} {value : α} {cur : Option ℕ} (hthread : a.thread = t)
      (ha : a.starts = false) (ht : s.control t = .pushLink node value cur) :
      StepSpec s a .running { s.setControl t (.pushCas node value cur) with
        next := Function.update s.next node cur }
  | retry {t : T} {node : ℕ} {value : α} {cur : Option ℕ} (hthread : a.thread = t)
      (ha : a.starts = false) (ht : s.control t = .pushCas node value cur) :
      StepSpec s a .running (s.setControl t (.pushLink node value s.head))
  | push {t : T} {node : ℕ} {value : α} (hthread : a.thread = t) (ha : a.starts = false)
      (ht : s.control t = .pushCas node value s.head) :
      StepSpec s a (.pushed node value) { s.setControl t .idle with head := some node }
  | readNext {t : T} {cur : ℕ} (hthread : a.thread = t) (ha : a.starts = false)
      (ht : s.control t = .popNext cur) :
      StepSpec s a .running (s.setControl t (.popCas cur (s.next cur)))
  | fault {t : T} {node : ℕ} (hthread : a.thread = t) (ha : a.starts = false)
      (ht : s.control t = .popNext node ∨ s.control t = .popTake node)
      (hvalue : s.value node = none) : StepSpec s a .fault s
  | claim {t : T} {cur : ℕ} {next : Option ℕ} (hthread : a.thread = t) (ha : a.starts = false)
      (ht : s.control t = .popCas cur next) (hhead : s.head = some cur) :
      StepSpec s a (.claimed cur) { s.setControl t (.popTake cur) with head := next }
  | startRetire {t : T} {node : ℕ} {value : α} (hthread : a.thread = t) (ha : a.starts = false)
      (ht : s.control t = .popTake node) (hvalue : s.value node = some value) :
      StepSpec s a .running (s.startRetire t node value)
  | linkCell {t : T} {node : ℕ} {value : α} {cell : ℕ} {r : Option ℕ} (hthread : a.thread = t)
      (ha : a.starts = false) (ht : s.control t = .retireLink node value cell r) :
      StepSpec s a .running { s.setControl t (.retireCas node value cell r) with
        cellNext := Function.update s.cellNext cell r }
  | retryCell {t : T} {node : ℕ} {value : α} {cell : ℕ} {r : Option ℕ} (hthread : a.thread = t)
      (ha : a.starts = false) (ht : s.control t = .retireCas node value cell r) :
      StepSpec s a .running (s.setControl t (.retireLink node value cell s.retired))
  | retire {t : T} {node : ℕ} {value : α} {cell : ℕ} (hthread : a.thread = t)
      (ha : a.starts = false) (ht : s.control t = .retireCas node value cell s.retired) :
      StepSpec s a (.popped node value) { s.setControl t .idle with retired := some cell }

section Steps
variable [DecidableEq T] {s s' : System α T} {a : Action α T} {r : StepResult α} {t : T}

theorem System.popLoop_spec (hthread : a.thread = t) (ht : LoopHead s a t) :
    StepSpec s a (s.popLoop t).1 (s.popLoop t).2 := by
  unfold System.popLoop
  cases hhead : s.head with
  | none => exact .empty hthread ht hhead
  | some cur => exact .load hthread ht hhead

theorem System.proceed_spec {spurious : Bool} (h : s.proceed t spurious = some (r, s')) :
    StepSpec s (.proceed t spurious) r s' := by
  unfold System.proceed at h
  split at h
  case h_1 => cases h
  case h_2 node value cur ht =>
    cases h
    exact .link rfl rfl ht
  case h_3 node value cur ht =>
    split at h
    · cases h
      exact .retry rfl rfl ht
    · rename_i head hcas
      cases h
      obtain ⟨rfl, rfl⟩ := compareExchangeWeak_eq_some hcas
      exact .push rfl rfl ht
  case h_4 cur ht =>
    split at h
    · rename_i hvalue
      cases h
      exact .fault rfl rfl (Or.inl ht) hvalue
    · cases h
      exact .readNext rfl rfl ht
  case h_5 cur next ht =>
    split at h
    · have hspec := System.popLoop_spec (a := .proceed t spurious) (s := s) (t := t) rfl
        (Or.inr ⟨⟨cur, next, ht⟩, rfl⟩)
      rwa [Option.some.inj h] at hspec
    · rename_i head hcas
      cases h
      obtain ⟨hhead, rfl⟩ := compareExchangeWeak_eq_some hcas
      exact .claim rfl rfl ht hhead
  case h_6 node ht =>
    split at h
    · rename_i hvalue
      cases h
      exact .fault rfl rfl (Or.inr ht) hvalue
    · rename_i value hvalue
      cases h
      exact .startRetire rfl rfl ht hvalue
  case h_7 node value cell r ht =>
    cases h
    exact .linkCell rfl rfl ht
  case h_8 node value cell r ht =>
    split at h
    · cases h
      exact .retryCell rfl rfl ht
    · rename_i retired hcas
      cases h
      obtain ⟨rfl, rfl⟩ := compareExchangeWeak_eq_some hcas
      exact .retire rfl rfl ht

theorem System.step_spec (h : s.step a = some (r, s')) : StepSpec s a r s' := by
  cases a with
  | push t value =>
    simp only [System.step] at h
    split at h
    · rename_i ht
      cases h
      exact .startPush rfl rfl ht
    · cases h
  | tryPop t =>
    simp only [System.step] at h
    split at h
    · rename_i ht
      have hspec := System.popLoop_spec (a := .tryPop t) (s := s) (t := t) rfl (Or.inl ⟨ht, rfl⟩)
      rwa [Option.some.inj h] at hspec
    · cases h
  | proceed t spurious => exact System.proceed_spec h

end Steps

end HftExercises.LockFreeStack
