import Mathlib.Data.List.Chain
import Mathlib.Data.List.Nodup
import HftExercises.Core.Threads

/-! # The MCS queue lock

Each thread has a waiter of its own, so a waiter is named by its thread. A lock
exchanges the tail for its waiter and links itself behind the waiter it found
there; an unlock hands the lock to the waiter linked behind its own, or empties
the queue when there is none. The exchanges order the threads, and the links
follow that order one store later.
-/
namespace HftExercises.McsLock
variable {T : Type*}

/-- Where a thread is, with the pointer it has loaded. The last five are inside
`unlock`: the first look at the own link, the compare-exchange of the tail, the
wait for a successor, the load of the link that is dereferenced, and the store
through it. -/
inductive Control (T : Type*) where
  | idle
  | clearNext
  | arm
  | exchange
  | link (prev : T)
  | spin
  | critical
  | unlockLoad
  | unlockCas
  | unlockWait
  | unlockNext
  | handOff (next : Option T)
  deriving DecidableEq, Repr

structure System (T : Type*) where
  tail : Option T
  next : T → Option T
  locked : T → Bool
  control : T → Control T

def System.init : System T where
  tail := none
  next := fun _ => none
  locked := fun _ => true
  control := fun _ => .idle

inductive Action (T : Type*) where
  | lock (thread : T)
  | unlock (thread : T)
  | proceed (thread : T) (spurious : Bool)
  deriving DecidableEq, Repr

def Action.thread : Action T → T
  | .lock t => t
  | .unlock t => t
  | .proceed t _ => t

/-- `acquired` is an exchange that found the queue empty and is in at once,
`queued` one that is not; `entered` is the end of the spinning. -/
inductive StepResult where
  | running
  | queued
  | acquired
  | entered
  | released
  | nullDereference
  deriving DecidableEq, Repr

def System.setControl [DecidableEq T] (s : System T) (t : T) (c : Control T) : System T :=
  { s with control := Function.update s.control t c }

def System.step [DecidableEq T] (s : System T) : Action T → Option (StepResult × System T)
  | .lock t =>
    match s.control t with
    | .idle => some (.running, s.setControl t .clearNext)
    | _ => none
  | .unlock t =>
    match s.control t with
    | .critical => some (.running, s.setControl t .unlockLoad)
    | _ => none
  | .proceed t spurious =>
    match s.control t with
    | .idle | .critical => none
    | .clearNext =>
      some (.running, { s.setControl t .arm with next := Function.update s.next t none })
    | .arm =>
      some (.running, { s.setControl t .exchange with locked := Function.update s.locked t true })
    | .exchange =>
      match s.tail with
      | none => some (.acquired, { s.setControl t .critical with tail := some t })
      | some prev => some (.queued, { s.setControl t (.link prev) with tail := some t })
    | .link prev =>
      some (.running, { s.setControl t .spin with next := Function.update s.next prev (some t) })
    | .spin =>
      if s.locked t then some (.running, s) else some (.entered, s.setControl t .critical)
    | .unlockLoad =>
      match s.next t with
      | none => some (.running, s.setControl t .unlockCas)
      | some _ => some (.running, s.setControl t .unlockNext)
    | .unlockCas =>
      match compareExchangeWeak s.tail (some t) none spurious with
      | some tail => some (.released, { s.setControl t .idle with tail := tail })
      | none => some (.running, s.setControl t .unlockWait)
    | .unlockWait =>
      match s.next t with
      | none => some (.running, s)
      | some _ => some (.running, s.setControl t .unlockNext)
    | .unlockNext => some (.running, s.setControl t (.handOff (s.next t)))
    | .handOff none => some (.nullDereference, s)
    | .handOff (some succ) =>
      some (.released, { s.setControl t .idle with locked := Function.update s.locked succ false })

abbrev StepEvent (T : Type*) := Event (System T) (Action T) StepResult

def StepResult.exchanges : StepResult → Bool
  | .queued | .acquired => true
  | _ => false

def StepResult.enters : StepResult → Bool
  | .acquired | .entered => true
  | _ => false

/-- The threads in the order of their `tail_.exchange` steps. -/
def exchanged (es : List (StepEvent T)) : List T :=
  (es.filter fun e => e.result.exchanges).map fun e => e.call.thread

/-- The threads in the order in which they entered the critical section. -/
def entered (es : List (StepEvent T)) : List T :=
  (es.filter fun e => e.result.enters).map fun e => e.call.thread

/-- A thread between its exchange and the step that gives the lock up. -/
def Control.enqueued : Control T → Bool
  | .idle | .clearNext | .arm | .exchange => false
  | _ => true

/-- A thread that is enqueued and has not entered. -/
def Control.waiting : Control T → Bool
  | .link _ | .spin => true
  | _ => false

/-- A thread in its critical section or in the unlock that follows it. -/
def Control.holds (c : Control T) : Bool := c.enqueued && !c.waiting

/-- `b` is linked behind `a`, or still has that link to store. -/
def Linked (s : System T) (a b : T) : Prop :=
  s.next a = some b ∨ (s.next a = none ∧ s.control b = .link a)

/-- The enqueued waiters are one chain from the holder to the tail. -/
structure SingleChain (s : System T) (queue : List T) : Prop where
  distinct : queue.Nodup
  members : ∀ t, t ∈ queue ↔ (s.control t).enqueued = true
  holder : ∀ t, (s.control t).holds = true → queue.head? = some t
  tail : queue.getLast? = s.tail
  links : queue.IsChain (Linked s)
  end_null : ∀ t, s.tail = some t → s.next t = none

/-- What a step can do. `hold` is a move of the thread at the front that touches
no shared word. -/
inductive StepSpec [DecidableEq T] (s : System T) : Action T → StepResult → System T → Prop
  | stay {a : Action T} : StepSpec s a .running s
  | start {t : T} (ht : s.control t = .idle) :
      StepSpec s (.lock t) .running (s.setControl t .clearNext)
  | clear {t : T} {spurious : Bool} (ht : s.control t = .clearNext) :
      StepSpec s (.proceed t spurious) .running
        { s.setControl t .arm with next := Function.update s.next t none }
  | arm {t : T} {spurious : Bool} (ht : s.control t = .arm) :
      StepSpec s (.proceed t spurious) .running
        { s.setControl t .exchange with locked := Function.update s.locked t true }
  | acquire {t : T} {spurious : Bool} (ht : s.control t = .exchange) (htail : s.tail = none) :
      StepSpec s (.proceed t spurious) .acquired { s.setControl t .critical with tail := some t }
  | enqueue {t prev : T} {spurious : Bool} (ht : s.control t = .exchange)
      (htail : s.tail = some prev) :
      StepSpec s (.proceed t spurious) .queued { s.setControl t (.link prev) with tail := some t }
  | link {t prev : T} {spurious : Bool} (ht : s.control t = .link prev) :
      StepSpec s (.proceed t spurious) .running
        { s.setControl t .spin with next := Function.update s.next prev (some t) }
  | enter {t : T} {spurious : Bool} (ht : s.control t = .spin) (hl : s.locked t = false) :
      StepSpec s (.proceed t spurious) .entered (s.setControl t .critical)
  | hold {a : Action T} {c : Control T} (ht : (s.control a.thread).holds = true)
      (hc : c.holds = true)
      (hnext : c = .unlockNext → s.next a.thread ≠ none)
      (hhand : ∀ next, c = .handOff next →
        s.control a.thread = .unlockNext ∧ next = s.next a.thread)
      (hwait : c = .unlockWait → s.control a.thread = .unlockCas ∧
        (s.tail = some a.thread → a = .proceed a.thread true)) :
      StepSpec s a .running (s.setControl a.thread c)
  | empty {t : T} (ht : s.control t = .unlockCas) (htail : s.tail = some t) :
      StepSpec s (.proceed t false) .released { s.setControl t .idle with tail := none }
  | fault {t : T} {spurious : Bool} (ht : s.control t = .handOff none) :
      StepSpec s (.proceed t spurious) .nullDereference s
  | handOff {t succ : T} {spurious : Bool} (ht : s.control t = .handOff (some succ)) :
      StepSpec s (.proceed t spurious) .released
        { s.setControl t .idle with locked := Function.update s.locked succ false }

section Steps
variable [DecidableEq T] {s s' : System T} {a : Action T} {r : StepResult}

theorem System.step_spec (h : s.step a = some (r, s')) : StepSpec s a r s' := by
  cases a with
  | lock t =>
    simp only [System.step] at h
    split at h
    · rename_i ht
      cases h
      exact .start ht
    · cases h
  | unlock t =>
    simp only [System.step] at h
    split at h
    · rename_i ht
      cases h
      exact .hold (a := .unlock t) (c := .unlockLoad) (by rw [Action.thread, ht]; rfl) rfl nofun nofun nofun
    · cases h
  | proceed t spurious =>
    simp only [System.step] at h
    split at h
    · cases h
    · cases h
    · rename_i ht
      cases h
      exact .clear ht
    · rename_i ht
      cases h
      exact .arm ht
    · rename_i ht
      split at h
      · rename_i htail
        cases h
        exact .acquire ht htail
      · rename_i prev htail
        cases h
        exact .enqueue ht htail
    · rename_i prev ht
      cases h
      exact .link ht
    · rename_i ht
      split_ifs at h with hl
      · cases h
        exact .stay
      · cases h
        exact .enter ht (by simpa using hl)
    · rename_i ht
      split at h
      · cases h
        exact .hold (a := .proceed t spurious) (by rw [Action.thread, ht]; rfl) rfl nofun nofun nofun
      · rename_i succ hnext
        cases h
        exact .hold (a := .proceed t spurious) (by rw [Action.thread, ht]; rfl) rfl
          (fun _ => by rw [Action.thread, hnext]; exact nofun) nofun nofun
    · rename_i ht
      split at h
      · rename_i tail hcas
        cases h
        unfold compareExchangeWeak at hcas
        split_ifs at hcas with hc
        obtain ⟨htail, rfl⟩ := hc
        cases hcas
        exact .empty ht htail
      · rename_i hcas
        cases h
        refine .hold (a := .proceed t spurious) (by rw [Action.thread, ht]; rfl) rfl nofun nofun
          fun _ => ⟨ht, fun htail => ?_⟩
        unfold compareExchangeWeak at hcas
        split_ifs at hcas with hc
        have hspurious : spurious = true := by simpa [show s.tail = some t from htail] using hc
        rw [hspurious]
        rfl
    · rename_i ht
      split at h
      · cases h
        exact .stay
      · rename_i succ hnext
        cases h
        exact .hold (a := .proceed t spurious) (by rw [Action.thread, ht]; rfl) rfl
          (fun _ => by rw [Action.thread, hnext]; exact nofun) nofun nofun
    · rename_i ht
      cases h
      exact .hold (a := .proceed t spurious) (by rw [Action.thread, ht]; rfl) rfl nofun
        (fun _ heq => ⟨ht, (Control.handOff.inj heq).symm⟩) nofun
    · rename_i ht
      cases h
      exact .fault ht
    · rename_i succ ht
      cases h
      exact .handOff ht

end Steps

end HftExercises.McsLock
