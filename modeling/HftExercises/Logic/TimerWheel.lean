import Mathlib.Data.Finset.Basic
import Mathlib.Data.Int.Notation
import HftExercises.Core.Execution

/-! # The timer wheel

A tick first moves the due timers out of the queue and then runs their callbacks
one after the other. What a callback does is up to its owner: while one is
running, any number of `schedule` and `cancel` calls may come, and the wheel goes
on when it returns. A run of the wheel is therefore a list of calls in which each
`proceed` is one iteration of the loop over the due timers.
-/
namespace HftExercises.Timers

/-- Identifiers and sequence numbers are counters that are never exhausted. The
callback is what its owner does while it runs. -/
structure Timer where
  deadline : ℤ
  seq : ℕ
  id : ℕ
  deriving DecidableEq, Repr

/-- `a` leaves the queue after `b`. -/
def timerCmp (a b : Timer) : Bool :=
  if a.deadline ≠ b.deadline then decide (a.deadline > b.deadline) else decide (a.seq > b.seq)

/-- The priority queue is kept in the order in which it is popped. -/
def push (t : Timer) : List Timer → List Timer
  | [] => [t]
  | x :: pq => if timerCmp x t then t :: x :: pq else x :: push t pq

/-- Whose code runs: the program's, the loop's in `tick`, or that of a callback
started from the loop, with the due timers still ahead of the loop. -/
inductive Control where
  | idle
  | walking (due : List Timer)
  | calling (due : List Timer)
  deriving DecidableEq, Repr

structure Wheel where
  now : ℤ
  nextId : ℕ
  seq : ℕ
  pq : List Timer
  pending : Finset ℕ
  done : Finset ℕ
  control : Control

def Wheel.init : Wheel := ⟨0, 0, 0, [], ∅, ∅, .idle⟩

inductive Call where
  | schedule (delay : ℤ)
  | cancel (id : ℕ)
  | tick (now : ℤ)
  | proceed
  deriving DecidableEq, Repr

inductive Result where
  | scheduled (id : ℕ)
  | cancelled (ok : Bool)
  | begun
  | skipped (id : ℕ)
  | fired (timer : Timer)
  | returned
  deriving DecidableEq, Repr

def Wheel.schedule (w : Wheel) (delay : ℤ) : Result × Wheel :=
  let id := w.nextId + 1
  let deadline := w.now + delay
  (.scheduled id, { w with
    nextId := id
    seq := w.seq + 1
    pq := push ⟨deadline, w.seq, id⟩ w.pq
    pending := insert id w.pending })

def Wheel.cancel (w : Wheel) (id : ℕ) : Result × Wheel :=
  if id ∉ w.pending then (.cancelled false, w)
  else (.cancelled true, { w with pending := w.pending.erase id, done := insert id w.done })

/-- The first half of `tick`, up to the snapshot of the due timers. -/
def Wheel.beginTick (w : Wheel) (now : ℤ) : Result × Wheel :=
  let now := if now < w.now then w.now else now
  (.begun, { w with
    now := now
    pq := w.pq.dropWhile (fun t => decide (t.deadline ≤ now))
    control := .walking (w.pq.takeWhile (fun t => decide (t.deadline ≤ now))) })

/-- One iteration of the loop over the due timers, or its end. -/
def Wheel.walk (w : Wheel) : List Timer → Result × Wheel
  | [] => (.returned, { w with control := .idle })
  | t :: due =>
    if t.id ∈ w.done then (.skipped t.id, { w with control := .walking due })
    else (.fired t, { w with
      pending := w.pending.erase t.id
      done := insert t.id w.done
      control := .calling due })

/-- Callbacks may schedule and cancel but not tick. -/
def Wheel.step (w : Wheel) : Call → Option (Result × Wheel)
  | .schedule delay =>
    match w.control with
    | .walking _ => none
    | _ => some (w.schedule delay)
  | .cancel id =>
    match w.control with
    | .walking _ => none
    | _ => some (w.cancel id)
  | .tick now =>
    match w.control with
    | .idle => some (w.beginTick now)
    | _ => none
  | .proceed =>
    match w.control with
    | .idle => none
    | .walking due => some (w.walk due)
    | .calling due => some (w.walk due)

abbrev CallEvent := Event Wheel Call Result

def Control.due : Control → List Timer
  | .idle => []
  | .walking due => due
  | .calling due => due

/-- What a step can do. -/
inductive StepSpec (w : Wheel) : Call → Result → Wheel → Prop
  | schedule {delay : ℤ} : StepSpec w (.schedule delay) (.scheduled (w.nextId + 1)) { w with
      nextId := w.nextId + 1
      seq := w.seq + 1
      pq := push ⟨w.now + delay, w.seq, w.nextId + 1⟩ w.pq
      pending := insert (w.nextId + 1) w.pending }
  | miss {id : ℕ} (hid : id ∉ w.pending) : StepSpec w (.cancel id) (.cancelled false) w
  | cancel {id : ℕ} (hid : id ∈ w.pending) : StepSpec w (.cancel id) (.cancelled true) { w with
      pending := w.pending.erase id
      done := insert id w.done }
  | tick {now : ℤ} (hidle : w.control.due = []) : StepSpec w (.tick now) .begun { w with
      now := max w.now now
      pq := w.pq.dropWhile (fun t => decide (t.deadline ≤ max w.now now))
      control := .walking (w.pq.takeWhile (fun t => decide (t.deadline ≤ max w.now now))) }
  | finish (hdue : w.control.due = []) : StepSpec w .proceed .returned { w with control := .idle }
  | skip {t : Timer} {due : List Timer} (hdue : w.control.due = t :: due) (hdone : t.id ∈ w.done) :
      StepSpec w .proceed (.skipped t.id) { w with control := .walking due }
  | fire {t : Timer} {due : List Timer} (hdue : w.control.due = t :: due) (hdone : t.id ∉ w.done) :
      StepSpec w .proceed (.fired t) { w with
        pending := w.pending.erase t.id
        done := insert t.id w.done
        control := .calling due }

theorem StepSpec.of_schedule {w w' : Wheel} {delay : ℤ} {res : Result}
    (h : StepSpec w (.schedule delay) res w') : res = .scheduled (w.nextId + 1) ∧
      w' = { w with
        nextId := w.nextId + 1
        seq := w.seq + 1
        pq := push ⟨w.now + delay, w.seq, w.nextId + 1⟩ w.pq
        pending := insert (w.nextId + 1) w.pending } := by
  cases h
  exact ⟨rfl, rfl⟩

theorem Wheel.cancel_spec (w : Wheel) (id : ℕ) :
    StepSpec w (.cancel id) (w.cancel id).1 (w.cancel id).2 := by
  unfold Wheel.cancel
  split_ifs with hid
  · exact .cancel hid
  · exact .miss hid

theorem Wheel.beginTick_spec {w : Wheel} (now : ℤ) (hidle : w.control = .idle) :
    StepSpec w (.tick now) (w.beginTick now).1 (w.beginTick now).2 := by
  have hmax : (if now < w.now then w.now else now) = max w.now now := by
    split_ifs with hlt
    · rw [max_eq_left (Int.le_of_lt hlt)]
    · rw [max_eq_right (not_lt.mp hlt)]
  unfold Wheel.beginTick
  dsimp only
  rw [hmax]
  exact .tick (by rw [hidle]; rfl)

theorem Wheel.walk_spec {w : Wheel} {due : List Timer} (hdue : w.control.due = due) :
    StepSpec w .proceed (w.walk due).1 (w.walk due).2 := by
  cases due with
  | nil => exact .finish hdue
  | cons t due =>
    simp only [Wheel.walk]
    split_ifs with hdone
    · exact .skip hdue hdone
    · exact .fire hdue hdone

theorem Wheel.step_spec {w w' : Wheel} {c : Call} {r : Result}
    (h : w.step c = some (r, w')) : StepSpec w c r w' := by
  cases c with
  | schedule delay =>
    simp only [Wheel.step] at h
    split at h
    · cases h
    · cases h
      exact .schedule
  | cancel id =>
    simp only [Wheel.step] at h
    split at h
    · cases h
    · have hspec := w.cancel_spec id
      rwa [Option.some.inj h] at hspec
  | tick now =>
    simp only [Wheel.step] at h
    split at h
    · rename_i hidle
      have hspec := Wheel.beginTick_spec now hidle
      rwa [Option.some.inj h] at hspec
    · cases h
  | proceed =>
    simp only [Wheel.step] at h
    split at h
    · cases h
    · rename_i due hcontrol
      have hdue : w.control.due = due := by rw [hcontrol]; rfl
      have hspec := Wheel.walk_spec hdue
      rwa [Option.some.inj h] at hspec
    · rename_i due hcontrol
      have hdue : w.control.due = due := by rw [hcontrol]; rfl
      have hspec := Wheel.walk_spec hdue
      rwa [Option.some.inj h] at hspec

/-- The running maximum of the tick arguments, from `c` on. -/
def clockFrom (c : ℤ) (es : List CallEvent) : ℤ :=
  es.foldl (fun c e => match e.call with
    | .tick now => max c now
    | _ => c) c

/-- The effective time after these calls. -/
def clock (es : List CallEvent) : ℤ := clockFrom 0 es

def isTick (e : CallEvent) : Bool :=
  match e.call with
  | .tick _ => true
  | _ => false

/-- The calls from the first tick on whose effective time reaches `d`. -/
def sinceDue (d c : ℤ) : List CallEvent → Option (List CallEvent)
  | [] => none
  | e :: es =>
    match e.call with
    | .tick now => if d ≤ max c now then some (e :: es) else sinceDue d (max c now) es
    | _ => sinceDue d c es

/-- The first call and what follows it up to the next tick. -/
def thisTick : List CallEvent → List CallEvent
  | [] => []
  | e :: es => e :: es.takeWhile (fun x => !isTick x)

def scheduled? (e : CallEvent) : Option ℕ :=
  match e.result with
  | .scheduled id => some id
  | _ => none

def fired? (e : CallEvent) : Option Timer :=
  match e.result with
  | .fired t => some t
  | _ => none

/-- The timer of a cancel that returned true. -/
def cancelled? (e : CallEvent) : Option ℕ :=
  match e.call, e.result with
  | .cancel id, .cancelled true => some id
  | _, _ => none

def issued (es : List CallEvent) : List ℕ := es.filterMap scheduled?

/-- The timers whose callbacks ran, in order. -/
def firings (es : List CallEvent) : List Timer := es.filterMap fired?

def firedIds (es : List CallEvent) : List ℕ := (firings es).map Timer.id

def cancelledIds (es : List CallEvent) : List ℕ := es.filterMap cancelled?

/-- The timer made by one of the schedule calls. -/
def Scheduled (es : List CallEvent) (t : Timer) : Prop :=
  ∃ h e r delay, es = h ++ e :: r ∧ e.call = .schedule delay ∧ e.result = .scheduled t.id ∧
    t.seq + 1 = t.id ∧ t.deadline = clock h + delay

/-- Earlier by deadline, then by schedule order. -/
def before (a b : Timer) : Prop :=
  a.deadline < b.deadline ∨ (a.deadline = b.deadline ∧ a.seq < b.seq)

end HftExercises.Timers
