import HftExercises.Core.ListFacts
import HftExercises.Core.Monitor

/-! # The serial executor

One worker takes tasks from a queue and runs them one after the other. Callers of
`drain` sleep on the condition variable of the worker. Taking and giving the mutex
and the notifications are steps of their own; what a critical section does is one
step. A task runs outside the mutex, and may submit further tasks.
-/
namespace HftExercises.SerialExecutor
variable {τ T : Type*}

inductive Party (T : Type*) where
  | worker
  | caller (thread : T)
  deriving DecidableEq, Repr

/-- Where a call is. The argument of `submitUnlock` says whether the task was
accepted, that of `pendingUnlock` is what the call has counted. `drainWait` is
inside `cv_.wait`, asleep or on the way back to the mutex. -/
inductive Call (τ : Type*) where
  | idle
  | submitLock (task : τ)
  | submitPush (task : τ)
  | submitUnlock (accepted : Bool)
  | submitNotify
  | drainLock
  | drainCheck
  | drainWait
  | drainUnlock
  | downLock
  | downSet
  | downUnlock
  | downNotify
  | downJoinable
  | downJoin
  | pendingLock
  | pendingRead
  | pendingUnlock (count : ℕ)
  deriving DecidableEq, Repr

/-- Where the worker is in its loop. `relocking` has run its task and waits for the
mutex; `checking`, `popped`, `finishing` and `leaving` hold it. -/
inductive Loop (τ : Type*) where
  | locking
  | checking
  | sleeping
  | popped (task : τ)
  | running (task : τ)
  | relocking (task : τ)
  | finishing (task : τ)
  | leaving
  | exited
  deriving DecidableEq, Repr

/-- `joined` says that `worker_` is not joinable any more. -/
structure System (τ : Type*) (T : Type*) where
  tasks : List τ
  inFlight : ℕ
  shuttingDown : Bool
  joined : Bool
  monitor : Monitor (Party T)
  call : Party T → Call τ
  loop : Loop τ

def System.init : System τ T where
  tasks := []
  inFlight := 0
  shuttingDown := false
  joined := false
  monitor := .init
  call := fun _ => .idle
  loop := .locking

/-- `proceed` is the next step of a call, `work` the next step of the worker's loop;
the choice of `proceed` is the sleeper that a `notify_one` wakes. -/
inductive Action (τ : Type*) (T : Type*) where
  | submit (party : Party T) (task : τ)
  | pending (party : Party T)
  | drain (thread : T)
  | shutdown (thread : T)
  | proceed (party : Party T) (choice : Option (Party T))
  | work
  | wake (party : Party T)
  deriving DecidableEq

/-- `finished` is the end of the task itself, `completed` the worker counting it
out. `returned` and `threw` end a submit, `drained`, `down` and `counted` the other
calls. -/
inductive StepResult (τ : Type*) where
  | silent
  | accepted (task : τ)
  | returned
  | threw (what : String)
  | took (task : τ)
  | started (task : τ)
  | finished (task : τ)
  | completed (task : τ)
  | drained
  | down
  | counted (count : ℕ)
  deriving DecidableEq, Repr

section Model
variable [DecidableEq T]

/-- Move a call, with the monitor as given. -/
def System.moveCall (s : System τ T) (p : Party T) (c : Call τ) (m : Monitor (Party T)) :
    System τ T :=
  { s with call := Function.update s.call p c, monitor := m }

/-- Move the worker, with the monitor as given. -/
def System.moveLoop (s : System τ T) (l : Loop τ) (m : Monitor (Party T)) : System τ T :=
  { s with loop := l, monitor := m }

/-- The worker calls only from inside the task it runs. -/
def System.mayCall (s : System τ T) : Party T → Bool
  | .caller _ => true
  | .worker =>
    match s.loop with
    | .running _ => true
    | _ => false

def System.begin (s : System τ T) (p : Party T) (c : Call τ) :
    Option (StepResult τ × System τ T) :=
  match s.call p with
  | .idle => if s.mayCall p then some (.silent, s.moveCall p c s.monitor) else none
  | _ => none

/-- A second `join` on the same thread object is undefined. -/
def System.stepCall (s : System τ T) (p : Party T) (choice : Option (Party T)) :
    Option (StepResult τ × System τ T) :=
  match s.call p with
  | .idle => none
  | .submitLock task =>
    (s.monitor.lock p).map fun m => (.silent, s.moveCall p (.submitPush task) m)
  | .submitPush task =>
    if s.shuttingDown then some (.silent, s.moveCall p (.submitUnlock false) s.monitor)
    else some (.accepted task,
      { s.moveCall p (.submitUnlock true) s.monitor with tasks := s.tasks ++ [task] })
  | .submitUnlock true => some (.silent, s.moveCall p .submitNotify s.monitor.unlock)
  | .submitUnlock false =>
    some (.threw "SerialExecutor is shutting down, cannot enqueue new tasks",
      s.moveCall p .idle s.monitor.unlock)
  | .submitNotify => (s.monitor.notifyOne choice).map fun m => (.returned, s.moveCall p .idle m)
  | .drainLock => (s.monitor.lock p).map fun m => (.silent, s.moveCall p .drainCheck m)
  | .drainCheck =>
    if s.tasks.isEmpty && s.inFlight == 0 then
      some (.silent, s.moveCall p .drainUnlock (s.monitor.checked p))
    else some (.silent, s.moveCall p .drainWait (s.monitor.sleep p))
  | .drainWait => (s.monitor.relock p).map fun m => (.silent, s.moveCall p .drainCheck m)
  | .drainUnlock => some (.drained, s.moveCall p .idle s.monitor.unlock)
  | .downLock => (s.monitor.lock p).map fun m => (.silent, s.moveCall p .downSet m)
  | .downSet =>
    some (.silent, { s.moveCall p .downUnlock s.monitor with shuttingDown := true })
  | .downUnlock => some (.silent, s.moveCall p .downNotify s.monitor.unlock)
  | .downNotify => some (.silent, s.moveCall p .downJoinable s.monitor.notifyAll)
  | .downJoinable =>
    if s.joined then some (.down, s.moveCall p .idle s.monitor)
    else some (.silent, s.moveCall p .downJoin s.monitor)
  | .downJoin =>
    if s.joined then none
    else
      match s.loop with
      | .exited => some (.down, { s.moveCall p .idle s.monitor with joined := true })
      | _ => none
  | .pendingLock => (s.monitor.lock p).map fun m => (.silent, s.moveCall p .pendingRead m)
  | .pendingRead =>
    some (.silent, s.moveCall p (.pendingUnlock (s.tasks.length + s.inFlight)) s.monitor)
  | .pendingUnlock count => some (.counted count, s.moveCall p .idle s.monitor.unlock)

/-- The task of the worker ends when no call it made is still running. -/
def System.stepLoop (s : System τ T) : Option (StepResult τ × System τ T) :=
  match s.loop with
  | .locking => (s.monitor.lock .worker).map fun m => (.silent, s.moveLoop .checking m)
  | .checking =>
    match s.tasks with
    | task :: rest =>
      some (.took task,
        { s.moveLoop (.popped task) (s.monitor.checked .worker) with
          tasks := rest, inFlight := s.inFlight + 1 })
    | [] =>
      if s.shuttingDown then some (.silent, s.moveLoop .leaving (s.monitor.checked .worker))
      else some (.silent, s.moveLoop .sleeping (s.monitor.sleep .worker))
  | .sleeping => (s.monitor.relock .worker).map fun m => (.silent, s.moveLoop .checking m)
  | .popped task => some (.started task, s.moveLoop (.running task) s.monitor.unlock)
  | .running task =>
    match s.call .worker with
    | .idle => some (.finished task, s.moveLoop (.relocking task) s.monitor)
    | _ => none
  | .relocking task =>
    (s.monitor.lock .worker).map fun m => (.silent, s.moveLoop (.finishing task) m)
  | .finishing task =>
    some (.completed task,
      { s.moveLoop .checking s.monitor.notifyAll with inFlight := s.inFlight - 1 })
  | .leaving => some (.silent, s.moveLoop .exited s.monitor.unlock)
  | .exited => none

def System.step (s : System τ T) : Action τ T → Option (StepResult τ × System τ T)
  | .submit p task => s.begin p (.submitLock task)
  | .pending p => s.begin p .pendingLock
  | .drain t => s.begin (.caller t) .drainLock
  | .shutdown t => s.begin (.caller t) .downLock
  | .proceed p choice => s.stepCall p choice
  | .work => s.stepLoop
  | .wake p => (s.monitor.stir p).map fun m => (.silent, { s with monitor := m })

end Model

abbrev StepEvent (τ : Type*) (T : Type*) := Event (System τ T) (Action τ T) (StepResult τ)

section History

def StepResult.accepted? : StepResult τ → Option τ
  | .accepted task => some task
  | _ => none

def StepResult.took? : StepResult τ → Option τ
  | .took task => some task
  | _ => none

def StepResult.started? : StepResult τ → Option τ
  | .started task => some task
  | _ => none

def StepResult.finished? : StepResult τ → Option τ
  | .finished task => some task
  | _ => none

def StepResult.completed? : StepResult τ → Option τ
  | .completed task => some task
  | _ => none

/-- The tasks in the order in which they were accepted. -/
def accepted (es : List (StepEvent τ T)) : List τ := es.filterMap fun e => e.result.accepted?

/-- The tasks in the order in which they were taken from the queue. -/
def taken (es : List (StepEvent τ T)) : List τ := es.filterMap fun e => e.result.took?

/-- The tasks in the order in which they were started. -/
def started (es : List (StepEvent τ T)) : List τ := es.filterMap fun e => e.result.started?

/-- The tasks in the order in which they ended. -/
def finished (es : List (StepEvent τ T)) : List τ := es.filterMap fun e => e.result.finished?

/-- The tasks in the order in which the worker counted them out. -/
def completed (es : List (StepEvent τ T)) : List τ := es.filterMap fun e => e.result.completed?

end History

/-- An enqueue between its `push_back` and its `notify_one`. -/
def Call.enqueuing : Call τ → Bool
  | .submitUnlock true | .submitNotify => true
  | _ => false

/-- Work is queued, the worker sleeps, and nobody is about to wake it. -/
def Stranded (s : System τ T) : Prop :=
  s.tasks ≠ [] ∧ Party.worker ∈ s.monitor.blocked ∧ ∀ p, (s.call p).enqueuing = false

/-- What a step can do, one rule for each place in the source. -/
inductive StepSpec [DecidableEq T] (s : System τ T) (a : Action τ T) :
    StepResult τ → System τ T → Prop
  | stir {p : Party T} {m : Monitor (Party T)} (hm : s.monitor.stir p = some m) :
      StepSpec s a .silent { s with monitor := m }
  | beginSubmit {p : Party T} {task : τ} (hp : s.call p = .idle) (hmay : s.mayCall p = true) :
      StepSpec s a .silent (s.moveCall p (.submitLock task) s.monitor)
  | beginPending {p : Party T} (hp : s.call p = .idle) (hmay : s.mayCall p = true) :
      StepSpec s a .silent (s.moveCall p .pendingLock s.monitor)
  | beginDrain {t : T} (hp : s.call (.caller t) = .idle) :
      StepSpec s a .silent (s.moveCall (.caller t) .drainLock s.monitor)
  | beginDown {t : T} (hp : s.call (.caller t) = .idle) :
      StepSpec s a .silent (s.moveCall (.caller t) .downLock s.monitor)
  | lockSubmit {p : Party T} {task : τ} {m : Monitor (Party T)} (hp : s.call p = .submitLock task)
      (hm : s.monitor.lock p = some m) : StepSpec s a .silent (s.moveCall p (.submitPush task) m)
  | push {p : Party T} {task : τ} (hp : s.call p = .submitPush task)
      (hflag : s.shuttingDown = false) :
      StepSpec s a (.accepted task)
        { s.moveCall p (.submitUnlock true) s.monitor with tasks := s.tasks ++ [task] }
  | refuse {p : Party T} {task : τ} (hp : s.call p = .submitPush task)
      (hflag : s.shuttingDown = true) :
      StepSpec s a .silent (s.moveCall p (.submitUnlock false) s.monitor)
  | unlockSubmit {p : Party T} (hp : s.call p = .submitUnlock true) :
      StepSpec s a .silent (s.moveCall p .submitNotify s.monitor.unlock)
  | unlockRefused {p : Party T} {what : String} (hp : s.call p = .submitUnlock false) :
      StepSpec s a (.threw what) (s.moveCall p .idle s.monitor.unlock)
  | notifyOne {p : Party T} {choice : Option (Party T)} {m : Monitor (Party T)}
      (ha : a = .proceed p choice) (hp : s.call p = .submitNotify)
      (hm : s.monitor.notifyOne choice = some m) :
      StepSpec s a .returned (s.moveCall p .idle m)
  | lockDrain {p : Party T} {m : Monitor (Party T)}
      (hp : s.call p = .drainLock ∨ s.call p = .drainWait) (hm : s.monitor.lock p = some m) :
      StepSpec s a .silent (s.moveCall p .drainCheck m)
  | drainDone {p : Party T} (hp : s.call p = .drainCheck) (htasks : s.tasks = [])
      (hflight : s.inFlight = 0) :
      StepSpec s a .silent (s.moveCall p .drainUnlock (s.monitor.checked p))
  | drainSleep {p : Party T} (hp : s.call p = .drainCheck) :
      StepSpec s a .silent (s.moveCall p .drainWait (s.monitor.sleep p))
  | unlockDrain {p : Party T} (hp : s.call p = .drainUnlock) :
      StepSpec s a .drained (s.moveCall p .idle s.monitor.unlock)
  | lockDown {p : Party T} {m : Monitor (Party T)} (hp : s.call p = .downLock)
      (hm : s.monitor.lock p = some m) : StepSpec s a .silent (s.moveCall p .downSet m)
  | setFlag {p : Party T} (hp : s.call p = .downSet) :
      StepSpec s a .silent { s.moveCall p .downUnlock s.monitor with shuttingDown := true }
  | unlockDown {p : Party T} (hp : s.call p = .downUnlock) :
      StepSpec s a .silent (s.moveCall p .downNotify s.monitor.unlock)
  | notifyAll {p : Party T} (hp : s.call p = .downNotify) :
      StepSpec s a .silent (s.moveCall p .downJoinable s.monitor.notifyAll)
  | notJoinable {p : Party T} (hp : s.call p = .downJoinable) (hjoined : s.joined = true) :
      StepSpec s a .down (s.moveCall p .idle s.monitor)
  | joinable {p : Party T} (hp : s.call p = .downJoinable) (hjoined : s.joined = false) :
      StepSpec s a .silent (s.moveCall p .downJoin s.monitor)
  | join {p : Party T} (hp : s.call p = .downJoin) (hl : s.loop = .exited) :
      StepSpec s a .down { s.moveCall p .idle s.monitor with joined := true }
  | lockPending {p : Party T} {m : Monitor (Party T)} (hp : s.call p = .pendingLock)
      (hm : s.monitor.lock p = some m) : StepSpec s a .silent (s.moveCall p .pendingRead m)
  | readPending {p : Party T} (hp : s.call p = .pendingRead) :
      StepSpec s a .silent
        (s.moveCall p (.pendingUnlock (s.tasks.length + s.inFlight)) s.monitor)
  | unlockPending {p : Party T} {count : ℕ} (hp : s.call p = .pendingUnlock count) :
      StepSpec s a (.counted count) (s.moveCall p .idle s.monitor.unlock)
  | lockLoop {m : Monitor (Party T)} (hl : s.loop = .locking ∨ s.loop = .sleeping)
      (hm : s.monitor.lock .worker = some m) : StepSpec s a .silent (s.moveLoop .checking m)
  | take {task : τ} {rest : List τ} (hl : s.loop = .checking) (htasks : s.tasks = task :: rest) :
      StepSpec s a (.took task)
        { s.moveLoop (.popped task) (s.monitor.checked .worker) with
          tasks := rest, inFlight := s.inFlight + 1 }
  | leave (hl : s.loop = .checking) (htasks : s.tasks = []) (hflag : s.shuttingDown = true) :
      StepSpec s a .silent (s.moveLoop .leaving (s.monitor.checked .worker))
  | sleep (hl : s.loop = .checking) (htasks : s.tasks = []) (hflag : s.shuttingDown = false) :
      StepSpec s a .silent (s.moveLoop .sleeping (s.monitor.sleep .worker))
  | start {task : τ} (hl : s.loop = .popped task) :
      StepSpec s a (.started task) (s.moveLoop (.running task) s.monitor.unlock)
  | finish {task : τ} (hl : s.loop = .running task) (hidle : s.call .worker = .idle) :
      StepSpec s a (.finished task) (s.moveLoop (.relocking task) s.monitor)
  | relock {task : τ} {m : Monitor (Party T)} (hl : s.loop = .relocking task)
      (hm : s.monitor.lock .worker = some m) :
      StepSpec s a .silent (s.moveLoop (.finishing task) m)
  | complete {task : τ} (hl : s.loop = .finishing task) :
      StepSpec s a (.completed task)
        { s.moveLoop .checking s.monitor.notifyAll with inFlight := s.inFlight - 1 }
  | exit (hl : s.loop = .leaving) :
      StepSpec s a .silent (s.moveLoop .exited s.monitor.unlock)

section Steps
variable [DecidableEq T] {s s' : System τ T} {a : Action τ T} {r : StepResult τ}

theorem System.begin_eq_some {p : Party T} {c : Call τ} (h : s.begin p c = some (r, s')) :
    s.call p = .idle ∧ s.mayCall p = true ∧ r = .silent ∧ s' = s.moveCall p c s.monitor := by
  unfold System.begin at h
  split at h
  · rename_i hp
    split_ifs at h with hmay
    cases h
    exact ⟨hp, hmay, rfl, rfl⟩
  · cases h

theorem System.stepCall_spec {p : Party T} {choice : Option (Party T)}
    (h : s.stepCall p choice = some (r, s')) : StepSpec s (.proceed p choice) r s' := by
  unfold System.stepCall at h
  split at h
  case h_1 => cases h
  case h_2 task hp =>
    obtain ⟨m, hm, heq⟩ := Option.map_eq_some_iff.mp h
    cases heq
    exact .lockSubmit hp hm
  case h_3 task hp =>
    split_ifs at h with hflag
    · cases h
      exact .refuse hp hflag
    · cases h
      exact .push hp (by simpa using hflag)
  case h_4 hp =>
    cases h
    exact .unlockSubmit hp
  case h_5 hp =>
    cases h
    exact .unlockRefused hp
  case h_6 hp =>
    obtain ⟨m, hm, heq⟩ := Option.map_eq_some_iff.mp h
    cases heq
    exact .notifyOne rfl hp hm
  case h_7 hp =>
    obtain ⟨m, hm, heq⟩ := Option.map_eq_some_iff.mp h
    cases heq
    exact .lockDrain (Or.inl hp) hm
  case h_8 hp =>
    split_ifs at h with hdone
    · cases h
      obtain ⟨htasks, hflight⟩ := Bool.and_eq_true_iff.mp hdone
      exact .drainDone hp (List.isEmpty_iff.mp htasks) (beq_iff_eq.mp hflight)
    · cases h
      exact .drainSleep hp
  case h_9 hp =>
    obtain ⟨m, hm, heq⟩ := Option.map_eq_some_iff.mp h
    cases heq
    exact .lockDrain (Or.inr hp) (Monitor.relock_eq_some hm).2
  case h_10 hp =>
    cases h
    exact .unlockDrain hp
  case h_11 hp =>
    obtain ⟨m, hm, heq⟩ := Option.map_eq_some_iff.mp h
    cases heq
    exact .lockDown hp hm
  case h_12 hp =>
    cases h
    exact .setFlag hp
  case h_13 hp =>
    cases h
    exact .unlockDown hp
  case h_14 hp =>
    cases h
    exact .notifyAll hp
  case h_15 hp =>
    split_ifs at h with hjoined
    · cases h
      exact .notJoinable hp hjoined
    · cases h
      exact .joinable hp (by simpa using hjoined)
  case h_16 hp =>
    split_ifs at h
    split at h
    · rename_i hl
      cases h
      exact .join hp hl
    · cases h
  case h_17 hp =>
    obtain ⟨m, hm, heq⟩ := Option.map_eq_some_iff.mp h
    cases heq
    exact .lockPending hp hm
  case h_18 hp =>
    cases h
    exact .readPending hp
  case h_19 count hp =>
    cases h
    exact .unlockPending hp

theorem System.stepLoop_spec (h : s.stepLoop = some (r, s')) : StepSpec s .work r s' := by
  unfold System.stepLoop at h
  split at h
  case h_1 hl =>
    obtain ⟨m, hm, heq⟩ := Option.map_eq_some_iff.mp h
    cases heq
    exact .lockLoop (Or.inl hl) hm
  case h_2 hl =>
    split at h
    · rename_i task rest htasks
      cases h
      exact .take hl htasks
    · rename_i htasks
      split_ifs at h with hflag
      · cases h
        exact .leave hl htasks hflag
      · cases h
        exact .sleep hl htasks (by simpa using hflag)
  case h_3 hl =>
    obtain ⟨m, hm, heq⟩ := Option.map_eq_some_iff.mp h
    cases heq
    exact .lockLoop (Or.inr hl) (Monitor.relock_eq_some hm).2
  case h_4 task hl =>
    cases h
    exact .start hl
  case h_5 task hl =>
    split at h
    · rename_i hidle
      cases h
      exact .finish hl hidle
    · cases h
  case h_6 task hl =>
    obtain ⟨m, hm, heq⟩ := Option.map_eq_some_iff.mp h
    cases heq
    exact .relock hl hm
  case h_7 task hl =>
    cases h
    exact .complete hl
  case h_8 hl =>
    cases h
    exact .exit hl
  case h_9 => cases h

theorem System.step_spec (h : s.step a = some (r, s')) : StepSpec s a r s' := by
  cases a with
  | submit p task =>
    obtain ⟨hp, hmay, rfl, rfl⟩ := System.begin_eq_some h
    exact .beginSubmit hp hmay
  | pending p =>
    obtain ⟨hp, hmay, rfl, rfl⟩ := System.begin_eq_some h
    exact .beginPending hp hmay
  | drain t =>
    obtain ⟨hp, _, rfl, rfl⟩ := System.begin_eq_some h
    exact .beginDrain hp
  | shutdown t =>
    obtain ⟨hp, _, rfl, rfl⟩ := System.begin_eq_some h
    exact .beginDown hp
  | proceed p choice => exact System.stepCall_spec h
  | work => exact System.stepLoop_spec h
  | wake p =>
    obtain ⟨m, hm, heq⟩ := Option.map_eq_some_iff.mp h
    cases heq
    exact .stir hm

end Steps

end HftExercises.SerialExecutor
