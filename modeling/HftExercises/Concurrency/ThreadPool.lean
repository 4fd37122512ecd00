import Mathlib.Data.List.FinRange
import HftExercises.Core.ListFacts
import HftExercises.Core.Monitor

/-! # The thread pool

A queue of tasks and a shutdown flag under one mutex, with a condition variable
for the workers. Taking and giving the mutex are steps of their own, and so are
the notifications, which come after the mutex is free again; what a critical
section does is one step, since nobody else can look in between. A task may
submit further tasks from the worker that runs it.
-/
namespace HftExercises.ThreadPool
variable {τ T : Type*} {n : ℕ}

/-- The pool always has a worker. -/
def workerCount (nThreads : ℕ) : ℕ := if 0 < nThreads then nThreads else 1

theorem workerCount_pos (nThreads : ℕ) : 0 < workerCount nThreads := by
  unfold workerCount
  split_ifs with h
  · exact h
  · exact Nat.one_pos

/-- Who takes steps: a worker of the pool, or a thread that calls it. -/
inductive Party (n : ℕ) (T : Type*) where
  | worker (i : Fin n)
  | caller (thread : T)
  deriving DecidableEq, Repr

/-- Where a call of `submit` or `shutdown` is. The argument of `submitUnlock` and
`downUnlock` says whether the call goes on after it gives the mutex back. -/
inductive Call (τ : Type*) (n : ℕ) where
  | idle
  | submitLock (task : τ)
  | submitPush (task : τ)
  | submitUnlock (accepted : Bool)
  | submitNotify
  | downLock
  | downSet
  | downUnlock (first : Bool)
  | downNotify
  | downJoin (remaining : List (Fin n))
  deriving DecidableEq, Repr

/-- Where a worker is in its loop. `sleeping` is inside `cv_.wait`, asleep or on
the way back to the mutex; `popped` and `leaving` still hold the mutex. -/
inductive Loop (τ : Type*) where
  | locking
  | checking
  | sleeping
  | popped (task : τ)
  | running (task : τ)
  | leaving
  | exited
  deriving DecidableEq, Repr

structure System (τ : Type*) (n : ℕ) (T : Type*) where
  tasks : List τ
  shuttingDown : Bool
  monitor : Monitor (Party n T)
  call : Party n T → Call τ n
  loop : Fin n → Loop τ

def System.init : System τ n T where
  tasks := []
  shuttingDown := false
  monitor := .init
  call := fun _ => .idle
  loop := fun _ => .locking

/-- `proceed` is the next step of a call, `work` the next step of a worker's loop;
the choice of `proceed` is the sleeper that a `notify_one` wakes. -/
inductive Action (τ : Type*) (n : ℕ) (T : Type*) where
  | submit (party : Party n T) (task : τ)
  | shutdown (thread : T)
  | proceed (party : Party n T) (choice : Option (Party n T))
  | work (i : Fin n)
  | wake (party : Party n T)
  deriving DecidableEq

/-- `returned` ends an accepted submit and `threw` a rejected one; `joined` ends
the shutdown that set the flag and `alreadyDown` any other one. -/
inductive StepResult (τ : Type*) where
  | silent
  | accepted (task : τ)
  | returned
  | threw (what : String)
  | took (task : τ)
  | started (task : τ)
  | completed (task : τ)
  | joined
  | alreadyDown
  deriving DecidableEq, Repr

section Model
variable [DecidableEq T]

/-- Move a call, with the monitor as given. -/
def System.moveCall (s : System τ n T) (p : Party n T) (c : Call τ n)
    (m : Monitor (Party n T)) : System τ n T :=
  { s with call := Function.update s.call p c, monitor := m }

/-- Move a worker, with the monitor as given. -/
def System.moveLoop (s : System τ n T) (i : Fin n) (l : Loop τ) (m : Monitor (Party n T)) :
    System τ n T :=
  { s with loop := Function.update s.loop i l, monitor := m }

/-- A worker calls only from inside the task it runs. -/
def System.mayCall (s : System τ n T) : Party n T → Bool
  | .caller _ => true
  | .worker i =>
    match s.loop i with
    | .running _ => true
    | _ => false

def System.begin (s : System τ n T) (p : Party n T) (c : Call τ n) :
    Option (StepResult τ × System τ n T) :=
  match s.call p with
  | .idle => if s.mayCall p then some (.silent, s.moveCall p c s.monitor) else none
  | _ => none

def System.stepCall (s : System τ n T) (p : Party n T) (choice : Option (Party n T)) :
    Option (StepResult τ × System τ n T) :=
  match s.call p with
  | .idle => none
  | .submitLock task =>
    (s.monitor.lock p).map fun m => (.silent, s.moveCall p (.submitPush task) m)
  | .submitPush task =>
    if s.shuttingDown then some (.silent, s.moveCall p (.submitUnlock false) s.monitor)
    else some (.accepted task,
      { s.moveCall p (.submitUnlock true) s.monitor with tasks := s.tasks ++ [task] })
  | .submitUnlock true => some (.silent, s.moveCall p .submitNotify s.monitor.unlock)
  | .submitUnlock false =>
    some (.threw "ThreadPool::submit: pool is shut down", s.moveCall p .idle s.monitor.unlock)
  | .submitNotify => (s.monitor.notifyOne choice).map fun m => (.returned, s.moveCall p .idle m)
  | .downLock => (s.monitor.lock p).map fun m => (.silent, s.moveCall p .downSet m)
  | .downSet =>
    if s.shuttingDown then some (.silent, s.moveCall p (.downUnlock false) s.monitor)
    else some (.silent, { s.moveCall p (.downUnlock true) s.monitor with shuttingDown := true })
  | .downUnlock true => some (.silent, s.moveCall p .downNotify s.monitor.unlock)
  | .downUnlock false => some (.alreadyDown, s.moveCall p .idle s.monitor.unlock)
  | .downNotify =>
    some (.silent, s.moveCall p (.downJoin (List.finRange n)) s.monitor.notifyAll)
  | .downJoin [] => some (.joined, s.moveCall p .idle s.monitor)
  | .downJoin (i :: remaining) =>
    match s.loop i with
    | .exited => some (.silent, s.moveCall p (.downJoin remaining) s.monitor)
    | _ => none

/-- The task of a worker ends when no call it made is still running. -/
def System.stepLoop (s : System τ n T) (i : Fin n) : Option (StepResult τ × System τ n T) :=
  match s.loop i with
  | .locking => (s.monitor.lock (.worker i)).map fun m => (.silent, s.moveLoop i .checking m)
  | .checking =>
    if s.shuttingDown || !s.tasks.isEmpty then
      if s.shuttingDown && s.tasks.isEmpty then
        some (.silent, s.moveLoop i .leaving (s.monitor.checked (.worker i)))
      else
        match s.tasks with
        | [] => some (.silent, s.moveLoop i .locking (s.monitor.checked (.worker i)).unlock)
        | task :: rest =>
          some (.took task,
            { s.moveLoop i (.popped task) (s.monitor.checked (.worker i)) with tasks := rest })
    else some (.silent, s.moveLoop i .sleeping (s.monitor.sleep (.worker i)))
  | .sleeping =>
    (s.monitor.relock (.worker i)).map fun m => (.silent, s.moveLoop i .checking m)
  | .popped task => some (.started task, s.moveLoop i (.running task) s.monitor.unlock)
  | .running task =>
    match s.call (.worker i) with
    | .idle => some (.completed task, s.moveLoop i .locking s.monitor)
    | _ => none
  | .leaving => some (.silent, s.moveLoop i .exited s.monitor.unlock)
  | .exited => none

def System.step (s : System τ n T) : Action τ n T → Option (StepResult τ × System τ n T)
  | .submit p task => s.begin p (.submitLock task)
  | .shutdown t => s.begin (.caller t) .downLock
  | .proceed p choice => s.stepCall p choice
  | .work i => s.stepLoop i
  | .wake p => (s.monitor.stir p).map fun m => (.silent, { s with monitor := m })

end Model

abbrev StepEvent (τ : Type*) (n : ℕ) (T : Type*) :=
  Event (System τ n T) (Action τ n T) (StepResult τ)

section History

def StepResult.accepted? : StepResult τ → Option τ
  | .accepted task => some task
  | _ => none

def StepResult.took? : StepResult τ → Option τ
  | .took task => some task
  | _ => none

def StepResult.started? : StepResult τ → Option τ
  | .started task => some task
  | _ => none

def StepResult.completed? : StepResult τ → Option τ
  | .completed task => some task
  | _ => none

/-- The tasks in the order in which they were accepted. -/
def accepted (es : List (StepEvent τ n T)) : List τ := es.filterMap fun e => e.result.accepted?

/-- The tasks in the order in which they were taken from the queue. -/
def taken (es : List (StepEvent τ n T)) : List τ := es.filterMap fun e => e.result.took?

/-- The tasks in the order in which they were started. -/
def started (es : List (StepEvent τ n T)) : List τ := es.filterMap fun e => e.result.started?

/-- The tasks in the order in which they ended. -/
def completed (es : List (StepEvent τ n T)) : List τ := es.filterMap fun e => e.result.completed?

end History

/-- A call between its update of the shared state and its notification. -/
def Call.pending : Call τ n → Bool
  | .submitUnlock true | .submitNotify | .downUnlock true | .downNotify => true
  | _ => false

/-- Work is queued, every worker sleeps, and nobody is about to wake one. -/
def Stranded (s : System τ n T) : Prop :=
  s.tasks ≠ [] ∧ (∀ i, Party.worker i ∈ s.monitor.blocked) ∧ ∀ p, (s.call p).pending = false

/-- What a step can do, one rule for each place in the source. -/
inductive StepSpec [DecidableEq T] (s : System τ n T) (a : Action τ n T) :
    StepResult τ → System τ n T → Prop
  | stir {p : Party n T} {m : Monitor (Party n T)} (hm : s.monitor.stir p = some m) :
      StepSpec s a .silent { s with monitor := m }
  | beginSubmit {p : Party n T} {task : τ} (hp : s.call p = .idle) :
      StepSpec s a .silent (s.moveCall p (.submitLock task) s.monitor)
  | beginDown {t : T} (hp : s.call (.caller t) = .idle) :
      StepSpec s a .silent (s.moveCall (.caller t) .downLock s.monitor)
  | lockSubmit {p : Party n T} {task : τ} {m : Monitor (Party n T)}
      (hp : s.call p = .submitLock task) (hm : s.monitor.lock p = some m) :
      StepSpec s a .silent (s.moveCall p (.submitPush task) m)
  | push {p : Party n T} {task : τ} (hp : s.call p = .submitPush task)
      (hflag : s.shuttingDown = false) :
      StepSpec s a (.accepted task)
        { s.moveCall p (.submitUnlock true) s.monitor with tasks := s.tasks ++ [task] }
  | refuse {p : Party n T} {task : τ} (hp : s.call p = .submitPush task)
      (hflag : s.shuttingDown = true) :
      StepSpec s a .silent (s.moveCall p (.submitUnlock false) s.monitor)
  | unlockSubmit {p : Party n T} (hp : s.call p = .submitUnlock true) :
      StepSpec s a .silent (s.moveCall p .submitNotify s.monitor.unlock)
  | unlockRefused {p : Party n T} {what : String} (hp : s.call p = .submitUnlock false) :
      StepSpec s a (.threw what) (s.moveCall p .idle s.monitor.unlock)
  | notifyOne {p : Party n T} {choice : Option (Party n T)} {m : Monitor (Party n T)}
      (hp : s.call p = .submitNotify) (hm : s.monitor.notifyOne choice = some m) :
      StepSpec s a .returned (s.moveCall p .idle m)
  | lockDown {p : Party n T} {m : Monitor (Party n T)} (hp : s.call p = .downLock)
      (hm : s.monitor.lock p = some m) : StepSpec s a .silent (s.moveCall p .downSet m)
  | setFlag {p : Party n T} (hp : s.call p = .downSet) (hflag : s.shuttingDown = false) :
      StepSpec s a .silent
        { s.moveCall p (.downUnlock true) s.monitor with shuttingDown := true }
  | findFlag {p : Party n T} {choice : Option (Party n T)} (ha : a = .proceed p choice)
      (hp : s.call p = .downSet) (hflag : s.shuttingDown = true) :
      StepSpec s a .silent (s.moveCall p (.downUnlock false) s.monitor)
  | unlockDown {p : Party n T} (hp : s.call p = .downUnlock true) :
      StepSpec s a .silent (s.moveCall p .downNotify s.monitor.unlock)
  | unlockEarly {p : Party n T} (hp : s.call p = .downUnlock false) :
      StepSpec s a .alreadyDown (s.moveCall p .idle s.monitor.unlock)
  | notifyAll {p : Party n T} (hp : s.call p = .downNotify) :
      StepSpec s a .silent (s.moveCall p (.downJoin (List.finRange n)) s.monitor.notifyAll)
  | joinOne {p : Party n T} {i : Fin n} {remaining : List (Fin n)}
      (hp : s.call p = .downJoin (i :: remaining)) (hi : s.loop i = .exited) :
      StepSpec s a .silent (s.moveCall p (.downJoin remaining) s.monitor)
  | joined {p : Party n T} (hp : s.call p = .downJoin []) :
      StepSpec s a .joined (s.moveCall p .idle s.monitor)
  | lockLoop {i : Fin n} {m : Monitor (Party n T)} (hi : s.loop i = .locking ∨ s.loop i = .sleeping)
      (hm : s.monitor.lock (.worker i) = some m) : StepSpec s a .silent (s.moveLoop i .checking m)
  | sleep {i : Fin n} (hi : s.loop i = .checking) (htasks : s.tasks = []) :
      StepSpec s a .silent (s.moveLoop i .sleeping (s.monitor.sleep (.worker i)))
  | leave {i : Fin n} (hi : s.loop i = .checking) (hflag : s.shuttingDown = true)
      (htasks : s.tasks = []) :
      StepSpec s a .silent (s.moveLoop i .leaving (s.monitor.checked (.worker i)))
  | take {i : Fin n} {task : τ} {rest : List τ} (hi : s.loop i = .checking)
      (htasks : s.tasks = task :: rest) :
      StepSpec s a (.took task)
        { s.moveLoop i (.popped task) (s.monitor.checked (.worker i)) with tasks := rest }
  | start {i : Fin n} {task : τ} (hi : s.loop i = .popped task) :
      StepSpec s a (.started task) (s.moveLoop i (.running task) s.monitor.unlock)
  | complete {i : Fin n} {task : τ} (hi : s.loop i = .running task)
      (hidle : s.call (.worker i) = .idle) :
      StepSpec s a (.completed task) (s.moveLoop i .locking s.monitor)
  | exit {i : Fin n} (hi : s.loop i = .leaving) :
      StepSpec s a .silent (s.moveLoop i .exited s.monitor.unlock)

section Steps
variable [DecidableEq T] {s s' : System τ n T} {a : Action τ n T} {r : StepResult τ}

theorem System.begin_eq_some {p : Party n T} {c : Call τ n} (h : s.begin p c = some (r, s')) :
    s.call p = .idle ∧ r = .silent ∧ s' = s.moveCall p c s.monitor := by
  unfold System.begin at h
  split at h
  · rename_i hp
    split_ifs at h
    cases h
    exact ⟨hp, rfl, rfl⟩
  · cases h

theorem System.stepCall_spec {p : Party n T} {choice : Option (Party n T)}
    (h : s.stepCall p choice = some (r, s')) : StepSpec s (.proceed p choice) r s' := by
  unfold System.stepCall at h
  split at h
  · cases h
  · rename_i task hp
    obtain ⟨m, hm, heq⟩ := Option.map_eq_some_iff.mp h
    cases heq
    exact .lockSubmit hp hm
  · rename_i task hp
    split_ifs at h with hflag
    · cases h
      exact .refuse hp hflag
    · cases h
      exact .push hp (by simpa using hflag)
  · rename_i hp
    cases h
    exact .unlockSubmit hp
  · rename_i hp
    cases h
    exact .unlockRefused hp
  · rename_i hp
    obtain ⟨m, hm, heq⟩ := Option.map_eq_some_iff.mp h
    cases heq
    exact .notifyOne hp hm
  · rename_i hp
    obtain ⟨m, hm, heq⟩ := Option.map_eq_some_iff.mp h
    cases heq
    exact .lockDown hp hm
  · rename_i hp
    split_ifs at h with hflag
    · cases h
      exact .findFlag rfl hp hflag
    · cases h
      exact .setFlag hp (by simpa using hflag)
  · rename_i hp
    cases h
    exact .unlockDown hp
  · rename_i hp
    cases h
    exact .unlockEarly hp
  · rename_i hp
    cases h
    exact .notifyAll hp
  · rename_i hp
    cases h
    exact .joined hp
  · rename_i i remaining hp
    split at h
    · rename_i hi
      cases h
      exact .joinOne hp hi
    · cases h

theorem System.stepLoop_spec {i : Fin n} (h : s.stepLoop i = some (r, s')) :
    StepSpec s (.work i) r s' := by
  unfold System.stepLoop at h
  split at h
  · rename_i hi
    obtain ⟨m, hm, heq⟩ := Option.map_eq_some_iff.mp h
    cases heq
    exact .lockLoop (Or.inl hi) hm
  · rename_i hi
    split_ifs at h with hwake hleave
    · cases h
      obtain ⟨hflag, htasks⟩ := Bool.and_eq_true_iff.mp hleave
      exact .leave hi hflag (List.isEmpty_iff.mp htasks)
    · split at h
      · -- `continue` with an empty queue: the condition excludes it
        rename_i htasks
        have hflag : s.shuttingDown = true := by simpa [htasks] using hwake
        exact absurd (by simp [hflag, htasks]) hleave
      · rename_i task rest htasks
        cases h
        exact .take hi htasks
    · cases h
      have hsleep : s.shuttingDown = false ∧ s.tasks = [] := by simpa using hwake
      exact .sleep hi hsleep.2
  · rename_i hi
    obtain ⟨m, hm, heq⟩ := Option.map_eq_some_iff.mp h
    cases heq
    exact .lockLoop (Or.inr hi) (Monitor.relock_eq_some hm).2
  · rename_i task hi
    cases h
    exact .start hi
  · rename_i task hi
    split at h
    · rename_i hidle
      cases h
      exact .complete hi hidle
    · cases h
  · rename_i hi
    cases h
    exact .exit hi
  · cases h

theorem System.step_spec (h : s.step a = some (r, s')) : StepSpec s a r s' := by
  cases a with
  | submit p task =>
    obtain ⟨hp, rfl, rfl⟩ := System.begin_eq_some h
    exact .beginSubmit hp
  | shutdown t =>
    obtain ⟨hp, rfl, rfl⟩ := System.begin_eq_some h
    exact .beginDown hp
  | proceed p choice => exact System.stepCall_spec h
  | work i => exact System.stepLoop_spec h
  | wake p =>
    obtain ⟨m, hm, heq⟩ := Option.map_eq_some_iff.mp h
    cases heq
    exact .stir hm

end Steps

end HftExercises.ThreadPool
