import HftExercises.Concurrency.SerialExecutor
import HftExercises.Core.ThreadCount

/-! # Where the tasks of the serial executor are

Tasks pass from the queue through the hands of the worker, one at a time and in
order, and the counter knows how many the worker has. Whoever looks at the queue
holds the mutex, so what it saw is still true when it gives the mutex back.
-/
namespace HftExercises.SerialExecutor
variable {τ T : Type*}

def Loop.popped? : Loop τ → Option τ
  | .popped task => some task
  | _ => none

def Loop.running? : Loop τ → Option τ
  | .running task => some task
  | _ => none

/-- The task that has ended but still counts as in flight. -/
def Loop.returned? : Loop τ → Option τ
  | .relocking task | .finishing task => some task
  | _ => none

/-- How many tasks the worker has. -/
def Loop.inHand (l : Loop τ) : ℕ :=
  l.popped?.toList.length + l.running?.toList.length + l.returned?.toList.length

structure TaskInv (es : List (StepEvent τ T)) (s : System τ T) : Prop where
  queued : accepted es = taken es ++ s.tasks
  popped : taken es = started es ++ s.loop.popped?.toList
  running : started es = finished es ++ s.loop.running?.toList
  returned : finished es = completed es ++ s.loop.returned?.toList
  inFlight : s.inFlight = s.loop.inHand

/-- The worker leaves an empty queue that stays empty, and is joined after it left. -/
structure ExitInv (s : System τ T) : Prop where
  left : s.loop = .leaving ∨ s.loop = .exited → s.shuttingDown = true ∧ s.tasks = []
  joined : s.joined = true → s.loop = .exited

section Init

theorem taskInv_init : TaskInv [] (System.init : System τ T) := ⟨rfl, rfl, rfl, rfl, rfl⟩

theorem exitInv_init : ExitInv (System.init : System τ T) where
  left := by
    rintro (h | h)
    · cases h
    · cases h
  joined := nofun

end Init

section Tasks
variable {s s' : System τ T} {a : Action τ T} {r : StepResult τ} {es : List (StepEvent τ T)}

theorem accepted_append (es : List (StepEvent τ T)) (e : StepEvent τ T) :
    accepted (es ++ [e]) = accepted es ++ e.result.accepted?.toList :=
  filterMap_append_singleton _ es e

theorem taken_append (es : List (StepEvent τ T)) (e : StepEvent τ T) :
    taken (es ++ [e]) = taken es ++ e.result.took?.toList :=
  filterMap_append_singleton _ es e

theorem started_append (es : List (StepEvent τ T)) (e : StepEvent τ T) :
    started (es ++ [e]) = started es ++ e.result.started?.toList :=
  filterMap_append_singleton _ es e

theorem finished_append (es : List (StepEvent τ T)) (e : StepEvent τ T) :
    finished (es ++ [e]) = finished es ++ e.result.finished?.toList :=
  filterMap_append_singleton _ es e

theorem completed_append (es : List (StepEvent τ T)) (e : StepEvent τ T) :
    completed (es ++ [e]) = completed es ++ e.result.completed?.toList :=
  filterMap_append_singleton _ es e

/-- What each place owes the next one in a step. -/
theorem TaskInv.of_balance (h : TaskInv es s)
    (hqueue : s.tasks ++ r.accepted?.toList = r.took?.toList ++ s'.tasks)
    (hpop : s.loop.popped?.toList ++ r.took?.toList =
      r.started?.toList ++ s'.loop.popped?.toList)
    (hrun : s.loop.running?.toList ++ r.started?.toList =
      r.finished?.toList ++ s'.loop.running?.toList)
    (hret : s.loop.returned?.toList ++ r.finished?.toList =
      r.completed?.toList ++ s'.loop.returned?.toList)
    (hflight : s.inFlight = s.loop.inHand → s'.inFlight = s'.loop.inHand) :
    TaskInv (es ++ [⟨s, a, r⟩]) s' where
  queued := by
    rw [accepted_append, taken_append]
    exact append_handover h.queued hqueue
  popped := by
    rw [taken_append, started_append]
    exact append_handover h.popped hpop
  running := by
    rw [started_append, finished_append]
    exact append_handover h.running hrun
  returned := by
    rw [finished_append, completed_append]
    exact append_handover h.returned hret
  inFlight := hflight h.inFlight

/-- The same with the place of the worker written out. -/
theorem TaskInv.of_loop (h : TaskInv es s) {l : Loop τ} (hl : s.loop = l)
    (hqueue : s.tasks ++ r.accepted?.toList = r.took?.toList ++ s'.tasks)
    (hpop : l.popped?.toList ++ r.took?.toList = r.started?.toList ++ s'.loop.popped?.toList)
    (hrun : l.running?.toList ++ r.started?.toList = r.finished?.toList ++ s'.loop.running?.toList)
    (hret : l.returned?.toList ++ r.finished?.toList =
      r.completed?.toList ++ s'.loop.returned?.toList)
    (hflight : s.inFlight = l.inHand → s'.inFlight = s'.loop.inHand) :
    TaskInv (es ++ [⟨s, a, r⟩]) s' := by
  subst hl
  exact h.of_balance hqueue hpop hrun hret hflight

/-- The worker moves between places where it has no task. -/
theorem TaskInv.moveLoop (h : TaskInv es s) {l : Loop τ} {m : Monitor (Party T)}
    (hpop : s.loop.popped? = l.popped?) (hrun : s.loop.running? = l.running?)
    (hret : s.loop.returned? = l.returned?) :
    TaskInv (es ++ [⟨s, a, .silent⟩]) (s.moveLoop l m) := by
  refine h.of_balance (List.append_nil _) ?_ ?_ ?_ ?_
  · rw [hpop]
    exact List.append_nil _
  · rw [hrun]
    exact List.append_nil _
  · rw [hret]
    exact List.append_nil _
  · intro hflight
    change s.inFlight = l.inHand
    rw [hflight, Loop.inHand, hpop, hrun, hret, Loop.inHand]

variable [DecidableEq T]

/-- A call moves: no task does. -/
theorem TaskInv.moveCall (h : TaskInv es s) {p : Party T} {c : Call τ} {m : Monitor (Party T)}
    (hacc : r.accepted? = none) (htook : r.took? = none) (hstart : r.started? = none)
    (hfin : r.finished? = none) (hdone : r.completed? = none) :
    TaskInv (es ++ [⟨s, a, r⟩]) (s.moveCall p c m) := by
  refine h.of_balance ?_ ?_ ?_ ?_ id
  · rw [hacc, htook]
    exact List.append_nil _
  · rw [htook, hstart]
    exact List.append_nil _
  · rw [hstart, hfin]
    exact List.append_nil _
  · rw [hfin, hdone]
    exact List.append_nil _

theorem TaskInv.step (h : TaskInv es s) (hs : StepSpec s a r s') :
    TaskInv (es ++ [⟨s, a, r⟩]) s' := by
  cases hs with
  | stir hm =>
    exact h.of_balance (List.append_nil _) (List.append_nil _) (List.append_nil _)
      (List.append_nil _) id
  | push hp hflag =>
    exact h.of_balance rfl (List.append_nil _) (List.append_nil _) (List.append_nil _) id
  | setFlag hp =>
    exact h.of_balance (List.append_nil _) (List.append_nil _) (List.append_nil _)
      (List.append_nil _) id
  | join hp hl =>
    exact h.of_balance (List.append_nil _) (List.append_nil _) (List.append_nil _)
      (List.append_nil _) id
  | lockLoop hl hm =>
    rcases hl with hl | hl
    · exact h.moveLoop (by rw [hl]; rfl) (by rw [hl]; rfl) (by rw [hl]; rfl)
    · exact h.moveLoop (by rw [hl]; rfl) (by rw [hl]; rfl) (by rw [hl]; rfl)
  | take hl htasks =>
    refine h.of_loop hl ?_ rfl rfl rfl (congrArg (· + 1))
    rw [htasks]
    exact List.append_nil _
  | leave hl htasks hflag => exact h.moveLoop (by rw [hl]; rfl) (by rw [hl]; rfl) (by rw [hl]; rfl)
  | sleep hl htasks hflag => exact h.moveLoop (by rw [hl]; rfl) (by rw [hl]; rfl) (by rw [hl]; rfl)
  | start hl => exact h.of_loop hl (List.append_nil _) rfl rfl rfl id
  | finish hl hidle => exact h.of_loop hl (List.append_nil _) rfl rfl rfl id
  | relock hl hm => exact h.moveLoop (by rw [hl]; rfl) (by rw [hl]; rfl) (by rw [hl]; rfl)
  | complete hl => exact h.of_loop hl (List.append_nil _) rfl rfl rfl (congrArg (· - 1))
  | exit hl => exact h.moveLoop (by rw [hl]; rfl) (by rw [hl]; rfl) (by rw [hl]; rfl)
  | _ => exact h.moveCall rfl rfl rfl rfl rfl

omit [DecidableEq T] in
/-- The worker moves on inside its loop. -/
theorem ExitInv.moveLoop (h : ExitInv s) (hold : s.loop ≠ .exited) (hjoined : s'.joined = s.joined)
    (hleaving : s'.loop ≠ .leaving) (hexited : s'.loop ≠ .exited) : ExitInv s' where
  left := by
    rintro (hl | hl)
    · exact absurd hl hleaving
    · exact absurd hl hexited
  joined := fun hj => absurd (h.joined (hjoined ▸ hj)) hold

theorem ExitInv.step (h : ExitInv s) (hs : StepSpec s a r s') : ExitInv s' := by
  cases hs with
  | push hp hflag =>
    refine ⟨fun hout => ?_, h.joined⟩
    have hset := (h.left hout).1
    rw [hflag] at hset
    cases hset
  | setFlag hp => exact ⟨fun hout => ⟨rfl, (h.left hout).2⟩, h.joined⟩
  | join hp hl => exact ⟨h.left, fun _ => hl⟩
  | lockLoop hl hm =>
    refine h.moveLoop ?_ rfl nofun nofun
    rcases hl with hl | hl
    · rw [hl]
      exact nofun
    · rw [hl]
      exact nofun
  | take hl htasks => exact h.moveLoop (by rw [hl]; exact nofun) rfl nofun nofun
  | leave hl htasks hflag =>
    refine ⟨fun _ => ⟨hflag, htasks⟩, fun hj => ?_⟩
    rw [h.joined hj] at hl
    cases hl
  | sleep hl htasks hflag => exact h.moveLoop (by rw [hl]; exact nofun) rfl nofun nofun
  | start hl => exact h.moveLoop (by rw [hl]; exact nofun) rfl nofun nofun
  | finish hl hidle => exact h.moveLoop (by rw [hl]; exact nofun) rfl nofun nofun
  | relock hl hm => exact h.moveLoop (by rw [hl]; exact nofun) rfl nofun nofun
  | complete hl => exact h.moveLoop (by rw [hl]; exact nofun) rfl nofun nofun
  | exit hl => exact ⟨fun _ => h.left (Or.inl hl), fun _ => rfl⟩
  | _ => exact ⟨h.left, h.joined⟩

end Tasks

section Mutex

/-- The places of a call that hold the mutex. -/
def Call.locked : Call τ → Bool
  | .submitPush _ | .submitUnlock _ | .drainCheck | .drainUnlock | .downSet | .downUnlock
  | .pendingRead | .pendingUnlock _ => true
  | _ => false

/-- The calls that no task makes. -/
def Call.ofCaller : Call τ → Bool
  | .drainLock | .drainCheck | .drainWait | .drainUnlock | .downLock | .downSet | .downUnlock
  | .downNotify | .downJoinable | .downJoin => true
  | _ => false

/-- What a call learned from the queue and the counter. -/
def Call.Saw (tasks : List τ) (inFlight : ℕ) : Call τ → Prop
  | .drainUnlock => tasks = [] ∧ inFlight = 0
  | .pendingUnlock count => count = tasks.length + inFlight
  | _ => True

/-- The places of the worker's loop that hold the mutex. -/
def Loop.locked : Loop τ → Bool
  | .checking | .popped _ | .finishing _ | .leaving => true
  | _ => false

def System.inside [DecidableEq T] (s : System τ T) (p : Party T) : Bool :=
  (s.call p).locked || (decide (p = .worker) && s.loop.locked)

/-- Where a call of the worker may go: a task runs it, and does not drain or shut down. -/
def System.Next (s : System τ T) (p : Party T) (c : Call τ) : Prop :=
  p = .worker → (∃ task, s.loop = .running task) ∧ c.ofCaller = false

/-- Whoever is inside owns the mutex, and what it saw still holds. -/
structure MutexInv [DecidableEq T] (s : System τ T) : Prop where
  guards : s.monitor.Guards s.inside
  running : s.call .worker ≠ .idle → ∃ task, s.loop = .running task
  onlyCaller : (s.call .worker).ofCaller = false
  saw : ∀ p, (s.call p).Saw s.tasks s.inFlight

theorem Call.saw_of_not_locked {tasks : List τ} {inFlight : ℕ} {c : Call τ}
    (hc : c.locked = false) : c.Saw tasks inFlight := by
  cases c with
  | drainUnlock => cases hc
  | pendingUnlock count => cases hc
  | _ => trivial

variable [DecidableEq T] {s s' : System τ T} {a : Action τ T} {r : StepResult τ}
variable {p q : Party T} {c : Call τ} {l : Loop τ} {m : Monitor (Party T)}

theorem mutexInv_init : MutexInv (System.init : System τ T) where
  guards := by
    intro p hp
    have hout : (System.init : System τ T).inside p = false := by
      simp [System.inside, System.init, Call.locked, Loop.locked]
    rw [hout] at hp
    cases hp
  running := fun h => absurd rfl h
  onlyCaller := rfl
  saw := fun _ => trivial

theorem System.inside_of_call (h : (s.call p).locked = true) : s.inside p = true := by
  simp [System.inside, h]

theorem System.inside_of_loop (h : s.loop.locked = true) : s.inside .worker = true := by
  simp [System.inside, h]

theorem System.inside_moveCall_of_ne (h : q ≠ p) :
    (s.moveCall p c m).inside q = s.inside q := by
  simp [System.inside, System.moveCall, Function.update_of_ne h]

theorem System.inside_moveCall_self :
    (s.moveCall p c m).inside p = (c.locked || (decide (p = .worker) && s.loop.locked)) := by
  simp [System.inside, System.moveCall]

theorem System.inside_moveLoop_of_ne (h : q ≠ .worker) :
    (s.moveLoop l m).inside q = s.inside q := by
  simp [System.inside, System.moveLoop, h]

theorem MutexInv.idle (h : MutexInv s) (hl : ∀ task, s.loop ≠ .running task) :
    s.call .worker = .idle := by
  by_contra hcall
  obtain ⟨task, hrun⟩ := h.running hcall
  exact hl task hrun

theorem MutexInv.next (h : MutexInv s) (hp : s.call p ≠ .idle)
    (hc : c.ofCaller = true → (s.call p).ofCaller = true) : s.Next p c := by
  rintro rfl
  refine ⟨h.running hp, ?_⟩
  by_contra hcaller
  have hold := hc (by simpa using hcaller)
  rw [h.onlyCaller] at hold
  cases hold

omit [DecidableEq T] in
theorem System.next_of_mayCall (hmay : s.mayCall p = true) (hc : c.ofCaller = false) :
    s.Next p c := by
  rintro rfl
  refine ⟨?_, hc⟩
  unfold System.mayCall at hmay
  dsimp only at hmay
  split at hmay
  · rename_i task hl
    exact ⟨task, hl⟩
  · cases hmay

/-- Only the guard is left to show when a call moves. -/
theorem MutexInv.of_guards (h : MutexInv s) (hnext : s.Next p c)
    (hsaw : c.Saw s.tasks s.inFlight) (hguards : m.Guards (s.moveCall p c m).inside) :
    MutexInv (s.moveCall p c m) where
  guards := hguards
  running := by
    intro hcall
    rcases update_cases (· ≠ Call.idle) hcall with ⟨hp, _⟩ | ⟨_, hold⟩
    · exact (hnext hp.symm).1
    · exact h.running hold
  onlyCaller := by
    change (Function.update s.call p c .worker).ofCaller = false
    by_cases hp : p = .worker
    · rw [hp, Function.update_self]
      exact (hnext hp).2
    · rw [Function.update_of_ne (Ne.symm hp)]
      exact h.onlyCaller
  saw := update_forall (Call.Saw s.tasks s.inFlight) h.saw hsaw

theorem MutexInv.keepCall (h : MutexInv s) (howner : m.owner = s.monitor.owner)
    (hlock : c.locked = true → (s.call p).locked = true) (hnext : s.Next p c)
    (hsaw : c.Saw s.tasks s.inFlight) : MutexInv (s.moveCall p c m) := by
  refine h.of_guards hnext hsaw (h.guards.stay howner ?_)
  intro q hq
  by_cases hqp : q = p
  · subst hqp
    rw [System.inside_moveCall_self] at hq
    rcases Bool.or_eq_true_iff.mp hq with hc | hl
    · exact System.inside_of_call (hlock hc)
    · exact Bool.or_eq_true_iff.mpr (Or.inr hl)
  · rwa [System.inside_moveCall_of_ne hqp] at hq

theorem MutexInv.enterCall (h : MutexInv s) (hm : s.monitor.lock p = some m)
    (hnext : s.Next p c) (hsaw : c.Saw s.tasks s.inFlight) : MutexInv (s.moveCall p c m) := by
  refine h.of_guards hnext hsaw (h.guards.enter hm ?_)
  intro q hqp hq
  rwa [System.inside_moveCall_of_ne hqp] at hq

theorem MutexInv.leaveCall (h : MutexInv s) (hp : (s.call p).locked = true)
    (hc : c.locked = false) (hnext : s.Next p c) : MutexInv (s.moveCall p c m) := by
  refine h.of_guards hnext (Call.saw_of_not_locked hc)
    (h.guards.leave (System.inside_of_call hp) ?_ ?_)
  · -- a call that the worker leaves was made by a running task
    rw [System.inside_moveCall_self, hc, Bool.false_or, Bool.and_eq_false_iff]
    by_cases hw : p = .worker
    · obtain ⟨⟨task, hl⟩, _⟩ := hnext hw
      exact Or.inr (by rw [hl]; rfl)
    · exact Or.inl (decide_eq_false hw)
  · intro q hqp hq
    rwa [System.inside_moveCall_of_ne hqp] at hq

theorem MutexInv.moveLoop (h : MutexInv s) (hidle : s.call .worker = .idle)
    (hguards : m.Guards (s.moveLoop l m).inside) : MutexInv (s.moveLoop l m) where
  guards := hguards
  running := fun hcall => absurd hidle hcall
  onlyCaller := h.onlyCaller
  saw := h.saw

theorem System.inside_moveLoop_worker (hidle : s.call .worker = .idle) :
    (s.moveLoop l m).inside .worker = l.locked := by
  simp [System.inside, System.moveLoop, hidle, Call.locked]

theorem MutexInv.keepLoop (h : MutexInv s) (howner : m.owner = s.monitor.owner)
    (hlock : l.locked = true → s.loop.locked = true) (hidle : s.call .worker = .idle) :
    MutexInv (s.moveLoop l m) := by
  refine h.moveLoop hidle (h.guards.stay howner ?_)
  intro q hq
  by_cases hqw : q = .worker
  · rw [hqw, System.inside_moveLoop_worker hidle] at hq
    rw [hqw]
    exact System.inside_of_loop (hlock hq)
  · rwa [System.inside_moveLoop_of_ne hqw] at hq

theorem MutexInv.enterLoop (h : MutexInv s) (hm : s.monitor.lock .worker = some m)
    (hidle : s.call .worker = .idle) : MutexInv (s.moveLoop l m) := by
  refine h.moveLoop hidle (h.guards.enter hm ?_)
  intro q hqw hq
  rwa [System.inside_moveLoop_of_ne hqw] at hq

theorem MutexInv.leaveLoop (h : MutexInv s) (hl : s.loop.locked = true) (hl' : l.locked = false)
    (hidle : s.call .worker = .idle) : MutexInv (s.moveLoop l m) := by
  refine h.moveLoop hidle (h.guards.leave (System.inside_of_loop hl) ?_ ?_)
  · rw [System.inside_moveLoop_worker hidle]
    exact hl'
  · intro q hqw hq
    rwa [System.inside_moveLoop_of_ne hqw] at hq

/-- While somebody is inside, no other call is. -/
theorem MutexInv.call_unlocked (h : MutexInv s) (hp : s.inside p = true) (hqp : q ≠ p) :
    (s.call q).locked = false := by
  by_contra hq
  exact hqp (h.guards.unique (System.inside_of_call (by simpa using hq)) hp)

/-- While the worker is inside, no call is. -/
theorem MutexInv.calls_unlocked (h : MutexInv s) (hl : s.loop.locked = true)
    (hidle : s.call .worker = .idle) (q : Party T) : (s.call q).locked = false := by
  by_cases hqw : q = .worker
  · rw [hqw, hidle]
    rfl
  · exact h.call_unlocked (System.inside_of_loop hl) hqw

theorem MutexInv.change (h : MutexInv s) {tasks : List τ} {inFlight : ℕ}
    (hsaw : ∀ q, (s.call q).Saw tasks inFlight) :
    MutexInv { s with tasks := tasks, inFlight := inFlight } :=
  ⟨h.guards, h.running, h.onlyCaller, hsaw⟩

theorem MutexInv.push (h : MutexInv s) {task : τ} (hp : s.call p = .submitPush task) :
    MutexInv { s.moveCall p (.submitUnlock true) s.monitor with tasks := s.tasks ++ [task] } := by
  have hmove : MutexInv (s.moveCall p (.submitUnlock true) s.monitor) :=
    h.keepCall rfl (fun _ => by rw [hp]; rfl) (h.next (by rw [hp]; exact nofun) nofun) trivial
  refine hmove.change ?_
  intro q
  by_cases hqp : q = p
  · subst hqp
    change (Function.update s.call q (.submitUnlock true) q).Saw _ _
    rw [Function.update_self]
    trivial
  · have hin : s.inside p = true := System.inside_of_call (by rw [hp]; rfl)
    change (Function.update s.call p (.submitUnlock true) q).Saw _ _
    rw [Function.update_of_ne hqp]
    exact Call.saw_of_not_locked (h.call_unlocked hin hqp)

/-- The worker changes the queue and the counter with the mutex in hand. -/
theorem MutexInv.changeLoop (h : MutexInv s) (howner : m.owner = s.monitor.owner)
    (hl : s.loop.locked = true) (hidle : s.call .worker = .idle) {tasks : List τ} {inFlight : ℕ} :
    MutexInv { s.moveLoop l m with tasks := tasks, inFlight := inFlight } :=
  (h.keepLoop howner (fun _ => hl) hidle).change
    fun q => Call.saw_of_not_locked (h.calls_unlocked hl hidle q)

theorem MutexInv.step (h : MutexInv s) (hs : StepSpec s a r s') : MutexInv s' := by
  have hnext : ∀ {p : Party T} {c c' : Call τ}, s.call p = c → c ≠ .idle →
      (c'.ofCaller = true → c.ofCaller = true) → s.Next p c' :=
    fun hp hne hc => h.next (hp ▸ hne) (hp ▸ hc)
  cases hs with
  | stir hm => exact ⟨h.guards.stay (Monitor.stir_eq_some hm).1 fun _ => id, h.running,
      h.onlyCaller, h.saw⟩
  | beginSubmit hp hmay =>
    exact h.keepCall rfl nofun (System.next_of_mayCall hmay rfl) trivial
  | beginPending hp hmay =>
    exact h.keepCall rfl nofun (System.next_of_mayCall hmay rfl) trivial
  | beginDrain hp => exact h.keepCall rfl nofun nofun trivial
  | beginDown hp => exact h.keepCall rfl nofun nofun trivial
  | lockSubmit hp hm => exact h.enterCall hm (hnext hp nofun nofun) trivial
  | push hp hflag => exact h.push hp
  | refuse hp hflag =>
    exact h.keepCall rfl (fun _ => by rw [hp]; rfl) (hnext hp nofun nofun) trivial
  | unlockSubmit hp => exact h.leaveCall (by rw [hp]; rfl) rfl (hnext hp nofun nofun)
  | unlockRefused hp => exact h.leaveCall (by rw [hp]; rfl) rfl (hnext hp nofun nofun)
  | notifyOne ha hp hm =>
    refine h.keepCall ?_ nofun (hnext hp nofun nofun) trivial
    rcases Monitor.notifyOne_eq_some hm with ⟨_, _, rfl⟩ | ⟨_, _, _, rfl⟩
    · rfl
    · rfl
  | lockDrain hp hm =>
    rcases hp with hp | hp
    · exact h.enterCall hm (hnext hp nofun fun _ => rfl) trivial
    · exact h.enterCall hm (hnext hp nofun fun _ => rfl) trivial
  | drainDone hp htasks hflight =>
    exact h.keepCall rfl (fun _ => by rw [hp]; rfl) (hnext hp nofun fun _ => rfl) ⟨htasks, hflight⟩
  | drainSleep hp => exact h.leaveCall (by rw [hp]; rfl) rfl (hnext hp nofun fun _ => rfl)
  | unlockDrain hp => exact h.leaveCall (by rw [hp]; rfl) rfl (hnext hp nofun nofun)
  | lockDown hp hm => exact h.enterCall hm (hnext hp nofun fun _ => rfl) trivial
  | @setFlag p hp =>
    have hmove : MutexInv (s.moveCall p .downUnlock s.monitor) :=
      h.keepCall rfl (fun _ => by rw [hp]; rfl) (hnext hp nofun fun _ => rfl) trivial
    exact ⟨hmove.guards, hmove.running, hmove.onlyCaller, hmove.saw⟩
  | unlockDown hp => exact h.leaveCall (by rw [hp]; rfl) rfl (hnext hp nofun fun _ => rfl)
  | notifyAll hp => exact h.keepCall rfl nofun (hnext hp nofun fun _ => rfl) trivial
  | notJoinable hp hjoined => exact h.keepCall rfl nofun (hnext hp nofun nofun) trivial
  | joinable hp hjoined => exact h.keepCall rfl nofun (hnext hp nofun fun _ => rfl) trivial
  | @join p hp hl =>
    have hmove : MutexInv (s.moveCall p .idle s.monitor) :=
      h.keepCall rfl nofun (hnext hp nofun nofun) trivial
    exact ⟨hmove.guards, hmove.running, hmove.onlyCaller, hmove.saw⟩
  | lockPending hp hm => exact h.enterCall hm (hnext hp nofun nofun) trivial
  | readPending hp => exact h.keepCall rfl (fun _ => by rw [hp]; rfl) (hnext hp nofun nofun) rfl
  | unlockPending hp => exact h.leaveCall (by rw [hp]; rfl) rfl (hnext hp nofun nofun)
  | lockLoop hl hm =>
    refine h.enterLoop hm (h.idle ?_)
    rcases hl with hl | hl
    · rw [hl]
      exact nofun
    · rw [hl]
      exact nofun
  | take hl htasks =>
    exact h.changeLoop (m := s.monitor.checked .worker) rfl (by rw [hl]; rfl)
      (h.idle (by rw [hl]; exact nofun))
  | leave hl htasks hflag =>
    exact h.keepLoop rfl (fun _ => by rw [hl]; rfl) (h.idle (by rw [hl]; exact nofun))
  | sleep hl htasks hflag =>
    exact h.leaveLoop (by rw [hl]; rfl) rfl (h.idle (by rw [hl]; exact nofun))
  | start hl => exact h.leaveLoop (by rw [hl]; rfl) rfl (h.idle (by rw [hl]; exact nofun))
  | finish hl hidle => exact h.keepLoop rfl nofun hidle
  | relock hl hm => exact h.enterLoop hm (h.idle (by rw [hl]; exact nofun))
  | complete hl =>
    exact h.changeLoop (m := s.monitor.notifyAll) rfl (by rw [hl]; rfl)
      (h.idle (by rw [hl]; exact nofun))
  | exit hl => exact h.leaveLoop (by rw [hl]; rfl) rfl (h.idle (by rw [hl]; exact nofun))

end Mutex

section Flag
variable [DecidableEq T] {s s' : System τ T} {a : Action τ T} {r : StepResult τ}

/-- The flag is never cleared. -/
theorem shuttingDown_step (hs : StepSpec s a r s') (h : s.shuttingDown = true) :
    s'.shuttingDown = true := by
  cases hs with
  | setFlag hp => rfl
  | _ => exact h

theorem accepts_nothing_of_flag (hs : StepSpec s a r s') (h : s.shuttingDown = true) :
    r.accepted? = none := by
  cases hs with
  | push hp hflag =>
    rw [h] at hflag
    cases hflag
  | _ => rfl

end Flag

end HftExercises.SerialExecutor
