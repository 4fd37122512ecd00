import Mathlib.Data.List.Perm.Subperm
import HftExercises.Concurrency.SerialExecutorInvariant

/-! # Runs of the serial executor

Tasks are started in the order in which they were accepted, and both `drain` and
`shutdown` return with nothing left to do. The queue and the callers of `drain`
share one condition variable, though: a notification meant for the worker may wake
a caller of `drain` instead, and the task it announced is left behind.
-/
namespace HftExercises.SerialExecutor
variable {τ T : Type*}

section Done
variable {s : System τ T} {es : List (StepEvent τ T)}

theorem Loop.lists_of_inHand {l : Loop τ} (h : l.inHand = 0) :
    l.popped?.toList = [] ∧ l.running?.toList = [] ∧ l.returned?.toList = [] := by
  unfold Loop.inHand at h
  obtain ⟨⟨hpop, hrun⟩, hret⟩ := (Nat.add_eq_zero_iff.mp h).imp_left Nat.add_eq_zero_iff.mp
  exact ⟨List.length_eq_zero_iff.mp hpop, List.length_eq_zero_iff.mp hrun,
    List.length_eq_zero_iff.mp hret⟩

theorem TaskInv.started_eq (h : TaskInv es s) :
    accepted es = started es ++ (s.loop.popped?.toList ++ s.tasks) := by
  rw [h.queued, h.popped, List.append_assoc]

theorem TaskInv.count (h : TaskInv es s) :
    s.tasks.length + s.inFlight + (completed es).length = (accepted es).length := by
  rw [h.started_eq, h.running, h.returned, h.inFlight, Loop.inHand]
  simp only [List.length_append]
  omega

/-- With an empty queue and nothing in flight, everything accepted is complete. -/
theorem TaskInv.all_completed (h : TaskInv es s) (htasks : s.tasks = []) (hflight : s.inFlight = 0) :
    completed es = accepted es := by
  obtain ⟨hpop, hrun, hret⟩ := Loop.lists_of_inHand (h.inFlight.symm.trans hflight)
  rw [h.started_eq, h.running, h.returned, hpop, hrun, hret, htasks]
  simp

end Done

section Stranding
variable [DecidableEq T] {s s' : System τ T} {a : Action τ T} {r : StepResult τ}

/-- An enqueue notifies while work is queued, the worker sleeps and no other enqueue
is on its way, and the notification wakes somebody else. -/
def Misdirected (s : System τ T) (a : Action τ T) : Prop :=
  ∃ p t, a = .proceed p (some (.caller t)) ∧ s.call p = .submitNotify ∧ s.tasks ≠ [] ∧
    Party.worker ∈ s.monitor.blocked ∧ ∀ q, q ≠ p → (s.call q).enqueuing = false

/-- A call that was not in the way before the step is not in the way after it. -/
theorem Stranded.of_moveCall {p : Party T} {c : Call τ} {m : Monitor (Party T)}
    (h : Stranded (s.moveCall p c m))
    (hb : Party.worker ∈ m.blocked → Party.worker ∈ s.monitor.blocked)
    (hc : (s.call p).enqueuing = true → c.enqueuing = true) : Stranded s := by
  obtain ⟨htasks, hblocked, hnone⟩ := h
  refine ⟨htasks, hb hblocked, ?_⟩
  intro q
  have hq : (Function.update s.call p c q).enqueuing = false := hnone q
  by_cases hqp : q = p
  · subst hqp
    rw [Function.update_self] at hq
    by_contra hpend
    rw [hc (by simpa using hpend)] at hq
    cases hq
  · rwa [Function.update_of_ne hqp] at hq

theorem misdirected_of_notify {p : Party T} {choice : Option (Party T)} {m : Monitor (Party T)}
    (ha : a = .proceed p choice) (hp : s.call p = .submitNotify)
    (hm : s.monitor.notifyOne choice = some m) (h : Stranded (s.moveCall p .idle m)) :
    Misdirected s a := by
  obtain ⟨htasks, hblocked, hnone⟩ := h
  change Party.worker ∈ m.blocked at hblocked
  rcases Monitor.notifyOne_eq_some hm with ⟨_, hempty, rfl⟩ | ⟨q, hq, hchoice, rfl⟩
  · rw [hempty] at hblocked
    exact absurd hblocked (Finset.notMem_empty _)
  · obtain ⟨hne, hold⟩ := Finset.mem_erase.mp hblocked
    cases q with
    | worker => exact absurd rfl hne
    | caller t =>
      refine ⟨p, t, by rw [ha, hchoice], hp, htasks, hold, ?_⟩
      intro q hqp
      have hq : (Function.update s.call p .idle q).enqueuing = false := hnone q
      rwa [Function.update_of_ne hqp] at hq

/-- Only a misdirected notification strands the queue. -/
theorem stranded_step (hinv : MutexInv s) (hs : StepSpec s a r s') (h : Stranded s') :
    Stranded s ∨ Misdirected s a := by
  have hlock : ∀ {p : Party T} {m : Monitor (Party T)}, s.monitor.lock p = some m →
      Party.worker ∈ m.blocked → Party.worker ∈ s.monitor.blocked :=
    fun hm hmem => (Monitor.lock_eq_some hm).2.2.1 ▸ hmem
  cases hs with
  | stir hm =>
    obtain ⟨htasks, hblocked, hnone⟩ := h
    have hsub := (Monitor.stir_eq_some hm).2.1 ▸ hblocked
    exact Or.inl ⟨htasks, Finset.mem_of_mem_erase hsub, hnone⟩
  | beginSubmit hp hmay => exact Or.inl (h.of_moveCall id (by rw [hp]; exact nofun))
  | beginPending hp hmay => exact Or.inl (h.of_moveCall id (by rw [hp]; exact nofun))
  | beginDrain hp => exact Or.inl (h.of_moveCall id (by rw [hp]; exact nofun))
  | beginDown hp => exact Or.inl (h.of_moveCall id (by rw [hp]; exact nofun))
  | lockSubmit hp hm =>
    exact Or.inl (h.of_moveCall (hlock hm) (by rw [hp]; exact nofun))
  | @push p task hp hflag =>
    have hpush : (Function.update s.call p (.submitUnlock true) p).enqueuing = false := h.2.2 p
    rw [Function.update_self] at hpush
    cases hpush
  | refuse hp hflag => exact Or.inl (h.of_moveCall id (by rw [hp]; exact nofun))
  | unlockSubmit hp => exact Or.inl (h.of_moveCall id fun _ => rfl)
  | unlockRefused hp => exact Or.inl (h.of_moveCall id (by rw [hp]; exact nofun))
  | notifyOne ha hp hm => exact Or.inr (misdirected_of_notify ha hp hm h)
  | lockDrain hp hm =>
    refine Or.inl (h.of_moveCall (hlock hm) ?_)
    rcases hp with hp | hp
    · rw [hp]
      exact nofun
    · rw [hp]
      exact nofun
  | drainDone hp htasks hflight => exact Or.inl (h.of_moveCall id (by rw [hp]; exact nofun))
  | @drainSleep p hp =>
    refine Or.inl (h.of_moveCall ?_ (by rw [hp]; exact nofun))
    -- the worker does not drain
    have hne : Party.worker ≠ p := by
      rintro rfl
      have hworker := hinv.onlyCaller
      rw [hp] at hworker
      cases hworker
    exact fun hmem => Finset.mem_of_mem_insert_of_ne hmem hne
  | unlockDrain hp => exact Or.inl (h.of_moveCall id (by rw [hp]; exact nofun))
  | lockDown hp hm =>
    exact Or.inl (h.of_moveCall (hlock hm) (by rw [hp]; exact nofun))
  | @setFlag p hp =>
    have hmove : Stranded (s.moveCall p .downUnlock s.monitor) := h
    exact Or.inl (hmove.of_moveCall id (by rw [hp]; exact nofun))
  | unlockDown hp => exact Or.inl (h.of_moveCall id (by rw [hp]; exact nofun))
  | notifyAll hp => exact absurd h.2.1 (Finset.notMem_empty _)
  | notJoinable hp hjoined => exact Or.inl (h.of_moveCall id (by rw [hp]; exact nofun))
  | joinable hp hjoined => exact Or.inl (h.of_moveCall id (by rw [hp]; exact nofun))
  | @join p hp hl =>
    have hmove : Stranded (s.moveCall p .idle s.monitor) := h
    exact Or.inl (hmove.of_moveCall id (by rw [hp]; exact nofun))
  | lockPending hp hm =>
    exact Or.inl (h.of_moveCall (hlock hm) (by rw [hp]; exact nofun))
  | readPending hp => exact Or.inl (h.of_moveCall id (by rw [hp]; exact nofun))
  | unlockPending hp => exact Or.inl (h.of_moveCall id (by rw [hp]; exact nofun))
  | lockLoop hl hm =>
    exact Or.inl ⟨h.1, hlock hm h.2.1, h.2.2⟩
  | take hl htasks => exact Or.inl ⟨by rw [htasks]; exact nofun, h.2.1, h.2.2⟩
  | leave hl htasks hflag => exact absurd htasks h.1
  | sleep hl htasks hflag => exact absurd htasks h.1
  | start hl => exact Or.inl h
  | finish hl hidle => exact Or.inl h
  | relock hl hm => exact Or.inl ⟨h.1, hlock hm h.2.1, h.2.2⟩
  | complete hl => exact absurd h.2.1 (Finset.notMem_empty _)
  | exit hl => exact Or.inl h

theorem stranded_of_misdirected (h : Misdirected s a) (hstep : s.step a = some (r, s')) :
    Stranded s' := by
  obtain ⟨p, t, rfl, hp, htasks, hblocked, hnone⟩ := h
  simp only [System.step, System.stepCall, hp] at hstep
  obtain ⟨m, hm, heq⟩ := Option.map_eq_some_iff.mp hstep
  cases heq
  rcases Monitor.notifyOne_eq_some hm with ⟨hchoice, _⟩ | ⟨q, _, hchoice, rfl⟩
  · cases hchoice
  · cases hchoice
    refine ⟨htasks, Finset.mem_erase.mpr ⟨nofun, hblocked⟩, ?_⟩
    intro q
    change (Function.update s.call p .idle q).enqueuing = false
    by_cases hqp : q = p
    · rw [hqp, Function.update_self]
      rfl
    · rw [Function.update_of_ne hqp]
      exact hnone q hqp

end Stranding

section Runs
variable [DecidableEq T] {s : System τ T} {actions : List (Action τ T)}
variable {es l r : List (StepEvent τ T)} {e : StepEvent τ T}

theorem exec_taskInv (h : exec System.step System.init actions = some (es, s)) : TaskInv es s :=
  exec_invariant TaskInv (fun _ _ _ _ _ hinv hstep => hinv.step (System.step_spec hstep))
    taskInv_init h

theorem exec_exitInv (h : exec System.step System.init actions = some (es, s)) : ExitInv s :=
  exec_invariant (fun _ s => ExitInv s)
    (fun _ _ _ _ _ hinv hstep => hinv.step (System.step_spec hstep)) exitInv_init h

theorem exec_mutexInv (h : exec System.step System.init actions = some (es, s)) : MutexInv s :=
  exec_invariant (fun _ s => MutexInv s)
    (fun _ _ _ _ _ hinv hstep => hinv.step (System.step_spec hstep)) mutexInv_init h

/-- Nothing is accepted from the moment the flag is set. -/
theorem accepted_nil_of_flag (h : exec System.step System.init actions = some (es, s))
    (hes : es = l ++ e :: r) (hset : e.before.shuttingDown = true) : accepted (e :: r) = [] := by
  subst hes
  refine List.filterMap_eq_nil_iff.mpr
    (exec_after_latch (Q := fun result => result.accepted? = none)
      (fun s => s.shuttingDown = true) ?_ ?_ h hset)
  · exact fun _ _ _ _ hflag hstep => shuttingDown_step (System.step_spec hstep) hflag
  · exact fun _ _ _ _ hflag hstep => accepts_nothing_of_flag (System.step_spec hstep) hflag

/-- When the worker has left, everything accepted is complete. -/
theorem completed_of_exited (h : exec System.step System.init actions = some (es, s))
    (hl : s.loop = .exited) : completed es = accepted es := by
  have hinv := exec_taskInv h
  refine hinv.all_completed ((exec_exitInv h).left (Or.inr hl)).2 ?_
  rw [hinv.inFlight, hl]
  rfl

/-- A drain and a shutdown return with everything complete. -/
theorem completed_of_returns (h : exec System.step System.init actions = some (es, s))
    (hes : es = l ++ e :: r) (hr : e.result = .drained ∨ e.result = .down) :
    completed l = accepted l := by
  obtain ⟨⟨is, hrun⟩, s', hstep⟩ := exec_events h l e r hes
  have hs := System.step_spec hstep
  rcases hr with hr | hr
  · rw [hr] at hs
    cases hs with
    | @unlockDrain p hp =>
      have hsaw := (exec_mutexInv hrun).saw p
      rw [hp] at hsaw
      exact (exec_taskInv hrun).all_completed hsaw.1 hsaw.2
  · rw [hr] at hs
    cases hs with
    | notJoinable hp hjoined => exact completed_of_exited hrun ((exec_exitInv hrun).joined hjoined)
    | join hp hl => exact completed_of_exited hrun hl

/-- `pending` returns the number of tasks that are accepted and not yet complete. -/
theorem pending_counts (h : exec System.step System.init actions = some (es, s))
    (hes : es = l ++ e :: r) {count : ℕ} (hr : e.result = .counted count) :
    count + (completed l).length = (accepted l).length := by
  obtain ⟨⟨is, hrun⟩, s', hstep⟩ := exec_events h l e r hes
  have hs := System.step_spec hstep
  rw [hr] at hs
  cases hs with
  | @unlockPending p _ hp =>
    have hsaw : count = e.before.tasks.length + e.before.inFlight := by
      have hlooked := (exec_mutexInv hrun).saw p
      rwa [hp] at hlooked
    rw [hsaw]
    exact (exec_taskInv hrun).count

/-- Tasks are started one at a time in the order in which they were accepted, the
queue and the counter account for all that are not complete, `drain` and `shutdown`
return with everything complete, and a submit that finds the flag set throws and
changes nothing. -/
theorem serialExecutor_tasks (h : exec System.step System.init actions = some (es, s)) :
    started es <+: accepted es ∧ (started es).Subperm (accepted es) ∧
    started es = finished es ++ s.loop.running?.toList ∧ completed es <+: finished es ∧
    s.tasks.length + s.inFlight + (completed es).length = (accepted es).length ∧
    (∀ l e r, es = l ++ e :: r → e.result = .drained ∨ e.result = .down →
      completed l = accepted l) ∧
    (∀ l e r, es = l ++ e :: r → e.before.shuttingDown = true → accepted (e :: r) = []) ∧
    (∀ p task choice, s.call p = .submitPush task → s.shuttingDown = true →
      s.step (.proceed p choice) = some (.silent, s.moveCall p (.submitUnlock false) s.monitor)) ∧
    ∀ p choice, s.call p = .submitUnlock false →
      s.step (.proceed p choice) =
        some (.threw "SerialExecutor is shutting down, cannot enqueue new tasks",
          s.moveCall p .idle s.monitor.unlock) := by
  have hinv := exec_taskInv h
  have hstarted : started es <+: accepted es := ⟨_, hinv.started_eq.symm⟩
  refine ⟨hstarted, hstarted.sublist.subperm, hinv.running, ⟨_, hinv.returned.symm⟩, hinv.count,
    fun l e r hes hr => completed_of_returns h hes hr,
    fun l e r hes hset => accepted_nil_of_flag h hes hset, ?_, ?_⟩
  · intro p task choice hp hflag
    simp [System.step, System.stepCall, hp, hflag]
  · intro p choice hp
    simp [System.step, System.stepCall, hp]

/-- No state of a run has work queued before a sleeping worker that nobody is about
to wake, if and only if no notification of the run is misdirected. -/
theorem serialExecutor_stranded_iff (h : exec System.step System.init actions = some (es, s)) :
    ((∀ e ∈ es, ¬ Stranded e.before) ∧ ¬ Stranded s) ↔
      ∀ e ∈ es, ¬ Misdirected e.before e.call := by
  refine exec_forall_iff MutexInv (fun s => ¬ Stranded s) Misdirected ?_ ?_ ?_ mutexInv_init ?_ h
  · exact fun _ _ _ _ hinv hstep => hinv.step (System.step_spec hstep)
  · intro s a r s' hinv hgood hno hstep hstranded
    rcases stranded_step hinv (System.step_spec hstep) hstranded with hold | hbad
    · exact hgood hold
    · exact hno hbad
  · exact fun _ _ _ _ _ hbad hstep hgood => hgood (stranded_of_misdirected hbad hstep)
  · exact fun hstranded => hstranded.1 rfl

end Runs

/-- A task submits another one; a drain waits for both, a shutdown joins the worker,
and a last submit comes too late. -/
def taskSubmits : List (Action ℕ Bool) :=
  [.submit (.caller false) 1, .proceed (.caller false) none, .proceed (.caller false) none,
    .proceed (.caller false) none, .proceed (.caller false) none, .work, .work, .work,
    .drain true, .proceed (.caller true) none, .proceed (.caller true) none,
    .submit .worker 2, .proceed .worker none, .proceed .worker none, .proceed .worker none,
    .proceed .worker (some (.caller true)), .work, .work, .work, .work, .work, .work, .work, .work,
    .work, .proceed (.caller true) none, .proceed (.caller true) none,
    .proceed (.caller true) none, .shutdown true, .proceed (.caller true) none,
    .proceed (.caller true) none, .proceed (.caller true) none, .proceed (.caller true) none,
    .proceed (.caller true) none, .work, .work, .work, .proceed (.caller true) none,
    .submit (.caller false) 3, .proceed (.caller false) none, .proceed (.caller false) none,
    .proceed (.caller false) none]

theorem serialExecutor_tasks_taskSubmits :
    ∃ es s, exec System.step System.init taskSubmits = some (es, s) ∧
      accepted es = [1, 2] ∧ started es = [1, 2] ∧ s.joined = true ∧
      started es <+: accepted es := by
  have hrun : exec System.step System.init taskSubmits = some (_, _) := rfl
  exact ⟨_, _, hrun, rfl, rfl, rfl, (serialExecutor_tasks hrun).1⟩

/-- The worker sleeps, a task is pushed, and a drain falls asleep before the
notification. -/
def drainSlipsIn : List (Action ℕ Bool) :=
  [.work, .work, .submit (.caller false) 7, .proceed (.caller false) none,
    .proceed (.caller false) none, .proceed (.caller false) none, .drain true,
    .proceed (.caller true) none, .proceed (.caller true) none]

theorem serialExecutor_stranded_iff_drainSlipsIn :
    ∃ es s, exec System.step System.init
        (drainSlipsIn ++ [.proceed (.caller false) (some .worker)]) = some (es, s) ∧
      s.tasks = [7] ∧ s.call (.caller true) = .drainWait ∧
      (((∀ e ∈ es, ¬ Stranded e.before) ∧ ¬ Stranded s) ↔
        ∀ e ∈ es, ¬ Misdirected e.before e.call) := by
  have hrun : exec System.step System.init
      (drainSlipsIn ++ [.proceed (.caller false) (some .worker)]) = some (_, _) := rfl
  exact ⟨_, _, hrun, rfl, rfl, serialExecutor_stranded_iff hrun⟩

/-- The notification wakes the drain, and the worker sleeps on. -/
theorem serialExecutor_strands_task :
    ∃ es s, exec System.step System.init
        (drainSlipsIn ++ [.proceed (.caller false) (some (.caller true))]) = some (es, s) ∧
      Stranded s := by
  refine ⟨_, _, rfl, nofun, by decide, ?_⟩
  rintro (_ | t)
  · rfl
  · cases t
    · rfl
    · rfl

end HftExercises.SerialExecutor
