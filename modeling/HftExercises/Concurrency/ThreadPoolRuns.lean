import Mathlib.Data.List.Perm.Subperm
import HftExercises.Concurrency.ThreadPoolInvariant

/-! # Runs of the thread pool

Nothing is accepted after the flag, so the shutdown that joins all workers finds
nothing left. A shutdown that finds the flag already set does not join, and may
return while workers are still busy.
-/
namespace HftExercises.ThreadPool
variable {τ T : Type*} {n : ℕ}

section Runs
variable [DecidableEq T] {s : System τ n T} {actions : List (Action τ n T)}
variable {es l r : List (StepEvent τ n T)} {e : StepEvent τ n T}

theorem exec_taskInv [DecidableEq τ]
    (h : exec System.step System.init actions = some (es, s)) : TaskInv es s :=
  exec_invariant TaskInv (fun _ _ _ _ _ hinv hstep => hinv.step (System.step_spec hstep))
    taskInv_init h

theorem exec_workerInv (hn : 0 < n) (h : exec System.step System.init actions = some (es, s)) :
    WorkerInv s :=
  exec_invariant (fun _ s => WorkerInv s)
    (fun _ _ _ _ _ hinv hstep => hinv.step hn (System.step_spec hstep)) workerInv_init h

/-- Nothing is accepted from the moment the flag is set. -/
theorem accepted_nil_of_flag (h : exec System.step System.init actions = some (es, s))
    (hes : es = l ++ e :: r) (hset : e.before.shuttingDown = true) : accepted (e :: r) = [] := by
  subst hes
  refine List.filterMap_eq_nil_iff.mpr
    (exec_after_latch (Q := fun result => result.accepted? = none)
      (fun s => s.shuttingDown = true) ?_ ?_ h hset)
  · exact fun _ _ _ _ hflag hstep => shuttingDown_step (System.step_spec hstep) hflag
  · exact fun _ _ _ _ hflag hstep => accepts_nothing_of_flag (System.step_spec hstep) hflag

/-- When every worker has left, everything that was accepted is complete. -/
theorem completed_perm_of_exited (hn : 0 < n)
    (h : exec System.step System.init actions = some (es, s)) (hexit : ∀ i, s.loop i = .exited) :
    s.tasks = [] ∧ (completed es).Perm (accepted es) := by
  classical
  have htasks := ((exec_workerInv hn h).left ⟨0, hn⟩ (Or.inr (hexit ⟨0, hn⟩))).2
  refine ⟨htasks, List.perm_iff_count.mpr ?_⟩
  intro x
  have hinv := exec_taskInv h
  have hpop : countAt (Loop.hasPopped x) s.loop = 0 :=
    countAt_eq_zero.mpr fun i => by rw [hexit i]; rfl
  have hrun : countAt (Loop.runs x) s.loop = 0 :=
    countAt_eq_zero.mpr fun i => by rw [hexit i]; rfl
  have hhand := hinv.inHand x
  have hrunning := hinv.running x
  rw [hinv.fifo, htasks, List.append_nil]
  omega

/-- A started task was taken from the queue, and no task is started more often
than it was taken. -/
theorem started_subperm_taken (h : exec System.step System.init actions = some (es, s)) :
    (started es).Subperm (taken es) := by
  classical
  refine List.subperm_ext_iff.mpr ?_
  intro x _
  have hhand := (exec_taskInv h).inHand x
  omega

/-- The state in which a call of the run returned. -/
theorem exec_split (h : exec System.step System.init actions = some (es, s))
    (hes : es = l ++ e :: r) :
    (∃ is, exec System.step System.init is = some (l, e.before)) ∧
      ∃ s', StepSpec e.before e.call e.result s' := by
  obtain ⟨hrun, s', hstep⟩ := exec_events h l e r hes
  exact ⟨hrun, s', System.step_spec hstep⟩

/-- The shutdown that joins finds every worker gone and every task complete. -/
theorem joined_finds_all_done (hn : 0 < n)
    (h : exec System.step System.init actions = some (es, s)) (hes : es = l ++ e :: r)
    (hr : e.result = .joined) :
    (∀ i, e.before.loop i = .exited) ∧ e.before.tasks = [] ∧
      (completed l).Perm (accepted l) := by
  obtain ⟨⟨is, hrun⟩, s', hs⟩ := exec_split h hes
  rw [hr] at hs
  have hexit : ∀ i, e.before.loop i = .exited := by
    cases hs with
    | joined hp => exact fun i => (exec_workerInv hn hrun).joining _ _ hp i List.not_mem_nil
  exact ⟨hexit, completed_perm_of_exited hn hrun hexit⟩

/-- Tasks leave the queue in the order in which they were accepted and none is
started twice, the shutdown that set the flag leaves nothing queued or running when
it returns, nothing is accepted after the flag, and no queued task is stranded. -/
theorem threadPool_tasks {nThreads : ℕ} {s : System τ (workerCount nThreads) T}
    {actions : List (Action τ (workerCount nThreads) T)}
    {es : List (StepEvent τ (workerCount nThreads) T)}
    (h : exec System.step System.init actions = some (es, s)) :
    accepted es = taken es ++ s.tasks ∧ (started es).Subperm (taken es) ∧
    (∀ l e r, es = l ++ e :: r → e.result = .joined →
      (∀ i, e.before.loop i = .exited) ∧ e.before.tasks = [] ∧ (completed l).Perm (accepted l)) ∧
    (∀ l e r, es = l ++ e :: r → e.before.shuttingDown = true → accepted (e :: r) = []) ∧
    ¬ Stranded s := by
  have hn := workerCount_pos nThreads
  refine ⟨?_, started_subperm_taken h, ?_, ?_, ?_⟩
  · classical
    exact (exec_taskInv h).fifo
  · exact fun l e r hes hr => joined_finds_all_done hn h hes hr
  · exact fun l e r hes hset => accepted_nil_of_flag h hes hset
  · rintro ⟨htasks, hsleep, hpending⟩
    rcases (exec_workerInv hn h).awake htasks with ⟨i, hi⟩ | ⟨p, hp⟩
    · exact hi (hsleep i)
    · rw [hpending p] at hp
      cases hp

/-- A shutdown finds the flag set and is about to return without a join. -/
def System.returnsEarly (s : System τ n T) : Action τ n T → Bool
  | .proceed p _ =>
    match s.call p with
    | .downSet => s.shuttingDown
    | _ => false
  | _ => false

/-- No shutdown of the run takes the early return while a worker has not left. -/
def EarlyReturnsLate (es : List (StepEvent τ n T)) : Prop :=
  ∀ e ∈ es, e.before.returnsEarly e.call = true → ∀ i, e.before.loop i = .exited

instance decidableEarlyReturnsLate [DecidableEq τ] (es : List (StepEvent τ n T)) :
    Decidable (EarlyReturnsLate es) :=
  inferInstanceAs (Decidable (∀ e ∈ es, e.before.returnsEarly e.call = true →
    ∀ i, e.before.loop i = .exited))

theorem exited_step {s s' : System τ n T} {a : Action τ n T} {r : StepResult τ}
    (hs : StepSpec s a r s') {i : Fin n} (hi : s.loop i = .exited) : s'.loop i = .exited := by
  cases hs with
  | lockLoop hj hm =>
    refine exited_update ?_ hi
    rcases hj with hj | hj
    · rw [hj]
      exact nofun
    · rw [hj]
      exact nofun
  | sleep hj _ => exact exited_update (by rw [hj]; exact nofun) hi
  | leave hj _ _ => exact exited_update (by rw [hj]; exact nofun) hi
  | take hj _ => exact exited_update (by rw [hj]; exact nofun) hi
  | start hj => exact exited_update (by rw [hj]; exact nofun) hi
  | complete hj _ => exact exited_update (by rw [hj]; exact nofun) hi
  | exit hj => exact exited_update (by rw [hj]; exact nofun) hi
  | _ => exact hi

/-- A call on its way out of the early return came there through the set flag. -/
theorem early_step {s s' : System τ n T} {a : Action τ n T} {r : StepResult τ}
    (hs : StepSpec s a r s') {p : Party n T} (hp : s'.call p = .downUnlock false) :
    s.call p = .downUnlock false ∨ s.returnsEarly a = true := by
  have hmove : ∀ {q : Party n T} {c : Call τ n}, Function.update s.call q c p = .downUnlock false →
      c ≠ .downUnlock false → s.call p = .downUnlock false := by
    intro q c hq hc
    rcases update_cases (· = Call.downUnlock false) hq with ⟨_, heq⟩ | ⟨_, heq⟩
    · exact absurd heq hc
    · exact heq
  cases hs with
  | findFlag ha hq hflag =>
    exact Or.inr (by simp [System.returnsEarly, ha, hq, hflag])
  | beginSubmit _ => exact Or.inl (hmove hp nofun)
  | beginDown _ => exact Or.inl (hmove hp nofun)
  | lockSubmit _ _ => exact Or.inl (hmove hp nofun)
  | push _ _ => exact Or.inl (hmove hp nofun)
  | refuse _ _ => exact Or.inl (hmove hp nofun)
  | unlockSubmit _ => exact Or.inl (hmove hp nofun)
  | unlockRefused _ => exact Or.inl (hmove hp nofun)
  | notifyOne _ _ => exact Or.inl (hmove hp nofun)
  | lockDown _ _ => exact Or.inl (hmove hp nofun)
  | setFlag _ _ => exact Or.inl (hmove hp nofun)
  | unlockDown _ => exact Or.inl (hmove hp nofun)
  | unlockEarly _ => exact Or.inl (hmove hp nofun)
  | notifyAll _ => exact Or.inl (hmove hp nofun)
  | joinOne _ _ => exact Or.inl (hmove hp nofun)
  | joined _ => exact Or.inl (hmove hp nofun)
  | _ => exact Or.inl hp

omit [DecidableEq T] in
theorem EarlyReturnsLate.of_append {es fs : List (StepEvent τ n T)}
    (h : EarlyReturnsLate (es ++ fs)) : EarlyReturnsLate es :=
  fun e he => h e (List.mem_append_left fs he)

theorem early_finds_exited (h : exec System.step System.init actions = some (es, s))
    (hlate : EarlyReturnsLate es) {p : Party n T} (hp : s.call p = .downUnlock false) (i : Fin n) :
    s.loop i = .exited := by
  refine exec_invariant (fun es s => EarlyReturnsLate es →
    ∀ p, s.call p = .downUnlock false → ∀ i, s.loop i = .exited) ?_ ?_ h hlate p hp i
  · intro es s a r s' hprev hstep hlate p hp i
    have hs := System.step_spec hstep
    apply exited_step hs
    rcases early_step hs hp with hold | hearly
    · exact hprev hlate.of_append p hold i
    · exact hlate ⟨s, a, r⟩ (by simp) hearly i
  · intro _ p hp
    cases hp

/-- Whichever shutdown returns, everything accepted before is complete and every
worker has left, in every run in which no shutdown takes the early return while a
worker is still there. -/
theorem threadPool_shutdown_of_late {nThreads : ℕ} {s : System τ (workerCount nThreads) T}
    {actions : List (Action τ (workerCount nThreads) T)}
    {es : List (StepEvent τ (workerCount nThreads) T)}
    (h : exec System.step System.init actions = some (es, s)) (hlate : EarlyReturnsLate es)
    (l : List (StepEvent τ (workerCount nThreads) T)) (e : StepEvent τ (workerCount nThreads) T)
    (r : List (StepEvent τ (workerCount nThreads) T)) (hes : es = l ++ e :: r)
    (hr : e.result = .joined ∨ e.result = .alreadyDown) :
    (completed l).Perm (accepted l) ∧ ∀ i, e.before.loop i = .exited := by
  have hn := workerCount_pos nThreads
  rcases hr with hr | hr
  · obtain ⟨hexit, _, hperm⟩ := joined_finds_all_done hn h hes hr
    exact ⟨hperm, hexit⟩
  · obtain ⟨⟨is, hrun⟩, s', hs⟩ := exec_split h hes
    have hexit : ∀ i, e.before.loop i = .exited := by
      rw [hr] at hs
      cases hs with
      | unlockEarly hp =>
        subst hes
        exact early_finds_exited hrun hlate.of_append hp
    exact ⟨(completed_perm_of_exited hn hrun hexit).2, hexit⟩

end Runs

def onlyWorker : Fin (workerCount 0) := ⟨0, workerCount_pos 0⟩

/-- The worker sleeps before the task is there; the notification wakes it. -/
def wokenForTask : List (Action ℕ (workerCount 0) Bool) :=
  [.work onlyWorker, .work onlyWorker, .submit (.caller true) 7, .proceed (.caller true) none,
    .proceed (.caller true) none, .proceed (.caller true) none,
    .proceed (.caller true) (some (.worker onlyWorker)), .work onlyWorker, .work onlyWorker,
    .work onlyWorker]

theorem threadPool_tasks_wokenForTask :
    ∃ es s, exec System.step System.init wokenForTask = some (es, s) ∧
      s.loop onlyWorker = .running 7 ∧ accepted es = [7] ∧ accepted es = taken es ++ s.tasks := by
  have hrun : exec System.step System.init wokenForTask = some (_, _) := rfl
  exact ⟨_, _, hrun, rfl, rfl, (threadPool_tasks hrun).1⟩

/-- Two shutdowns one after the other: the second finds the flag set, and the
worker gone. -/
def shutdownTwice : List (Action ℕ (workerCount 0) Bool) :=
  [.shutdown true, .proceed (.caller true) none, .proceed (.caller true) none,
    .proceed (.caller true) none, .proceed (.caller true) none, .work onlyWorker,
    .work onlyWorker, .work onlyWorker, .proceed (.caller true) none,
    .proceed (.caller true) none, .shutdown false, .proceed (.caller false) none,
    .proceed (.caller false) none, .proceed (.caller false) none]

theorem threadPool_shutdown_of_late_shutdownTwice :
    ∃ es s, exec System.step System.init shutdownTwice = some (es, s) ∧ EarlyReturnsLate es ∧
      (∃ e ∈ es, e.result = .alreadyDown) ∧
      ∀ l e r, es = l ++ e :: r → e.result = .joined ∨ e.result = .alreadyDown →
        (completed l).Perm (accepted l) ∧ ∀ i, e.before.loop i = .exited := by
  have hcheck : ((exec System.step System.init shutdownTwice).map fun p =>
      (decide (EarlyReturnsLate p.1), decide (∃ e ∈ p.1, e.result = .alreadyDown))) =
      some (true, true) := by decide
  obtain ⟨⟨es, s⟩, hrun, hpair⟩ := Option.map_eq_some_iff.mp hcheck
  obtain ⟨hlate, hearly⟩ := Prod.mk.inj hpair
  have hlate : EarlyReturnsLate es := of_decide_eq_true hlate
  exact ⟨es, s, hrun, hlate, of_decide_eq_true hearly, threadPool_shutdown_of_late hrun hlate⟩

/-- A second shutdown is called while the first one waits for the worker, which
runs an accepted task. -/
def shutdownTwiceAtOnce : List (Action ℕ (workerCount 0) Bool) :=
  [.submit (.caller false) 7, .proceed (.caller false) none, .proceed (.caller false) none,
    .proceed (.caller false) none, .proceed (.caller false) none, .work onlyWorker,
    .work onlyWorker, .work onlyWorker, .shutdown true, .proceed (.caller true) none,
    .proceed (.caller true) none, .proceed (.caller true) none, .proceed (.caller true) none,
    .shutdown false, .proceed (.caller false) none, .proceed (.caller false) none,
    .proceed (.caller false) none]

/-- The second shutdown returns with the task still running. -/
theorem threadPool_returns_early :
    ∃ es s l e, exec System.step System.init shutdownTwiceAtOnce = some (es, s) ∧
      es = l ++ [e] ∧ e.result = .alreadyDown ∧ e.before.loop onlyWorker = .running 7 ∧
      accepted l = [7] ∧ completed l = [] := by
  have hcheck : ((exec System.step System.init shutdownTwiceAtOnce).map fun p =>
      (p.1.getLast?.map fun e => (e.result, e.before.loop onlyWorker),
        accepted p.1.dropLast, completed p.1.dropLast)) =
      some (some (.alreadyDown, .running 7), [7], []) := by decide
  obtain ⟨⟨es, s⟩, hrun, hfacts⟩ := Option.map_eq_some_iff.mp hcheck
  obtain ⟨hlast, haccepted, hcompleted⟩ : _ ∧ accepted es.dropLast = [7] ∧
      completed es.dropLast = [] := by simpa using hfacts
  obtain ⟨e, he, hresult, hloop⟩ : ∃ e, es.getLast? = some e ∧ e.result = .alreadyDown ∧
      e.before.loop onlyWorker = .running 7 := by simpa using hlast
  exact ⟨es, s, es.dropLast, e, hrun, (List.dropLast_append_getLast? e he).symm, hresult, hloop,
    haccepted, hcompleted⟩

end HftExercises.ThreadPool
