import HftExercises.Concurrency.ThreadPool
import HftExercises.Core.ThreadCount

/-! # Where the tasks and the workers of the pool are

Every accepted task is in the queue, in the hands of a worker, running or
complete, and the queue gives tasks out in the order in which it took them. A
worker leaves only when the flag is set and the queue is empty. Each of these is
kept by every step.
-/
namespace HftExercises.ThreadPool
variable {τ T : Type*} {n : ℕ}

def Loop.hasPopped [DecidableEq τ] (x : τ) (l : Loop τ) : Bool := decide (l = .popped x)

def Loop.runs [DecidableEq τ] (x : τ) (l : Loop τ) : Bool := decide (l = .running x)

/-- Where the accepted tasks are. -/
structure TaskInv [DecidableEq τ] (es : List (StepEvent τ n T)) (s : System τ n T) : Prop where
  fifo : accepted es = taken es ++ s.tasks
  inHand : ∀ x, (taken es).count x = (started es).count x + countAt (Loop.hasPopped x) s.loop
  running : ∀ x, (started es).count x = (completed es).count x + countAt (Loop.runs x) s.loop

/-- Workers leave an empty queue that stays empty, a join passes over workers that
have left, and while work is queued somebody is awake or about to be woken. -/
structure WorkerInv (s : System τ n T) : Prop where
  left : ∀ i, s.loop i = .leaving ∨ s.loop i = .exited → s.shuttingDown = true ∧ s.tasks = []
  joining : ∀ p remaining, s.call p = .downJoin remaining →
    ∀ i, i ∉ remaining → s.loop i = .exited
  sleepers : ∀ p ∈ s.monitor.blocked, ∃ i, p = .worker i
  awake : s.tasks ≠ [] → (∃ i, Party.worker i ∉ s.monitor.blocked) ∨ ∃ p, (s.call p).pending = true

section Init

theorem taskInv_init [DecidableEq τ] : TaskInv [] (System.init : System τ n T) where
  fifo := rfl
  inHand := fun x => by
    have hnone := countAt_const (T := Fin n) (p := Loop.hasPopped x) (c := .locking) (by simp [Loop.hasPopped])
    simpa [taken, started, System.init] using hnone.symm
  running := fun x => by
    have hnone := countAt_const (T := Fin n) (p := Loop.runs x) (c := .locking) (by simp [Loop.runs])
    simpa [started, completed, System.init] using hnone.symm

theorem workerInv_init : WorkerInv (System.init : System τ n T) where
  left := by
    rintro i (h | h)
    · cases h
    · cases h
  joining := nofun
  sleepers := by simp [System.init, Monitor.init]
  awake := fun h => absurd rfl h

end Init

section Tasks
variable {s s' : System τ n T} {a : Action τ n T} {r : StepResult τ} {es : List (StepEvent τ n T)}

theorem accepted_append (es : List (StepEvent τ n T)) (e : StepEvent τ n T) :
    accepted (es ++ [e]) = accepted es ++ e.result.accepted?.toList :=
  filterMap_append_singleton _ es e

theorem taken_append (es : List (StepEvent τ n T)) (e : StepEvent τ n T) :
    taken (es ++ [e]) = taken es ++ e.result.took?.toList :=
  filterMap_append_singleton _ es e

theorem started_append (es : List (StepEvent τ n T)) (e : StepEvent τ n T) :
    started (es ++ [e]) = started es ++ e.result.started?.toList :=
  filterMap_append_singleton _ es e

theorem completed_append (es : List (StepEvent τ n T)) (e : StepEvent τ n T) :
    completed (es ++ [e]) = completed es ++ e.result.completed?.toList :=
  filterMap_append_singleton _ es e

variable [DecidableEq τ]

theorem Loop.hasPopped_toNat (x task : τ) :
    ((Loop.popped task).hasPopped x).toNat = [task].count x := by
  by_cases h : task = x <;> simp [Loop.hasPopped, h]

theorem Loop.runs_toNat (x task : τ) : ((Loop.running task).runs x).toNat = [task].count x := by
  by_cases h : task = x <;> simp [Loop.runs, h]

/-- What one step owes each list: what it adds to one place it takes from another. -/
theorem TaskInv.of_balance (h : TaskInv es s)
    (hfifo : s.tasks ++ r.accepted?.toList = r.took?.toList ++ s'.tasks)
    (hhand : ∀ x, r.took?.toList.count x + countAt (Loop.hasPopped x) s.loop =
      r.started?.toList.count x + countAt (Loop.hasPopped x) s'.loop)
    (hrun : ∀ x, r.started?.toList.count x + countAt (Loop.runs x) s.loop =
      r.completed?.toList.count x + countAt (Loop.runs x) s'.loop) :
    TaskInv (es ++ [⟨s, a, r⟩]) s' := by
  refine ⟨?_, ?_, ?_⟩
  · rw [accepted_append, taken_append]
    exact append_handover h.fifo hfifo
  · intro x
    have hold := h.inHand x
    have hstep := hhand x
    rw [taken_append, started_append, List.count_append, List.count_append]
    dsimp only
    omega
  · intro x
    have hold := h.running x
    have hstep := hrun x
    rw [started_append, completed_append, List.count_append, List.count_append]
    dsimp only
    omega

/-- A worker moves between places where it has no task. -/
theorem TaskInv.moveLoop (h : TaskInv es s) {i : Fin n} {l : Loop τ} {m : Monitor (Party n T)}
    (hs : ∀ x, (s.loop i).hasPopped x = false ∧ (s.loop i).runs x = false)
    (hl : ∀ x, l.hasPopped x = false ∧ l.runs x = false) :
    TaskInv (es ++ [⟨s, a, .silent⟩]) (s.moveLoop i l m) := by
  refine h.of_balance (List.append_nil _) ?_ ?_
  · intro x
    exact congrArg _ (countAt_update_same ((hl x).1.trans (hs x).1.symm)).symm
  · intro x
    exact congrArg _ (countAt_update_same ((hl x).2.trans (hs x).2.symm)).symm

theorem TaskInv.take (h : TaskInv es s) {i : Fin n} {task : τ} {rest : List τ}
    {m : Monitor (Party n T)} (hi : s.loop i = .checking) (htasks : s.tasks = task :: rest) :
    TaskInv (es ++ [⟨s, a, .took task⟩]) { s.moveLoop i (.popped task) m with tasks := rest } := by
  refine h.of_balance ?_ ?_ ?_
  · rw [htasks]
    exact List.append_nil _
  · intro x
    have hmove := countAt_update (Loop.hasPopped x) s.loop i (.popped task)
    rw [hi, Loop.hasPopped_toNat] at hmove
    change [task].count x + _ = 0 + countAt _ (Function.update s.loop i (.popped task))
    change _ + 0 = _ at hmove
    omega
  · intro x
    exact congrArg _ (countAt_update_same (by rw [hi]; rfl)).symm

theorem TaskInv.start (h : TaskInv es s) {i : Fin n} {task : τ} {m : Monitor (Party n T)}
    (hi : s.loop i = .popped task) :
    TaskInv (es ++ [⟨s, a, .started task⟩]) (s.moveLoop i (.running task) m) := by
  refine h.of_balance (List.append_nil _) ?_ ?_
  · intro x
    have hmove := countAt_update (Loop.hasPopped x) s.loop i (.running task)
    rw [hi, Loop.hasPopped_toNat] at hmove
    change 0 + _ = [task].count x + countAt _ (Function.update s.loop i (.running task))
    change _ = _ + 0 at hmove
    omega
  · intro x
    have hmove := countAt_update (Loop.runs x) s.loop i (.running task)
    rw [hi, Loop.runs_toNat] at hmove
    change [task].count x + _ = 0 + countAt _ (Function.update s.loop i (.running task))
    change _ + 0 = _ at hmove
    omega

theorem TaskInv.complete (h : TaskInv es s) {i : Fin n} {task : τ} {m : Monitor (Party n T)}
    (hi : s.loop i = .running task) :
    TaskInv (es ++ [⟨s, a, .completed task⟩]) (s.moveLoop i .locking m) := by
  refine h.of_balance (List.append_nil _) ?_ ?_
  · intro x
    exact congrArg _ (countAt_update_same (by rw [hi]; rfl)).symm
  · intro x
    have hmove := countAt_update (Loop.runs x) s.loop i .locking
    rw [hi, Loop.runs_toNat] at hmove
    change 0 + _ = [task].count x + countAt _ (Function.update s.loop i .locking)
    change _ = _ + 0 at hmove
    omega

variable [DecidableEq T]

/-- A call moves: no task does. -/
theorem TaskInv.moveCall (h : TaskInv es s) {p : Party n T} {c : Call τ n}
    {m : Monitor (Party n T)} (hacc : r.accepted? = none) (htook : r.took? = none)
    (hstart : r.started? = none) (hdone : r.completed? = none) :
    TaskInv (es ++ [⟨s, a, r⟩]) (s.moveCall p c m) := by
  refine h.of_balance ?_ ?_ ?_
  · rw [hacc, htook]
    simp [System.moveCall]
  · intro x
    rw [htook, hstart]
    rfl
  · intro x
    rw [hstart, hdone]
    rfl

theorem TaskInv.step (h : TaskInv es s) (hs : StepSpec s a r s') :
    TaskInv (es ++ [⟨s, a, r⟩]) s' := by
  cases hs with
  | stir hm => exact h.of_balance (List.append_nil _) (fun _ => rfl) fun _ => rfl
  | push hp hflag => exact h.of_balance rfl (fun _ => rfl) fun _ => rfl
  | setFlag hp hflag => exact h.of_balance (List.append_nil _) (fun _ => rfl) fun _ => rfl
  | @lockLoop i _ hi hm =>
    refine h.moveLoop ?_ fun _ => ⟨rfl, rfl⟩
    intro x
    rcases hi with hi | hi
    · rw [hi]
      exact ⟨rfl, rfl⟩
    · rw [hi]
      exact ⟨rfl, rfl⟩
  | sleep hi htasks => exact h.moveLoop (fun _ => by rw [hi]; exact ⟨rfl, rfl⟩) fun _ => ⟨rfl, rfl⟩
  | leave hi hflag htasks =>
    exact h.moveLoop (fun _ => by rw [hi]; exact ⟨rfl, rfl⟩) fun _ => ⟨rfl, rfl⟩
  | take hi htasks => exact h.take hi htasks
  | start hi => exact h.start hi
  | complete hi hidle => exact h.complete hi
  | exit hi => exact h.moveLoop (fun _ => by rw [hi]; exact ⟨rfl, rfl⟩) fun _ => ⟨rfl, rfl⟩
  | _ => exact h.moveCall rfl rfl rfl rfl

end Tasks

section Workers
variable {s s' : System τ n T} {a : Action τ n T} {r : StepResult τ}

theorem exited_update {i j : Fin n} {l : Loop τ} (hi : s.loop i ≠ .exited)
    (hj : s.loop j = .exited) : Function.update s.loop i l j = .exited := by
  have hne : j ≠ i := by
    rintro rfl
    exact hi hj
  rw [Function.update_of_ne hne]
  exact hj

/-- A worker moves, with an eye on whether it has left. -/
theorem WorkerInv.moveLoop (h : WorkerInv s) {i : Fin n} {l : Loop τ} {m : Monitor (Party n T)}
    {tasks : List τ} (hi : s.loop i ≠ .exited) (hb : m.blocked ⊆ s.monitor.blocked)
    (htasks : tasks ≠ [] → s.tasks ≠ [])
    (hl : l = .leaving ∨ l = .exited → s.shuttingDown = true ∧ s.tasks = []) :
    WorkerInv { s.moveLoop i l m with tasks := tasks } where
  left := by
    have hempty : s.tasks = [] → tasks = [] := fun he => by_contra fun hne => htasks hne he
    intro j hj
    rcases update_cases (fun l => l = Loop.leaving ∨ l = Loop.exited) hj with ⟨_, hout⟩ | ⟨_, hout⟩
    · exact ⟨(hl hout).1, hempty (hl hout).2⟩
    · exact ⟨(h.left j hout).1, hempty (h.left j hout).2⟩
  joining := fun q remaining hq j hj => exited_update hi (h.joining q remaining hq j hj)
  sleepers := fun q hq => h.sleepers q (hb hq)
  awake := by
    intro hne
    rcases h.awake (htasks hne) with ⟨j, hj⟩ | hpending
    · exact Or.inl ⟨j, fun hmem => hj (hb hmem)⟩
    · exact Or.inr hpending

variable [DecidableEq T]

theorem WorkerInv.joining_update (h : WorkerInv s) {p : Party n T} {c : Call τ n}
    (hc : ∀ remaining, c = .downJoin remaining → ∀ i, i ∉ remaining → s.loop i = .exited)
    (q : Party n T) (remaining : List (Fin n))
    (hq : Function.update s.call p c q = .downJoin remaining) (i : Fin n) (hi : i ∉ remaining) :
    s.loop i = .exited := by
  rcases update_cases (· = Call.downJoin remaining) hq with ⟨_, hjoin⟩ | ⟨_, hjoin⟩
  · exact hc remaining hjoin i hi
  · exact h.joining q remaining hjoin i hi

theorem pending_update {call : Party n T → Call τ n} {p : Party n T} {c : Call τ n}
    (hc : (call p).pending = true → c.pending = true) (h : ∃ q, (call q).pending = true) :
    ∃ q, (Function.update call p c q).pending = true := by
  obtain ⟨q, hq⟩ := h
  by_cases hqp : q = p
  · subst hqp
    exact ⟨q, by rw [Function.update_self]; exact hc hq⟩
  · exact ⟨q, by rw [Function.update_of_ne hqp]; exact hq⟩

/-- A call moves without losing a notification. -/
theorem WorkerInv.moveCall (h : WorkerInv s) {p : Party n T} {c : Call τ n}
    {m : Monitor (Party n T)} (hb : m.blocked ⊆ s.monitor.blocked)
    (hpend : (s.call p).pending = true → c.pending = true)
    (hjoin : ∀ remaining, c = .downJoin remaining → ∀ i, i ∉ remaining → s.loop i = .exited) :
    WorkerInv (s.moveCall p c m) where
  left := h.left
  joining := h.joining_update hjoin
  sleepers := fun q hq => h.sleepers q (hb hq)
  awake := by
    intro htasks
    rcases h.awake htasks with ⟨i, hi⟩ | hpending
    · exact Or.inl ⟨i, fun hmem => hi (hb hmem)⟩
    · exact Or.inr (pending_update hpend hpending)

/-- After its notification a call need not be pending any more. -/
theorem WorkerInv.notify (h : WorkerInv s) {p : Party n T} {c : Call τ n}
    {m : Monitor (Party n T)} (hb : m.blocked ⊆ s.monitor.blocked)
    (hawake : ∃ i, Party.worker i ∉ m.blocked)
    (hjoin : ∀ remaining, c = .downJoin remaining → ∀ i, i ∉ remaining → s.loop i = .exited) :
    WorkerInv (s.moveCall p c m) where
  left := h.left
  joining := h.joining_update hjoin
  sleepers := fun q hq => h.sleepers q (hb hq)
  awake := fun _ => Or.inl hawake

/-- Whom a notification wakes is a worker; when it wakes nobody, nobody sleeps. -/
theorem WorkerInv.notified_worker (h : WorkerInv s) (hn : 0 < n) {choice : Option (Party n T)}
    {m : Monitor (Party n T)} (hm : s.monitor.notifyOne choice = some m) :
    m.blocked ⊆ s.monitor.blocked ∧ ∃ i, Party.worker i ∉ m.blocked := by
  rcases Monitor.notifyOne_eq_some hm with ⟨_, hempty, rfl⟩ | ⟨q, hq, _, rfl⟩
  · exact ⟨Finset.Subset.refl _, ⟨0, hn⟩, by simp [hempty]⟩
  · obtain ⟨i, rfl⟩ := h.sleepers q hq
    exact ⟨Finset.erase_subset _ _, i, Finset.notMem_erase _ _⟩

theorem WorkerInv.push (h : WorkerInv s) {p : Party n T} {task : τ}
    (hflag : s.shuttingDown = false) :
    WorkerInv { s.moveCall p (.submitUnlock true) s.monitor with tasks := s.tasks ++ [task] } where
  left := by
    intro i hi
    have hset := (h.left i hi).1
    rw [hflag] at hset
    cases hset
  joining := h.joining_update nofun
  sleepers := h.sleepers
  awake := fun _ => Or.inr ⟨p, by
    change (Function.update s.call p (.submitUnlock true) p).pending = true
    rw [Function.update_self]
    rfl⟩

theorem WorkerInv.sleep (h : WorkerInv s) {i : Fin n} (hi : s.loop i = .checking)
    (htasks : s.tasks = []) :
    WorkerInv (s.moveLoop i .sleeping (s.monitor.sleep (.worker i))) where
  left := by
    intro j hj
    rcases update_cases (fun l => l = Loop.leaving ∨ l = Loop.exited) hj with ⟨_, hout⟩ | ⟨_, hout⟩
    · exact hout.elim nofun nofun
    · exact h.left j hout
  joining := fun q remaining hq j hj =>
    exited_update (by rw [hi]; exact nofun) (h.joining q remaining hq j hj)
  sleepers := by
    intro q hq
    rcases Finset.mem_insert.mp hq with rfl | hq
    · exact ⟨i, rfl⟩
    · exact h.sleepers q hq
  awake := fun hne => absurd htasks hne

theorem WorkerInv.step (h : WorkerInv s) (hn : 0 < n) (hs : StepSpec s a r s') : WorkerInv s' := by
  cases hs with
  | stir hm =>
    obtain ⟨_, hb, _⟩ := Monitor.stir_eq_some hm
    have hsub := hb ▸ Finset.erase_subset _ _
    refine ⟨h.left, h.joining, fun q hq => h.sleepers q (hsub hq), ?_⟩
    intro htasks
    rcases h.awake htasks with ⟨i, hi⟩ | hpending
    · exact Or.inl ⟨i, fun hmem => hi (hsub hmem)⟩
    · exact Or.inr hpending
  | lockSubmit hp hm =>
    exact h.moveCall (Monitor.lock_eq_some hm).2.2.1.subset (by rw [hp]; exact nofun) nofun
  | push hp hflag => exact h.push hflag
  | notifyOne hp hm =>
    obtain ⟨hb, hawake⟩ := h.notified_worker hn hm
    exact h.notify hb hawake nofun
  | lockDown hp hm =>
    exact h.moveCall (Monitor.lock_eq_some hm).2.2.1.subset (by rw [hp]; exact nofun) nofun
  | @setFlag p hp hflag =>
    have hmove := h.moveCall (p := p) (c := .downUnlock true) (Finset.Subset.refl _)
      (by rw [hp]; exact nofun) nofun
    exact ⟨fun i hi => ⟨rfl, (hmove.left i hi).2⟩, hmove.joining, hmove.sleepers, hmove.awake⟩
  | notifyAll hp =>
    refine h.notify (Finset.empty_subset _) ⟨⟨0, hn⟩, Finset.notMem_empty _⟩ ?_
    intro remaining hc i hi
    cases hc
    exact absurd (List.mem_finRange i) hi
  | @joinOne p i remaining hp hi =>
    refine h.moveCall (Finset.Subset.refl _) (by rw [hp]; exact nofun) ?_
    intro remaining' hc j hj
    cases hc
    by_cases hji : j = i
    · subst hji
      exact hi
    · exact h.joining p _ hp j (List.not_mem_cons_of_ne_of_not_mem hji hj)
  | lockLoop hi hm =>
    refine h.moveLoop ?_ (Monitor.lock_eq_some hm).2.2.1.subset id ?_
    · rcases hi with hi | hi
      · rw [hi]
        exact nofun
      · rw [hi]
        exact nofun
    · exact fun hout => hout.elim nofun nofun
  | sleep hi htasks => exact h.sleep hi htasks
  | leave hi hflag htasks =>
    exact h.moveLoop (by rw [hi]; exact nofun) (Finset.Subset.refl _) id fun _ => ⟨hflag, htasks⟩
  | take hi htasks =>
    exact h.moveLoop (by rw [hi]; exact nofun) (Finset.Subset.refl _)
      (fun _ => by rw [htasks]; exact nofun) fun hout => hout.elim nofun nofun
  | start hi =>
    exact h.moveLoop (by rw [hi]; exact nofun) (Finset.Subset.refl _) id
      fun hout => hout.elim nofun nofun
  | complete hi hidle =>
    exact h.moveLoop (by rw [hi]; exact nofun) (Finset.Subset.refl _) id
      fun hout => hout.elim nofun nofun
  | exit hi =>
    exact h.moveLoop (by rw [hi]; exact nofun) (Finset.Subset.refl _) id fun _ => h.left _ (Or.inl hi)
  | beginSubmit hp => exact h.moveCall (Finset.Subset.refl _) (by rw [hp]; exact nofun) nofun
  | beginDown hp => exact h.moveCall (Finset.Subset.refl _) (by rw [hp]; exact nofun) nofun
  | refuse hp hflag => exact h.moveCall (Finset.Subset.refl _) (by rw [hp]; exact nofun) nofun
  | findFlag ha hp hflag => exact h.moveCall (Finset.Subset.refl _) (by rw [hp]; exact nofun) nofun
  | unlockSubmit hp => exact h.moveCall (Finset.Subset.refl _) (fun _ => rfl) nofun
  | unlockRefused hp => exact h.moveCall (Finset.Subset.refl _) (by rw [hp]; exact nofun) nofun
  | unlockDown hp => exact h.moveCall (Finset.Subset.refl _) (fun _ => rfl) nofun
  | unlockEarly hp => exact h.moveCall (Finset.Subset.refl _) (by rw [hp]; exact nofun) nofun
  | joined hp => exact h.moveCall (Finset.Subset.refl _) (by rw [hp]; exact nofun) nofun

end Workers

section Flag
variable [DecidableEq T] {s s' : System τ n T} {a : Action τ n T} {r : StepResult τ}

/-- The flag is never cleared. -/
theorem shuttingDown_step (hs : StepSpec s a r s') (h : s.shuttingDown = true) :
    s'.shuttingDown = true := by
  cases hs with
  | setFlag hp hflag => rfl
  | _ => exact h

theorem accepts_nothing_of_flag (hs : StepSpec s a r s') (h : s.shuttingDown = true) :
    r.accepted? = none := by
  cases hs with
  | push hp hflag =>
    rw [h] at hflag
    cases hflag
  | _ => rfl

end Flag

end HftExercises.ThreadPool
