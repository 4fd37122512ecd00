import HftExercises.Concurrency.LockFreeStackRuns
import HftExercises.Core.Retries

/-! # How long a call on the lock-free stack can take

An exchange fails for no reason, or because another thread has exchanged the head since it was
loaded. A thread that retries is paid for by the one that was faster.
-/
namespace HftExercises.LockFreeStack
variable {α T : Type*}

def Action.spurious : Action α T → Bool
  | .proceed _ spurious => spurious
  | _ => false

/-- The successful exchanges of one of the two heads. -/
def StepResult.updates : StepResult α → Bool
  | .pushed _ _ | .claimed _ | .popped _ _ => true
  | _ => false

/-- At a compare-exchange. -/
def Control.exchanging : Control α → Bool
  | .pushCas _ _ _ | .popCas _ _ | .retireCas _ _ _ _ => true
  | _ => false

/-- The steps until the end of the call, if every exchange succeeds. -/
def Control.remaining : Control α → ℕ
  | .idle => 0
  | .pushLink _ _ _ => 2
  | .pushCas _ _ _ => 1
  | .popNext _ => 5
  | .popCas _ _ => 4
  | .popTake _ => 3
  | .retireLink _ _ _ _ => 2
  | .retireCas _ _ _ _ => 1

/-- The head that a thread is going to exchange is not what it loaded. -/
def System.stale (s : System α T) (t : T) : Bool :=
  match s.control t with
  | .pushLink _ _ cur | .pushCas _ _ cur => s.head != cur
  | .popNext cur | .popCas cur _ => s.head != some cur
  | .retireLink _ _ _ r | .retireCas _ _ _ r => s.retired != r
  | _ => false

/-- What a thread still has to do: an exchange that is bound to fail costs two more steps. -/
def System.potential (s : System α T) (t : T) : ℕ :=
  (s.control t).remaining + 2 * (s.stale t).toNat

/-- The compare-exchange of a step fails whatever the word is. -/
def System.failsFor (s : System α T) (a : Action α T) : Bool :=
  a.spurious && (s.control a.thread).exchanging

section Progress
variable [DecidableEq T] {s s' : System α T} {a : Action α T} {r : StepResult α} {t : T}
  {c : Control α}

omit [DecidableEq T] in
theorem System.potential_le (s : System α T) (t : T) :
    s.potential t ≤ (s.control t).remaining + 2 := by
  have hle : (s.stale t).toNat ≤ 1 := Bool.toNat_le _
  rw [System.potential]
  omega

/-- A compare-exchange fails for no reason, or because the head is another one by now. -/
theorem exchange_fails (h : s.step a = some (r, s')) (ha : a.starts = false)
    (hc : (s.control a.thread).exchanging = true) (hr : r.updates = false) :
    a.spurious = true ∨ s.stale a.thread = true := by
  cases a with
  | push t value => cases ha
  | tryPop t => cases ha
  | proceed t spurious =>
    cases spurious with
    | true => exact Or.inl rfl
    | false =>
      refine Or.inr ?_
      cases ht : s.control t with
      | pushCas node value cur =>
        by_cases hhead : s.head = cur
        · have hstep : s.step (.proceed t false) =
              some (.pushed node value, { s.setControl t .idle with head := some node }) := by
            simp [System.step, System.proceed, ht, hhead, compareExchangeWeak]
          rw [hstep] at h
          cases h
          cases hr
        · simp [System.stale, Action.thread, ht, hhead]
      | popCas cur next =>
        by_cases hhead : s.head = some cur
        · have hstep : s.step (.proceed t false) =
              some (.claimed cur, { s.setControl t (.popTake cur) with head := next }) := by
            simp [System.step, System.proceed, ht, hhead, compareExchangeWeak]
          rw [hstep] at h
          cases h
          cases hr
        · simp [System.stale, Action.thread, ht, hhead]
      | retireCas node value cell last =>
        by_cases hretired : s.retired = last
        · have hstep : s.step (.proceed t false) =
              some (.popped node value, { s.setControl t .idle with retired := some cell }) := by
            simp [System.step, System.proceed, ht, hretired, compareExchangeWeak]
          rw [hstep] at h
          cases h
          cases hr
        · simp [System.stale, Action.thread, ht, hretired]
      | _ =>
        rw [Action.thread, ht] at hc
        cases hc

/-- Two more steps are paid for whenever an exchange fails. -/
theorem retry_paid (h : s.step a = some (r, s')) (ha : a.starts = false)
    (hc : (s.control a.thread).exchanging = true) (hr : r.updates = false) :
    (s.control a.thread).remaining + 2 ≤ s.potential a.thread + 2 * (s.failsFor a).toNat := by
  rw [System.potential, System.failsFor, hc, Bool.and_true]
  rcases exchange_fails h ha hc hr with hspurious | hstale
  · rw [hspurious]
    exact Nat.add_le_add_right (Nat.le_add_right ..) 2
  · rw [hstale]
    exact Nat.le_add_right ..

/-- The next look at the head is paid for by the start of the call or by the failed exchange. -/
theorem LoopHead.paid (h : s.step a = some (r, s')) (hr : r.updates = false)
    (ht : LoopHead s a a.thread) :
    6 ≤ s.potential a.thread + 6 * a.starts.toNat + 2 * (s.failsFor a).toNat := by
  rcases ht with ⟨-, ha⟩ | ⟨⟨cur, next, hc⟩, ha⟩
  · rw [ha, Bool.toNat_true]
    omega
  · have hpaid := retry_paid h ha (by rw [hc]; rfl) hr
    have hremaining : (s.control a.thread).remaining = 4 := by
      rw [hc]
      rfl
    omega

/-- A step of the thread itself. -/
theorem potential_step {live parked cells : List ℕ} (hshape : Shape s live parked cells)
    (h : s.step a = some (r, s')) :
    s'.potential a.thread + 1 ≤
      s.potential a.thread + 6 * a.starts.toNat + 2 * (s.failsFor a).toNat := by
  cases System.step_spec h with
  | @startPush _ value hthread ha ht =>
    subst hthread
    have hafter : (s.startPush a.thread value).potential a.thread = 2 := by
      simp [System.potential, System.stale, System.startPush, System.setControl, Control.remaining]
    rw [hafter, ha, Bool.toNat_true]
    omega
  | empty hthread ht hhead =>
    subst hthread
    have hafter : (s.setControl a.thread .idle).potential a.thread = 0 := by
      simp [System.potential, System.stale, System.setControl, Control.remaining]
    have hpaid := ht.paid h rfl
    omega
  | @load _ cur hthread ht hhead =>
    subst hthread
    have hafter : (s.setControl a.thread (.popNext cur)).potential a.thread = 5 := by
      simp [System.potential, System.stale, System.setControl, Control.remaining, hhead]
    have hpaid := ht.paid h rfl
    omega
  | link hthread ha ht =>
    subst hthread
    simp only [System.potential, System.stale, System.setControl, Function.update_self, ht,
      Control.remaining]
    omega
  | @retry _ node value cur hthread ha ht =>
    subst hthread
    have hafter : (s.setControl a.thread (.pushLink node value s.head)).potential a.thread = 2 := by
      simp [System.potential, System.stale, System.setControl, Control.remaining]
    have hpaid := retry_paid h ha (by rw [ht]; rfl) rfl
    have hremaining : (s.control a.thread).remaining = 1 := by
      rw [ht]
      rfl
    omega
  | push hthread ha ht =>
    subst hthread
    simp only [System.potential, System.stale, System.setControl, Function.update_self, ht,
      Control.remaining, Bool.toNat_false]
    omega
  | readNext hthread ha ht =>
    subst hthread
    simp only [System.potential, System.stale, System.setControl, Function.update_self, ht,
      Control.remaining]
    omega
  | fault _ _ ht hvalue => exact absurd hvalue (hshape.no_fault ht)
  | claim hthread ha ht hhead =>
    subst hthread
    simp only [System.potential, System.stale, System.setControl, Function.update_self, ht,
      Control.remaining, Bool.toNat_false]
    omega
  | startRetire hthread ha ht hvalue =>
    subst hthread
    simp only [System.potential, System.stale, System.startRetire, System.setControl,
      Function.update_self, ht, Control.remaining, bne_self_eq_false, Bool.toNat_false]
    omega
  | linkCell hthread ha ht =>
    subst hthread
    simp only [System.potential, System.stale, System.setControl, Function.update_self, ht,
      Control.remaining]
    omega
  | @retryCell _ node value cell _ hthread ha ht =>
    subst hthread
    have hafter : (s.setControl a.thread (.retireLink node value cell s.retired)).potential
        a.thread = 2 := by
      simp [System.potential, System.stale, System.setControl, Control.remaining]
    have hpaid := retry_paid h ha (by rw [ht]; rfl) rfl
    have hremaining : (s.control a.thread).remaining = 1 := by
      rw [ht]
      rfl
    omega
  | retire hthread ha ht =>
    subst hthread
    simp only [System.potential, System.stale, System.setControl, Function.update_self, ht,
      Control.remaining, Bool.toNat_false]
    omega

theorem words_step (hs : StepSpec s a r s') (hr : r.updates = false) :
    s'.head = s.head ∧ s'.retired = s.retired := by
  cases hs with
  | push _ _ _ => cases hr
  | claim _ _ _ _ => cases hr
  | retire _ _ _ => cases hr
  | _ => exact ⟨rfl, rfl⟩

/-- A step of another thread. -/
theorem potential_step_other (h : s.step a = some (r, s')) (hne : t ≠ a.thread) :
    s'.potential t ≤ s.potential t + 2 * r.updates.toNat := by
  have hs := System.step_spec h
  have hcontrol := (step_other hs hne).1
  cases hr : r.updates with
  | true =>
    have hle := s'.potential_le t
    rw [hcontrol] at hle
    exact hle.trans (Nat.add_le_add_right (Nat.le_add_right ..) 2)
  | false =>
    obtain ⟨hhead, hretired⟩ := words_step hs hr
    have hstale : s'.stale t = s.stale t := by
      unfold System.stale
      rw [hcontrol, hhead, hretired]
    rw [System.potential, System.potential, hcontrol, hstale]
    exact Nat.le_add_right ..

/-- No thread takes more than six steps a call, and two more for each of its exchanges that fails
for no reason and for each push, claim or retirement of another thread. -/
theorem lockFreeStack_steps_le {actions : List (Action α T)} {es : List (StepEvent α T)}
    (h : exec System.step System.init actions = some (es, s)) (t : T) :
    es.countP (takenBy Action.thread t) ≤
      6 * es.countP (startedBy Action.thread Action.starts t) +
        2 * (es.countP (failedBy Action.thread System.failsFor t) +
          es.countP (interferedWith Action.thread StepResult.updates t)) := by
  refine steps_le_of_retries System.potential
    (I := fun s => ∃ es live parked cells, Shape s live parked cells ∧ History es s live parked)
    ?_ ?_ ?_ ⟨[], [], [], [], shape_init, history_init⟩ h rfl
  · rintro s a r s' ⟨es, live, parked, cells, hshape, hist⟩ hstep
    exact ⟨_, step_inv hshape hist (System.step_spec hstep)⟩
  · rintro s a r s' ⟨es, live, parked, cells, hshape, hist⟩ hstep
    exact potential_step hshape hstep
  · rintro s a r s' t - hstep ht
    exact potential_step_other hstep ht

end Progress

theorem lockFreeStack_steps_le_staleRead :
    ∃ es s, exec System.step System.init staleRead = some (es, s) ∧
      es.countP (interferedWith Action.thread StepResult.updates true) = 3 ∧
      es.countP (takenBy Action.thread true) ≤
        6 * es.countP (startedBy Action.thread Action.starts true) +
          2 * (es.countP (failedBy Action.thread System.failsFor true) +
            es.countP (interferedWith Action.thread StepResult.updates true)) := by
  have hrun : exec System.step System.init staleRead = some (_, _) := rfl
  exact ⟨_, _, hrun, rfl, lockFreeStack_steps_le hrun true⟩

end HftExercises.LockFreeStack
