import HftExercises.Logic.TimerWheelRuns

/-! # Callbacks that throw

An exception leaves `tick` from the callback that runs and takes the list of due
timers with it. A timer on that list has already left the queue, so it is neither
run nor forgotten: it stays pending for good.
-/
namespace HftExercises.Timers

/-- A call of the wheel, or the exception of the callback that runs. -/
inductive ThrowingCall where
  | call (call : Call)
  | throw
  deriving DecidableEq, Repr

inductive ThrowingResult where
  | result (result : Result)
  | threw
  deriving DecidableEq, Repr

/-- The stack is unwound to the caller of `tick`. -/
def Wheel.unwind (w : Wheel) : Wheel := { w with control := .idle }

def Wheel.stepThrowing (w : Wheel) : ThrowingCall → Option (ThrowingResult × Wheel)
  | .call c => (w.step c).map fun r => (.result r.1, r.2)
  | .throw =>
    match w.control with
    | .calling _ => some (.threw, w.unwind)
    | _ => none

abbrev ThrowingEvent := Event Wheel ThrowingCall ThrowingResult

/-- An exception ends its tick, as a return does. -/
def asCall (e : ThrowingEvent) : CallEvent :=
  match e.call, e.result with
  | .call c, .result r => ⟨e.before, c, r⟩
  | _, _ => ⟨e.before, .proceed, .returned⟩

def asCalls (es : List ThrowingEvent) : List CallEvent := es.map asCall

/-- Some continuation runs the callback. -/
def CanRun (w : Wheel) (id : ℕ) : Prop :=
  ∃ calls es w', exec Wheel.stepThrowing w calls = some (es, w') ∧ id ∈ firedIds (asCalls es)

/-- An exception while a due timer is still ahead of the loop. -/
def Abandons (e : ThrowingEvent) : Prop :=
  e.call = .throw ∧ ∃ t ∈ e.before.control.due, t.id ∉ e.before.done

instance (e : ThrowingEvent) : Decidable (Abandons e) := inferInstanceAs (Decidable (_ ∧ _))

/-- Timers survive the exceptions of others: each one runs at most once, and at the
latest in the tick after one that was cut short; none that is due is lost by an
exception; and those that a cancel stops could still have run. -/
structure TimersSurvive (es : List ThrowingEvent) (w : Wheel) : Prop where
  once : (firedIds (asCalls es)).Nodup
  inTime : ∀ h e m x r delay id q, es = h ++ e :: (m ++ x :: r) →
    e.call = .call (.schedule delay) → e.result = .result (.scheduled id) →
    sinceDue (clock (asCalls h) + delay) (clock (asCalls h)) (asCalls m) = some q →
    (x.result = .result .returned ∨ x.result = .threw ∧ ∃ y ∈ q, y.result = .returned) →
    id ∈ firedIds q ∨ id ∈ cancelledIds (asCalls (h ++ e :: m))
  kept : ∀ e ∈ es, e.call = .throw → ∀ t ∈ e.before.control.due, t.id ∉ e.before.done →
    CanRun e.before.unwind t.id
  pending : ∀ id ∈ issued (asCalls es), id ∉ firedIds (asCalls es) →
    id ∉ cancelledIds (asCalls es) → CanRun w id
  cancel : ∀ e ∈ es, ∀ id, e.call = .call (.cancel id) → e.result = .result (.cancelled true) →
    CanRun e.before id

/-- What a step can do. -/
inductive ThrowingSpec (w : Wheel) : ThrowingCall → ThrowingResult → Wheel → Prop
  | call {c : Call} {r : Result} {w' : Wheel} (h : StepSpec w c r w') (hstep : w.step c = some (r, w')) :
      ThrowingSpec w (.call c) (.result r) w'
  | throw {due : List Timer} (hdue : w.control = .calling due) :
      ThrowingSpec w .throw .threw w.unwind

theorem Wheel.stepThrowing_spec {w w' : Wheel} {c : ThrowingCall} {r : ThrowingResult}
    (h : w.stepThrowing c = some (r, w')) : ThrowingSpec w c r w' := by
  cases c with
  | call c =>
    obtain ⟨⟨r, v⟩, hstep, heq⟩ := Option.map_eq_some_iff.mp h
    cases heq
    exact .call (Wheel.step_spec hstep) hstep
  | throw =>
    simp only [Wheel.stepThrowing] at h
    split at h
    · rename_i due hdue
      cases h
      exact .throw hdue
    · cases h

section Gone
variable {w w' : Wheel} {c : ThrowingCall} {r : ThrowingResult} {id : ℕ}

/-- The timer is neither in the queue nor ahead of the loop, and its identifier used. -/
structure Gone (w : Wheel) (id : ℕ) : Prop where
  used : id ≤ w.nextId
  due : ∀ t ∈ w.control.due, t.id ≠ id
  queued : ∀ t ∈ w.pq, t.id ≠ id

theorem Gone.call {c : Call} {r : Result} (h : Gone w id) (hs : StepSpec w c r w') :
    Gone w' id ∧ ∀ t, r = .fired t → t.id ≠ id := by
  cases hs with
  | schedule =>
    refine ⟨⟨Nat.le_succ_of_le h.used, h.due, ?_⟩, fun t ht => by cases ht⟩
    intro t ht
    rcases mem_push.mp ht with rfl | ht
    · have := h.used
      dsimp only
      omega
    · exact h.queued t ht
  | miss _ => exact ⟨h, fun t ht => by cases ht⟩
  | cancel _ => exact ⟨⟨h.used, h.due, h.queued⟩, fun t ht => by cases ht⟩
  | tick _ =>
    refine ⟨⟨h.used, ?_, ?_⟩, fun t ht => by cases ht⟩
    · exact fun t ht => h.queued t ((List.takeWhile_prefix _).subset ht)
    · exact fun t ht => h.queued t ((List.dropWhile_sublist _).subset ht)
  | finish _ => exact ⟨⟨h.used, (fun t ht => by cases ht), h.queued⟩, fun t ht => by cases ht⟩
  | @skip u due hdue _ =>
    refine ⟨⟨h.used, ?_, h.queued⟩, fun t ht => by cases ht⟩
    exact fun t ht => h.due t (hdue ▸ List.mem_cons_of_mem u ht)
  | @fire u due hdue _ =>
    refine ⟨⟨h.used, ?_, h.queued⟩, ?_⟩
    · exact fun t ht => h.due t (hdue ▸ List.mem_cons_of_mem u ht)
    · intro t ht
      cases ht
      exact h.due _ (hdue ▸ List.mem_cons_self)

theorem Gone.step (h : Gone w id) (hs : ThrowingSpec w c r w') :
    Gone w' id ∧ id ∉ firedIds [asCall ⟨w, c, r⟩] := by
  cases hs with
  | @call c r _ hs _ =>
    obtain ⟨hgone, hfired⟩ := h.call hs
    refine ⟨hgone, ?_⟩
    intro hmem
    cases r with
    | fired t =>
      have hid : id = t.id := by simpa [asCall, firedIds, firings, fired?] using hmem
      exact hfired t rfl hid.symm
    | _ => cases hmem
  | throw _ => exact ⟨⟨h.used, (fun t ht => by cases ht), h.queued⟩, fun hmem => by cases hmem⟩

/-- A timer that is gone never runs. -/
theorem Gone.not_canRun (h : Gone w id) : ¬ CanRun w id := by
  rintro ⟨calls, es, w', hr, hmem⟩
  have hrun : Gone w' id ∧ id ∉ firedIds (asCalls es) := by
    refine exec_invariant (fun es w => Gone w id ∧ id ∉ firedIds (asCalls es)) ?_
      ⟨h, fun hnil => by cases hnil⟩ hr
    rintro es w c r w' ⟨hgone, hnot⟩ hstep
    obtain ⟨hgone', hnot'⟩ := hgone.step (Wheel.stepThrowing_spec hstep)
    refine ⟨hgone', ?_⟩
    intro hin
    rw [asCalls, List.map_append, firedIds, firings, List.filterMap_append, List.map_append] at hin
    rcases List.mem_append.mp hin with hin | hin
    · exact hnot hin
    · exact hnot' hin
  exact hrun.2 hmem

end Gone

section Waiting
variable {w w' : Wheel} {c : ThrowingCall} {r : ThrowingResult}

/-- The identifiers of the timers that are due or queued are used, each by one of them. -/
structure WaitingInv (w : Wheel) : Prop where
  used : ∀ t ∈ w.control.due ++ w.pq, t.id ≤ w.nextId
  distinct : ((w.control.due ++ w.pq).map Timer.id).Nodup

theorem push_perm (t : Timer) (pq : List Timer) : (push t pq).Perm (t :: pq) := by
  induction pq with
  | nil => exact List.Perm.refl _
  | cons x pq ih =>
    unfold push
    split_ifs
    · exact List.Perm.refl _
    · exact (ih.cons x).trans (List.Perm.swap t x pq)

/-- Timers only leave, as far as the queue and the due list are concerned. -/
theorem WaitingInv.of_sublist (h : WaitingInv w) (hid : w'.nextId = w.nextId)
    (hsub : (w'.control.due ++ w'.pq).Sublist (w.control.due ++ w.pq)) : WaitingInv w' :=
  ⟨fun t ht => hid ▸ h.used t (hsub.subset ht), h.distinct.sublist (hsub.map Timer.id)⟩

theorem WaitingInv.step (h : WaitingInv w) (hs : ThrowingSpec w c r w') : WaitingInv w' := by
  cases hs with
  | @call c r _ hs _ =>
    cases hs with
    | @schedule delay =>
      let t : Timer := ⟨w.now + delay, w.seq, w.nextId + 1⟩
      have hperm : (w.control.due ++ push t w.pq).Perm (t :: (w.control.due ++ w.pq)) :=
        ((push_perm t w.pq).append_left _).trans List.perm_middle
      constructor
      · intro u hu
        rcases List.mem_cons.mp (hperm.subset hu) with rfl | hu
        · exact Nat.le_refl _
        · exact Nat.le_succ_of_le (h.used u hu)
      · refine (hperm.map Timer.id).nodup_iff.mpr (List.nodup_cons.mpr ⟨?_, h.distinct⟩)
        intro hmem
        obtain ⟨u, hu, hid⟩ := List.mem_map.mp hmem
        have hle := h.used u hu
        have hnew : t.id = w.nextId + 1 := rfl
        omega
    | miss _ => exact h
    | cancel _ => exact h.of_sublist rfl (List.Sublist.refl _)
    | @tick now hidle =>
      refine h.of_sublist rfl ?_
      rw [hidle, List.nil_append]
      show (w.pq.takeWhile _ ++ w.pq.dropWhile _).Sublist w.pq
      rw [List.takeWhile_append_dropWhile]
    | finish _ => exact h.of_sublist rfl (List.sublist_append_right _ _)
    | skip hdue _ =>
      refine h.of_sublist rfl ?_
      rw [hdue]
      exact List.sublist_cons_self _ _
    | fire hdue _ =>
      refine h.of_sublist rfl ?_
      rw [hdue]
      exact List.sublist_cons_self _ _
  | throw _ => exact h.of_sublist rfl (List.sublist_append_right _ _)

theorem WaitingInv.gone (h : WaitingInv w) {t : Timer} (ht : t ∈ w.control.due) :
    Gone w.unwind t.id := by
  refine ⟨h.used t (List.mem_append_left _ ht), (fun u hu => by cases hu), ?_⟩
  intro u hu heq
  have hdistinct := h.distinct
  rw [List.map_append, List.nodup_append] at hdistinct
  exact hdistinct.2.2 t.id (List.mem_map_of_mem ht) u.id (List.mem_map_of_mem hu) heq.symm

theorem exec_waitingInv {calls : List ThrowingCall} {es : List ThrowingEvent}
    (hr : exec Wheel.stepThrowing Wheel.init calls = some (es, w)) : WaitingInv w := by
  refine exec_invariant (fun _ w => WaitingInv w) ?_ ?_ hr
  · intro _ w c r w' h hstep
    exact h.step (Wheel.stepThrowing_spec hstep)
  · constructor <;> simp [Wheel.init, Control.due]

end Waiting

section CanRun
variable {w w' : Wheel} {id : ℕ} {t : Timer}

theorem CanRun.step {c : Call} {r : Result} (hstep : w.step c = some (r, w')) (h : CanRun w' id) :
    CanRun w id := by
  obtain ⟨calls, es, v, hr, hmem⟩ := h
  have hstep' : w.stepThrowing (.call c) = some (.result r, w') := by
    rw [Wheel.stepThrowing, hstep]
    rfl
  refine ⟨.call c :: calls, ⟨w, .call c, .result r⟩ :: es, v, ?_, ?_⟩
  · rw [exec, hstep', Option.bind_some, hr]
    rfl
  · have hsub : firedIds (asCalls es) ⊆ firedIds (asCalls (⟨w, .call c, .result r⟩ :: es)) := by
      have hsplit := List.Sublist.filterMap fired?
        (List.sublist_cons_self (asCall ⟨w, .call c, .result r⟩) (asCalls es))
      exact (hsplit.map Timer.id).subset
    exact hsub hmem

theorem CanRun.of_fired (hstep : w.step .proceed = some (.fired t, w')) : CanRun w t.id := by
  refine ⟨[.call .proceed], [⟨w, .call .proceed, .result (.fired t)⟩], w', ?_, List.mem_cons_self⟩
  rw [exec, Wheel.stepThrowing, hstep]
  rfl

theorem Wheel.step_proceed {due : List Timer} (hbusy : w.control ≠ .idle)
    (hdue : w.control.due = due) : w.step .proceed = some (w.walk due) := by
  cases hc : w.control with
  | idle => exact absurd hc hbusy
  | walking due' =>
    rw [hc] at hdue
    obtain rfl : due' = due := hdue
    simp only [Wheel.step, hc]
  | calling due' =>
    rw [hc] at hdue
    obtain rfl : due' = due := hdue
    simp only [Wheel.step, hc]

/-- Walking on either runs the timer or ends the tick with the timer where it was. -/
theorem canRun_of_walk {due : List Timer} (hbusy : w.control ≠ .idle) (hdue : w.control.due = due)
    (hnot : id ∉ w.done)
    (hrest : (∃ t ∈ due, t.id = id) ∨ ∀ v : Wheel, v.control = .idle → v.pq = w.pq →
      id ∉ v.done → CanRun v id) : CanRun w id := by
  induction due generalizing w with
  | nil =>
    rcases hrest with ⟨t, ht, -⟩ | hrest
    · cases ht
    · have hstep : w.step .proceed = some (.returned, w.unwind) := Wheel.step_proceed hbusy hdue
      exact CanRun.step hstep (hrest _ rfl rfl hnot)
  | cons u due ih =>
    have hstep := Wheel.step_proceed hbusy hdue
    by_cases hdone : u.id ∈ w.done
    · simp only [Wheel.walk, if_pos hdone] at hstep
      refine CanRun.step hstep (ih ?_ rfl hnot ?_)
      · exact fun hidle => by cases hidle
      · rcases hrest with ⟨t, ht, rfl⟩ | hrest
        · rcases List.mem_cons.mp ht with rfl | ht
          · exact absurd hdone hnot
          · exact .inl ⟨t, ht, rfl⟩
        · exact .inr hrest
    · simp only [Wheel.walk, if_neg hdone] at hstep
      by_cases hid : u.id = id
      · rw [← hid]
        exact CanRun.of_fired hstep
      · refine CanRun.step hstep (ih ?_ rfl ?_ ?_)
        · exact fun hidle => by cases hidle
        · intro hmem
          rcases Finset.mem_insert.mp hmem with rfl | hmem
          · exact hid rfl
          · exact hnot hmem
        · rcases hrest with ⟨t, ht, rfl⟩ | hrest
          · rcases List.mem_cons.mp ht with rfl | ht
            · exact absurd rfl hid
            · exact .inl ⟨t, ht, rfl⟩
          · exact .inr hrest

theorem canRun_of_due (ht : t ∈ w.control.due) (hnot : t.id ∉ w.done) : CanRun w t.id := by
  refine canRun_of_walk ?_ rfl hnot (.inl ⟨t, ht, rfl⟩)
  intro hidle
  rw [hidle] at ht
  cases ht

/-- A tick at its deadline takes the timer out of the queue. -/
theorem canRun_of_queued_idle (hidle : w.control = .idle) (hsorted : w.pq.Pairwise before)
    (ht : t ∈ w.pq) (hnot : t.id ∉ w.done) : CanRun w t.id := by
  have hstep : w.step (.tick t.deadline) = some (w.beginTick t.deadline) := by
    simp only [Wheel.step, hidle]
  refine CanRun.step hstep (canRun_of_due ?_ hnot)
  obtain ⟨now, hnow⟩ : ∃ now, now = if t.deadline < w.now then w.now else t.deadline := ⟨_, rfl⟩
  have hdue : (w.beginTick t.deadline).2.control.due =
      w.pq.takeWhile (fun u => decide (u.deadline ≤ now)) := by
    rw [hnow]
    rfl
  have hle : t.deadline ≤ now := by
    rw [hnow]
    split_ifs <;> omega
  show t ∈ (w.beginTick t.deadline).2.control.due
  rw [hdue]
  rcases mem_takeWhile_or_dropWhile now ht with hin | hin
  · exact hin
  · have hlt := lt_of_mem_dropWhile hsorted hin
    omega

theorem canRun_of_queued (hsorted : w.pq.Pairwise before) (ht : t ∈ w.pq) (hnot : t.id ∉ w.done) :
    CanRun w t.id := by
  by_cases hidle : w.control = .idle
  · exact canRun_of_queued_idle hidle hsorted ht hnot
  · refine canRun_of_walk hidle rfl hnot (.inr ?_)
    intro v hv hpq hnot'
    exact canRun_of_queued_idle hv (hpq ▸ hsorted) (hpq ▸ ht) hnot'

end CanRun

section Runs
variable {es : List ThrowingEvent} {w : Wheel}

theorem asCalls_append (es : List ThrowingEvent) (e : ThrowingEvent) :
    asCalls (es ++ [e]) = asCalls es ++ [asCall e] := List.map_append

/-- A throw that abandons no timer is the end of a tick for the history. -/
theorem WheelInv.unwind {cs : List CallEvent} (h : WheelInv cs w) :
    WheelInv (cs ++ [⟨w, .proceed, .returned⟩]) w.unwind := by
  refine h.quiet rfl rfl rfl ?_ rfl rfl rfl rfl (fun _ ht => ht) h.sorted ?_ List.Pairwise.nil
  · rw [clock_append cs rfl]
    exact h.now
  · intro t ht
    cases ht

theorem TimersInv.unwind {cs : List CallEvent} (h : TimersInv cs w)
    (hdone : ∀ u ∈ w.control.due, u.id ∈ w.done) :
    TimersInv (cs ++ [⟨w, .proceed, .returned⟩]) w.unwind := by
  apply h.append
  · intro delay t hcall
    cases hcall
  · intro l e r delay t _ _ _ ht
    rw [sinceDue_append rfl]
    exact ht.finish hdone

/-- As long as no exception abandons a timer, the wheel is as if none had come. -/
theorem exec_survivors {calls : List ThrowingCall}
    (hr : exec Wheel.stepThrowing Wheel.init calls = some (es, w)) (hgood : ∀ e ∈ es, ¬ Abandons e) :
    WheelInv (asCalls es) w ∧ TimersInv (asCalls es) w := by
  refine exec_invariant (fun es w => (∀ e ∈ es, ¬ Abandons e) →
    WheelInv (asCalls es) w ∧ TimersInv (asCalls es) w) ?_ ?_ hr hgood
  · intro es w c r w' h hstep hgood
    obtain ⟨hi, ht⟩ := h (fun e he => hgood e (List.mem_append_left _ he))
    rw [asCalls_append]
    cases Wheel.stepThrowing_spec hstep with
    | call hs _ => exact ⟨hi.step hs, ht.step hi hs⟩
    | throw _ =>
      refine ⟨hi.unwind, ht.unwind ?_⟩
      intro u hu
      by_contra hnot
      exact hgood _ (List.mem_append_right es List.mem_cons_self) ⟨rfl, u, hu, hnot⟩
  · intro _
    have hrun : exec Wheel.step Wheel.init [] = some ([], Wheel.init) := rfl
    obtain ⟨hi, ht, -⟩ := exec_wheelInv hrun
    exact ⟨hi, ht⟩

theorem schedule_of_issued {calls : List ThrowingCall}
    (hr : exec Wheel.stepThrowing Wheel.init calls = some (es, w)) {id : ℕ}
    (hid : id ∈ issued (asCalls es)) :
    ∃ l e r delay, asCalls es = l ++ e :: r ∧ e.call = .schedule delay ∧ e.result = .scheduled id := by
  obtain ⟨x, hx, hres⟩ := List.mem_filterMap.mp hid
  obtain ⟨e, he, rfl⟩ := List.mem_map.mp hx
  obtain ⟨l, r, hsplit⟩ := List.append_of_mem hx
  obtain ⟨_, _, _, _, _, hstep⟩ := exec_mem hr he
  obtain ⟨v, c, res⟩ := e
  dsimp only at hstep
  cases Wheel.stepThrowing_spec hstep with
  | call hs _ =>
    cases hs with
    | @schedule delay =>
      exact ⟨l, _, r, delay, hsplit, rfl, congrArg Result.scheduled (Option.some.inj hres)⟩
    | _ => cases hres
  | throw _ => cases hres

/-- A timer that has neither run nor been cancelled is in the queue or ahead of the loop. -/
theorem canRun_of_survivor {calls : List ThrowingCall}
    (hr : exec Wheel.stepThrowing Wheel.init calls = some (es, w)) (hgood : ∀ e ∈ es, ¬ Abandons e)
    {id : ℕ} (hissued : id ∈ issued (asCalls es)) (hnot : id ∉ w.done) : CanRun w id := by
  obtain ⟨hi, ht⟩ := exec_survivors hr hgood
  obtain ⟨l, e, r, delay, hes, hcall, hres⟩ := schedule_of_issued hr hissued
  obtain ⟨t, rfl, htimer⟩ := ht.of_schedule hi hes hcall hres
  cases hdue : sinceDue (clock l + delay) (clock l) r with
  | none =>
    rw [hdue] at htimer
    exact canRun_of_queued hi.sorted (htimer.2.2 hnot) hnot
  | some q =>
    rw [hdue] at htimer
    exact canRun_of_due (htimer.2.2.2.2.1 hnot) hnot

theorem asCall_of_end {x : ThrowingEvent} {u : Wheel} (hs : ThrowingSpec x.before x.call x.result u)
    (hend : x.result = .result .returned ∨ x.result = .threw) :
    asCall x = ⟨x.before, .proceed, .returned⟩ ∧ u.control = .idle := by
  obtain ⟨v, c, res⟩ := x
  dsimp only at hs hend ⊢
  cases hs with
  | call hs _ =>
    rcases hend with hend | hend
    · cases hs with
      | finish _ => exact ⟨rfl, rfl⟩
      | _ => cases hend
    · cases hend
  | throw _ => exact ⟨rfl, rfl⟩

/-- Once a tick is over, a timer that was due in it has run since or has been cancelled. -/
theorem fired_of_end {calls : List ThrowingCall} {h m r : List ThrowingEvent} {e x : ThrowingEvent}
    (hr : exec Wheel.stepThrowing Wheel.init calls = some (h ++ e :: (m ++ x :: r), w))
    (hgood : ∀ y ∈ h ++ e :: (m ++ x :: r), ¬ Abandons y) {delay : ℤ} {id : ℕ}
    (hcall : e.call = .call (.schedule delay)) (hres : e.result = .result (.scheduled id))
    {q : List CallEvent}
    (hdue : sinceDue (clock (asCalls h) + delay) (clock (asCalls h)) (asCalls m) = some q)
    (hend : x.result = .result .returned ∨ x.result = .threw) :
    id ∈ firedIds q ∨ id ∈ cancelledIds (asCalls (h ++ e :: m)) := by
  have hassoc : h ++ e :: (m ++ x :: r) = (h ++ e :: m) ++ x :: r := by
    rw [List.append_assoc, List.cons_append]
  rw [hassoc] at hr hgood
  obtain ⟨⟨is, his⟩, u, hstep⟩ := exec_events hr _ x r rfl
  obtain ⟨hx, hidle⟩ := asCall_of_end (Wheel.stepThrowing_spec hstep) hend
  have hprefix := exec_snoc his hstep
  have hgood' : ∀ y ∈ (h ++ e :: m) ++ [x], ¬ Abandons y := by
    intro y hy
    apply hgood y
    rw [List.append_cons]
    exact List.mem_append_left r hy
  obtain ⟨hi, ht⟩ := exec_survivors hprefix hgood'
  have he : asCall e = ⟨e.before, .schedule delay, .scheduled id⟩ := by
    unfold asCall
    rw [hcall, hres]
  rw [asCalls_append, hx] at hi ht
  have hes : asCalls (h ++ e :: m) ++ [⟨x.before, .proceed, .returned⟩] =
      asCalls h ++ asCall e :: (asCalls m ++ [⟨x.before, .proceed, .returned⟩]) := by
    simp [asCalls]
  obtain ⟨t, rfl, htimer⟩ := ht.of_schedule hi hes (by rw [he]) (by rw [he])
  rw [sinceDue_append_some hdue] at htimer
  obtain ⟨_, hcount, _, _, hwait, _⟩ := htimer
  have hdone : t.id ∈ u.done := by
    by_contra hnot
    have hmem := hwait hnot
    rw [hidle] at hmem
    cases hmem
  rcases (hi.done t.id).mp hdone with hfired | hcancelled
  · left
    rw [← List.count_pos_iff, hcount] at hfired
    have hle := count_firedIds_le_of_prefix
      (thisTick_isPrefix (q ++ [⟨x.before, .proceed, .returned⟩])) t.id
    rw [firedIds_append_none q rfl] at hle
    exact List.count_pos_iff.mp (by omega)
  · rw [cancelledIds_append_none _ rfl] at hcancelled
    exact .inr hcancelled

end Runs

/-- A timer that an exception leaves behind can no longer run. -/
theorem TimersSurvive.not_abandons {calls : List ThrowingCall} {es : List ThrowingEvent} {w : Wheel}
    (h : TimersSurvive es w) (hr : exec Wheel.stepThrowing Wheel.init calls = some (es, w)) :
    ∀ e ∈ es, ¬ Abandons e := by
  rintro e he ⟨hthrow, t, ht, hnot⟩
  obtain ⟨is, l, u, his, _, _⟩ := exec_mem hr he
  exact ((exec_waitingInv his).gone ht).not_canRun (h.kept e he hthrow t ht hnot)

/-- Timers survive exceptions just when no exception leaves a due timer behind. -/
theorem timerWheel_throws (calls : List ThrowingCall) (es : List ThrowingEvent) (w : Wheel)
    (hr : exec Wheel.stepThrowing Wheel.init calls = some (es, w)) :
    TimersSurvive es w ↔ ∀ e ∈ es, ¬ Abandons e := by
  refine ⟨fun h => h.not_abandons hr, ?_⟩
  intro hgood
  obtain ⟨hi, _⟩ := exec_survivors hr hgood
  refine ⟨hi.once, ?_, ?_, ?_, ?_⟩
  · rintro h e m x r delay id q rfl hcall hres hdue hend
    exact fired_of_end hr hgood hcall hres hdue (hend.imp_right And.left)
  · intro e he hthrow t ht hnot
    exact absurd ⟨hthrow, t, ht, hnot⟩ (hgood e he)
  · intro id hissued hfired hcancelled
    refine canRun_of_survivor hr hgood hissued ?_
    rw [hi.done]
    tauto
  · intro e he id hcall hres
    obtain ⟨is, l, u, his, hsub, hstep⟩ := exec_mem hr he
    have hgood' : ∀ y ∈ l, ¬ Abandons y := fun y hy => hgood y (hsub hy)
    have hpending : id ∈ e.before.pending := by
      rw [hcall, hres] at hstep
      cases Wheel.stepThrowing_spec hstep with
      | call hs _ =>
        cases hs with
        | cancel hid => exact hid
    obtain ⟨hi', _⟩ := exec_survivors his hgood'
    obtain ⟨hissued, hnot⟩ := (hi'.pending id).mp hpending
    exact canRun_of_survivor his hgood' hissued hnot

/-- The callback cancels the other due timer before it throws. -/
theorem timerWheel_throws_harmless :
    ∃ (es : List ThrowingEvent) (w : Wheel), exec Wheel.stepThrowing Wheel.init
        [.call (.schedule 1), .call (.schedule 1), .call (.tick 1), .call .proceed,
          .call (.cancel 2), .throw, .call (.schedule 0), .call (.tick 1), .call .proceed,
          .call .proceed] = some (es, w) ∧
      firedIds (asCalls es) = [1, 3] ∧ TimersSurvive es w := by
  have hrun : ∃ (es : List ThrowingEvent) (w : Wheel), exec Wheel.stepThrowing Wheel.init
        [.call (.schedule 1), .call (.schedule 1), .call (.tick 1), .call .proceed,
          .call (.cancel 2), .throw, .call (.schedule 0), .call (.tick 1), .call .proceed,
          .call .proceed] = some (es, w) ∧
      firedIds (asCalls es) = [1, 3] ∧ ∀ e ∈ es, ¬ Abandons e :=
    ⟨_, _, rfl, rfl, by decide⟩
  obtain ⟨es, w, hr, hfired, hgood⟩ := hrun
  exact ⟨es, w, hr, hfired, (timerWheel_throws _ es w hr).mpr hgood⟩

/-- Two timers are due, and the callback of the first one throws. -/
theorem timerWheel_throws_lost :
    ¬ ∀ (calls : List ThrowingCall) (es : List ThrowingEvent) (w : Wheel),
      exec Wheel.stepThrowing Wheel.init calls = some (es, w) → TimersSurvive es w := by
  intro h
  have hrun : ∃ (es : List ThrowingEvent) (w : Wheel), exec Wheel.stepThrowing Wheel.init
        [.call (.schedule 1), .call (.schedule 1), .call (.tick 1), .call .proceed, .throw] =
        some (es, w) ∧ ∃ e ∈ es, Abandons e := ⟨_, _, rfl, by decide⟩
  obtain ⟨es, w, hr, e, he, hbad⟩ := hrun
  exact (h _ es w hr).not_abandons hr e he hbad

end HftExercises.Timers
