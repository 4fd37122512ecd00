import HftExercises.Logic.TimerWheelHistory

/-! # The state of the timer wheel

The clock, the identifiers, the pending and the finished timers are those of the
history, and every timer in the queue or ahead of the loop was scheduled.
-/
namespace HftExercises.Timers

/-- The wheel and the history agree on time, identifiers and finished timers. -/
structure WheelInv (es : List CallEvent) (w : Wheel) : Prop where
  now : w.now = clock es
  issued : issued es = List.range' 1 w.nextId
  seq : w.seq = w.nextId
  pending : ∀ id, id ∈ w.pending ↔ id ∈ Timers.issued es ∧ id ∉ w.done
  done : ∀ id, id ∈ w.done ↔ id ∈ firedIds es ∨ id ∈ cancelledIds es
  known : ∀ id ∈ w.done, id ∈ Timers.issued es
  apart : ∀ id ∈ cancelledIds es, id ∉ firedIds es
  once : (firedIds es).Nodup
  queued : ∀ t ∈ w.pq, Scheduled es t
  due : ∀ t ∈ w.control.due, Scheduled es t
  fired : ∀ t ∈ firings es, Scheduled es t
  sorted : w.pq.Pairwise before
  dueSorted : w.control.due.Pairwise before

section Steps
variable {es : List CallEvent} {w w' : Wheel} {c : Call} {res : Result} {t : Timer}

theorem WheelInv.issued_nodup (h : WheelInv es w) : (Timers.issued es).Nodup := by
  rw [h.issued]
  exact List.nodup_range'

theorem WheelInv.mem_issued {id : ℕ} (h : WheelInv es w) :
    id ∈ Timers.issued es ↔ 1 ≤ id ∧ id ≤ w.nextId := by
  rw [h.issued, List.mem_range'_1]
  omega

/-- The next identifier is new to everybody. -/
theorem WheelInv.fresh (h : WheelInv es w) : w.nextId + 1 ∉ Timers.issued es := by
  rw [h.mem_issued]
  omega

theorem WheelInv.mem_issued_of_fired {id : ℕ} (h : WheelInv es w) (hid : id ∈ firedIds es) :
    id ∈ Timers.issued es := h.known id ((h.done id).mpr (.inl hid))

section Finished
variable (h : WheelInv es w) (id : ℕ)
include h

/-- A timer that finishes is no longer pending. -/
theorem WheelInv.pending_erase (j : ℕ) :
    j ∈ w.pending.erase id ↔ j ∈ Timers.issued es ∧ j ∉ insert id w.done := by
  rw [Finset.mem_erase, h.pending, Finset.mem_insert]
  tauto

theorem WheelInv.known_insert {id : ℕ} (hid : id ∈ Timers.issued es) :
    ∀ j ∈ insert id w.done, j ∈ Timers.issued es := by
  intro j hj
  rcases Finset.mem_insert.mp hj with rfl | hj
  · exact hid
  · exact h.known j hj

end Finished

theorem WheelInv.schedule (h : WheelInv es w) (delay : ℤ) :
    WheelInv (es ++ [⟨w, .schedule delay, .scheduled (w.nextId + 1)⟩]) { w with
      nextId := w.nextId + 1
      seq := w.seq + 1
      pq := push ⟨w.now + delay, w.seq, w.nextId + 1⟩ w.pq
      pending := insert (w.nextId + 1) w.pending } := by
  have hissued : Timers.issued (es ++ [⟨w, .schedule delay, .scheduled (w.nextId + 1)⟩]) =
      Timers.issued es ++ [w.nextId + 1] := issued_append es _
  have hfirings : firings (es ++ [⟨w, .schedule delay, .scheduled (w.nextId + 1)⟩]) =
      firings es := firings_append_none es rfl
  have hfired : firedIds (es ++ [⟨w, .schedule delay, .scheduled (w.nextId + 1)⟩]) =
      firedIds es := firedIds_append_none es rfl
  have hcancelled : cancelledIds (es ++ [⟨w, .schedule delay, .scheduled (w.nextId + 1)⟩]) =
      cancelledIds es := cancelledIds_append_none es rfl
  have hnew : Scheduled (es ++ [⟨w, .schedule delay, .scheduled (w.nextId + 1)⟩])
      ⟨w.now + delay, w.seq, w.nextId + 1⟩ := by
    refine ⟨es, _, [], delay, rfl, rfl, rfl, ?_, ?_⟩
    · rw [h.seq]
    · rw [h.now]
  have hlt : ∀ t ∈ w.pq, t.seq < w.seq := by
    intro t ht
    have hle := (h.mem_issued.mp (h.queued t ht).mem_issued).2
    obtain ⟨_, _, _, _, _, _, _, hseq, _⟩ := h.queued t ht
    rw [h.seq]
    omega
  refine ⟨?_, ?_, ?_, ?_, ?_, ?_, ?_, ?_, ?_, ?_, ?_, ?_, h.dueSorted⟩
  · rw [clock_append es rfl]
    exact h.now
  · rw [hissued, h.issued, List.range'_concat, Nat.one_mul, Nat.add_comm 1]
  · exact congrArg (fun n => n + 1) h.seq
  · intro id
    rw [hissued, Finset.mem_insert, h.pending, List.mem_append, List.mem_singleton]
    constructor
    · rintro (rfl | ⟨hid, hdone⟩)
      · exact ⟨.inr rfl, fun hdone => h.fresh (h.known _ hdone)⟩
      · exact ⟨.inl hid, hdone⟩
    · rintro ⟨hid | rfl, hdone⟩
      · exact .inr ⟨hid, hdone⟩
      · exact .inl rfl
  · intro id
    rw [hfired, hcancelled]
    exact h.done id
  · intro id hid
    rw [hissued]
    exact List.mem_append_left _ (h.known id hid)
  · rw [hfired, hcancelled]
    exact h.apart
  · rw [hfired]
    exact h.once
  · intro t ht
    rcases mem_push.mp ht with rfl | ht
    · exact hnew
    · exact (h.queued t ht).append _
  · intro t ht
    exact (h.due t ht).append _
  · intro t ht
    rw [hfirings] at ht
    exact (h.fired t ht).append _
  · exact push_sorted h.sorted hlt

/-- A call that issues no timer, and neither runs nor cancels one. -/
theorem WheelInv.quiet (h : WheelInv es w) {x : CallEvent} (hscheduled : scheduled? x = none)
    (hfired : fired? x = none) (hcancelled : cancelled? x = none)
    (hnow : w'.now = clock (es ++ [x])) (hnextId : w'.nextId = w.nextId) (hseq : w'.seq = w.seq)
    (hpending : w'.pending = w.pending) (hdone : w'.done = w.done)
    (hpq : ∀ t ∈ w'.pq, t ∈ w.pq) (hsorted : w'.pq.Pairwise before)
    (hdue : ∀ t ∈ w'.control.due, t ∈ w.control.due ∨ t ∈ w.pq)
    (hdueSorted : w'.control.due.Pairwise before) : WheelInv (es ++ [x]) w' := by
  have hissued := issued_append_none es hscheduled
  have hfiredIds := firedIds_append_none es hfired
  have hcancelledIds := cancelledIds_append_none es hcancelled
  refine ⟨hnow, ?_, ?_, ?_, ?_, ?_, ?_, ?_, ?_, ?_, ?_, hsorted, hdueSorted⟩
  · rw [hissued, hnextId]
    exact h.issued
  · rw [hseq, hnextId]
    exact h.seq
  · rw [hissued, hpending, hdone]
    exact h.pending
  · rw [hdone, hfiredIds, hcancelledIds]
    exact h.done
  · rw [hdone, hissued]
    exact h.known
  · rw [hfiredIds, hcancelledIds]
    exact h.apart
  · rw [hfiredIds]
    exact h.once
  · intro t ht
    exact (h.queued t (hpq t ht)).append x
  · intro t ht
    rcases hdue t ht with ht | ht
    · exact (h.due t ht).append x
    · exact (h.queued t ht).append x
  · intro t ht
    rw [firings_append_none es hfired] at ht
    exact (h.fired t ht).append x

theorem WheelInv.cancel (h : WheelInv es w) {id : ℕ} (hid : id ∈ w.pending) :
    WheelInv (es ++ [⟨w, .cancel id, .cancelled true⟩]) { w with
      pending := w.pending.erase id
      done := insert id w.done } := by
  have hissued : Timers.issued (es ++ [⟨w, .cancel id, .cancelled true⟩]) = Timers.issued es :=
    issued_append_none es rfl
  have hfirings : firings (es ++ [⟨w, .cancel id, .cancelled true⟩]) = firings es :=
    firings_append_none es rfl
  have hfired : firedIds (es ++ [⟨w, .cancel id, .cancelled true⟩]) = firedIds es :=
    firedIds_append_none es rfl
  have hcancelled : cancelledIds (es ++ [⟨w, .cancel id, .cancelled true⟩]) =
      cancelledIds es ++ [id] := cancelledIds_append es _
  obtain ⟨hmem, hnot⟩ := (h.pending id).mp hid
  refine ⟨?_, ?_, h.seq, ?_, ?_, ?_, ?_, ?_, ?_, ?_, ?_, h.sorted, h.dueSorted⟩
  · rw [clock_append es rfl]
    exact h.now
  · rw [hissued]
    exact h.issued
  · rw [hissued]
    exact h.pending_erase id
  · intro j
    rw [hfired, hcancelled, Finset.mem_insert, h.done, List.mem_append, List.mem_singleton]
    tauto
  · rw [hissued]
    exact h.known_insert hmem
  · intro j hj
    rw [hcancelled] at hj
    rw [hfired]
    rcases List.mem_append.mp hj with hj | hj
    · exact h.apart j hj
    · rw [List.mem_singleton.mp hj]
      exact fun hfire => hnot ((h.done id).mpr (.inl hfire))
  · rw [hfired]
    exact h.once
  · intro t ht
    exact (h.queued t ht).append _
  · intro t ht
    exact (h.due t ht).append _
  · intro t ht
    rw [hfirings] at ht
    exact (h.fired t ht).append _

theorem WheelInv.fire (h : WheelInv es w) {due : List Timer} (hdue : w.control.due = t :: due)
    (hnot : t.id ∉ w.done) :
    WheelInv (es ++ [⟨w, .proceed, .fired t⟩]) { w with
      pending := w.pending.erase t.id
      done := insert t.id w.done
      control := .calling due } := by
  have hissued : Timers.issued (es ++ [⟨w, .proceed, .fired t⟩]) = Timers.issued es :=
    issued_append_none es rfl
  have hfirings : firings (es ++ [⟨w, .proceed, .fired t⟩]) = firings es ++ [t] :=
    firings_append es _
  have hfired : firedIds (es ++ [⟨w, .proceed, .fired t⟩]) = firedIds es ++ [t.id] :=
    firedIds_append es _
  have hcancelled : cancelledIds (es ++ [⟨w, .proceed, .fired t⟩]) = cancelledIds es :=
    cancelledIds_append_none es rfl
  have hscheduled : Scheduled es t := h.due t (hdue ▸ List.mem_cons_self)
  have hsorted := h.dueSorted
  rw [hdue, List.pairwise_cons] at hsorted
  refine ⟨?_, ?_, h.seq, ?_, ?_, ?_, ?_, ?_, ?_, ?_, ?_, h.sorted, hsorted.2⟩
  · rw [clock_append es rfl]
    exact h.now
  · rw [hissued]
    exact h.issued
  · rw [hissued]
    exact h.pending_erase t.id
  · intro j
    rw [hfired, hcancelled, Finset.mem_insert, h.done, List.mem_append, List.mem_singleton]
    tauto
  · rw [hissued]
    exact h.known_insert hscheduled.mem_issued
  · intro j hj hfire
    rw [hcancelled] at hj
    rw [hfired] at hfire
    rcases List.mem_append.mp hfire with hfire | hfire
    · exact h.apart j hj hfire
    · rw [List.mem_singleton.mp hfire] at hj
      exact hnot ((h.done t.id).mpr (.inr hj))
  · rw [hfired]
    refine List.Nodup.append h.once (List.nodup_singleton _) ?_
    intro j hj hj'
    rw [List.mem_singleton.mp hj'] at hj
    exact hnot ((h.done t.id).mpr (.inl hj))
  · intro u hu
    exact (h.queued u hu).append _
  · intro u hu
    have hmem : u ∈ w.control.due := hdue ▸ List.mem_cons_of_mem t hu
    exact (h.due u hmem).append _
  · intro u hu
    rw [hfirings] at hu
    rcases List.mem_append.mp hu with hu | hu
    · exact (h.fired u hu).append _
    · rw [List.mem_singleton.mp hu]
      exact hscheduled.append _

theorem WheelInv.step (h : WheelInv es w) (hs : StepSpec w c res w') :
    WheelInv (es ++ [⟨w, c, res⟩]) w' := by
  cases hs with
  | schedule => exact h.schedule _
  | miss hid =>
    refine h.quiet rfl rfl rfl ?_ rfl rfl rfl rfl (fun _ ht => ht) h.sorted
      (fun _ ht => .inl ht) h.dueSorted
    rw [clock_append es rfl]
    exact h.now
  | cancel hid => exact h.cancel hid
  | tick hidle =>
    refine h.quiet rfl rfl rfl ?_ rfl rfl rfl rfl ?_ ?_ ?_ ?_
    · rw [clock_append_tick, h.now]
    · exact fun t ht => (List.dropWhile_sublist _).subset ht
    · exact h.sorted.sublist (List.dropWhile_sublist _)
    · exact fun t ht => .inr ((List.takeWhile_prefix _).subset ht)
    · exact h.sorted.sublist (List.takeWhile_prefix _).sublist
  | finish hdue =>
    refine h.quiet rfl rfl rfl ?_ rfl rfl rfl rfl (fun _ ht => ht) h.sorted ?_ List.Pairwise.nil
    · rw [clock_append es rfl]
      exact h.now
    · intro t ht
      cases ht
  | skip hdue hdone =>
    have hsorted := h.dueSorted
    rw [hdue, List.pairwise_cons] at hsorted
    refine h.quiet rfl rfl rfl ?_ rfl rfl rfl rfl (fun _ ht => ht) h.sorted ?_ hsorted.2
    · rw [clock_append es rfl]
      exact h.now
    · intro t ht
      exact .inl (hdue ▸ List.mem_cons_of_mem _ ht)
  | fire hdue hdone => exact h.fire hdue hdone

end Steps

end HftExercises.Timers
