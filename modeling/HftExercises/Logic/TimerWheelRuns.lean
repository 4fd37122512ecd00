import HftExercises.Logic.TimerWheelInvariant

/-! # When timers run

Each timer is followed from its schedule call on: until the first due tick it
waits in the queue, during that tick it is among the due timers still ahead of
the loop, and once it has run or has been cancelled it is done for good.
-/
namespace HftExercises.Timers

/-- Where a timer is, given the calls since its first due tick. -/
def TimerInv (es : List CallEvent) (w : Wheel) (t : Timer) : Option (List CallEvent) → Prop
  | none => t.id ∉ firedIds es ∧ t ∉ w.control.due ∧ (t.id ∉ w.done → t ∈ w.pq)
  | some q => q ≠ [] ∧ (firedIds es).count t.id = (firedIds (thisTick q)).count t.id ∧
      t ∉ w.pq ∧ (t ∈ w.control.due → Open q) ∧ (t.id ∉ w.done → t ∈ w.control.due) ∧
      ((∃ e ∈ thisTick q, e.result = .returned) → t.id ∈ w.done)

def TimersInv (es : List CallEvent) (w : Wheel) : Prop :=
  ∀ h e r delay t, es = h ++ e :: r → e.call = .schedule delay → e.result = .scheduled t.id →
    t.seq + 1 = t.id → t.deadline = clock h + delay →
    TimerInv es w t (sinceDue t.deadline (clock h) r)

/-- The callbacks of a tick run in order, and those ahead come after. -/
def TickInv (w : Wheel) (q : List CallEvent) : Prop :=
  (firings (thisTick q)).Pairwise before ∧
    (Open q → ∀ t ∈ firings q, ∀ u ∈ w.control.due, before t u)

def TicksInv (es : List CallEvent) (w : Wheel) : Prop :=
  ∀ h k r, es = h ++ k :: r → isTick k = true → TickInv w (k :: r)

section TimerSteps
variable {es : List CallEvent} {w w' : Wheel} {c : Call} {res : Result} {t : Timer}
variable {x : CallEvent} {since : Option (List CallEvent)}

/-- Between ticks a timer leaves the due ones only for good. -/
theorem TimerInv.next (h : TimerInv es w t since) (htick : isTick x = false)
    (hdue : ∀ u ∈ w'.control.due, u ∈ w.control.due)
    (hleft : ∀ u ∈ w.control.due, u ∈ w'.control.due ∨ u.id ∈ w'.done)
    (hdone : ∀ id ∈ w.done, id ∈ w'.done) (hpq : t ∈ w'.pq ↔ t ∈ w.pq)
    (hfired : ∀ u, fired? x = some u → u ∈ w.control.due ∧ (u.id = t.id → u = t))
    (hreturned : x.result = .returned → ∀ u ∈ w.control.due, u.id ∈ w.done) :
    TimerInv (es ++ [x]) w' t (since.map (fun q => q ++ [x])) := by
  cases since with
  | none =>
    obtain ⟨hnot, hnotDue, hwait⟩ := h
    refine ⟨?_, fun hmem => hnotDue (hdue t hmem), ?_⟩
    · have hcount : (firedIds (es ++ [x])).count t.id = (firedIds es).count t.id := by
        apply count_firedIds_append
        intro u hu hid
        obtain ⟨hmem, heq⟩ := hfired u hu
        exact hnotDue (heq hid ▸ hmem)
      rw [← List.count_pos_iff, hcount, List.count_pos_iff]
      exact hnot
    · intro hmem
      exact hpq.mpr (hwait (fun hd => hmem (hdone t.id hd)))
  | some q =>
    obtain ⟨hne, hcount, hnotPq, hopen, hwait, hret⟩ := h
    refine ⟨by simp, ?_, fun hmem => hnotPq (hpq.mp hmem), ?_, ?_, ?_⟩
    · by_cases hfires : fired? x = some t
      · have hq := hopen (hfired t hfires).1
        rw [thisTick_of_open hq] at hcount
        rw [thisTick_of_open (hq.append hne htick), firedIds_append, firedIds_append,
          List.count_append, List.count_append, hcount]
      · have hother : ∀ u, fired? x = some u → u.id ≠ t.id := by
          intro u hu hid
          rw [(hfired u hu).2 hid] at hu
          exact hfires hu
        rw [count_firedIds_append es hother, count_firedIds_thisTick hne hother, hcount]
    · intro hmem
      exact (hopen (hdue t hmem)).append hne htick
    · intro hmem
      rcases hleft t (hwait (fun hd => hmem (hdone t.id hd))) with hin | hin
      · exact hin
      · exact absurd hin hmem
    · rintro ⟨e, he, hres⟩
      by_cases hopenx : Open (q ++ [x])
      · rw [thisTick_of_open hopenx] at he
        rcases List.mem_append.mp he with he | he
        · rw [← thisTick_of_open (hopenx.of_append hne).1] at he
          exact hdone t.id (hret ⟨e, he, hres⟩)
        · rw [List.mem_singleton.mp he] at hres
          by_contra hnot
          have hmem := hwait (fun hd => hnot (hdone t.id hd))
          exact hnot (hdone t.id (hreturned hres t hmem))
      · rw [thisTick_append_of_not_open hne hopenx] at he
        exact hdone t.id (hret ⟨e, he, hres⟩)

section Tick
variable (now : ℤ)

theorem firedIds_append_tick (q : List CallEvent) :
    firedIds (q ++ [⟨w, .tick now, .begun⟩]) = firedIds q := firedIds_append_none q rfl

/-- A tick takes exactly the due timers out of the queue. -/
theorem TimerInv.tick_waiting (h : TimerInv es w t none) (hsorted : w.pq.Pairwise before) :
    TimerInv (es ++ [⟨w, .tick now, .begun⟩]) { w with
      now := max w.now now
      pq := w.pq.dropWhile (fun t => decide (t.deadline ≤ max w.now now))
      control := .walking (w.pq.takeWhile (fun t => decide (t.deadline ≤ max w.now now))) } t
      (if t.deadline ≤ max w.now now then some [⟨w, .tick now, .begun⟩] else none) := by
  obtain ⟨hnot, hnotDue, hwait⟩ := h
  split_ifs with hdue
  · refine ⟨by simp, ?_, ?_, ?_, ?_, ?_⟩
    · rw [firedIds_append_tick, List.count_eq_zero.mpr hnot]
      rfl
    · intro hmem
      have hlt := lt_of_mem_dropWhile hsorted hmem
      omega
    · intro _ y hy
      cases hy
    · intro hmem
      rcases mem_takeWhile_or_dropWhile (max w.now now) (hwait hmem) with hin | hin
      · exact hin
      · have hlt := lt_of_mem_dropWhile hsorted hin
        omega
    · rintro ⟨e, he, hres⟩
      rw [List.mem_singleton.mp he] at hres
      cases hres
  · refine ⟨?_, ?_, ?_⟩
    · rw [firedIds_append_tick]
      exact hnot
    · intro hmem
      exact hdue (le_of_mem_takeWhile hmem)
    · intro hmem
      rcases mem_takeWhile_or_dropWhile (max w.now now) (hwait hmem) with hin | hin
      · exact absurd (le_of_mem_takeWhile hin) hdue
      · exact hin

/-- After its due tick a timer is done, and later ticks do not see it. -/
theorem TimerInv.tick_done {q : List CallEvent} (h : TimerInv es w t (some q))
    (hidle : w.control.due = []) :
    TimerInv (es ++ [⟨w, .tick now, .begun⟩]) { w with
      now := max w.now now
      pq := w.pq.dropWhile (fun t => decide (t.deadline ≤ max w.now now))
      control := .walking (w.pq.takeWhile (fun t => decide (t.deadline ≤ max w.now now))) } t
      (some (q ++ [⟨w, .tick now, .begun⟩])) := by
  obtain ⟨hne, hcount, hnotPq, hopen, hwait, hret⟩ := h
  have hclosed : ¬ Open (q ++ [⟨w, .tick now, .begun⟩]) := by
    intro hopen'
    cases (hopen'.of_append hne).2
  have hthis := thisTick_append_of_not_open hne hclosed
  have hdone : t.id ∈ w.done := by
    by_contra hnot
    have hmem := hwait hnot
    rw [hidle] at hmem
    cases hmem
  refine ⟨by simp, ?_, ?_, ?_, ?_, ?_⟩
  · rw [firedIds_append_tick, hthis, hcount]
  · intro hmem
    exact hnotPq ((List.dropWhile_sublist _).subset hmem)
  · intro hmem
    exact absurd ((List.takeWhile_prefix _).subset hmem) hnotPq
  · exact fun hnot => absurd hdone hnot
  · exact fun _ => hdone

end Tick

/-- The timer a schedule call makes waits in the queue. -/
theorem TimerInv.schedule (hi : WheelInv es w) {delay : ℤ} (hid : t.id = w.nextId + 1)
    (hseq : t.seq + 1 = t.id) (hdeadline : t.deadline = clock es + delay) :
    TimerInv (es ++ [⟨w, .schedule delay, .scheduled (w.nextId + 1)⟩]) { w with
      nextId := w.nextId + 1
      seq := w.seq + 1
      pq := push ⟨w.now + delay, w.seq, w.nextId + 1⟩ w.pq
      pending := insert (w.nextId + 1) w.pending } t none := by
  have ht : t = ⟨w.now + delay, w.seq, w.nextId + 1⟩ := by
    obtain ⟨d, n, id⟩ := t
    have hwseq := hi.seq
    have hwnow := hi.now
    simp only [Timer.mk.injEq] at *
    omega
  have hfired : firedIds (es ++ [⟨w, .schedule delay, .scheduled (w.nextId + 1)⟩]) =
      firedIds es := firedIds_append_none es rfl
  refine ⟨?_, ?_, ?_⟩
  · rw [hfired, hid]
    exact fun hmem => hi.fresh (hi.mem_issued_of_fired hmem)
  · intro hmem
    have hissued := (hi.due t hmem).mem_issued
    rw [hid] at hissued
    exact hi.fresh hissued
  · intro _
    exact mem_push.mpr (.inl ht)

/-- A tick that ends leaves no due timer that is not done. -/
theorem TimerInv.finish (h : TimerInv es w t since) (hdue : ∀ u ∈ w.control.due, u.id ∈ w.done) :
    TimerInv (es ++ [⟨w, .proceed, .returned⟩]) { w with control := .idle } t
      (since.map (fun q => q ++ [⟨w, .proceed, .returned⟩])) :=
  h.next rfl (fun _ hu => by cases hu) (fun u hu => .inr (hdue u hu)) (fun _ hd => hd) Iff.rfl
    (fun _ hu => by cases hu) (fun _ => hdue)

theorem TimerInv.step (hi : WheelInv es w) (ht : TimerInv es w t since) (hid : t.id ≤ w.nextId)
    (hsame : ∀ u, Scheduled es u → u.id = t.id → u = t) (hs : StepSpec w c res w')
    (hc : isTick ⟨w, c, res⟩ = false) :
    TimerInv (es ++ [⟨w, c, res⟩]) w' t (since.map (fun q => q ++ [⟨w, c, res⟩])) := by
  cases hs with
  | schedule =>
    refine ht.next rfl (fun _ hu => hu) (fun _ hu => .inl hu) (fun _ hd => hd) ?_
      (fun _ hu => by cases hu) (fun hr => by cases hr)
    rw [mem_push]
    constructor
    · rintro (rfl | hmem)
      · dsimp only at hid
        omega
      · exact hmem
    · exact .inr
  | miss _ =>
    exact ht.next rfl (fun _ hu => hu) (fun _ hu => .inl hu) (fun _ hd => hd) Iff.rfl
      (fun _ hu => by cases hu) (fun hr => by cases hr)
  | cancel _ =>
    exact ht.next rfl (fun _ hu => hu) (fun _ hu => .inl hu)
      (fun _ hd => Finset.mem_insert_of_mem hd) Iff.rfl (fun _ hu => by cases hu)
      (fun hr => by cases hr)
  | tick _ => cases hc
  | finish hdue =>
    refine ht.finish ?_
    rw [hdue]
    intro u hu
    cases hu
  | @skip u due hdue hdone =>
    refine ht.next rfl ?_ ?_ (fun _ hd => hd) Iff.rfl (fun _ hu => by cases hu)
      (fun hr => by cases hr)
    · intro v hv
      exact hdue ▸ List.mem_cons_of_mem u hv
    · intro v hv
      rw [hdue] at hv
      rcases List.mem_cons.mp hv with rfl | hv
      · exact .inr hdone
      · exact .inl hv
  | @fire u due hdue hdone =>
    have hu : u ∈ w.control.due := hdue ▸ List.mem_cons_self
    refine ht.next rfl ?_ ?_ (fun _ hd => Finset.mem_insert_of_mem hd) Iff.rfl ?_
      (fun hr => by cases hr)
    · intro v hv
      exact hdue ▸ List.mem_cons_of_mem u hv
    · intro v hv
      rw [hdue] at hv
      rcases List.mem_cons.mp hv with rfl | hv
      · exact .inr (Finset.mem_insert_self _ _)
      · exact .inl hv
    · intro v hv
      cases hv
      exact ⟨hu, hsame u (hi.due u hu)⟩

/-- One more call: the timers of the earlier schedule calls, and that of this one. -/
theorem TimersInv.append (h : TimersInv es w)
    (hnew : ∀ delay t, x.call = .schedule delay → x.result = .scheduled t.id → t.seq + 1 = t.id →
      t.deadline = clock es + delay → TimerInv (es ++ [x]) w' t none)
    (hold : ∀ l e r delay t, es = l ++ e :: r → e.call = .schedule delay → Scheduled es t →
      TimerInv es w t (sinceDue t.deadline (clock l) r) →
      TimerInv (es ++ [x]) w' t (sinceDue t.deadline (clock l) (r ++ [x]))) :
    TimersInv (es ++ [x]) w' := by
  intro l e r delay t heq hcall hres hseq hdeadline
  rcases split_concat heq with ⟨rfl, rfl, rfl⟩ | ⟨r, rfl, hes⟩
  · exact hnew delay t hcall hres hseq hdeadline
  · exact hold l e r delay t hes hcall ⟨l, e, r, delay, hes, hcall, hres, hseq, hdeadline⟩
      (h l e r delay t hes hcall hres hseq hdeadline)

theorem TimersInv.step (hi : WheelInv es w) (h : TimersInv es w) (hs : StepSpec w c res w') :
    TimersInv (es ++ [⟨w, c, res⟩]) w' := by
  apply h.append
  · intro delay t hcall hres hseq hdeadline
    dsimp only at hcall hres
    subst hcall
    obtain ⟨rfl, rfl⟩ := hs.of_schedule
    exact TimerInv.schedule hi (Result.scheduled.inj hres).symm hseq hdeadline
  · intro l e r delay t hes hcall hscheduled ht
    have hid := (hi.mem_issued.mp hscheduled.mem_issued).2
    cases hc : isTick ⟨w, c, res⟩ with
    | false =>
      rw [sinceDue_append hc]
      exact ht.step hi hid (fun u hu heq => hu.eq hi.issued_nodup hscheduled heq) hs hc
    | true =>
      cases hs with
      | @tick now hidle =>
        have hclock : clockFrom (clock l) r = w.now := by
          rw [hi.now, hes, clock_after l hcall]
        cases hdue : sinceDue t.deadline (clock l) r with
        | none =>
          rw [hdue] at ht
          rw [sinceDue_append_tick w now .begun hdue, hclock]
          exact ht.tick_waiting now hi.sorted
        | some q =>
          rw [hdue] at ht
          rw [sinceDue_append_some hdue]
          exact ht.tick_done now hidle
      | _ => cases hc

end TimerSteps

section TickSteps
variable {es : List CallEvent} {w w' : Wheel} {c : Call} {res : Result}

theorem TickInv.next {x : CallEvent} {q : List CallEvent} (hq : q ≠ []) (h : TickInv w q)
    (hdue : ∀ u ∈ w'.control.due, u ∈ w.control.due)
    (hfired : ∀ u, fired? x = some u → u ∈ w.control.due ∧ ∀ v ∈ w'.control.due, before u v) :
    TickInv w' (q ++ [x]) := by
  obtain ⟨hsorted, hahead⟩ := h
  by_cases hopen : Open (q ++ [x])
  · have hq' := (hopen.of_append hq).1
    rw [thisTick_of_open hq'] at hsorted
    unfold TickInv
    rw [thisTick_of_open hopen, firings_append]
    cases hx : fired? x with
    | none =>
      rw [Option.toList_none, List.append_nil]
      exact ⟨hsorted, fun _ t ht u hu => hahead hq' t ht u (hdue u hu)⟩
    | some v =>
      obtain ⟨hv, hafter⟩ := hfired v hx
      constructor
      · refine List.pairwise_append.mpr ⟨hsorted, List.pairwise_singleton _ _, ?_⟩
        intro t ht u hu
        rw [List.mem_singleton.mp hu]
        exact hahead hq' t ht v hv
      · intro _ t ht u hu
        rcases List.mem_append.mp ht with ht | ht
        · exact hahead hq' t ht u (hdue u hu)
        · rw [List.mem_singleton.mp ht]
          exact hafter u hu
  · refine ⟨?_, fun hopen' => absurd hopen' hopen⟩
    rw [thisTick_append_of_not_open hq hopen]
    exact hsorted

theorem TicksInv.step (hi : WheelInv es w) (h : TicksInv es w) (hs : StepSpec w c res w') :
    TicksInv (es ++ [⟨w, c, res⟩]) w' := by
  intro l k r heq hk
  rcases split_concat heq with ⟨rfl, rfl, rfl⟩ | ⟨r, rfl, hes⟩
  · cases hs with
    | tick _ => exact ⟨List.Pairwise.nil, fun _ t ht => by cases ht⟩
    | _ => cases hk
  · rw [← List.cons_append]
    have ht := h l k r hes hk
    have hne : k :: r ≠ [] := List.cons_ne_nil k r
    have hsorted := hi.dueSorted
    cases hs with
    | schedule => exact ht.next hne (fun _ hu => hu) (fun _ hu => by cases hu)
    | miss _ => exact ht.next hne (fun _ hu => hu) (fun _ hu => by cases hu)
    | cancel _ => exact ht.next hne (fun _ hu => hu) (fun _ hu => by cases hu)
    | @tick now _ =>
      have hclosed : ¬ Open (k :: r ++ [⟨w, .tick now, .begun⟩]) := by
        intro hopen
        cases (hopen.of_append hne).2
      refine ⟨?_, fun hopen => absurd hopen hclosed⟩
      rw [thisTick_append_of_not_open hne hclosed]
      exact ht.1
    | finish _ => exact ht.next hne (fun _ hu => by cases hu) (fun _ hu => by cases hu)
    | @skip u due hdue _ =>
      refine ht.next hne ?_ (fun _ hu => by cases hu)
      intro v hv
      exact hdue ▸ List.mem_cons_of_mem u hv
    | @fire u due hdue _ =>
      rw [hdue, List.pairwise_cons] at hsorted
      refine ht.next hne ?_ ?_
      · intro v hv
        exact hdue ▸ List.mem_cons_of_mem u hv
      · intro v hv
        cases hv
        exact ⟨hdue ▸ List.mem_cons_self, hsorted.1⟩

end TickSteps

theorem exec_wheelInv {es : List CallEvent} {w : Wheel} {calls : List Call}
    (hr : exec Wheel.step Wheel.init calls = some (es, w)) :
    WheelInv es w ∧ TimersInv es w ∧ TicksInv es w := by
  apply exec_invariant (fun es w => WheelInv es w ∧ TimersInv es w ∧ TicksInv es w) ?_ ?_ hr
  · rintro es w c res w' ⟨hi, ht, hk⟩ hstep
    have hs := Wheel.step_spec hstep
    exact ⟨hi.step hs, ht.step hi hs, hk.step hi hs⟩
  · refine ⟨?_, ?_, ?_⟩
    · constructor <;> simp [Wheel.init, clock, clockFrom, issued, firedIds, firings, cancelledIds,
        Control.due]
    · intro h e r delay t heq
      simp at heq
    · intro h k r heq
      simp at heq

/-- Every timer runs once, in its first due tick, or has been cancelled before. -/
structure TimersRun (es : List CallEvent) : Prop where
  issued : ∃ n, issued es = List.range' 1 n
  runs : ∀ h e r delay id, es = h ++ e :: r → e.call = .schedule delay →
    e.result = .scheduled id →
    match sinceDue (clock h + delay) (clock h) r with
    | none => id ∉ firedIds es
    | some q => (firedIds es).count id = (firedIds (thisTick q)).count id ∧
        (firedIds es).count id ≤ 1 ∧
        ((∃ e ∈ thisTick q, e.result = .returned) →
          id ∈ firedIds (thisTick q) ∨ id ∈ cancelledIds es)
  cancelled : ∀ id ∈ cancelledIds es, id ∉ firedIds es
  order : ∀ h k r, es = h ++ k :: r → isTick k = true →
    (firings (thisTick (k :: r))).Pairwise before
  fired : ∀ t ∈ firings es, Scheduled es t
  later : ∀ h e r delay id, es = h ++ e :: r → e.call = .schedule delay →
    e.result = .scheduled id → id ∉ firedIds (r.takeWhile (fun x => !isTick x))
  cancel : ∀ h e r id, es = h ++ e :: r → e.call = .cancel id → e.result =
    .cancelled (decide (id ∈ Timers.issued h ∧ id ∉ firedIds h ∧ id ∉ cancelledIds h))

section Final
variable {es : List CallEvent} {w : Wheel}

/-- The timer of a schedule call, from what the call returned. -/
theorem TimersInv.of_schedule (hi : WheelInv es w) (h : TimersInv es w) {l r : List CallEvent}
    {e : CallEvent} {delay : ℤ} {id : ℕ} (hes : es = l ++ e :: r)
    (hcall : e.call = .schedule delay) (hres : e.result = .scheduled id) :
    ∃ t : Timer, t.id = id ∧
      TimerInv es w t (sinceDue (clock l + delay) (clock l) r) := by
  have hmem : id ∈ Timers.issued es := by
    rw [hes]
    refine List.mem_filterMap.mpr ⟨e, List.mem_append_right l List.mem_cons_self, ?_⟩
    unfold scheduled?
    rw [hres]
  have hpos := (hi.mem_issued.mp hmem).1
  exact ⟨⟨clock l + delay, id - 1, id⟩, rfl,
    h l e r delay ⟨clock l + delay, id - 1, id⟩ hes hcall hres (Nat.sub_add_cancel hpos) rfl⟩

theorem count_firedIds_append_list (es fs : List CallEvent) (id : ℕ) :
    (firedIds (es ++ fs)).count id = (firedIds es).count id + (firedIds fs).count id := by
  unfold firedIds firings
  rw [List.filterMap_append, List.map_append, List.count_append]

theorem count_firedIds_le_of_prefix {p q : List CallEvent} (h : p <+: q) (id : ℕ) :
    (firedIds p).count id ≤ (firedIds q).count id := by
  obtain ⟨r, rfl⟩ := h
  rw [count_firedIds_append_list]
  exact Nat.le_add_right _ _

theorem thisTick_isPrefix (q : List CallEvent) : thisTick q <+: q := by
  cases q with
  | nil => exact List.prefix_rfl
  | cons e q => exact (List.prefix_cons_inj e).mpr (List.takeWhile_prefix _)

/-- Before the first tick after its schedule call a timer does not run. -/
theorem TimerInv.not_fired_before {t : Timer} {l r : List CallEvent} {e : CallEvent} {d c : ℤ}
    (h : TimerInv es w t (sinceDue d c r)) (hes : es = l ++ e :: r) :
    t.id ∉ firedIds (r.takeWhile (fun x => !isTick x)) := by
  have hcount := count_firedIds_append_list (l ++ [e]) r t.id
  rw [List.append_assoc, List.singleton_append, ← hes] at hcount
  rw [← List.count_pos_iff]
  cases hdue : sinceDue d c r with
  | none =>
    rw [hdue] at h
    have hzero := List.count_eq_zero.mpr h.1
    have hle := count_firedIds_le_of_prefix
      (List.takeWhile_prefix (l := r) (fun x => !isTick x)) t.id
    omega
  | some q =>
    rw [hdue] at h
    obtain ⟨p, k, q', rfl, rfl, hk⟩ := sinceDue_suffix hdue
    have hprefix : (p ++ k :: q').takeWhile (fun x => !isTick x) <+: p := by
      rw [List.takeWhile_append]
      split_ifs
      · simp [hk]
      · exact List.takeWhile_prefix _
    have hle := count_firedIds_le_of_prefix hprefix t.id
    have hle' := count_firedIds_le_of_prefix (thisTick_isPrefix (k :: q')) t.id
    have heq := h.2.1
    rw [count_firedIds_append_list p] at hcount
    omega

end Final

/-- A tick in progress can always go on, and it returns after one iteration for
each due timer, whatever the callbacks call meanwhile. -/
def TickReturns (w : Wheel) : Prop :=
  w.control ≠ .idle → (w.step .proceed).isSome = true ∧
    ∀ calls es w', exec Wheel.step w calls = some (es, w') →
      w.control.due.length < calls.count .proceed → ∃ e ∈ es, e.result = .returned

section Returns
variable {w w' : Wheel} {c : Call} {res : Result}

/-- Only the loop itself takes timers off the list of due ones. -/
theorem Wheel.step_busy (h : w.step c = some (res, w')) (hbusy : w.control ≠ .idle) :
    res = .returned ∨
      w'.control ≠ .idle ∧ w'.control.due.length + [c].count .proceed = w.control.due.length := by
  cases Wheel.step_spec h with
  | schedule => exact .inr ⟨hbusy, rfl⟩
  | miss hid => exact .inr ⟨hbusy, rfl⟩
  | cancel hid => exact .inr ⟨hbusy, rfl⟩
  | tick hidle =>
    -- a tick inside a tick is not a step
    simp only [Wheel.step] at h
    cases h
  | finish hdue => exact .inl rfl
  | skip hdue hdone =>
    rw [hdue]
    exact .inr ⟨fun hidle => (by cases hidle), rfl⟩
  | fire hdue hdone =>
    rw [hdue]
    exact .inr ⟨fun hidle => (by cases hidle), rfl⟩

theorem Wheel.exec_returns {calls : List Call} {es : List CallEvent} (hbusy : w.control ≠ .idle)
    (h : exec Wheel.step w calls = some (es, w'))
    (hcount : w.control.due.length < calls.count .proceed) : ∃ e ∈ es, e.result = .returned := by
  induction calls generalizing w es with
  | nil => simp at hcount
  | cons c calls ih =>
    simp only [exec, Option.bind_eq_some_iff, Option.map_eq_some_iff] at h
    obtain ⟨⟨res, v⟩, hstep, ⟨fs, u⟩, hrest, he⟩ := h
    cases he
    rcases Wheel.step_busy hstep hbusy with hret | ⟨hbusy', hlen⟩
    · exact ⟨_, List.mem_cons_self, hret⟩
    · rw [← List.singleton_append, List.count_append] at hcount
      obtain ⟨e, he, hret⟩ := ih hbusy' hrest (by omega)
      exact ⟨e, List.mem_cons_of_mem _ he, hret⟩

theorem Wheel.tickReturns (w : Wheel) : TickReturns w := by
  intro hbusy
  refine ⟨?_, fun calls es w' h hcount => Wheel.exec_returns hbusy h hcount⟩
  cases hc : w.control with
  | idle => exact absurd hc hbusy
  | walking due => simp [Wheel.step, hc]
  | calling due => simp [Wheel.step, hc]

end Returns

/-- Whatever the program and its callbacks schedule and cancel. -/
theorem timerWheel_runs (calls : List Call) (es : List CallEvent) (w : Wheel)
    (hr : exec Wheel.step Wheel.init calls = some (es, w)) : TimersRun es ∧ TickReturns w := by
  refine ⟨?_, w.tickReturns⟩
  obtain ⟨hi, ht, hk⟩ := exec_wheelInv hr
  refine ⟨⟨w.nextId, hi.issued⟩, ?_, hi.apart, ?_, hi.fired, ?_, ?_⟩
  · intro h e r delay id hes hcall hres
    obtain ⟨t, rfl, htimer⟩ := ht.of_schedule hi hes hcall hres
    cases hdue : sinceDue (clock h + delay) (clock h) r with
    | none =>
      rw [hdue] at htimer
      exact htimer.1
    | some q =>
      rw [hdue] at htimer
      obtain ⟨_, hcount, _, _, _, hret⟩ := htimer
      refine ⟨hcount, List.nodup_iff_count_le_one.mp hi.once t.id, ?_⟩
      intro hended
      rcases (hi.done t.id).mp (hret hended) with hfired | hcancelled
      · left
        rw [← List.count_pos_iff, ← hcount, List.count_pos_iff]
        exact hfired
      · exact .inr hcancelled
  · intro h k r hes htick
    exact (hk h k r hes htick).1
  · intro h e r delay id hes hcall hres
    obtain ⟨t, rfl, htimer⟩ := ht.of_schedule hi hes hcall hres
    exact htimer.not_fired_before hes
  · intro h e r id hes hcall
    obtain ⟨⟨is, his⟩, w', hstep⟩ := exec_events hr h e r hes
    obtain ⟨hb, _, _⟩ := exec_wheelInv his
    obtain ⟨before, call, res⟩ := e
    dsimp only at hcall hstep hb ⊢
    subst hcall
    have hiff : id ∈ before.pending ↔
        id ∈ issued h ∧ id ∉ firedIds h ∧ id ∉ cancelledIds h := by
      rw [hb.pending, hb.done, not_or]
    rw [← decide_eq_decide.mpr hiff]
    cases Wheel.step_spec hstep with
    | miss hid => rw [decide_eq_false hid]
    | cancel hid => rw [decide_eq_true hid]

/-- One callback schedules a timer that is due at once and runs in the next tick,
another one cancels a timer that is due in its own tick. -/
theorem timerWheel_runs_reentrant :
    ∃ (es : List CallEvent) (w : Wheel), exec Wheel.step Wheel.init
        [.schedule 5, .schedule 5, .schedule 3, .tick 4, .proceed, .schedule (-9), .proceed,
          .tick 2, .proceed, .proceed, .tick 6, .proceed, .cancel 2, .proceed, .proceed] =
        some (es, w) ∧
      firedIds es = [3, 4, 1] ∧ cancelledIds es = [2] ∧ TimersRun es ∧ TickReturns w := by
  have hrun : ∃ (es : List CallEvent) (w : Wheel), exec Wheel.step Wheel.init
        [.schedule 5, .schedule 5, .schedule 3, .tick 4, .proceed, .schedule (-9), .proceed,
          .tick 2, .proceed, .proceed, .tick 6, .proceed, .cancel 2, .proceed, .proceed] =
        some (es, w) ∧
      firedIds es = [3, 4, 1] ∧ cancelledIds es = [2] := ⟨_, _, rfl, rfl, rfl⟩
  obtain ⟨es, w, hr, hfired, hcancelled⟩ := hrun
  exact ⟨es, w, hr, hfired, hcancelled, timerWheel_runs _ es w hr⟩

end HftExercises.Timers
