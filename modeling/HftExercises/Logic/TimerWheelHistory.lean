import Mathlib.Data.List.Nodup
import Mathlib.Data.List.TakeWhile
import HftExercises.Core.ListFacts
import HftExercises.Logic.TimerWheel

/-! # Histories and queues of the timer wheel

How the history functions extend by one call, and how the sorted queue splits
into the timers that are due and those that are not.
-/
namespace HftExercises.Timers

section Histories
variable {es r q : List CallEvent} {e x : CallEvent} {c d : ℤ}

theorem clock_append_tick (es : List CallEvent) (w : Wheel) (now : ℤ) (res : Result) :
    clock (es ++ [⟨w, .tick now, res⟩]) = max (clock es) now := by
  simp [clock, clockFrom]

theorem clockFrom_append (c : ℤ) (es : List CallEvent) (hx : isTick x = false) :
    clockFrom c (es ++ [x]) = clockFrom c es := by
  obtain ⟨w, call, res⟩ := x
  cases call <;> simp_all [clockFrom, isTick]

theorem clock_append (es : List CallEvent) (hx : isTick x = false) :
    clock (es ++ [x]) = clock es := clockFrom_append 0 es hx

/-- Time does not pass with the schedule call itself. -/
theorem clock_after (h : List CallEvent) {delay : ℤ} (he : e.call = .schedule delay)
    (r : List CallEvent) : clock (h ++ e :: r) = clockFrom (clock h) r := by
  simp [clock, clockFrom, he]

theorem sinceDue_append (hx : isTick x = false) :
    sinceDue d c (r ++ [x]) = (sinceDue d c r).map (fun q => q ++ [x]) := by
  induction r generalizing c with
  | nil =>
    obtain ⟨w, call, res⟩ := x
    cases call with
    | tick now => cases hx
    | _ => rfl
  | cons e r ih =>
    simp only [List.cons_append, sinceDue]
    split
    · split_ifs with hdue
      · rfl
      · exact ih
    · exact ih

theorem sinceDue_append_some (h : sinceDue d c r = some q) :
    sinceDue d c (r ++ [x]) = some (q ++ [x]) := by
  induction r generalizing c with
  | nil => cases h
  | cons e r ih =>
    obtain ⟨w, call, res⟩ := e
    cases call with
    | tick now =>
      simp only [List.cons_append, sinceDue] at h ⊢
      split_ifs at h ⊢ with hdue
      · cases h
        rfl
      · exact ih h
    | schedule delay => exact ih h
    | cancel id => exact ih h
    | proceed => exact ih h

/-- A tick whose effective time reaches `d`, or does not. -/
theorem sinceDue_append_tick (w : Wheel) (now : ℤ) (res : Result) (h : sinceDue d c r = none) :
    sinceDue d c (r ++ [⟨w, .tick now, res⟩]) =
      if d ≤ max (clockFrom c r) now then some [⟨w, .tick now, res⟩] else none := by
  induction r generalizing c with
  | nil => rfl
  | cons e r ih =>
    obtain ⟨v, call, res'⟩ := e
    cases call with
    | tick now' =>
      simp only [sinceDue] at h
      split_ifs at h with hdue
      have hclock : clockFrom c (⟨v, .tick now', res'⟩ :: r) = clockFrom (max c now') r := rfl
      rw [hclock, ← ih h]
      simp [sinceDue, hdue]
    | schedule delay => exact ih h
    | cancel id => exact ih h
    | proceed => exact ih h

theorem sinceDue_suffix (h : sinceDue d c r = some q) :
    ∃ p k q', r = p ++ q ∧ q = k :: q' ∧ isTick k = true := by
  induction r generalizing c with
  | nil => cases h
  | cons e r ih =>
    simp only [sinceDue] at h
    split at h
    · rename_i now hnow
      split_ifs at h with hdue
      · cases h
        exact ⟨[], e, r, rfl, rfl, by simp [isTick, hnow]⟩
      · obtain ⟨p, k, q', hp, hq, hk⟩ := ih h
        exact ⟨e :: p, k, q', by rw [hp]; rfl, hq, hk⟩
    · obtain ⟨p, k, q', hp, hq, hk⟩ := ih h
      exact ⟨e :: p, k, q', by rw [hp]; rfl, hq, hk⟩

/-- No further tick has begun. -/
def Open (q : List CallEvent) : Prop := ∀ x ∈ q.tail, isTick x = false

theorem thisTick_of_open (h : Open q) : thisTick q = q := by
  cases q with
  | nil => rfl
  | cons e q =>
    simp only [thisTick, List.cons.injEq, true_and]
    rw [List.takeWhile_eq_self_iff]
    intro x hx
    rw [h x hx]
    rfl

theorem Open.append (hq : q ≠ []) (h : Open q) (hx : isTick x = false) : Open (q ++ [x]) := by
  cases q with
  | nil => exact absurd rfl hq
  | cons e q =>
    intro y hy
    rcases List.mem_append.mp hy with hy | hy
    · exact h y hy
    · rw [List.mem_singleton.mp hy]
      exact hx

theorem Open.of_append (hq : q ≠ []) (h : Open (q ++ [x])) : Open q ∧ isTick x = false := by
  cases q with
  | nil => exact absurd rfl hq
  | cons e q =>
    exact ⟨fun y hy => h y (List.mem_append_left _ hy),
      h x (List.mem_append_right _ List.mem_cons_self)⟩

theorem thisTick_append_of_not_open (hq : q ≠ []) (h : ¬ Open (q ++ [x])) :
    thisTick (q ++ [x]) = thisTick q := by
  cases q with
  | nil => exact absurd rfl hq
  | cons e q =>
    simp only [List.cons_append, thisTick, List.cons.injEq, true_and]
    rw [List.takeWhile_append]
    split_ifs with hlen
    · have hall : q.takeWhile (fun x => !isTick x) = q :=
        (List.takeWhile_prefix _).eq_of_length hlen
      have hx : isTick x = true := by
        by_contra hx
        apply h
        intro y hy
        rcases List.mem_append.mp hy with hy | hy
        · simpa using List.takeWhile_eq_self_iff.mp hall y hy
        · rw [List.mem_singleton.mp hy]
          simpa using hx
      simp [hx, hall]
    · rfl

theorem firings_append (es : List CallEvent) (x : CallEvent) :
    firings (es ++ [x]) = firings es ++ (fired? x).toList := filterMap_append_singleton _ es x

theorem issued_append (es : List CallEvent) (x : CallEvent) :
    issued (es ++ [x]) = issued es ++ (scheduled? x).toList := filterMap_append_singleton _ es x

theorem cancelledIds_append (es : List CallEvent) (x : CallEvent) :
    cancelledIds (es ++ [x]) = cancelledIds es ++ (cancelled? x).toList :=
  filterMap_append_singleton _ es x

theorem firedIds_append (es : List CallEvent) (x : CallEvent) :
    firedIds (es ++ [x]) = firedIds es ++ (fired? x).toList.map Timer.id := by
  unfold firedIds
  rw [firings_append, List.map_append]

section Silent
variable (es : List CallEvent) {x : CallEvent}

theorem issued_append_none (hx : scheduled? x = none) : issued (es ++ [x]) = issued es := by
  rw [issued_append, hx, Option.toList_none, List.append_nil]

theorem firings_append_none (hx : fired? x = none) : firings (es ++ [x]) = firings es := by
  rw [firings_append, hx, Option.toList_none, List.append_nil]

theorem firedIds_append_none (hx : fired? x = none) : firedIds (es ++ [x]) = firedIds es :=
  congrArg (List.map Timer.id) (firings_append_none es hx)

theorem cancelledIds_append_none (hx : cancelled? x = none) :
    cancelledIds (es ++ [x]) = cancelledIds es := by
  rw [cancelledIds_append, hx, Option.toList_none, List.append_nil]

end Silent

/-- A call that runs no callback of this timer. -/
theorem count_firedIds_append {id : ℕ} (es : List CallEvent)
    (hx : ∀ u, fired? x = some u → u.id ≠ id) :
    (firedIds (es ++ [x])).count id = (firedIds es).count id := by
  rw [firedIds_append, List.count_append]
  cases hf : fired? x with
  | none => rfl
  | some u => simp [hx u hf]

theorem count_firedIds_thisTick {id : ℕ} (hq : q ≠ []) (hx : ∀ u, fired? x = some u → u.id ≠ id) :
    (firedIds (thisTick (q ++ [x]))).count id = (firedIds (thisTick q)).count id := by
  by_cases hopen : Open (q ++ [x])
  · rw [thisTick_of_open hopen, thisTick_of_open (hopen.of_append hq).1,
      count_firedIds_append q hx]
  · rw [thisTick_append_of_not_open hq hopen]

end Histories

section Queue
variable {pq : List Timer} {t u : Timer} {now : ℤ}

theorem mem_push : u ∈ push t pq ↔ u = t ∨ u ∈ pq := by
  induction pq with
  | nil => simp [push]
  | cons x pq ih =>
    unfold push
    split_ifs
    · exact List.mem_cons
    · rw [List.mem_cons, ih, List.mem_cons]
      tauto

/-- A new timer has the greatest sequence number. -/
theorem push_sorted (hpq : pq.Pairwise before) (hseq : ∀ x ∈ pq, x.seq < t.seq) :
    (push t pq).Pairwise before := by
  induction pq with
  | nil => exact List.pairwise_singleton _ _
  | cons x pq ih =>
    obtain ⟨hx, hrest⟩ := List.pairwise_cons.mp hpq
    have hlt := hseq x List.mem_cons_self
    unfold push
    split_ifs with hcmp
    · have hafter : t.deadline < x.deadline := by
        unfold timerCmp at hcmp
        split_ifs at hcmp with hne
        · exact of_decide_eq_true hcmp
        · have := of_decide_eq_true hcmp
          omega
      refine List.pairwise_cons.mpr ⟨?_, hpq⟩
      intro y hy
      rcases List.mem_cons.mp hy with rfl | hy
      · exact .inl hafter
      · left
        rcases hx y hy with hlt | ⟨heq, _⟩
        · omega
        · omega
    · have hbefore : before x t := by
        unfold timerCmp at hcmp
        unfold before
        split_ifs at hcmp with hne
        · have hle : x.deadline ≤ t.deadline := by simpa using hcmp
          omega
        · omega
      refine List.pairwise_cons.mpr
        ⟨?_, ih hrest (fun y hy => hseq y (List.mem_cons_of_mem x hy))⟩
      intro y hy
      rcases mem_push.mp hy with rfl | hy
      · exact hbefore
      · exact hx y hy

theorem lt_of_mem_dropWhile (hpq : pq.Pairwise before)
    (ht : t ∈ pq.dropWhile (fun t => decide (t.deadline ≤ now))) : now < t.deadline := by
  induction pq with
  | nil => cases ht
  | cons x pq ih =>
    obtain ⟨hx, hrest⟩ := List.pairwise_cons.mp hpq
    rw [List.dropWhile_cons] at ht
    split_ifs at ht with hdue
    · exact ih hrest ht
    · have hlt : now < x.deadline := by simpa using hdue
      rcases List.mem_cons.mp ht with rfl | hmem
      · exact hlt
      · rcases hx t hmem with h | ⟨h, _⟩
        · omega
        · omega

theorem le_of_mem_takeWhile (ht : t ∈ pq.takeWhile (fun t => decide (t.deadline ≤ now))) :
    t.deadline ≤ now := by
  simpa using List.mem_takeWhile_imp ht

theorem mem_takeWhile_or_dropWhile (now : ℤ) (ht : t ∈ pq) :
    t ∈ pq.takeWhile (fun t => decide (t.deadline ≤ now)) ∨
      t ∈ pq.dropWhile (fun t => decide (t.deadline ≤ now)) := by
  rw [← List.mem_append, List.takeWhile_append_dropWhile]
  exact ht

end Queue

section Scheduled
variable {es : List CallEvent} {t u : Timer}

theorem Scheduled.append (h : Scheduled es t) (x : CallEvent) : Scheduled (es ++ [x]) t := by
  obtain ⟨l, e, r, delay, heq, hrest⟩ := h
  exact ⟨l, e, r ++ [x], delay, by rw [heq, List.append_assoc, List.cons_append], hrest⟩

theorem Scheduled.mem_issued (h : Scheduled es t) : t.id ∈ issued es := by
  obtain ⟨l, e, r, delay, rfl, _, hres, _⟩ := h
  refine List.mem_filterMap.mpr ⟨e, List.mem_append_right l List.mem_cons_self, ?_⟩
  unfold scheduled?
  rw [hres]

/-- An identifier is issued once. -/
theorem Scheduled.eq (hnodup : (issued es).Nodup) (ht : Scheduled es t) (hu : Scheduled es u)
    (hid : t.id = u.id) : t = u := by
  obtain ⟨h, e, r, delay, rfl, hcall, hres, hseq, hdeadline⟩ := ht
  obtain ⟨h', e', r', delay', heq, hcall', hres', hseq', hdeadline'⟩ := hu
  have he : scheduled? e = some t.id := by
    unfold scheduled?
    rw [hres]
  have he' : scheduled? e' = some t.id := by
    unfold scheduled?
    rw [hres', hid]
  obtain ⟨rfl, rfl, rfl⟩ := split_eq_of_nodup_filterMap hnodup heq he he'
  obtain rfl : delay = delay' := by
    rw [hcall] at hcall'
    exact Call.schedule.inj hcall'
  obtain ⟨d, n, id⟩ := t
  obtain ⟨d', n', id'⟩ := u
  simp only [Timer.mk.injEq] at *
  omega

end Scheduled

end HftExercises.Timers
