import HftExercises.Domain.OrderGateway

/-! # The gateway over call sequences

As long as the clock readings do not decrease, the stamp table is a function of
the history: it holds the sink calls of the last window. Compaction then never
changes a decision.
-/
namespace HftExercises.Gateway

abbrev SubmitEvent := Event OrderGateway Submission SubmitResult

/-- The submit called the sink, which may have thrown. -/
def SubmitEvent.calledSink (e : SubmitEvent) : Prop := e.result ≠ ⟨.returned false, []⟩

/-- The submit returned true and the sink took exactly its order. -/
def SubmitEvent.forwarded (e : SubmitEvent) : Prop := e.result = ⟨.returned true, [e.call.order]⟩

/-- A submit of `cid` selected by `sent` was read at `stamp`, within `W` before `now`. -/
def SentWithin (sent : SubmitEvent → Prop) (W : ℕ) (h : List SubmitEvent) (now : UInt64)
    (cid : ClientOrderId) (stamp : UInt64) : Prop :=
  ∃ e ∈ h, sent e ∧ e.call.cid = cid ∧ e.call.now = stamp ∧ now.toNat - stamp.toNat ≤ W

/-- The table holds exactly the ids sent within the last `W`, with their stamps. -/
def SeenExact (sent : SubmitEvent → Prop) (W : ℕ) (h : List SubmitEvent) (now : UInt64)
    (g : OrderGateway) : Prop :=
  ∀ cid stamp, g.seen.lookup cid = some stamp ↔ SentWithin sent W h now cid stamp

/-- What a submit after the history `h` must answer. -/
def Decided (sent : SubmitEvent → Prop) (W : ℕ) (h : List SubmitEvent) (e : SubmitEvent) : Prop :=
  ((∃ stamp, SentWithin sent W h e.call.now e.call.cid stamp) → e.result = ⟨.returned false, []⟩) ∧
    ((¬ ∃ stamp, SentWithin sent W h e.call.now e.call.cid stamp) →
      e.result = if e.call.sinkThrows then ⟨.threw, []⟩ else ⟨.returned true, [e.call.order]⟩)

theorem age_le_iff {now stamp window : UInt64} (h : stamp ≤ now) :
    now - stamp ≤ window ↔ now.toNat - stamp.toNat ≤ window.toNat := by
  rw [UInt64.le_iff_toNat_le, UInt64.toNat_sub_of_le _ _ h]

theorem sentWithin_congr {sent sent' : SubmitEvent → Prop} {W : ℕ} {h : List SubmitEvent}
    (hs : ∀ e ∈ h, sent e ↔ sent' e) (now : UInt64) (cid : ClientOrderId) (stamp : UInt64) :
    SentWithin sent W h now cid stamp ↔ SentWithin sent' W h now cid stamp :=
  exists_congr fun e => and_congr_right fun he => and_congr_left' (hs e he)

section Window
variable {W : ℕ} {h : List SubmitEvent} {g : OrderGateway} {c : Submission} {now : UInt64}

theorem SentWithin.of_append_last {e : SubmitEvent} {cid : ClientOrderId} {stamp : UInt64} :
    SentWithin SubmitEvent.calledSink W (h ++ [e]) now cid stamp ↔
      SentWithin SubmitEvent.calledSink W h now cid stamp ∨
        e.calledSink ∧ e.call.cid = cid ∧ e.call.now = stamp ∧ now.toNat - stamp.toNat ≤ W := by
  simp only [SentWithin, List.mem_append, List.mem_singleton, or_and_right, exists_or,
    exists_eq_left]

/-- The history determines what the table holds once it is compacted, at any
reading that is not older than the history. -/
structure WindowInv (W : ℕ) (h : List SubmitEvent) (g : OrderGateway) : Prop where
  window : g.windowCount.toNat = W
  decided : Admissible (Decided SubmitEvent.calledSink W) h
  compacted : ∀ now, (∀ e ∈ h, e.call.now ≤ now) →
    SeenExact SubmitEvent.calledSink W h now (g.compactLocked now)
  last : ∀ e ∈ h.getLast?, SeenExact SubmitEvent.calledSink W h e.call.now g

theorem WindowInv.create (window : Int64) :
    WindowInv window.toInt.toNat [] (OrderGateway.create window) where
  window := windowCount_create window
  decided := by simp [Admissible]
  compacted := by
    intro now _ cid stamp
    simp [lookup_compactLocked, OrderGateway.create, SentWithin]
  last := by simp

/-- Later compactions of an exact table keep it exact. -/
theorem SeenExact.compactLocked (hg : SeenExact SubmitEvent.calledSink W h c.now g)
    (hw : g.windowCount.toNat = W) (hc : c.now ≤ now) (hle : ∀ e ∈ h, e.call.now ≤ now) :
    SeenExact SubmitEvent.calledSink W h now (g.compactLocked now) := by
  intro cid stamp
  rw [lookup_compactLocked, hg]
  constructor
  · rintro ⟨⟨e, he, hs, hcid, rfl, _⟩, hage⟩
    rw [age_le_iff (hle e he), hw] at hage
    exact ⟨e, he, hs, hcid, rfl, hage⟩
  · rintro ⟨e, he, hs, hcid, rfl, hage⟩
    have hnow := UInt64.le_iff_toNat_le.mp hc
    refine ⟨⟨e, he, hs, hcid, rfl, by omega⟩, ?_⟩
    rwa [age_le_iff (hle e he), hw]

/-- One submit, read at the end of the history: its decision and the table it leaves. -/
theorem SeenExact.submitLocked
    (hg : SeenExact SubmitEvent.calledSink W h c.now (g.compactLocked c.now)) :
    Decided SubmitEvent.calledSink W h ⟨g, c, (g.submitLocked c).1⟩ ∧
      SeenExact SubmitEvent.calledSink W (h ++ [⟨g, c, (g.submitLocked c).1⟩]) c.now
        (g.submitLocked c).2 := by
  cases hl : (g.compactLocked c.now).seen.lookup c.cid with
  | some stamp =>
    rw [submitLocked_duplicate hl]
    refine ⟨⟨fun _ => rfl, fun hn => absurd ⟨stamp, (hg _ _).mp hl⟩ hn⟩, ?_⟩
    intro cid s
    rw [SentWithin.of_append_last, hg]
    simp [SubmitEvent.calledSink]
  | none =>
    obtain ⟨hres, hseen⟩ := submitLocked_fresh hl
    have hnone : ¬ ∃ stamp, SentWithin SubmitEvent.calledSink W h c.now c.cid stamp := by
      rintro ⟨stamp, hs⟩
      rw [(hg _ _).mpr hs] at hl
      cases hl
    have hcalled : SubmitEvent.calledSink ⟨g, c, (g.submitLocked c).1⟩ := by
      unfold SubmitEvent.calledSink
      rw [hres]
      cases c.sinkThrows <;> simp
    refine ⟨⟨fun he => absurd he hnone, fun _ => hres⟩, ?_⟩
    intro cid s
    rw [SentWithin.of_append_last, ← hg, hseen]
    by_cases hcid : cid = c.cid
    · subst hcid
      rw [AList.lookup_insert, hl]
      simp only [hcalled, Option.some.injEq, true_and, reduceCtorEq, false_or]
      constructor
      · rintro rfl
        exact ⟨rfl, by omega⟩
      · exact fun hs => hs.1
    · rw [AList.lookup_insert_ne hcid]
      simp [Ne.symm hcid]

theorem WindowInv.step (hi : WindowInv W h g) (hc : ∀ e ∈ h, e.call.now ≤ c.now) :
    WindowInv W (h ++ [⟨g, c, (g.submitLocked c).1⟩]) (g.submitLocked c).2 := by
  obtain ⟨hdec, hseen⟩ := (hi.compacted c.now hc).submitLocked
  have hwin : (g.submitLocked c).2.windowCount.toNat = W := by
    rw [submitLocked_windowCount, hi.window]
  refine ⟨hwin, admissible_append_singleton.mpr ⟨hi.decided, hdec⟩, ?_, ?_⟩
  · intro now hle
    exact hseen.compactLocked hwin (hle _ (List.mem_append_right h List.mem_cons_self)) hle
  · intro e he
    simp only [List.getLast?_concat, Option.mem_some_iff] at he
    subst he
    exact hseen

end Window

theorem exec_windowInv (window : Int64) {calls : List Submission}
    (hclock : calls.Pairwise (fun a b => a.now ≤ b.now)) :
    ∃ es g, exec OrderGateway.step (.create window) calls = some (es, g) ∧
      WindowInv window.toInt.toNat es g := by
  refine exec_total (WindowInv window.toInt.toNat) ?_ (.create window)
    (admissible_iff_pairwise.mpr hclock)
  intro h g c hi hc
  exact ⟨_, _, rfl, hi.step (fun e he => hc _ (List.mem_map_of_mem he))⟩

/-- Without a throwing sink, a submit either forwards or reports a duplicate. -/
theorem WindowInv.calledSink_iff {W : ℕ} {h : List SubmitEvent} {g : OrderGateway}
    (hi : WindowInv W h g) (hsink : ∀ e ∈ h, e.call.sinkThrows = false) :
    ∀ e ∈ h, e.calledSink ↔ e.forwarded := by
  intro e he
  obtain ⟨l, r, hlr⟩ := List.append_of_mem he
  obtain ⟨hdup, hfresh⟩ := hi.decided l e r hlr
  unfold SubmitEvent.calledSink SubmitEvent.forwarded
  by_cases hs : ∃ stamp, SentWithin SubmitEvent.calledSink W l e.call.now e.call.cid stamp
  · simp [hdup hs]
  · simp [hfresh hs, hsink e he]

/-- With a clock that does not go back and a sink that does not throw, a submit
forwards its order exactly when no submit of its id was forwarded within the
window before it, and after each call the table holds exactly the ids forwarded
within the window. -/
theorem submit_forwards_iff_not_recent (window : Int64) (calls : List Submission)
    (hclock : calls.Pairwise (fun a b => a.now ≤ b.now))
    (hsink : ∀ c ∈ calls, c.sinkThrows = false) :
    ∃ es g, exec OrderGateway.step (.create window) calls = some (es, g) ∧
      (∀ h e r, es = h ++ e :: r →
        (e.forwarded ↔ ¬ ∃ stamp, SentWithin SubmitEvent.forwarded window.toInt.toNat h
          e.call.now e.call.cid stamp) ∧
        (¬ e.forwarded → e.result = ⟨.returned false, []⟩)) ∧
      ∀ e ∈ es.getLast?,
        SeenExact SubmitEvent.forwarded window.toInt.toNat es e.call.now g := by
  obtain ⟨es, g, hes, hi⟩ := exec_windowInv window hclock
  have hthrow : ∀ e ∈ es, e.call.sinkThrows = false := by
    intro e he
    exact hsink _ (exec_calls hes ▸ List.mem_map_of_mem he)
  have hsent := hi.calledSink_iff hthrow
  refine ⟨es, g, hes, ?_, ?_⟩
  · intro h e r heq
    obtain ⟨hdup, hfresh⟩ := hi.decided h e r heq
    have hprefix : ∀ e' ∈ h, e'.calledSink ↔ e'.forwarded := by
      intro e' he'
      exact hsent e' (heq ▸ List.mem_append_left _ he')
    have he : e ∈ es := heq ▸ List.mem_append_right h List.mem_cons_self
    simp only [sentWithin_congr hprefix, hthrow e he] at hdup hfresh
    refine ⟨⟨fun hf hs => ?_, hfresh⟩, fun hf => ?_⟩
    · exact (hsent e he).mpr hf (hdup hs)
    · exact hdup (by_contra fun hs => hf (hfresh hs))
  · intro e he cid stamp
    rw [hi.last e he, sentWithin_congr hsent]

/-- A duplicate at exactly the window, a reuse one past it, and another id. -/
theorem submit_forwards_iff_not_recent_reuse :
    let order : Order := ⟨.buy, 100, 10⟩
    let calls : List Submission := [⟨5, 1, order, false⟩, ⟨9, 2, order, false⟩,
      ⟨15, 1, order, false⟩, ⟨16, 1, order, false⟩]
    calls.Pairwise (fun a b => a.now ≤ b.now) ∧ (∀ c ∈ calls, c.sinkThrows = false) ∧
      ∃ es g, exec OrderGateway.step (.create 10) calls = some (es, g) ∧
        (∀ h e r, es = h ++ e :: r →
          (e.forwarded ↔ ¬ ∃ stamp, SentWithin SubmitEvent.forwarded (10 : Int64).toInt.toNat h
            e.call.now e.call.cid stamp) ∧
          (¬ e.forwarded → e.result = ⟨.returned false, []⟩)) ∧
        ∀ e ∈ es.getLast?,
          SeenExact SubmitEvent.forwarded (10 : Int64).toInt.toNat es e.call.now g :=
  ⟨by decide, by decide, submit_forwards_iff_not_recent 10 _ (by decide) (by decide)⟩

/-! # A sink that throws

`submit` stamps the id before it calls the sink, and an exception of the sink leaves the stamp
in the table. A resubmission within the window is then answered as a duplicate of an order
that was never forwarded, whatever other ids are submitted in between.
-/

/-- The state is what it would be without the submit, as far as its id is concerned, if the
submit threw. -/
def Undone (g : OrderGateway) (c : Submission) : Prop :=
  (g.submitLocked c).1.outcome = .threw →
    (g.submitLocked c).2.seen.lookup c.cid = (g.compactLocked c.now).seen.lookup c.cid

/-- `retry` is a resubmission of the id of `c` within the window, to the gateway that `c` and
then the submits of other ids have led to. -/
structure RetryOf (g : OrderGateway) (c : Submission) (others : List Submission)
    (retry : Submission) : Prop where
  sameId : retry.cid = c.cid
  otherIds : ∀ x ∈ others, x.cid ≠ c.cid
  clock : (c :: others ++ [retry]).Pairwise fun x y => x.now ≤ y.now
  within : retry.now - c.now ≤ g.windowCount
  taken : retry.sinkThrows = false

/-- If the submit threw, its order can be submitted again within the window. -/
def Retriable (g : OrderGateway) (c : Submission) : Prop :=
  (g.submitLocked c).1.outcome = .threw → ∀ others retry, RetryOf g c others retry →
    ∀ es g', exec OrderGateway.step (g.submitLocked c).2 others = some (es, g') →
      (g'.submitLocked retry).1 = ⟨.returned true, [retry.order]⟩

/-- The submit is a duplicate, or its sink does not throw. -/
def Quiet (g : OrderGateway) (c : Submission) : Prop :=
  c.sinkThrows = true → ∃ stamp, g.seen.lookup c.cid = some stamp ∧ c.now - stamp ≤ g.windowCount

section Throw
variable {g g' : OrderGateway} {c x retry : Submission} {cid : ClientOrderId} {stamp : UInt64}

theorem quiet_iff : Quiet g c ↔ (g.submitLocked c).1.outcome ≠ .threw := by
  simp only [Quiet, ← lookup_compactLocked]
  cases hl : (g.compactLocked c.now).seen.lookup c.cid with
  | some stamp =>
    rw [submitLocked_duplicate hl]
    exact iff_of_true (fun _ => ⟨stamp, rfl⟩) nofun
  | none =>
    rw [(submitLocked_fresh hl).1]
    cases c.sinkThrows <;> simp

/-- A submit that throws has stamped its id. -/
theorem threw_stamped (h : (g.submitLocked c).1.outcome = .threw) :
    (g.compactLocked c.now).seen.lookup c.cid = none ∧
      (g.submitLocked c).2.seen.lookup c.cid = some c.now := by
  cases hl : (g.compactLocked c.now).seen.lookup c.cid with
  | some stamp =>
    rw [submitLocked_duplicate hl] at h
    cases h
  | none =>
    refine ⟨rfl, ?_⟩
    rw [(submitLocked_fresh hl).2, AList.lookup_insert]

/-- A submit of another id only compacts. -/
theorem lookup_submitLocked_of_ne (hne : cid ≠ x.cid) :
    (g.submitLocked x).2.seen.lookup cid = (g.compactLocked x.now).seen.lookup cid := by
  cases hl : (g.compactLocked x.now).seen.lookup x.cid with
  | some stamp => rw [submitLocked_duplicate hl]
  | none => rw [(submitLocked_fresh hl).2, AList.lookup_insert_ne hne]

/-- A stamp outlives the submits of other ids within the window. -/
theorem stamp_survives {others : List Submission} {es : List SubmitEvent}
    (hrun : exec OrderGateway.step g others = some (es, g')) (hs : g.seen.lookup cid = some stamp)
    (ho : ∀ x ∈ others, cid ≠ x.cid ∧ x.now - stamp ≤ g.windowCount) :
    g'.seen.lookup cid = some stamp ∧ g'.windowCount = g.windowCount := by
  induction others generalizing g es with
  | nil =>
    cases hrun
    exact ⟨hs, rfl⟩
  | cons x others ih =>
    obtain ⟨r, hr, hrest⟩ := Option.bind_eq_some_iff.mp hrun
    cases hr
    obtain ⟨⟨fs, u⟩, hfs, heq⟩ := Option.map_eq_some_iff.mp hrest
    cases heq
    obtain ⟨hx, hothers⟩ := List.forall_mem_cons.mp ho
    have hkept : (g.submitLocked x).2.seen.lookup cid = some stamp := by
      rw [lookup_submitLocked_of_ne hx.1, lookup_compactLocked]
      exact ⟨hs, hx.2⟩
    have hwin := submitLocked_windowCount (g := g) (c := x)
    obtain ⟨hend, hsame⟩ := ih hfs hkept (hwin.symm ▸ hothers)
    exact ⟨hend, hsame.trans hwin⟩

/-- A resubmission within the window of an order that the sink did not take is dropped. -/
theorem retry_dropped (hthrew : (g.submitLocked c).1.outcome = .threw) {others : List Submission}
    (hr : RetryOf g c others retry) {es : List SubmitEvent}
    (hrun : exec OrderGateway.step (g.submitLocked c).2 others = some (es, g')) :
    (g'.submitLocked retry).1 = ⟨.returned false, []⟩ := by
  have hclock := hr.clock
  rw [List.cons_append, List.pairwise_cons, List.pairwise_append] at hclock
  obtain ⟨hfirst, -, -, hlast⟩ := hclock
  have hend : c.now ≤ retry.now := hfirst retry (List.mem_append_right _ List.mem_cons_self)
  have hage : retry.now.toNat - c.now.toNat ≤ g.windowCount.toNat :=
    (age_le_iff hend).mp hr.within
  have hothers : ∀ x ∈ others,
      c.cid ≠ x.cid ∧ x.now - c.now ≤ (g.submitLocked c).2.windowCount := by
    intro x hx
    have hle := UInt64.le_iff_toNat_le.mp (hlast x hx retry List.mem_cons_self)
    refine ⟨Ne.symm (hr.otherIds x hx), ?_⟩
    rw [submitLocked_windowCount, age_le_iff (hfirst x (List.mem_append_left _ hx))]
    omega
  obtain ⟨hstamp, hwin⟩ := stamp_survives hrun (threw_stamped hthrew).2 hothers
  rw [submitLocked_windowCount] at hwin
  have hlive : (g'.compactLocked retry.now).seen.lookup retry.cid = some c.now := by
    rw [lookup_compactLocked, hr.sameId, hwin]
    exact ⟨hstamp, hr.within⟩
  rw [submitLocked_duplicate hlive]

/-- A submit leaves no trace of a failed forward, and lets its order be submitted again, if and
only if it does not reach a throwing sink; otherwise every resubmission within the window is
dropped. -/
theorem throw_undone_iff (g : OrderGateway) (c : Submission) :
    (Undone g c ↔ Quiet g c) ∧ (Retriable g c ↔ Quiet g c) ∧
      (¬ Quiet g c → ∀ others retry, RetryOf g c others retry → ∀ es g',
        exec OrderGateway.step (g.submitLocked c).2 others = some (es, g') →
          (g'.submitLocked retry).1 = ⟨.returned false, []⟩) := by
  rw [quiet_iff]
  refine ⟨⟨fun h hthrew => ?_, fun h hthrew => absurd hthrew h⟩,
    ⟨fun h hthrew => ?_, fun h hthrew => absurd hthrew h⟩,
    fun h others retry hr es g' hrun => retry_dropped (not_not.mp h) hr hrun⟩
  · obtain ⟨hnone, hsome⟩ := threw_stamped hthrew
    rw [h hthrew, hnone] at hsome
    cases hsome
  · -- at once, by a sink that takes the order
    have hretry : RetryOf g c [] { c with sinkThrows := false } :=
      ⟨rfl, nofun, by simp, by simp, rfl⟩
    have hforwarded := h hthrew [] _ hretry [] _ rfl
    rw [retry_dropped hthrew hretry rfl] at hforwarded
    cases hforwarded

end Throw

/-- The sink throws once; the client's retry a moment later is called a duplicate. -/
theorem throw_not_undone :
    let order : Order := ⟨.buy, 100, 10⟩
    let g : OrderGateway := .create 10
    (g.submitLocked ⟨5, 1, order, true⟩).1 = ⟨.threw, []⟩ ∧ g.seen.lookup 1 = none ∧
      (g.submitLocked ⟨5, 1, order, true⟩).2.seen.lookup 1 = some 5 ∧
      ((g.submitLocked ⟨5, 1, order, true⟩).2.submitLocked ⟨6, 1, order, false⟩).1 =
        ⟨.returned false, []⟩ := by
  decide

end HftExercises.Gateway
