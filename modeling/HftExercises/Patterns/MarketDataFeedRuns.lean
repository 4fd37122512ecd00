import HftExercises.Patterns.MarketDataFeedCalls

/-! # Runs of the feed

Every step of any thread keeps the history and the feed in agreement, whatever the
callbacks do: they may change the subscriptions, publish again and throw, at any depth.
-/
namespace HftExercises.Feed
variable {O T : Type*} [DecidableEq T]

section Steps
variable {es : List (Event (System O T) (Action O T) (Result O))} {s s' : System O T}

/-- The history of a run and the state that it ends in. -/
structure Invariant (es : List (Event (System O T) (Action O T) (Result O))) (s : System O T) :
    Prop where
  recorded : Recorded (subscriptions es) (endings es) s
  served : Served (publishes es) (invocations es) s

omit [DecidableEq T] in
theorem Recorded.quiet (h : Recorded (subscriptions es) (endings es) s)
    {e : Event (System O T) (Action O T) (Result O)} (hsub : subscribedBy e = none)
    (hend : endedBy e = none) : Recorded (subscriptions (es ++ [e])) (endings (es ++ [e])) s := by
  simp only [subscriptions, endings, filterMap_append_singleton, hsub, hend, Option.toList_none,
    List.append_nil]
  exact h

omit [DecidableEq T] in
theorem Served.quiet (h : Served (publishes es) (invocations es) s)
    {e : Event (System O T) (Action O T) (Result O)} (hpub : publishedBy e = none)
    (hinv : ∀ c, invokedBy e c = none) :
    Served (publishes (es ++ [e])) (invocations (es ++ [e])) s := by
  have hsame : invocations (es ++ [e]) = invocations es := by
    funext c
    rw [invocations, filterMap_append_singleton, hinv c, Option.toList_none, List.append_nil]
    rfl
  rw [hsame, publishes, filterMap_append_singleton, hpub, Option.toList_none, List.append_nil]
  exact h

theorem publish_invariant (h : Invariant es s) {t : T} {a : Action O T} {callback : Callback}
    (hpub : publishedBy ⟨s, a, .done⟩ = some ⟨t, callback, s.feed.slots⟩)
    (hsub : subscribedBy ⟨s, a, (.done : Result O)⟩ = none)
    (hend : endedBy ⟨s, a, (.done : Result O)⟩ = none) :
    Invariant (es ++ [⟨s, a, .done⟩]) (s.publish t callback) := by
  constructor
  case recorded =>
    refine Recorded.quiet (h.recorded.setStack fun p hp => ?_) hsub hend
    rcases List.mem_cons.mp hp with rfl | hp
    · refine .inr fun slot hs => h.recorded.slots_lt ?_
      simpa using hs
    · exact .inl hp
  case served =>
    have hsame : invocations (es ++ [⟨s, a, .done⟩]) = invocations es := by
      funext c
      rw [invocations, filterMap_append_singleton]
      exact List.append_nil _
    rw [hsame, publishes, filterMap_append_singleton, hpub]
    exact h.served.publish t callback

omit [DecidableEq T] in
theorem subscribe_invariant (h : Invariant es s) (t : T) (observer : Option O) (symbol : UInt64) :
    Invariant (es ++ [⟨s, .subscribe t observer symbol, .id (s.feed.subscribe observer symbol).1⟩])
      { s with feed := (s.feed.subscribe observer symbol).2 } := by
  constructor
  case recorded =>
    cases observer with
    | none => exact h.recorded.quiet rfl rfl
    | some o =>
      have hquiet : ∀ e : Event (System O T) (Action O T) (Result O), endedBy e = none →
          endings (es ++ [e]) = endings es := by
        intro e he
        rw [endings, filterMap_append_singleton, he]
        exact List.append_nil _
      rw [hquiet _ rfl, subscriptions, filterMap_append_singleton]
      exact h.recorded.subscribe o symbol
  case served => exact (h.served.setFeed _).quiet rfl fun _ => rfl

omit [DecidableEq T] in
/-- The step ends a subscription made before. -/
theorem Recorded.ends (h : Recorded (subscriptions es) (endings es) s)
    {e : Event (System O T) (Action O T) (Result O)} {id : ℕ} (hsub : subscribedBy e = none)
    (hend : endedBy e = some id) (hid : id < s.feed.nextId) :
    Recorded (subscriptions (es ++ [e])) (endings (es ++ [e]))
      { s with feed := (s.feed.unsubscribe id).2 } := by
  rw [subscriptions, endings, filterMap_append_singleton, filterMap_append_singleton, hsub, hend,
    Option.toList_none, List.append_nil]
  exact h.unsubscribe hid

omit [DecidableEq T] in
theorem unsubscribe_invariant (h : Invariant es s) (t : T) (id : ℕ) :
    Invariant (es ++ [⟨s, .unsubscribe t id, .removed (s.feed.unsubscribe id).1⟩])
      { s with feed := (s.feed.unsubscribe id).2 } := by
  constructor
  case recorded =>
    cases hfound : (s.feed.unsubscribe id).1 with
    | true =>
      obtain ⟨slot, hs, hid⟩ := List.mem_map.mp ((unsubscribe_iff s.feed id).mp hfound)
      exact h.recorded.ends rfl rfl (hid ▸ h.recorded.slots_lt hs)
    | false =>
      have hsame : (s.feed.unsubscribe id).2 = s.feed := by
        rw [MarketDataFeed.unsubscribe] at hfound ⊢
        split_ifs at hfound ⊢
        rfl
      rw [hsame]
      exact h.recorded.quiet rfl rfl
  case served => exact (h.served.setFeed _).quiet rfl fun _ => rfl

/-- The innermost publish call of a thread goes on without a callback. -/
theorem setTop_quiet (h : Served (publishes es) (invocations es) s) {t : T} {p : Publish O}
    {outer : List (Publish O)} (hstack : s.stack t = p :: outer) (p' : Publish O)
    (hcall : p'.call = p.call) (hcallback : p'.callback = p.callback)
    (hsame : notified p.callback p'.snapshot = notified p.callback p.snapshot)
    {e : Event (System O T) (Action O T) (Result O)} (hpub : publishedBy e = none)
    (hinv : ∀ c, invokedBy e c = none) :
    Served (publishes (es ++ [e])) (invocations (es ++ [e])) (s.setTop t p') :=
  (h.setTop hstack p' hcall hcallback (fun _ _ => rfl) (by rw [hsame])).quiet hpub hinv

/-- The slots that a loop goes on with are among those it had. -/
theorem setTop_recorded {made : List (Slot O)} {ended : List ℕ} (h : Recorded made ended s) {t : T}
    {p : Publish O} {outer : List (Publish O)} (hstack : s.stack t = p :: outer) (p' : Publish O)
    (hmem : ∀ slot ∈ p'.snapshot ++ p'.running.toList, slot ∈ p.snapshot ++ p.running.toList) :
    Recorded made ended (s.setTop t p') := by
  refine h.setStack fun q hq => ?_
  rw [hstack, List.tail_cons] at hq
  rcases List.mem_cons.mp hq with rfl | hq
  · exact .inr fun slot hs => h.seen_lt t p (hstack ▸ List.mem_cons_self) slot (hmem slot hs)
  · exact .inl (hstack ▸ List.mem_cons_of_mem _ hq)

theorem proceed_invariant (h : Invariant es s) {t : T} {o : Result O}
    (hstep : s.step (.proceed t) = some (o, s')) : Invariant (es ++ [⟨s, .proceed t, o⟩]) s' := by
  simp only [System.step] at hstep
  split at hstep
  case h_1 call callback outer hstack =>
    cases hstep
    constructor
    case recorded =>
      refine Recorded.quiet (h.recorded.setStack fun p hp => .inl ?_) rfl rfl
      exact hstack ▸ List.mem_cons_of_mem _ hp
    case served => exact (h.served.finish hstack rfl).quiet rfl fun _ => rfl
  case h_2 call callback slot rest outer hstack =>
    split_ifs at hstep with hwants
    · cases hstep
      constructor
      case recorded =>
        refine Recorded.quiet (setTop_recorded h.recorded hstack _ fun x hx => ?_) rfl rfl
        rcases List.mem_append.mp hx with hx | hx
        · exact List.mem_append_left _ (List.mem_cons_of_mem _ hx)
        · obtain rfl : x = slot := by simpa using hx
          exact List.mem_append_left _ List.mem_cons_self
      case served =>
        have hmore : ∀ c, invocations (es ++ [⟨s, .proceed t, .invoked call slot callback⟩]) c =
            invocations es c ++ if call = c then [(slot, callback)] else [] := by
          intro c
          rw [invocations, filterMap_append_singleton]
          simp only [invokedBy]
          split_ifs <;> rfl
        have hpub : publishes (es ++ [⟨s, .proceed t, .invoked call slot callback⟩]) =
            publishes es := by
          rw [publishes, filterMap_append_singleton]
          exact List.append_nil _
        rw [hpub]
        refine h.served.setTop hstack ⟨call, callback, rest, some slot⟩ rfl rfl (fun c hc => ?_) ?_
        · rw [hmore, if_neg hc.symm, List.append_nil]
        · rw [hmore, if_pos rfl, notified_cons_of_wants hwants, List.append_assoc,
            List.singleton_append]
    · cases hstep
      constructor
      case recorded =>
        refine Recorded.quiet (setTop_recorded h.recorded hstack _ fun x hx => ?_) rfl rfl
        exact List.mem_append_left _ (List.mem_cons_of_mem _ (by simpa using hx))
      case served =>
        exact setTop_quiet h.served hstack ⟨call, callback, rest, none⟩ rfl rfl
          (notified_cons_of_not_wants hwants).symm rfl fun _ => rfl
  case h_3 => cases hstep

theorem returns_invariant (h : Invariant es s) {t : T} {o : Result O}
    (hstep : s.step (.returns t) = some (o, s')) : Invariant (es ++ [⟨s, .returns t, o⟩]) s' := by
  simp only [System.step] at hstep
  split at hstep
  case h_1 call callback rest slot outer hstack =>
    cases hstep
    constructor
    case recorded =>
      refine Recorded.quiet (setTop_recorded h.recorded hstack _ fun x hx => ?_) rfl rfl
      exact List.mem_append_left _ (by simpa using hx)
    case served =>
      exact setTop_quiet h.served hstack ⟨call, callback, rest, none⟩ rfl rfl rfl rfl fun _ => rfl
  case h_2 => cases hstep

theorem throws_invariant (h : Invariant es s) {t : T} {o : Result O}
    (hstep : s.step (.throws t) = some (o, s')) : Invariant (es ++ [⟨s, .throws t, o⟩]) s' := by
  simp only [System.step] at hstep
  split at hstep
  case h_1 call callback rest slot outer hstack =>
    cases hstep
    have hseen : slot.id < s.feed.nextId :=
      h.recorded.seen_lt t _ (hstack ▸ List.mem_cons_self) slot (by simp)
    have htop := setTop_recorded h.recorded hstack ⟨call, callback, rest, none⟩ fun x hx =>
      List.mem_append_left _ (by simpa using hx)
    constructor
    case recorded => exact htop.ends rfl rfl hseen
    case served =>
      exact ((h.served.setTop hstack ⟨call, callback, rest, none⟩ rfl rfl (fun _ _ => rfl)
        rfl).setFeed _).quiet rfl fun _ => rfl
  case h_2 => cases hstep

theorem step_invariant (h : Invariant es s) {a : Action O T} {o : Result O}
    (hstep : s.step a = some (o, s')) : Invariant (es ++ [⟨s, a, o⟩]) s' := by
  cases a with
  | subscribe t observer symbol =>
    simp only [System.step] at hstep
    split_ifs at hstep
    cases hstep
    exact subscribe_invariant h t observer symbol
  | unsubscribe t id =>
    simp only [System.step] at hstep
    split_ifs at hstep
    cases hstep
    exact unsubscribe_invariant h t id
  | subscriberCount t =>
    simp only [System.step] at hstep
    split_ifs at hstep
    cases hstep
    exact ⟨h.recorded.quiet rfl rfl, h.served.quiet rfl fun _ => rfl⟩
  | publishQuote t quote =>
    simp only [System.step] at hstep
    split_ifs at hstep
    cases hstep
    exact publish_invariant h rfl rfl rfl
  | publishTrade t trade =>
    simp only [System.step] at hstep
    split_ifs at hstep
    cases hstep
    exact publish_invariant h rfl rfl rfl
  | proceed t => exact proceed_invariant h hstep
  | returns t => exact returns_invariant h hstep
  | throws t => exact throws_invariant h hstep

end Steps

theorem exec_step_invariant {actions : List (Action O T)}
    {es : List (Event (System O T) (Action O T) (Result O))} {s : System O T}
    (hrun : exec System.step .init actions = some (es, s)) : Invariant es s :=
  exec_invariant Invariant (fun _ _ _ _ _ h hs => step_invariant h hs)
    ⟨recorded_init, served_init⟩ hrun

omit [DecidableEq T] in
/-- A call does what it owes in order, and has done all of it when it is off the stack. -/
theorem Served.in_order {calls : List (Published O T)} {done : ℕ → List (Slot O × Callback)}
    {s : System O T} (h : Served calls done s) {c : ℕ} {p : Published O T}
    (hp : calls[c]? = some p) : done c <+: notified p.callback p.snapshot := by
  by_cases hout : ∀ q ∈ s.stack p.thread, q.call ≠ c
  · exact (h.returned c p hp hout).symm ▸ List.prefix_rfl
  · push Not at hout
    obtain ⟨q, hq, rfl⟩ := hout
    obtain ⟨snapshot, hget, hdone⟩ := h.inside p.thread q hq
    rw [hp] at hget
    have hcallback : p.callback = q.callback := congrArg Published.callback (Option.some.inj hget)
    have hsnapshot : p.snapshot = snapshot := congrArg Published.snapshot (Option.some.inj hget)
    rw [hcallback, hsnapshot]
    exact ⟨_, hdone⟩

/-- The snapshot of a publish call is the state of the feed when it was made. -/
theorem snapshot_sorted {actions : List (Action O T)}
    {es : List (Event (System O T) (Action O T) (Result O))} {s : System O T}
    (hrun : exec System.step .init actions = some (es, s)) {p : Published O T}
    (hp : p ∈ publishes es) : (p.snapshot.map Slot.id).Pairwise (· < ·) := by
  obtain ⟨e, he, hpub⟩ := List.mem_filterMap.mp hp
  have hslots : p.snapshot = e.before.feed.slots := by
    simp only [publishedBy] at hpub
    split at hpub
    · cases hpub
      rfl
    · cases hpub
      rfl
    · cases hpub
  obtain ⟨_, _, _, hbefore, -, -⟩ := exec_mem hrun he
  rw [hslots]
  exact (exec_step_invariant hbefore).recorded.slots_sorted

/-- A thread in a loop over a snapshot can go on. -/
theorem proceed_isSome {s : System O T} {t : T} (h : s.inProgram t = false) :
    (s.step (.proceed t)).isSome = true := by
  rw [System.inProgram] at h
  simp only [System.step]
  split at h
  case h_1 => cases h
  case h_2 p outer hstack =>
    obtain ⟨call, callback, snapshot, running⟩ := p
    obtain rfl : running = none := Option.not_isSome_iff_eq_none.mp (by simpa using h)
    rw [hstack]
    cases snapshot with
    | nil => rfl
    | cons slot rest =>
      simp only
      split_ifs <;> rfl

/-- In every run, whatever the callbacks and the other threads do. A publish call runs its
callback once for each slot of its snapshot that wants the event and in their order, and for
no other; it has run them all when it is off the stack of its thread, which can always go on.
The slots are the subscriptions made less the ones ended, by an `unsubscribe` that answered true
or by a callback that threw; identifiers count the subscriptions; and `unsubscribe` answers
whether the identifier is among the slots. -/
theorem feed_fans_out {actions : List (Action O T)}
    {es : List (Event (System O T) (Action O T) (Result O))} {s : System O T}
    (hrun : exec System.step .init actions = some (es, s)) :
    (∀ (c : ℕ) (p : Published O T), (publishes es)[c]? = some p →
      invocations es c <+: notified p.callback p.snapshot ∧
      ((∀ q ∈ s.stack p.thread, q.call ≠ c) →
        invocations es c = notified p.callback p.snapshot) ∧
      (p.snapshot.map Slot.id).Pairwise (· < ·)) ∧
    (∀ t, s.inProgram t = false → (s.step (.proceed t)).isSome = true) ∧
    s.feed.slots = (subscriptions es).filter (fun slot => slot.id ∉ endings es) ∧
    (subscriptions es).map Slot.id = List.range' 1 (subscriptions es).length ∧
    ∀ e ∈ es, ∀ t id b, e.call = .unsubscribe t id → e.result = .removed b →
      (b = true ↔ id ∈ e.before.feed.slots.map Slot.id) := by
  have h := exec_step_invariant hrun
  refine ⟨fun c p hp => ⟨h.served.in_order hp, h.served.returned c p hp,
    snapshot_sorted hrun (List.mem_of_getElem? hp)⟩, fun t => proceed_isSome, h.recorded.slots,
    h.recorded.ids, ?_⟩
  intro e he t id b hcall hresult
  obtain ⟨_, _, u, -, -, hstep⟩ := exec_mem hrun he
  rw [hcall, hresult] at hstep
  simp only [System.step] at hstep
  split_ifs at hstep
  cases hstep
  exact unsubscribe_iff e.before.feed id

/-- A callback subscribes, unsubscribes a slot that is still to come and publishes; the callback
of that publish throws. -/
def nestedPublish : List (Action ℕ Unit) :=
  [.subscribe () (some 10) kAnySymbol, .subscribe () (some 20) 7, .publishQuote () ⟨7, 1, 1, 2, 1, 1⟩,
    .proceed (), .subscribe () (some 30) 7, .unsubscribe () 2, .publishTrade () ⟨7, 1, 1, 2⟩,
    .proceed (), .throws (), .proceed (), .returns (), .proceed (), .returns (), .proceed (),
    .returns (), .proceed ()]

theorem feed_fans_out_nestedPublish :
    ∃ es s, exec System.step .init nestedPublish = some (es, s) ∧
      invocations es 0 = notified (.onQuote ⟨7, 1, 1, 2, 1, 1⟩) [⟨1, 10, 0⟩, ⟨2, 20, 7⟩] ∧
      invocations es 1 = notified (.onTrade ⟨7, 1, 1, 2⟩) [⟨1, 10, 0⟩, ⟨3, 30, 7⟩] ∧
      s.feed.slots = (subscriptions es).filter fun slot => slot.id ∉ endings es := by
  have hrun : exec System.step .init nestedPublish = some (_, _) := rfl
  obtain ⟨hcalls, -, hslots, -⟩ := feed_fans_out hrun
  exact ⟨_, _, hrun, (hcalls 0 _ rfl).2.1 (by decide), (hcalls 1 _ rfl).2.1 (by decide), hslots⟩

end HftExercises.Feed
