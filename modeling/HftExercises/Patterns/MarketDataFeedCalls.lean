import Mathlib.Data.List.Range
import HftExercises.Patterns.MarketDataFeed

/-! # Subscriptions made and calls served

What the history says of the feed. Its slots are the subscriptions made less the ones
ended. What a publish call has done and what its loop has yet to do is what it owes to
the slots of its snapshot, in their order.
-/
namespace HftExercises.Feed
variable {O T : Type*} [DecidableEq T]

/-- A publish call as it was made. -/
structure Published (O T : Type*) where
  thread : T
  callback : Callback
  snapshot : List (Slot O)

/-- The callbacks that a publish call owes to the slots. -/
def notified (callback : Callback) (slots : List (Slot O)) : List (Slot O × Callback) :=
  (slots.filter fun slot => slot.symbol = kAnySymbol ∨ slot.symbol = callback.symbol).map
    fun slot => (slot, callback)

section History
variable (e : Event (System O T) (Action O T) (Result O))

def subscribedBy : Option (Slot O) :=
  match e.call, e.result with
  | .subscribe _ (some o) symbol, .id n => some ⟨n, o, symbol⟩
  | _, _ => none

/-- The subscription that the step ends: of an `unsubscribe` that finds it, or of a callback
that throws. -/
def endedBy : Option ℕ :=
  match e.call, e.result with
  | .unsubscribe _ id, .removed true => some id
  | .throws _, .evicted slot => some slot.id
  | _, _ => none

def publishedBy : Option (Published O T) :=
  match e.call with
  | .publishQuote t quote => some ⟨t, .onQuote quote, e.before.feed.slots⟩
  | .publishTrade t trade => some ⟨t, .onTrade trade, e.before.feed.slots⟩
  | _ => none

/-- The callback that the step runs for a publish call. -/
def invokedBy (call : ℕ) : Option (Slot O × Callback) :=
  match e.result with
  | .invoked c slot callback => if c = call then some (slot, callback) else none
  | _ => none

variable (es : List (Event (System O T) (Action O T) (Result O)))

def subscriptions : List (Slot O) := es.filterMap subscribedBy

def endings : List ℕ := es.filterMap endedBy

def publishes : List (Published O T) := es.filterMap publishedBy

def invocations (call : ℕ) : List (Slot O × Callback) := es.filterMap (invokedBy · call)

end History

theorem wants_iff (slot : Slot O) (symbol : UInt64) :
    slot.wants symbol = true ↔ slot.symbol = kAnySymbol ∨ slot.symbol = symbol := by
  simp only [Slot.wants, Bool.not_eq_true', Bool.and_eq_false_iff, bne_eq_false_iff_eq]

theorem notified_cons_of_wants {callback : Callback} {slot : Slot O} {rest : List (Slot O)}
    (h : slot.wants callback.symbol = true) :
    notified callback (slot :: rest) = (slot, callback) :: notified callback rest := by
  rw [notified, List.filter_cons_of_pos (by simpa using (wants_iff slot _).mp h), List.map_cons]
  rfl

theorem notified_cons_of_not_wants {callback : Callback} {slot : Slot O} {rest : List (Slot O)}
    (h : ¬ slot.wants callback.symbol = true) :
    notified callback (slot :: rest) = notified callback rest := by
  rw [notified, List.filter_cons_of_neg (by simpa using (wants_iff slot _).not.mp h)]
  rfl

theorem unsubscribe_iff (f : MarketDataFeed O) (id : ℕ) :
    (f.unsubscribe id).1 = true ↔ id ∈ f.slots.map Slot.id := by
  rw [MarketDataFeed.unsubscribe]
  split_ifs with hany
  · simpa using hany
  · simpa using hany

/-- The slots are the subscriptions made and not ended. -/
structure Recorded (made : List (Slot O)) (ended : List ℕ) (s : System O T) : Prop where
  ids : made.map Slot.id = List.range' 1 made.length
  nextId : s.feed.nextId = made.length + 1
  slots : s.feed.slots = made.filter fun slot => slot.id ∉ ended
  ended_lt : ∀ id ∈ ended, id < s.feed.nextId
  seen_lt : ∀ t, ∀ p ∈ s.stack t, ∀ slot ∈ p.snapshot ++ p.running.toList, slot.id < s.feed.nextId

/-- What the publish calls have done is what they owe less what they have yet to do. -/
structure Served (calls : List (Published O T)) (done : ℕ → List (Slot O × Callback))
    (s : System O T) : Prop where
  count : s.calls = calls.length
  nested : ∀ t, (s.stack t).Pairwise fun p q => q.call < p.call
  inside : ∀ t, ∀ p ∈ s.stack t, ∃ snapshot, calls[p.call]? = some ⟨t, p.callback, snapshot⟩ ∧
    done p.call ++ notified p.callback p.snapshot = notified p.callback snapshot
  returned : ∀ (c : ℕ) (p : Published O T), calls[c]? = some p →
    (∀ q ∈ s.stack p.thread, q.call ≠ c) → done c = notified p.callback p.snapshot
  future : ∀ c, calls.length ≤ c → done c = []

section Recorded
variable {made : List (Slot O)} {ended : List ℕ} {s : System O T}

omit [DecidableEq T] in
theorem recorded_init : Recorded [] [] (.init : System O T) where
  ids := rfl
  nextId := rfl
  slots := rfl
  ended_lt _ h := absurd h List.not_mem_nil
  seen_lt _ _ h := absurd h List.not_mem_nil

omit [DecidableEq T] in
theorem Recorded.id_lt (h : Recorded made ended s) {slot : Slot O} (hs : slot ∈ made) :
    slot.id < s.feed.nextId := by
  have hid : slot.id ∈ List.range' 1 made.length := h.ids ▸ List.mem_map_of_mem hs
  rw [h.nextId]
  have hbound := (List.mem_range'_1.mp hid).2
  omega

omit [DecidableEq T] in
theorem Recorded.slots_sorted (h : Recorded made ended s) :
    (s.feed.slots.map Slot.id).Pairwise (· < ·) := by
  have hsub : (s.feed.slots.map Slot.id).Sublist (made.map Slot.id) := by
    rw [h.slots]
    exact List.filter_sublist.map Slot.id
  rw [h.ids] at hsub
  exact (List.pairwise_lt_range' 1 (by omega)).sublist hsub

omit [DecidableEq T] in
theorem Recorded.slots_lt (h : Recorded made ended s) {slot : Slot O} (hs : slot ∈ s.feed.slots) :
    slot.id < s.feed.nextId := by
  rw [h.slots] at hs
  exact h.id_lt (List.mem_of_mem_filter hs)

omit [DecidableEq T] in
/-- The slot with the identifier goes, if there is one. -/
theorem Recorded.unsubscribe_slots (h : Recorded made ended s) (id : ℕ) :
    (s.feed.unsubscribe id).2 =
      { s.feed with slots := made.filter fun slot => slot.id ∉ ended ++ [id] } := by
  have hsplit : (made.filter fun slot => slot.id ∉ ended ++ [id]) =
      s.feed.slots.filter fun slot => !(slot.id == id) := by
    rw [h.slots, List.filter_filter]
    refine List.filter_congr fun slot _ => Bool.eq_iff_iff.mpr ?_
    simp only [List.mem_append, List.mem_singleton, not_or, decide_eq_true_eq, Bool.and_eq_true,
      Bool.not_eq_true', beq_eq_false_iff_ne]
    exact and_comm
  rw [hsplit, MarketDataFeed.unsubscribe]
  split_ifs with hany
  · have hnodup : (s.feed.slots.map Slot.id).Nodup := h.slots_sorted.imp fun hlt => hlt.ne
    exact congrArg (fun l => { s.feed with slots := l }) (eraseP_key_eq_filter hnodup id)
  · have hall : (s.feed.slots.filter fun slot => !(slot.id == id)) = s.feed.slots := by
      refine List.filter_eq_self.mpr fun slot hs => ?_
      by_contra hid
      exact hany (List.any_eq_true.mpr ⟨slot, hs, by simpa using hid⟩)
    rw [hall]

omit [DecidableEq T] in
theorem Recorded.subscribe (h : Recorded made ended s) (observer : O) (symbol : UInt64) :
    Recorded (made ++ [⟨s.feed.nextId, observer, symbol⟩]) ended
      { s with feed := (s.feed.subscribe (some observer) symbol).2 } where
  ids := by
    rw [List.map_append, h.ids, List.length_append, List.length_singleton, List.range'_concat,
      List.map_singleton, h.nextId]
    simp [Nat.add_comm]
  nextId := by
    rw [List.length_append, List.length_singleton, ← h.nextId]
    rfl
  slots := by
    rw [List.filter_append, ← h.slots]
    have hnew : s.feed.nextId ∉ ended := fun hmem => (h.ended_lt _ hmem).false
    simp [MarketDataFeed.subscribe, hnew]
  ended_lt id hid := (h.ended_lt id hid).trans (Nat.lt_succ_self _)
  seen_lt t p hp slot hs := (h.seen_lt t p hp slot hs).trans (Nat.lt_succ_self _)

omit [DecidableEq T] in
/-- The subscription ends, whether it is still there or not. -/
theorem Recorded.unsubscribe (h : Recorded made ended s) {id : ℕ} (hid : id < s.feed.nextId) :
    Recorded made (ended ++ [id]) { s with feed := (s.feed.unsubscribe id).2 } := by
  rw [h.unsubscribe_slots id]
  constructor
  case ids => exact h.ids
  case nextId => exact h.nextId
  case slots => rfl
  case ended_lt =>
    intro x hx
    rcases List.mem_append.mp hx with hx | hx
    · exact h.ended_lt x hx
    · exact List.mem_singleton.mp hx ▸ hid
  case seen_lt => exact h.seen_lt

/-- A publish call goes on, or a new one starts, with slots that have been subscribed. -/
theorem Recorded.setStack (h : Recorded made ended s) {t : T} {ps : List (Publish O)} {calls : ℕ}
    (hps : ∀ p ∈ ps, p ∈ s.stack t ∨ ∀ slot ∈ p.snapshot ++ p.running.toList,
      slot.id < s.feed.nextId) :
    Recorded made ended { s with calls := calls, stack := Function.update s.stack t ps } where
  ids := h.ids
  nextId := h.nextId
  slots := h.slots
  ended_lt := h.ended_lt
  seen_lt := by
    refine (Function.forall_update_iff s.stack fun _ l => ∀ p ∈ l,
      ∀ slot ∈ p.snapshot ++ p.running.toList, slot.id < s.feed.nextId).mpr
      ⟨fun p hp => ?_, fun t' _ => h.seen_lt t'⟩
    rcases hps p hp with hold | hnew
    · exact h.seen_lt t p hold
    · exact hnew

end Recorded

section Served
variable {calls : List (Published O T)} {done : ℕ → List (Slot O × Callback)} {s : System O T}

omit [DecidableEq T] in
theorem served_init : Served [] (fun _ => []) (.init : System O T) where
  count := rfl
  nested _ := List.Pairwise.nil
  inside _ _ h := absurd h List.not_mem_nil
  returned _ _ h := by simp at h
  future _ _ := rfl

omit [DecidableEq T] in
theorem Served.call_lt (h : Served calls done s) {t : T} {p : Publish O} (hp : p ∈ s.stack t) :
    p.call < calls.length := by
  obtain ⟨snapshot, hcall, -⟩ := h.inside t p hp
  exact (List.getElem?_eq_some_iff.mp hcall).1

omit [DecidableEq T] in
/-- The steps that leave the publish calls alone. -/
theorem Served.setFeed (h : Served calls done s) (feed : MarketDataFeed O) :
    Served calls done { s with feed := feed } where
  count := h.count
  nested := h.nested
  inside := h.inside
  returned := h.returned
  future := h.future

theorem Served.publish (h : Served calls done s) (t : T) (callback : Callback) :
    Served (calls ++ [⟨t, callback, s.feed.slots⟩]) done (s.publish t callback) := by
  have hcount := h.count
  constructor
  case count =>
    rw [List.length_append, List.length_singleton, ← h.count]
    rfl
  case nested =>
    refine (Function.forall_update_iff s.stack fun _ l => l.Pairwise fun p q => q.call < p.call).mpr
      ⟨List.Pairwise.cons (fun q hq => ?_) (h.nested t), fun t' _ => h.nested t'⟩
    have hlt := h.call_lt hq
    change q.call < s.calls
    omega
  case inside =>
    -- the old calls are where they were in the list of calls
    have hold : ∀ t', ∀ p ∈ s.stack t', ∃ snapshot,
        (calls ++ [⟨t, callback, s.feed.slots⟩])[p.call]? = some ⟨t', p.callback, snapshot⟩ ∧
          done p.call ++ notified p.callback p.snapshot = notified p.callback snapshot := by
      intro t' p hp
      obtain ⟨snapshot, hcall, hdone⟩ := h.inside t' p hp
      exact ⟨snapshot, by rw [List.getElem?_append_left (h.call_lt hp), hcall], hdone⟩
    refine (Function.forall_update_iff s.stack fun t' l => ∀ p ∈ l, ∃ snapshot,
      (calls ++ [⟨t, callback, s.feed.slots⟩])[p.call]? = some ⟨t', p.callback, snapshot⟩ ∧
        done p.call ++ notified p.callback p.snapshot = notified p.callback snapshot).mpr
      ⟨fun p hp => ?_, fun t' _ => hold t'⟩
    rcases List.mem_cons.mp hp with rfl | hp
    · refine ⟨s.feed.slots, ?_, ?_⟩
      · rw [hcount, List.getElem?_concat_length]
      · rw [h.future s.calls hcount.ge, List.nil_append]
    · exact hold t p hp
  case returned =>
    have hkeep : ∀ t', ∀ q ∈ s.stack t', q ∈ (s.publish t callback).stack t' :=
      (Function.forall_update_iff s.stack fun t' l => ∀ q ∈ s.stack t', q ∈ l).mpr
        ⟨fun q hq => List.mem_cons_of_mem _ hq, fun _ _ _ hq => hq⟩
    intro c p hc hout
    rw [List.getElem?_append] at hc
    split_ifs at hc with hlt
    · exact h.returned c p hc fun q hq => hout q (hkeep _ q hq)
    · rw [List.getElem?_singleton] at hc
      split_ifs at hc with hzero
      cases hc
      change ∀ q ∈ Function.update s.stack t _ t, q.call ≠ c at hout
      rw [Function.update_self] at hout
      exact absurd (by simp only; omega) (hout _ List.mem_cons_self)
  case future =>
    intro c hc
    rw [List.length_append, List.length_singleton] at hc
    exact h.future c (by omega)

/-- The innermost call of a thread goes on: what it has done and what it has yet to do make up
the same. -/
theorem Served.setTop (h : Served calls done s) {t : T} {p : Publish O} {outer : List (Publish O)}
    (hstack : s.stack t = p :: outer) (p' : Publish O) (hcall : p'.call = p.call)
    (hcallback : p'.callback = p.callback)
    {done' : ℕ → List (Slot O × Callback)} (hother : ∀ c, c ≠ p.call → done' c = done c)
    (hsame : done' p.call ++ notified p.callback p'.snapshot =
      done p.call ++ notified p.callback p.snapshot) :
    Served calls done' (s.setTop t p') := by
  have htop : p ∈ s.stack t := hstack ▸ List.mem_cons_self
  have houter := List.pairwise_cons.mp (hstack ▸ h.nested t)
  have hset : (s.setTop t p').stack = Function.update s.stack t (p' :: outer) := by
    rw [System.setTop, hstack, List.tail_cons]
  obtain ⟨snapshot, hget, hdone⟩ := h.inside t p htop
  constructor
  case count => exact h.count
  case nested =>
    rw [hset]
    refine (Function.forall_update_iff s.stack fun _ l => l.Pairwise fun p q => q.call < p.call).mpr
      ⟨List.Pairwise.cons (fun q hq => ?_) houter.2, fun t' _ => h.nested t'⟩
    rw [hcall]
    exact houter.1 q hq
  case inside =>
    -- no other call has the number of this one
    have hold : ∀ t', ∀ q ∈ s.stack t', q.call ≠ p.call → ∃ snapshot,
        calls[q.call]? = some ⟨t', q.callback, snapshot⟩ ∧
          done' q.call ++ notified q.callback q.snapshot = notified q.callback snapshot := by
      intro t' q hq hne
      obtain ⟨snapshot, hget, hdone⟩ := h.inside t' q hq
      exact ⟨snapshot, hget, by rw [hother _ hne, hdone]⟩
    rw [hset]
    refine (Function.forall_update_iff s.stack fun t' l => ∀ q ∈ l, ∃ snapshot,
      calls[q.call]? = some ⟨t', q.callback, snapshot⟩ ∧
        done' q.call ++ notified q.callback q.snapshot = notified q.callback snapshot).mpr
      ⟨fun q hq => ?_, fun t' ht q hq => hold t' q hq fun heq => ht ?_⟩
    · rcases List.mem_cons.mp hq with rfl | hq
      · exact ⟨snapshot, by rw [hcall, hcallback, hget], by rw [hcall, hcallback, hsame, hdone]⟩
      · exact hold t q (hstack ▸ List.mem_cons_of_mem _ hq) (houter.1 q hq).ne
    · obtain ⟨_, hget', -⟩ := h.inside t' q hq
      rw [heq, hget] at hget'
      exact (congrArg Published.thread (Option.some.inj hget')).symm
  case returned =>
    intro c q hc hout
    rw [hset] at hout
    have hne : c ≠ p.call := by
      rintro rfl
      rw [hget] at hc
      cases hc
      rw [Function.update_self] at hout
      exact hout p' List.mem_cons_self hcall
    have hkeep : ∀ t', ∀ r ∈ s.stack t', r = p ∨ r ∈ Function.update s.stack t (p' :: outer) t' := by
      refine (Function.forall_update_iff s.stack fun t' l => ∀ r ∈ s.stack t', r = p ∨ r ∈ l).mpr
        ⟨fun r hr => ?_, fun _ _ _ hr => .inr hr⟩
      rw [hstack] at hr
      exact (List.mem_cons.mp hr).imp_right (List.mem_cons_of_mem _)
    rw [hother c hne]
    refine h.returned c q hc fun r hr => ?_
    rcases hkeep _ r hr with rfl | hr
    · exact hne.symm
    · exact hout r hr
  case future =>
    intro c hc
    rw [hother c fun heq => absurd (h.call_lt htop) (by omega)]
    exact h.future c hc

/-- The innermost call of a thread ends when its loop has seen every slot. -/
theorem Served.finish (h : Served calls done s) {t : T} {p : Publish O} {outer : List (Publish O)}
    (hstack : s.stack t = p :: outer) (hend : p.snapshot = []) :
    Served calls done { s with stack := Function.update s.stack t outer } := by
  have hmem : ∀ t', ∀ q ∈ Function.update s.stack t outer t', q ∈ s.stack t' :=
    (Function.forall_update_iff s.stack fun t' l => ∀ q ∈ l, q ∈ s.stack t').mpr
      ⟨fun q hq => hstack ▸ List.mem_cons_of_mem _ hq, fun _ _ _ hq => hq⟩
  have hkeep : ∀ t', ∀ q ∈ s.stack t', q = p ∨ q ∈ Function.update s.stack t outer t' := by
    refine (Function.forall_update_iff s.stack fun t' l => ∀ q ∈ s.stack t', q = p ∨ q ∈ l).mpr
      ⟨fun q hq => ?_, fun _ _ _ hq => .inr hq⟩
    rw [hstack] at hq
    exact List.mem_cons.mp hq
  constructor
  case count => exact h.count
  case nested =>
    exact (Function.forall_update_iff s.stack fun _ l => l.Pairwise fun p q => q.call < p.call).mpr
      ⟨(List.pairwise_cons.mp (hstack ▸ h.nested t)).2, fun t' _ => h.nested t'⟩
  case inside => exact fun t' q hq => h.inside t' q (hmem t' q hq)
  case returned =>
    intro c q hc hout
    by_cases hcp : c = p.call
    · obtain ⟨snapshot, hget, hdone⟩ := h.inside t p (hstack ▸ List.mem_cons_self)
      rw [hcp, hget] at hc
      cases hc
      rw [hend] at hdone
      rw [hcp]
      simpa [notified] using hdone
    · refine h.returned c q hc fun r hr => ?_
      rcases hkeep _ r hr with rfl | hr
      · exact Ne.symm hcp
      · exact hout r hr
  case future => exact h.future

end Served

end HftExercises.Feed
