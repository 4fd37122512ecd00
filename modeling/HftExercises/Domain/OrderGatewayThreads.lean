import HftExercises.Core.ListFacts
import HftExercises.Domain.OrderGatewayRuns

/-! # The gateway under threads

A submit is two steps of its thread: the clock read, and later the critical
section. The critical sections of a run are one sequential execution of the
gateway, but their readings may be out of order: an older reading then sees a
newer stamp, the unsigned age wraps, and the stamp is taken for expired.
-/
namespace HftExercises.Gateway
variable {T : Type*}

/-- A submit that has read the clock and waits for the mutex. -/
structure Waiting where
  now : UInt64
  cid : ClientOrderId
  order : Order
  deriving DecidableEq, Repr

def Waiting.submission (w : Waiting) (sinkThrows : Bool) : Submission :=
  ⟨w.now, w.cid, w.order, sinkThrows⟩

structure System (T : Type*) where
  clock : UInt64
  waiting : T → Option Waiting
  gateway : OrderGateway

def System.init (window : Int64) : System T := ⟨0, fun _ => none, .create window⟩

/-- An atomic step of one thread. The environment picks the reading and whether
the sink throws. -/
inductive Action (T : Type*) where
  | readClock (thread : T) (cid : ClientOrderId) (order : Order) (now : UInt64)
  | critical (thread : T) (sinkThrows : Bool)
  deriving DecidableEq, Repr

/-- A reading is never below an earlier one, whichever thread made it. A critical
section reports its submit and how it ended. -/
def System.step [DecidableEq T] (s : System T) :
    Action T → Option (Option (Submission × SubmitResult) × System T)
  | .readClock t cid order now =>
    match s.waiting t with
    | some _ => none
    | none =>
      if s.clock ≤ now then
        some (none, { s with
          clock := now
          waiting := Function.update s.waiting t (some ⟨now, cid, order⟩) })
      else none
  | .critical t sinkThrows =>
    match s.waiting t with
    | none => none
    | some w =>
      let call := w.submission sinkThrows
      some (some (call, (s.gateway.submitLocked call).1), { s with
        waiting := Function.update s.waiting t none
        gateway := (s.gateway.submitLocked call).2 })

abbrev ThreadEvent (T : Type*) := Event (System T) (Action T) (Option (Submission × SubmitResult))

/-- The critical sections of a run, in the order they ran. -/
def criticals (es : List (ThreadEvent T)) : List (Submission × SubmitResult) :=
  es.filterMap Event.result

theorem criticals_append_singleton (es : List (ThreadEvent T)) (e : ThreadEvent T) :
    criticals (es ++ [e]) = criticals es ++ e.result.toList :=
  filterMap_append_singleton _ es e

/-- Two clock readings more than `W` apart, in either order. -/
def Apart (W : ℕ) (a b : UInt64) : Prop := W < a.toNat - b.toNat ∨ W < b.toNat - a.toNat

/-- Accepted submits of one id have readings more than `W` apart. -/
def AcceptedApart (W : ℕ) (es : List (ThreadEvent T)) : Prop :=
  (criticals es).Pairwise fun a b => a.1.cid = b.1.cid → a.2.outcome = .returned true →
    b.2.outcome = .returned true → Apart W a.1.now b.1.now

/-- Critical sections run in the order of their clock readings. -/
def InClockOrder (es : List (ThreadEvent T)) : Prop :=
  (criticals es).Pairwise fun a b => a.1.now ≤ b.1.now

instance (W : ℕ) (a b : UInt64) : Decidable (Apart W a b) := inferInstanceAs (Decidable (_ ∨ _))

instance (W : ℕ) (es : List (ThreadEvent T)) : Decidable (AcceptedApart W es) :=
  inferInstanceAs (Decidable ((criticals es).Pairwise _))

instance (es : List (ThreadEvent T)) : Decidable (InClockOrder es) :=
  inferInstanceAs (Decidable ((criticals es).Pairwise _))

/-- A step of the system either leaves the gateway alone or is one submit to it. -/
theorem System.step_cases [DecidableEq T] {s s' : System T} {a : Action T}
    {o : Option (Submission × SubmitResult)} (h : s.step a = some (o, s')) :
    (o = none ∧ s'.gateway = s.gateway) ∨
      ∃ call result, o = some (call, result) ∧ s.gateway.step call = some (result, s'.gateway) := by
  cases a with
  | readClock t cid order now =>
    left
    simp only [System.step] at h
    split at h
    · cases h
    · split_ifs at h
      cases h
      exact ⟨rfl, rfl⟩
  | critical t sinkThrows =>
    right
    simp only [System.step] at h
    split at h
    · cases h
    · cases h
      exact ⟨_, _, rfl, rfl⟩

/-- The critical sections of a run are one execution of the sequential gateway. -/
theorem exec_linearize [DecidableEq T] {window : Int64} {actions : List (Action T)}
    {es : List (ThreadEvent T)} {s : System T}
    (hr : exec System.step (System.init window) actions = some (es, s)) :
    ∃ gs, exec OrderGateway.step (.create window) ((criticals es).map Prod.fst) =
        some (gs, s.gateway) ∧
      criticals es = gs.map (fun e => (e.call, e.result)) := by
  refine exec_invariant (fun es s => ∃ gs, exec OrderGateway.step (.create window)
    ((criticals es).map Prod.fst) = some (gs, s.gateway) ∧
      criticals es = gs.map (fun e => (e.call, e.result))) ?_ ⟨[], rfl, rfl⟩ hr
  rintro h s a o s' ⟨gs, hgs, hmap⟩ hstep
  rw [criticals_append_singleton]
  rcases System.step_cases hstep with ⟨rfl, hg⟩ | ⟨call, result, rfl, hcall⟩
  · exact ⟨gs, by simpa [hg] using hgs, by simpa using hmap⟩
  · refine ⟨gs ++ [⟨s.gateway, call, result⟩], ?_, ?_⟩
    · simpa using exec_snoc hgs hcall
    · simp [hmap]

theorem WindowInv.acceptedApart {W : ℕ} {es : List SubmitEvent} {g : OrderGateway}
    (hi : WindowInv W es g) :
    es.Pairwise fun a b => a.call.cid = b.call.cid → a.result.outcome = .returned true →
      b.result.outcome = .returned true → Apart W a.call.now b.call.now := by
  refine admissible_iff_pairwise.mp ?_
  intro l b r heq a ha hcid hacc hacc'
  have hcalled : a.calledSink := by
    intro hd
    simp [hd] at hacc
  right
  by_contra hclose
  have hsent : SentWithin SubmitEvent.calledSink W l b.call.now b.call.cid a.call.now :=
    ⟨a, ha, hcalled, hcid, rfl, by omega⟩
  rw [(hi.decided l b r heq).1 ⟨_, hsent⟩] at hacc'
  cases hacc'

/-- In a run whose critical sections keep the order of their clock readings, no
two accepted submits of one id are within the window of each other. -/
theorem accepted_apart_of_inClockOrder [DecidableEq T] (window : Int64)
    (actions : List (Action T)) (es : List (ThreadEvent T)) (s : System T)
    (hr : exec System.step (System.init window) actions = some (es, s))
    (hord : InClockOrder es) : AcceptedApart window.toInt.toNat es := by
  obtain ⟨gs, hgs, hcrit⟩ := exec_linearize hr
  obtain ⟨gs', g, hgs', hi⟩ := exec_windowInv window (List.pairwise_map.mpr hord)
  rw [hgs] at hgs'
  cases hgs'
  unfold AcceptedApart
  rw [hcrit, List.pairwise_map]
  exact hi.acceptedApart

/-- Two threads race on one id; the loser and a later reuse keep clock order. -/
theorem accepted_apart_of_inClockOrder_race :
    ∃ es s, exec System.step (System.init 10)
        [.readClock false 1 ⟨.buy, 100, 10⟩ 5, .readClock true 1 ⟨.buy, 100, 10⟩ 5,
          .critical true false, .critical false false,
          .readClock false 1 ⟨.sell, 102, 7⟩ 16, .critical false false] = some (es, s) ∧
      InClockOrder es ∧ (criticals es).map (fun c => c.2.outcome) =
        [.returned true, .returned false, .returned true] ∧
      AcceptedApart (10 : Int64).toInt.toNat es := by
  have hrun : ∃ es s, exec System.step (System.init 10)
        [.readClock false 1 ⟨.buy, 100, 10⟩ 5, .readClock true 1 ⟨.buy, 100, 10⟩ 5,
          .critical true false, .critical false false,
          .readClock false 1 ⟨.sell, 102, 7⟩ 16, .critical false false] = some (es, s) ∧
      InClockOrder es ∧ (criticals es).map (fun c => c.2.outcome) =
        [.returned true, .returned false, .returned true] :=
    ⟨_, _, rfl, by decide, rfl⟩
  obtain ⟨es, s, hr, hord, hout⟩ := hrun
  exact ⟨es, s, hr, hord, hout, accepted_apart_of_inClockOrder 10 _ es s hr hord⟩

/-- The thread that read 5 enters after the one that read 6 and finds its stamp
expired, so both submits of the id are accepted and forwarded. -/
theorem accepted_apart_fails_on_overtaking :
    ¬ ∀ (actions : List (Action Bool)) es s,
      exec System.step (System.init 10) actions = some (es, s) →
      AcceptedApart (10 : Int64).toInt.toNat es := by
  intro hall
  have hapart := hall [.readClock false 1 ⟨.buy, 100, 10⟩ 5, .readClock true 1 ⟨.buy, 100, 10⟩ 6,
    .critical true false, .critical false false] _ _ rfl
  revert hapart
  decide

end HftExercises.Gateway
