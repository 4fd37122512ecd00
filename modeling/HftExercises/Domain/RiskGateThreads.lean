import Mathlib.Data.Finset.Insert
import Mathlib.Data.Finset.Erase
import Mathlib.Data.List.Infix
import Mathlib.Logic.Function.Basic
import HftExercises.Core.Retries
import HftExercises.Domain.RiskGateRuns

/-! # The risk gate under threads

Every load and every weak compare-exchange is one atomic step of its thread, and
a compare-exchange may fail for no reason. Between two of them a thread works on
the word it last read, which may be stale; only a compare-exchange that finds
the word unchanged commits.
-/
namespace HftExercises.Risk
variable {T : Type*}

/-- Where a thread is: outside, or in the loop of a call with the word it last
read. -/
inductive Control where
  | idle
  | reserving (order : Order) (cur : UInt64)
  | releasing (order : Order) (cur : UInt64)
  deriving DecidableEq, Repr

structure System (T : Type*) where
  gate : RiskGate
  control : T → Control

def System.init (maxPosition maxNotional : Int64) : System T :=
  ⟨.create maxPosition maxNotional, fun _ => .idle⟩

inductive Action (T : Type*) where
  | callReserve (thread : T) (order : Order)
  | callRelease (thread : T) (order : Order)
  | iterate (thread : T) (spurious : Bool)
  deriving DecidableEq, Repr

inductive StepResult where
  | loaded
  | casFailed
  | rejected
  | reserved (order : Order)
  | released (order : Order)
  deriving DecidableEq, Repr

/-- `state_.compare_exchange_weak(cur, desired)`: the new word on success. -/
def compareExchangeWeak (state cur desired : UInt64) (spurious : Bool) : Option UInt64 :=
  if state = cur ∧ spurious = false then some desired else none

def System.setControl [DecidableEq T] (s : System T) (t : T) (c : Control) : System T :=
  { s with control := Function.update s.control t c }

def System.step [DecidableEq T] (s : System T) : Action T → Option (StepResult × System T)
  | .callReserve t order =>
    match s.control t with
    | .idle => some (.loaded, s.setControl t (.reserving order s.gate.state))
    | _ => none
  | .callRelease t order =>
    match s.control t with
    | .idle => some (.loaded, s.setControl t (.releasing order s.gate.state))
    | _ => none
  | .iterate t spurious =>
    match s.control t with
    | .idle => none
    | .reserving order cur =>
      match s.gate.reserveCandidate order cur with
      | none => some (.rejected, s.setControl t .idle)
      | some desired =>
        match compareExchangeWeak s.gate.state cur desired spurious with
        | none => some (.casFailed, s.setControl t (.reserving order s.gate.state))
        | some word =>
          some (.reserved order, { s.setControl t .idle with gate.state := word })
    | .releasing order cur =>
      match compareExchangeWeak s.gate.state cur (releaseCandidate order cur) spurious with
      | none => some (.casFailed, s.setControl t (.releasing order s.gate.state))
      | some word =>
        some (.released order, { s.setControl t .idle with gate.state := word })

/-- What a step can do. A commit always starts from the current word. -/
inductive StepSpec [DecidableEq T] (s : System T) : Action T → StepResult → System T → Prop
  | callReserve {t : T} {o : Order} (h : s.control t = .idle) :
      StepSpec s (.callReserve t o) .loaded (s.setControl t (.reserving o s.gate.state))
  | callRelease {t : T} {o : Order} (h : s.control t = .idle) :
      StepSpec s (.callRelease t o) .loaded (s.setControl t (.releasing o s.gate.state))
  | reject {t : T} {spurious : Bool} {o : Order} {cur : UInt64}
      (h : s.control t = .reserving o cur) :
      StepSpec s (.iterate t spurious) .rejected (s.setControl t .idle)
  | reserveRetry {t : T} {spurious : Bool} {o : Order} {cur : UInt64}
      (h : s.control t = .reserving o cur) :
      StepSpec s (.iterate t spurious) .casFailed (s.setControl t (.reserving o s.gate.state))
  | releaseRetry {t : T} {spurious : Bool} {o : Order} {cur : UInt64}
      (h : s.control t = .releasing o cur) :
      StepSpec s (.iterate t spurious) .casFailed (s.setControl t (.releasing o s.gate.state))
  | reserve {t : T} {spurious : Bool} {o : Order} {word : UInt64}
      (h : s.control t = .reserving o s.gate.state)
      (hc : s.gate.reserveCandidate o s.gate.state = some word) :
      StepSpec s (.iterate t spurious) (.reserved o)
        { s.setControl t .idle with gate.state := word }
  | release {t : T} {spurious : Bool} {o : Order} (h : s.control t = .releasing o s.gate.state) :
      StepSpec s (.iterate t spurious) (.released o)
        { s.setControl t .idle with gate := s.gate.release o }

theorem compareExchangeWeak_eq_some {state cur desired word : UInt64} {spurious : Bool}
    (h : compareExchangeWeak state cur desired spurious = some word) :
    state = cur ∧ desired = word := by
  unfold compareExchangeWeak at h
  split_ifs at h with hc
  cases h
  exact ⟨hc.1, rfl⟩

theorem System.step_spec [DecidableEq T] {s s' : System T} {a : Action T} {r : StepResult}
    (h : s.step a = some (r, s')) : StepSpec s a r s' := by
  cases a with
  | callReserve t order =>
    simp only [System.step] at h
    split at h
    · rename_i hidle
      cases h
      exact .callReserve hidle
    · cases h
  | callRelease t order =>
    simp only [System.step] at h
    split at h
    · rename_i hidle
      cases h
      exact .callRelease hidle
    · cases h
  | iterate t spurious =>
    simp only [System.step] at h
    split at h
    · cases h
    · rename_i order cur hcontrol
      split at h
      · cases h
        exact .reject hcontrol
      · rename_i desired hcand
        split at h
        · cases h
          exact .reserveRetry hcontrol
        · rename_i word hcas
          cases h
          obtain ⟨rfl, rfl⟩ := compareExchangeWeak_eq_some hcas
          exact .reserve hcontrol hcand
    · rename_i order cur hcontrol
      split at h
      · cases h
        exact .releaseRetry hcontrol
      · rename_i word hcas
        cases h
        obtain ⟨rfl, rfl⟩ := compareExchangeWeak_eq_some hcas
        exact .release hcontrol

abbrev StepEvent (T : Type*) := Event (System T) (Action T) StepResult

def StepResult.commit? : StepResult → Option Commit
  | .reserved order => some (.reserve order)
  | .released order => some (.release order)
  | _ => none

/-- The step was a successful compare-exchange. -/
def StepResult.stores (r : StepResult) : Bool := r.commit?.isSome

def Action.thread : Action T → T
  | .callReserve t _ => t
  | .callRelease t _ => t
  | .iterate t _ => t

def Action.starts : Action T → Bool
  | .iterate _ _ => false
  | _ => true

def Action.reserves? : Action T → Option Order
  | .callReserve _ order => some order
  | _ => none

def Action.releases? : Action T → Option Order
  | .callRelease _ order => some order
  | _ => none

def threadCommits (es : List (StepEvent T)) : List Commit := es.filterMap (fun e => e.result.commit?)

def releaseCalls (es : List (StepEvent T)) : Multiset Order :=
  es.filterMap (fun e => e.call.releases?)

/-- The steps thread `t` made in its latest call, after the load. -/
def iterations [DecidableEq T] (t : T) (es : List (StepEvent T)) : List (StepEvent T) :=
  (es.reverse.filter (fun e => decide (e.call.thread = t))).takeWhile (fun e => !e.call.starts)

/-- Orders are bounded, each reservation is released at most once and only after
it was made, and the exact position always fits the low half of the word. -/
structure ThreadsLawful (es : List (StepEvent T)) : Prop where
  bounded : ∀ e ∈ es, ∀ o ∈ e.call.reserves?, o.Bounded
  releases : Admissible (fun h e => ∀ o ∈ e.call.releases?,
    o ∈ reservedOrders (threadCommits h) - releaseCalls h) es
  position : ∀ h ∈ es.inits, -2 ^ 31 ≤ exactPosition (live (threadCommits h)) ∧
    exactPosition (live (threadCommits h)) < 2 ^ 31

instance (es : List (StepEvent T)) : Decidable (ThreadsLawful es) :=
  decidable_of_iff ((∀ e ∈ es, ∀ o ∈ e.call.reserves?, o.Bounded) ∧
      Admissible (fun h e => ∀ o ∈ e.call.releases?,
        o ∈ reservedOrders (threadCommits h) - releaseCalls h) es ∧
      ∀ h ∈ es.inits, -2 ^ 31 ≤ exactPosition (live (threadCommits h)) ∧
        exactPosition (live (threadCommits h)) < 2 ^ 31)
    ⟨fun h => ⟨h.1, h.2.1, h.2.2⟩, fun h => ⟨h.bounded, h.releases, h.position⟩⟩

section History
variable {es : List (StepEvent T)} {e : StepEvent T}

theorem threadCommits_append_singleton :
    threadCommits (es ++ [e]) = threadCommits es ++ e.result.commit?.toList :=
  filterMap_append_singleton _ es e

theorem releaseCalls_append_singleton :
    releaseCalls (es ++ [e]) = releaseCalls es + (e.call.releases?.toList : Multiset Order) := by
  unfold releaseCalls
  rw [filterMap_append_singleton, ← Multiset.coe_add]

theorem iterations_append_singleton [DecidableEq T] {t : T} : iterations t (es ++ [e]) =
    if e.call.thread = t then (if e.call.starts then [] else e :: iterations t es)
    else iterations t es := by
  unfold iterations
  rw [List.reverse_append, List.reverse_singleton, List.singleton_append, List.filter_cons]
  split_ifs with ht hs ht' hs' <;> simp_all

theorem ThreadsLawful.last (h : ThreadsLawful (es ++ [e])) :
    (∀ o ∈ e.call.reserves?, o.Bounded) ∧
      ∀ o ∈ e.call.releases?, o ∈ reservedOrders (threadCommits es) - releaseCalls es :=
  ⟨h.bounded e (List.mem_append_right es List.mem_cons_self),
    (admissible_append_singleton.mp h.releases).2⟩

theorem ThreadsLawful.of_append {r : List (StepEvent T)} (h : ThreadsLawful (es ++ r)) :
    ThreadsLawful es where
  bounded := fun x hx => h.bounded x (List.mem_append_left r hx)
  releases := h.releases.of_append
  position := by
    intro l hl
    have hp : l <+: es ++ r := ((List.mem_inits l es).mp hl).trans (List.prefix_append es r)
    exact h.position l ((List.mem_inits l _).mpr hp)

theorem mem_of_mem_iterations [DecidableEq T] {t : T} {x : StepEvent T}
    (hx : x ∈ iterations t es) : x ∈ es :=
  List.mem_reverse.mp (List.mem_of_mem_filter ((List.takeWhile_sublist _).subset hx))

end History

/-- What a thread relies on about the word it last read. A release still holds
its order when it reads, so the notional it read covers the order. -/
def Control.Sound : Control → Prop
  | .idle => True
  | .reserving o _ => o.Bounded
  | .releasing o cur => o.Bounded ∧ o.notional ≤ (unpackNotional cur).toInt

def Control.releasing? : Control → Option Order
  | .releasing order _ => some order
  | _ => none

/-- The threads inside a release, with their orders. -/
def InFlight (F : Finset (T × Order)) (control : T → Control) : Prop :=
  ∀ t o, (t, o) ∈ F ↔ (control t).releasing? = some o

def heldOrders (F : Finset (T × Order)) : Multiset Order := F.val.map Prod.snd

section InFlight
variable [DecidableEq T] {F : Finset (T × Order)} {control : T → Control} {t : T} {o : Order}

theorem InFlight.update (h : InFlight F control) {c : Control}
    (hc : c.releasing? = (control t).releasing?) : InFlight F (Function.update control t c) := by
  intro t' o'
  rw [h t' o']
  by_cases ht : t' = t
  · subst ht
    rw [Function.update_self, hc]
  · rw [Function.update_of_ne ht]

theorem InFlight.insert (h : InFlight F control) (ht : (control t).releasing? = none)
    (cur : UInt64) :
    InFlight (insert (t, o) F) (Function.update control t (.releasing o cur)) ∧
      heldOrders (insert (t, o) F) = o ::ₘ heldOrders F := by
  have hnot : ∀ x, (t, x) ∉ F := by
    intro x hx
    rw [h, ht] at hx
    cases hx
  constructor
  · intro t' o'
    by_cases htt : t' = t
    · subst htt
      simp [Control.releasing?, hnot, eq_comm]
    · rw [Function.update_of_ne htt, ← h t' o']
      simp [htt]
  · rw [heldOrders, Finset.insert_val_of_notMem (hnot o), Multiset.map_cons, heldOrders]

theorem InFlight.erase (h : InFlight F control) (ht : (control t).releasing? = some o) :
    InFlight (F.erase (t, o)) (Function.update control t .idle) ∧
      heldOrders F = o ::ₘ heldOrders (F.erase (t, o)) := by
  constructor
  · intro t' o'
    rw [Finset.mem_erase, h t' o']
    by_cases htt : t' = t
    · subst htt
      rw [Function.update_self, ht]
      simp [Control.releasing?, eq_comm]
    · rw [Function.update_of_ne htt]
      simp [htt]
  · have hmem : (t, o) ∈ F := (h t o).mpr ht
    rw [heldOrders, heldOrders, Finset.erase_val, ← Multiset.map_cons Prod.snd (t, o),
      Multiset.cons_erase hmem]

end InFlight

/-- All iterations of a call that is still running have failed to commit. -/
def Retried [DecidableEq T] (control : T → Control) (es : List (StepEvent T)) : Prop :=
  ∀ t, control t ≠ .idle → ∀ x ∈ iterations t es, x.result = .casFailed

theorem Retried.update [DecidableEq T] {control : T → Control} {es : List (StepEvent T)}
    {e : StepEvent T} {t : T} {c : Control} (h : Retried control es) (he : e.call.thread = t)
    (hc : e.call.starts = true ∨ c = .idle ∨ (e.result = .casFailed ∧ control t ≠ .idle)) :
    Retried (Function.update control t c) (es ++ [e]) := by
  intro t' ht' x hx
  rw [iterations_append_singleton, he] at hx
  by_cases htt : t' = t
  · subst htt
    rw [Function.update_self] at ht'
    rw [if_pos rfl] at hx
    rcases hc with hs | hidle | ⟨hres, hrun⟩
    · simp [hs] at hx
    · exact absurd hidle ht'
    · split_ifs at hx
      · cases hx
      · rcases List.mem_cons.mp hx with rfl | hx
        · exact hres
        · exact h _ hrun x hx
  · rw [Function.update_of_ne htt] at ht'
    rw [if_neg (Ne.symm htt)] at hx
    exact h t' ht' x hx

/-- The orders in a release that has not committed are still live. -/
structure SysInv [DecidableEq T] (es : List (StepEvent T)) (s : System T) (F : Finset (T × Order))
    (rest : Multiset Order) : Prop where
  balance : Balance (threadCommits es) s.gate (rest + heldOrders F)
  calls : releaseCalls es = releasedOrders (threadCommits es) + heldOrders F
  inFlight : InFlight F s.control
  sound : ∀ t, (s.control t).Sound
  retried : Retried s.control es

section SysInv
variable [DecidableEq T] {es : List (StepEvent T)} {e : StepEvent T} {s : System T}
variable {F : Finset (T × Order)} {rest : Multiset Order} {t : T} {o : Order} {c : Control}

theorem SysInv.init {maxPosition maxNotional : Int64} (h : 0 ≤ maxNotional.toInt) :
    SysInv [] (System.init maxPosition maxNotional : System T) ∅ 0 where
  balance := ⟨rfl, Ledger.create h⟩
  calls := rfl
  inFlight := by simp [InFlight, System.init, Control.releasing?]
  sound := fun _ => trivial
  retried := by simp [Retried, iterations]

theorem SysInv.outstanding (h : SysInv es s F rest) :
    reservedOrders (threadCommits es) - releaseCalls es = rest := by
  rw [h.balance.split, h.calls, add_assoc, add_comm (heldOrders F), Multiset.add_sub_cancel_right]

theorem SysInv.notional_le (h : SysInv es s F rest) {cur : UInt64}
    (ht : s.control t = .releasing o cur) : o.notional ≤ (unpackNotional s.gate.state).toInt := by
  have hmem : (t, o) ∈ F := (h.inFlight t o).mpr (by rw [ht]; rfl)
  have hheld : o ∈ heldOrders F := Multiset.mem_map.mpr ⟨(t, o), hmem, rfl⟩
  exact h.balance.ledger.notional_le (Multiset.mem_add.mpr (Or.inr hheld))

theorem sound_update {control : T → Control} (h : ∀ t, (control t).Sound) (hc : c.Sound) :
    ∀ t', (Function.update control t c t').Sound :=
  (Function.forall_update_iff control (fun _ c => c.Sound)).mpr ⟨hc, fun t' _ => h t'⟩

/-- Steps that neither commit nor begin a release. -/
theorem SysInv.setControl (h : SysInv es s F rest) (he : e.call.thread = t)
    (hres : e.result.commit? = none) (hcall : e.call.releases? = none)
    (hc : c.releasing? = (s.control t).releasing?) (hsound : c.Sound)
    (hrun : e.call.starts = true ∨ c = .idle ∨ (e.result = .casFailed ∧ s.control t ≠ .idle)) :
    SysInv (es ++ [e]) (s.setControl t c) F rest where
  balance := by
    rw [threadCommits_append_singleton, hres, Option.toList_none, List.append_nil]
    exact h.balance
  calls := by
    rw [releaseCalls_append_singleton, threadCommits_append_singleton, hres, hcall]
    simpa using h.calls
  inFlight := h.inFlight.update hc
  sound := sound_update h.sound hsound
  retried := h.retried.update he hrun

theorem SysInv.callRelease (h : SysInv es s F (o ::ₘ rest)) (ht : s.control t = .idle) :
    SysInv (es ++ [⟨s, .callRelease t o, .loaded⟩])
      (s.setControl t (.releasing o s.gate.state)) (insert (t, o) F) rest := by
  obtain ⟨hin, hheld⟩ := h.inFlight.insert (o := o) (by rw [ht]; rfl) s.gate.state
  have hcommit : threadCommits (es ++ [⟨s, .callRelease t o, .loaded⟩]) = threadCommits es := by
    rw [threadCommits_append_singleton]
    exact List.append_nil _
  have hlive : o ::ₘ rest + heldOrders F = rest + heldOrders (insert (t, o) F) := by
    rw [hheld, Multiset.cons_add, Multiset.add_cons]
  have hmem : o ∈ o ::ₘ rest + heldOrders F :=
    Multiset.mem_add.mpr (Or.inl (Multiset.mem_cons_self o rest))
  refine ⟨?_, ?_, hin, sound_update h.sound ⟨h.balance.ledger.bounded o hmem,
    h.balance.ledger.notional_le hmem⟩, h.retried.update rfl (Or.inl rfl)⟩
  · rw [hcommit, ← hlive]
    exact h.balance
  · rw [releaseCalls_append_singleton, hcommit, h.calls, hheld, Multiset.add_cons,
      ← Multiset.singleton_add, add_comm]
    rfl

theorem SysInv.reserve (h : SysInv es s F rest) (hg : s.gate.Limits) {spurious : Bool}
    {cur word : UInt64} (ht : s.control t = .reserving o cur)
    (hc : s.gate.reserveCandidate o s.gate.state = some word) :
    SysInv (es ++ [⟨s, .iterate t spurious, .reserved o⟩])
      { s.setControl t .idle with gate.state := word } F (o ::ₘ rest) := by
  have ho : o.Bounded := by
    have hs := h.sound t
    rw [ht] at hs
    exact hs
  have hcommit : threadCommits (es ++ [⟨s, .iterate t spurious, .reserved o⟩]) =
      threadCommits es ++ [.reserve o] := threadCommits_append_singleton
  refine ⟨?_, ?_, h.inFlight.update (by rw [ht]; rfl), sound_update h.sound trivial,
    h.retried.update rfl (Or.inr (Or.inl rfl))⟩
  · rw [hcommit, Multiset.cons_add]
    exact h.balance.reserve hg ho hc
  · rw [releaseCalls_append_singleton, hcommit, h.calls]
    simp [Action.releases?]

theorem SysInv.release (h : SysInv es s F rest) {spurious : Bool} {cur : UInt64}
    (ht : s.control t = .releasing o cur) :
    SysInv (es ++ [⟨s, .iterate t spurious, .released o⟩])
      { s.setControl t .idle with gate := s.gate.release o } (F.erase (t, o)) rest := by
  obtain ⟨hin, hheld⟩ := h.inFlight.erase (o := o) (by rw [ht]; rfl)
  have hcommit : threadCommits (es ++ [⟨s, .iterate t spurious, .released o⟩]) =
      threadCommits es ++ [.release o] := threadCommits_append_singleton
  have hbal := h.balance
  rw [hheld, Multiset.add_cons] at hbal
  refine ⟨?_, ?_, hin, sound_update h.sound trivial, h.retried.update rfl (Or.inr (Or.inl rfl))⟩
  · rw [hcommit]
    exact hbal.release
  · rw [releaseCalls_append_singleton, hcommit, h.calls, hheld]
    simp [Action.releases?, ← Multiset.singleton_add]
    abel

theorem SysInv.step (h : SysInv es s F rest) (hg : s.gate.Limits) {a : Action T}
    {r : StepResult} {s' : System T} (hs : StepSpec s a r s')
    (hb : ∀ o ∈ a.reserves?, o.Bounded)
    (hr : ∀ o ∈ a.releases?, o ∈ reservedOrders (threadCommits es) - releaseCalls es) :
    ∃ F' rest', SysInv (es ++ [⟨s, a, r⟩]) s' F' rest' := by
  rw [h.outstanding] at hr
  cases hs with
  | callReserve ht =>
    exact ⟨F, rest, h.setControl rfl rfl rfl (by rw [ht]; rfl) (hb _ rfl) (Or.inl rfl)⟩
  | callRelease ht =>
    obtain ⟨rest, rfl⟩ := Multiset.exists_cons_of_mem (hr _ rfl)
    exact ⟨_, rest, h.callRelease ht⟩
  | @reject t _ o cur ht =>
    exact ⟨F, rest, h.setControl rfl rfl rfl (by rw [ht]; rfl) trivial (Or.inr (Or.inl rfl))⟩
  | @reserveRetry t _ o cur ht =>
    have hsound := h.sound t
    rw [ht] at hsound
    refine ⟨F, rest, h.setControl rfl rfl rfl (by rw [ht]; rfl) hsound (Or.inr (Or.inr ⟨rfl, ?_⟩))⟩
    simp [ht]
  | @releaseRetry t _ o cur ht =>
    have hsound := h.sound t
    rw [ht] at hsound
    refine ⟨F, rest, h.setControl rfl rfl rfl (by rw [ht]; rfl) ⟨hsound.1, h.notional_le ht⟩
      (Or.inr (Or.inr ⟨rfl, ?_⟩))⟩
    simp [ht]
  | reserve ht hc => exact ⟨F, _, h.reserve hg ht hc⟩
  | release ht => exact ⟨_, rest, h.release ht⟩

end SysInv

/-- No step changes the limits, and a step that does not store leaves the gate alone. -/
theorem StepSpec.gate [DecidableEq T] {s s' : System T} {a : Action T} {r : StepResult}
    (h : StepSpec s a r s') :
    (s'.gate.maxPosition = s.gate.maxPosition ∧ s'.gate.maxNotional = s.gate.maxNotional) ∧
      (r.stores = false → s'.gate = s.gate) := by
  cases h with
  | reserve _ _ => exact ⟨⟨rfl, rfl⟩, fun h => by cases h⟩
  | release _ => exact ⟨⟨rfl, rfl⟩, fun h => by cases h⟩
  | _ => exact ⟨⟨rfl, rfl⟩, fun _ => rfl⟩

theorem exec_sysInv [DecidableEq T] {maxPosition maxNotional : Int64}
    (hlim : (RiskGate.create maxPosition maxNotional).Limits) {actions : List (Action T)}
    {es : List (StepEvent T)} {s : System T}
    (hr : exec System.step (System.init maxPosition maxNotional) actions = some (es, s))
    (hl : ThreadsLawful es) : s.gate.Limits ∧ ∃ F rest, SysInv es s F rest := by
  refine exec_invariant (fun es s => ThreadsLawful es → s.gate.Limits ∧
    ∃ F rest, SysInv es s F rest) ?_ (fun _ => ⟨hlim, ∅, 0, .init hlim.notional_nonneg⟩) hr hl
  intro h s a r s' ih hstep hl'
  obtain ⟨hb, hrel⟩ := hl'.last
  obtain ⟨hg, F, rest, hi⟩ := ih hl'.of_append
  have hspec := System.step_spec hstep
  exact ⟨hg.congr hspec.gate.1.1 hspec.gate.1.2, hi.step hg hspec hb hrel⟩

/-- A call that returned false only ever loaded and failed to exchange. -/
theorem reject_stores_nothing [DecidableEq T] {maxPosition maxNotional : Int64}
    (hlim : (RiskGate.create maxPosition maxNotional).Limits) {actions : List (Action T)}
    {es h r : List (StepEvent T)} {e : StepEvent T} {s : System T}
    (hr : exec System.step (System.init maxPosition maxNotional) actions = some (es, s))
    (hl : ThreadsLawful es) (heq : es = h ++ e :: r) (he : e.result = .rejected) :
    ∀ x ∈ e :: iterations e.call.thread h, x.result.stores = false := by
  intro x hx
  rcases List.mem_cons.mp hx with rfl | hx
  · rw [he]
    rfl
  · obtain ⟨⟨is, his⟩, u, hu⟩ := exec_events hr h e r heq
    obtain ⟨_, F, rest, hi⟩ := exec_sysInv hlim his (heq ▸ hl).of_append
    have hrun : e.before.control e.call.thread ≠ .idle := by
      have hspec := System.step_spec hu
      rw [he] at hspec
      cases hc : e.call with
      | callReserve t o => rw [hc] at hspec; cases hspec
      | callRelease t o => rw [hc] at hspec; cases hspec
      | iterate t spurious =>
        rw [hc] at hspec
        cases hspec with
        | reject ht => simp [Action.thread, ht]
    rw [hi.retried _ hrun x hx]
    rfl

/-- However the threads interleave, both halves of the word are the exact sums
over the orders reserved and not released, no release needs its clamp, and a
call that returned false stored nothing. -/
theorem riskGate_threads_exact [DecidableEq T] (maxPosition maxNotional : Int64)
    (hlim : (RiskGate.create maxPosition maxNotional).Limits) (actions : List (Action T))
    (es : List (StepEvent T)) (s : System T)
    (hr : exec System.step (System.init maxPosition maxNotional) actions = some (es, s))
    (hl : ThreadsLawful es) :
    s.gate.position.toInt = exactPosition (live (threadCommits es)) ∧
      s.gate.notionalUsed.toInt = exactNotional (live (threadCommits es)) ∧
      (∀ t o cur, s.control t = .releasing o cur →
        max 0 (releasedNotional o cur) = releasedNotional o cur) ∧
      ∀ h e r, es = h ++ e :: r → e.result = .rejected →
        ∀ x ∈ e :: iterations e.call.thread h, x.result.stores = false ∧
          ∃ s', x.before.step x.call = some (x.result, s') ∧ s'.gate = x.before.gate := by
  obtain ⟨_, F, rest, hi⟩ := exec_sysInv hlim hr hl
  rw [hi.balance.live_eq]
  refine ⟨?_, hi.balance.ledger.notional, ?_, ?_⟩
  · have hfits := hl.position es ((List.mem_inits es es).mpr (List.prefix_refl es))
    rw [hi.balance.live_eq] at hfits
    rw [hi.balance.ledger.position, Int.bmod_eq_of_le (by omega) (by omega)]
  · intro t o cur ht
    have hsound := hi.sound t
    rw [ht] at hsound
    exact (releaseCandidate_spec hsound.1.toValid hsound.1.product hsound.2).1
  · intro h e r heq he x hx
    have hquiet := reject_stores_nothing hlim hr hl heq he x hx
    have hmem : x ∈ es := by
      rw [heq]
      rcases List.mem_cons.mp hx with rfl | hx
      · exact List.mem_append_right h List.mem_cons_self
      · exact List.mem_append_left _ (mem_of_mem_iterations hx)
    obtain ⟨_, _, s', _, _, hs'⟩ := exec_mem hr hmem
    exact ⟨hquiet, s', hs', (System.step_spec hs').gate.2 hquiet⟩

/-- Two reserves race, one of them retries; then a release overlaps a reject. -/
theorem riskGate_threads_exact_race :
    ∃ (es : List (StepEvent Bool)) (s : System Bool), exec System.step (System.init 10 1000)
        [.callReserve false ⟨1, .buy, 5, 4⟩, .callReserve true ⟨2, .sell, 7, 6⟩,
          .iterate false false, .iterate true false, .iterate true false,
          .callRelease false ⟨2, .sell, 7, 6⟩, .callReserve true ⟨3, .sell, 1, 20⟩,
          .iterate false true, .iterate false false, .iterate true false] = some (es, s) ∧
      ThreadsLawful es ∧ threadCommits es =
        [.reserve ⟨1, .buy, 5, 4⟩, .reserve ⟨2, .sell, 7, 6⟩, .release ⟨2, .sell, 7, 6⟩] ∧
      s.gate.position.toInt = exactPosition (live (threadCommits es)) ∧
      s.gate.notionalUsed.toInt = exactNotional (live (threadCommits es)) ∧
      (∀ t o cur, s.control t = .releasing o cur →
        max 0 (releasedNotional o cur) = releasedNotional o cur) ∧
      ∀ h e r, es = h ++ e :: r → e.result = .rejected →
        ∀ x ∈ e :: iterations e.call.thread h, x.result.stores = false ∧
          ∃ s', x.before.step x.call = some (x.result, s') ∧ s'.gate = x.before.gate := by
  have hrun : ∃ (es : List (StepEvent Bool)) (s : System Bool),
      exec System.step (System.init 10 1000)
        [.callReserve false ⟨1, .buy, 5, 4⟩, .callReserve true ⟨2, .sell, 7, 6⟩,
          .iterate false false, .iterate true false, .iterate true false,
          .callRelease false ⟨2, .sell, 7, 6⟩, .callReserve true ⟨3, .sell, 1, 20⟩,
          .iterate false true, .iterate false false, .iterate true false] = some (es, s) ∧
      ThreadsLawful es ∧ threadCommits es =
        [.reserve ⟨1, .buy, 5, 4⟩, .reserve ⟨2, .sell, 7, 6⟩, .release ⟨2, .sell, 7, 6⟩] :=
    ⟨_, _, rfl, by decide, rfl⟩
  obtain ⟨es, s, hr, hl, hcommit⟩ := hrun
  exact ⟨es, s, hr, hl, hcommit, riskGate_threads_exact 10 1000 (by decide) _ es s hr hl⟩

/-- The word a thread works on is not the word of the gate any more. -/
def System.stale (s : System T) (t : T) : Bool :=
  match s.control t with
  | .idle => false
  | .reserving _ cur | .releasing _ cur => s.gate.state != cur

def Control.looping : Control → Bool
  | .idle => false
  | .reserving _ _ | .releasing _ _ => true

/-- The iterations a thread has before it if nobody else commits. -/
def System.potential (s : System T) (t : T) : ℕ :=
  (s.control t).looping.toNat + (s.stale t).toNat

def Action.spurious : Action T → Bool
  | .iterate _ spurious => spurious
  | _ => false

section Retries
variable [DecidableEq T] {s s' : System T} {a : Action T} {r : StepResult} {t : T}

/-- A compare-exchange fails for no reason, or because the word is another one by now. -/
theorem exchange_fails (h : s.step a = some (.casFailed, s')) :
    a.spurious = true ∨ s.stale a.thread = true := by
  cases a with
  | callReserve t order =>
    cases System.step_spec h
  | callRelease t order =>
    cases System.step_spec h
  | iterate t spurious =>
    cases spurious with
    | true => exact Or.inl rfl
    | false =>
      refine Or.inr ?_
      cases ht : s.control t with
      | idle => simp [System.step, ht] at h
      | reserving order cur =>
        by_cases hcur : s.gate.state = cur
        · simp only [System.step, ht, compareExchangeWeak, hcur, and_self, if_true] at h
          split at h <;> cases h
        · simp [System.stale, Action.thread, ht, hcur]
      | releasing order cur =>
        by_cases hcur : s.gate.state = cur
        · simp only [System.step, ht, compareExchangeWeak, hcur, and_self, if_true] at h
          cases h
        · simp [System.stale, Action.thread, ht, hcur]

theorem potential_step (h : s.step a = some (r, s')) :
    s'.potential a.thread + 1 ≤
      s.potential a.thread + 2 * a.starts.toNat + 1 * a.spurious.toNat := by
  have hretry : r = .casFailed → 1 ≤ (s.stale a.thread).toNat + a.spurious.toNat := by
    rintro rfl
    rcases exchange_fails h with hspurious | hstale
    · rw [hspurious]
      exact Nat.le_add_left ..
    · rw [hstale]
      exact Nat.le_add_right ..
  cases System.step_spec h with
  | callReserve ht | callRelease ht =>
    simp [System.potential, System.stale, System.setControl, Action.thread, Action.starts,
      Control.looping, ht]
  | reject ht =>
    simp [System.potential, System.stale, System.setControl, Action.thread, Control.looping, ht]
    omega
  | reserveRetry ht | releaseRetry ht =>
    have hpaid := hretry rfl
    simp [System.potential, System.stale, System.setControl, Action.thread, Control.looping,
      ht] at hpaid ⊢
    omega
  | reserve ht hc =>
    simp [System.potential, System.stale, System.setControl, Action.thread, Control.looping, ht]
    omega
  | release ht =>
    simp [System.potential, System.stale, System.setControl, Action.thread, Control.looping, ht]
    omega

theorem potential_step_other (h : s.step a = some (r, s')) (hne : t ≠ a.thread) :
    s'.potential t ≤ s.potential t + 1 * r.stores.toNat := by
  have hs := System.step_spec h
  have hcontrol : s'.control t = s.control t := by
    cases hs <;> exact Function.update_of_ne hne _ _
  cases hr : r.stores with
  | true =>
    have hle : (s'.stale t).toNat ≤ 1 := Bool.toNat_le _
    rw [System.potential, System.potential, hcontrol, Bool.toNat_true]
    omega
  | false =>
    have hstale : s'.stale t = s.stale t := by
      unfold System.stale
      rw [hcontrol, hs.gate.2 hr]
    rw [System.potential, System.potential, hcontrol, hstale]
    exact Nat.le_add_right ..

/-- No call iterates more than once, but for the compare-exchanges that fail for no reason and for
the commits of other threads. -/
theorem riskGate_steps_le {maxPosition maxNotional : Int64} {actions : List (Action T)}
    {es : List (StepEvent T)}
    (h : exec System.step (System.init maxPosition maxNotional) actions = some (es, s)) (t : T) :
    es.countP (takenBy Action.thread t) ≤
      2 * es.countP (startedBy Action.thread Action.starts t) +
        1 * (es.countP (failedBy Action.thread (fun _ a => a.spurious) t) +
          es.countP (interferedWith Action.thread StepResult.stores t)) := by
  refine steps_le_of_retries System.potential (I := fun _ => True) ?_ ?_ ?_ trivial h rfl
  · exact fun _ _ _ _ _ _ => trivial
  · exact fun _ _ _ _ _ hstep => potential_step hstep
  · exact fun _ _ _ _ _ _ hstep ht => potential_step_other hstep ht

end Retries

/-- The second thread finds the word changed under its reservation, and then under its check. -/
theorem riskGate_steps_le_race :
    ∃ (es : List (StepEvent Bool)) (s : System Bool), exec System.step (System.init 10 1000)
        [.callReserve false ⟨1, .buy, 5, 4⟩, .callReserve true ⟨2, .sell, 7, 6⟩,
          .iterate false false, .iterate true false, .iterate true false,
          .callRelease false ⟨2, .sell, 7, 6⟩, .callReserve true ⟨3, .sell, 1, 20⟩,
          .iterate false true, .iterate false false, .iterate true false] = some (es, s) ∧
      es.countP (takenBy Action.thread true) = 5 ∧
      es.countP (interferedWith Action.thread StepResult.stores true) = 2 ∧
      es.countP (takenBy Action.thread true) ≤
        2 * es.countP (startedBy Action.thread Action.starts true) +
          1 * (es.countP (failedBy Action.thread (fun _ a => a.spurious) true) +
            es.countP (interferedWith Action.thread StepResult.stores true)) := by
  have hrun : ∃ (es : List (StepEvent Bool)) (s : System Bool),
      exec System.step (System.init 10 1000)
        [.callReserve false ⟨1, .buy, 5, 4⟩, .callReserve true ⟨2, .sell, 7, 6⟩,
          .iterate false false, .iterate true false, .iterate true false,
          .callRelease false ⟨2, .sell, 7, 6⟩, .callReserve true ⟨3, .sell, 1, 20⟩,
          .iterate false true, .iterate false false, .iterate true false] = some (es, s) ∧
      es.countP (takenBy Action.thread true) = 5 ∧
      es.countP (interferedWith Action.thread StepResult.stores true) = 2 :=
    ⟨_, _, rfl, rfl, rfl⟩
  obtain ⟨es, s, hr, htaken, hothers⟩ := hrun
  exact ⟨es, s, hr, htaken, hothers, riskGate_steps_le hr true⟩

end HftExercises.Risk
