import Mathlib.Data.List.Chain
import HftExercises.Core.ListFacts
import HftExercises.Core.Threads

/-! # The order state machine under threads

One atomic word holds the state. A transition loads it, consults the table and
exchanges; a failed exchange leaves the state it found, which is consulted again.
The check is made on a value that another thread may replace, but an exchange
only succeeds when the word still holds it.
-/
namespace HftExercises.StateMachine
variable {T : Type*}

inductive OrderState where
  | new
  | pendingNew
  | partiallyFilled
  | filled
  | pendingCancel
  | cancelled
  | rejected
  deriving DecidableEq, Repr

def legal : OrderState → OrderState → Bool
  | .new, target =>
    target = .pendingNew || target = .partiallyFilled || target = .cancelled || target = .rejected
  | .pendingNew, target => target = .new || target = .partiallyFilled || target = .rejected
  | .partiallyFilled, target =>
    target = .partiallyFilled || target = .filled || target = .pendingCancel || target = .cancelled
  | .pendingCancel, target => target = .cancelled || target = .partiallyFilled || target = .filled
  | .filled, _ => false
  | .cancelled, _ => false
  | .rejected, _ => false

def terminal (st : OrderState) : Bool := st = .filled || st = .cancelled || st = .rejected

/-- Where a thread is: outside, or about to exchange the state it last read. -/
inductive Control where
  | idle
  | retrying (target seen : OrderState)
  deriving DecidableEq, Repr

structure System (T : Type*) where
  state : OrderState
  control : T → Control

def System.init : System T := ⟨.new, fun _ => .idle⟩

inductive Action (T : Type*) where
  | transition (thread : T) (target : OrderState)
  | exchange (thread : T) (spurious : Bool)
  deriving DecidableEq, Repr

/-- A call that is still in its loop, or that returned false or true. -/
inductive StepResult where
  | looping
  | rejected
  | committed (target : OrderState)
  deriving DecidableEq, Repr

def System.setControl [DecidableEq T] (s : System T) (t : T) (c : Control) : System T :=
  { s with control := Function.update s.control t c }

/-- The head of the loop, on the state just read. -/
def System.check [DecidableEq T] (s : System T) (t : T) (target : OrderState) :
    StepResult × System T :=
  if legal s.state target then (.looping, s.setControl t (.retrying target s.state))
  else (.rejected, s.setControl t .idle)

def System.step [DecidableEq T] (s : System T) : Action T → Option (StepResult × System T)
  | .transition t target =>
    match s.control t with
    | .idle => some (s.check t target)
    | .retrying _ _ => none
  | .exchange t spurious =>
    match s.control t with
    | .idle => none
    | .retrying target seen =>
      match compareExchangeWeak s.state seen target spurious with
      | none => some (s.check t target)
      | some st => some (.committed target, { s.setControl t .idle with state := st })

abbrev StepEvent (T : Type*) := Event (System T) (Action T) StepResult

def StepResult.target? : StepResult → Option OrderState
  | .committed target => some target
  | _ => none

def Action.thread : Action T → T
  | .transition t _ => t
  | .exchange t _ => t

def Action.starts : Action T → Bool
  | .transition _ _ => true
  | .exchange _ _ => false

/-- The values the word has held, one for each successful exchange. -/
def held (es : List (StepEvent T)) : List OrderState :=
  .new :: es.filterMap (fun e => e.result.target?)

/-- The step entered a terminal state. -/
def StepResult.finishes (r : StepResult) : Bool := r.target?.any terminal

def edges (steps : List (StepEvent T)) : List OrderState :=
  steps.filterMap (fun e => e.result.target?)

/-- The steps of the call thread `t` is in, or has just finished. -/
def callOf [DecidableEq T] (t : T) (es : List (StepEvent T)) : List (StepEvent T) :=
  callSteps Action.thread Action.starts t es

/-- How that call began. -/
def calledWith [DecidableEq T] (t : T) (es : List (StepEvent T)) : Option (Action T) :=
  callStart Action.thread Action.starts t es

/-- The target of the call a step belongs to. -/
def System.target? (s : System T) : Action T → Option OrderState
  | .transition _ target => some target
  | .exchange t _ =>
    match s.control t with
    | .idle => none
    | .retrying target _ => some target

/-- What a step can do. A commit follows an edge from the state the word holds. -/
inductive StepSpec [DecidableEq T] (s : System T) (a : Action T) :
    StepResult → System T → Prop
  | loop {target : OrderState} (ha : s.target? a = some target) (h : legal s.state target = true) :
      StepSpec s a .looping (s.setControl a.thread (.retrying target s.state))
  | reject {target : OrderState} (ha : s.target? a = some target)
      (h : legal s.state target = false) :
      StepSpec s a .rejected (s.setControl a.thread .idle)
  | commit {target : OrderState} (ha : s.target? a = some target)
      (ht : s.control a.thread = .retrying target s.state) :
      StepSpec s a (.committed target) { s.setControl a.thread .idle with state := target }

section Steps
variable [DecidableEq T] {s s' : System T} {a : Action T} {r : StepResult}

theorem System.check_spec {target : OrderState} (ha : s.target? a = some target) :
    StepSpec s a (s.check a.thread target).1 (s.check a.thread target).2 := by
  unfold System.check
  cases h : legal s.state target with
  | true => exact .loop ha h
  | false => exact .reject ha h

theorem System.step_spec (h : s.step a = some (r, s')) : StepSpec s a r s' := by
  cases a with
  | transition t target =>
    simp only [System.step] at h
    split at h
    · have hc := s.check_spec (a := .transition t target) rfl
      simp only [Action.thread, Option.some.inj h] at hc
      exact hc
    · cases h
  | exchange t spurious =>
    simp only [System.step] at h
    split at h
    · cases h
    · rename_i target seen hcontrol
      have ha : s.target? (.exchange t spurious) = some target := by
        simp only [System.target?, hcontrol]
      split at h
      · have hc := System.check_spec ha
        simp only [Action.thread, Option.some.inj h] at hc
        exact hc
      · rename_i st hcas
        cases h
        obtain ⟨rfl, rfl⟩ := compareExchangeWeak_eq_some hcas
        exact .commit ha hcontrol

theorem legal_not_terminal {st target : OrderState} (h : legal st target = true) :
    terminal st = false := by
  cases st <;> first | rfl | cases h

end Steps

/-- A call in its loop has stored nothing, and last read a state with an edge to
its target. -/
def CallInv [DecidableEq T] (es : List (StepEvent T)) (s : System T) : Prop :=
  ∀ t target seen, s.control t = .retrying target seen → legal seen target = true ∧
    edges (callOf t es) = [] ∧ calledWith t es = some (.transition t target)

/-- The word walks along legal edges, and stops at a terminal state. -/
structure PathInv (es : List (StepEvent T)) (s : System T) : Prop where
  chain : (held es).IsChain (fun a b => legal a b = true)
  last : (held es).getLast? = some s.state
  finished : ∀ e ∈ es, e.result.finishes = true → terminal s.state = true
  quiet : es.Pairwise (fun a b => a.result.finishes = true → b.result.target? = none)

section Invariant
variable [DecidableEq T] {es : List (StepEvent T)} {s s' : System T} {a : Action T} {r : StepResult}

/-- The call of a step, up to and including the step. -/
theorem CallInv.call (h : CallInv es s) {target : OrderState} (ha : s.target? a = some target) :
    edges (callOf a.thread (es ++ [⟨s, a, r⟩])) = r.target?.toList ∧
      calledWith a.thread (es ++ [⟨s, a, r⟩]) = some (.transition a.thread target) := by
  cases a with
  | transition t target' =>
    cases ha
    have hsteps : callOf t (es ++ [⟨s, .transition t target, r⟩]) =
        [⟨s, .transition t target, r⟩] := callSteps_append_start rfl rfl
    refine ⟨?_, callStart_append_start rfl rfl⟩
    simp only [Action.thread, hsteps]
    cases r <;> rfl
  | exchange t spurious =>
    have hsteps : callOf t (es ++ [⟨s, .exchange t spurious, r⟩]) =
        ⟨s, .exchange t spurious, r⟩ :: callOf t es := callSteps_append_next rfl rfl
    cases hcontrol : s.control t with
    | idle => simp [System.target?, hcontrol] at ha
    | retrying target' seen =>
      simp only [System.target?, hcontrol, Option.some.injEq] at ha
      rw [ha] at hcontrol
      obtain ⟨_, hedges, hcall⟩ := h t _ seen hcontrol
      have hstart : calledWith t (es ++ [⟨s, .exchange t spurious, r⟩]) =
          some (.transition t target) := by
        apply callStart_append_next ?_ ?_ hcall
        · rfl
        · rfl
      refine ⟨?_, hstart⟩
      simp only [Action.thread, hsteps]
      unfold edges at *
      rw [List.filterMap_cons, hedges]
      cases r <;> rfl

theorem CallInv.step (h : CallInv es s) (hs : StepSpec s a r s') :
    CallInv (es ++ [⟨s, a, r⟩]) s' := by
  intro t target seen ht
  by_cases htt : a.thread = t
  · subst htt
    cases hs with
    | loop ha hlegal =>
      simp only [System.setControl, Function.update_self] at ht
      cases ht
      obtain ⟨hedges, hcall⟩ := h.call (r := .looping) ha
      exact ⟨hlegal, hedges, hcall⟩
    | reject ha hlegal => simp [System.setControl] at ht
    | commit ha hcontrol => simp [System.setControl] at ht
  · have hsteps : callOf t (es ++ [⟨s, a, r⟩]) = callOf t es := callSteps_append_other htt
    have hstart : calledWith t (es ++ [⟨s, a, r⟩]) = calledWith t es := callStart_append_other htt
    rw [hsteps, hstart]
    apply h
    cases hs <;> simpa [System.setControl, Function.update_of_ne (Ne.symm htt)] using ht

omit [DecidableEq T] in
theorem held_append_singleton (es : List (StepEvent T)) (e : StepEvent T) :
    held (es ++ [e]) = held es ++ e.result.target?.toList := by
  unfold held
  rw [filterMap_append_singleton, List.cons_append]

omit [DecidableEq T] in
/-- A step that stores nothing. -/
theorem PathInv.silent (h : PathInv es s) (hr : r.target? = none) (hstate : s'.state = s.state) :
    PathInv (es ++ [⟨s, a, r⟩]) s' where
  chain := by
    rw [held_append_singleton, hr, Option.toList_none, List.append_nil]
    exact h.chain
  last := by
    rw [held_append_singleton, hr, Option.toList_none, List.append_nil, hstate]
    exact h.last
  finished := by
    intro e he hf
    rw [hstate]
    rcases List.mem_append.mp he with he | he
    · exact h.finished e he hf
    · rw [List.mem_singleton.mp he] at hf
      simp [StepResult.finishes, hr] at hf
  quiet := by
    apply List.pairwise_append.mpr
    refine ⟨h.quiet, List.pairwise_singleton _ _, ?_⟩
    intro x _ y hy _
    rw [List.mem_singleton.mp hy]
    exact hr

omit [DecidableEq T] in
theorem PathInv.commit (h : PathInv es s) {target : OrderState}
    (hlegal : legal s.state target = true) (hstate : s'.state = target) :
    PathInv (es ++ [⟨s, a, .committed target⟩]) s' where
  chain := by
    rw [held_append_singleton]
    apply List.isChain_append.mpr
    refine ⟨h.chain, List.isChain_singleton _, ?_⟩
    intro x hx y hy
    rw [h.last] at hx
    cases hx
    cases hy
    exact hlegal
  last := by
    rw [held_append_singleton, hstate]
    exact List.getLast?_concat
  finished := by
    intro e he hf
    rcases List.mem_append.mp he with he | he
    · have hterm := h.finished e he hf
      rw [legal_not_terminal hlegal] at hterm
      cases hterm
    · rw [List.mem_singleton.mp he] at hf
      rw [hstate]
      exact hf
  quiet := by
    apply List.pairwise_append.mpr
    refine ⟨h.quiet, List.pairwise_singleton _ _, ?_⟩
    intro x hx y _ hf
    have hterm := h.finished x hx hf
    rw [legal_not_terminal hlegal] at hterm
    cases hterm

theorem PathInv.step (h : PathInv es s) (hc : CallInv es s) (hs : StepSpec s a r s') :
    PathInv (es ++ [⟨s, a, r⟩]) s' := by
  cases hs with
  | loop _ _ => exact h.silent rfl rfl
  | reject _ _ => exact h.silent rfl rfl
  | commit _ ht => exact h.commit (hc _ _ _ ht).1 rfl

theorem exec_sysInv {actions : List (Action T)}
    (hr : exec System.step System.init actions = some (es, s)) : PathInv es s ∧ CallInv es s := by
  apply exec_invariant (fun es s => PathInv es s ∧ CallInv es s) ?_ ?_ hr
  · rintro es s a r s' ⟨hp, hc⟩ hstep
    have hspec := System.step_spec hstep
    exact ⟨hp.step hc hspec, hc.step hspec⟩
  · refine ⟨⟨List.isChain_singleton _, rfl, by simp, List.Pairwise.nil⟩, ?_⟩
    intro t target seen ht
    cases ht

end Invariant

/-- However the threads interleave, the word walks along legal edges from `New`.
A call that returned true stored once, along an edge into its own target; one
that returned false stored nothing and last read a state with no edge to its
target. At most one call enters a terminal state, and none succeeds after it. -/
theorem orderStateMachine_threads [DecidableEq T] (actions : List (Action T))
    (es : List (StepEvent T)) (s : System T)
    (hr : exec System.step System.init actions = some (es, s)) :
    ((held es).IsChain (fun a b => legal a b = true) ∧ (held es).getLast? = some s.state) ∧
      (∀ h e r, es = h ++ e :: r →
        (∀ target, e.result = .committed target →
          legal e.before.state target = true ∧
          edges (callOf e.call.thread (h ++ [e])) = [target] ∧
          calledWith e.call.thread (h ++ [e]) =
            some (.transition e.call.thread target)) ∧
        (e.result = .rejected →
          edges (callOf e.call.thread (h ++ [e])) = [] ∧
          ∃ target, calledWith e.call.thread (h ++ [e]) =
            some (.transition e.call.thread target) ∧ legal e.before.state target = false)) ∧
      (es.filter (fun e => e.result.finishes)).length ≤ 1 ∧
      es.Pairwise (fun a b => a.result.finishes = true → b.result.target? = none) := by
  obtain ⟨hp, _⟩ := exec_sysInv hr
  refine ⟨⟨hp.chain, hp.last⟩, ?_, ?_, hp.quiet⟩
  · intro h e r heq
    obtain ⟨⟨is, his⟩, s', hstep⟩ := exec_events hr h e r heq
    obtain ⟨_, hc⟩ := exec_sysInv his
    have hspec := System.step_spec hstep
    obtain ⟨before, call, result⟩ := e
    dsimp only at hspec hc ⊢
    cases hspec with
    | loop ha hlegal =>
      constructor
      · intro _ h
        cases h
      · intro h
        cases h
    | @reject target ha hlegal =>
      obtain ⟨hedges, hcall⟩ := hc.call (r := .rejected) ha
      refine ⟨?_, fun _ => ⟨hedges, target, hcall, hlegal⟩⟩
      intro _ h
      cases h
    | commit ha ht =>
      obtain ⟨hedges, hcall⟩ := hc.call (r := .committed _) ha
      constructor
      · intro target htarget
        cases htarget
        exact ⟨(hc _ _ _ ht).1, hedges, hcall⟩
      · intro h
        cases h
  · apply length_filter_le_one
    apply hp.quiet.imp
    intro a b hab ha
    rw [StepResult.finishes, hab ha]
    rfl

/-- A fill and a cancel race; the cancel wins, the fill retries and is rejected. -/
theorem orderStateMachine_threads_race :
    ∃ (es : List (StepEvent Bool)) (s : System Bool), exec System.step System.init
        [.transition false .partiallyFilled, .exchange false true, .exchange false false,
          .transition false .filled, .transition true .cancelled, .exchange true false,
          .exchange false false] = some (es, s) ∧
      held es = [.new, .partiallyFilled, .cancelled] ∧
      ((held es).IsChain (fun a b => legal a b = true) ∧ (held es).getLast? = some s.state) ∧
      (∀ h e r, es = h ++ e :: r →
        (∀ target, e.result = .committed target →
          legal e.before.state target = true ∧
          edges (callOf e.call.thread (h ++ [e])) = [target] ∧
          calledWith e.call.thread (h ++ [e]) =
            some (.transition e.call.thread target)) ∧
        (e.result = .rejected →
          edges (callOf e.call.thread (h ++ [e])) = [] ∧
          ∃ target, calledWith e.call.thread (h ++ [e]) =
            some (.transition e.call.thread target) ∧ legal e.before.state target = false)) ∧
      (es.filter (fun e => e.result.finishes)).length ≤ 1 ∧
      es.Pairwise (fun a b => a.result.finishes = true → b.result.target? = none) := by
  have hrun : ∃ (es : List (StepEvent Bool)) (s : System Bool), exec System.step System.init
      [.transition false .partiallyFilled, .exchange false true, .exchange false false,
        .transition false .filled, .transition true .cancelled, .exchange true false,
        .exchange false false] = some (es, s) ∧
      held es = [.new, .partiallyFilled, .cancelled] := ⟨_, _, rfl, rfl⟩
  obtain ⟨es, s, hr, hheld⟩ := hrun
  exact ⟨es, s, hr, hheld, orderStateMachine_threads _ es s hr⟩

end HftExercises.StateMachine
