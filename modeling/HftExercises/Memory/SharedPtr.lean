import HftExercises.Core.ThreadCount

/-! # Shared and weak pointers over one control block

Handles are the `SharedPtr` and `WeakPtr` objects, those that refer to the block
and those that do not (empty, or with a block of their own). A step is one atomic
access to a counter with the local work around it; `dispose`, its return and the
deletion of the block are steps too. A handle that a running `lock` reads is not
changed or destroyed meanwhile, and nobody writes a handle in two threads at once.
A call made inside `dispose` is a call of another thread here, as nothing ties a
handle to a thread.
-/
namespace HftExercises.Shared
variable {T O P : Type*}

/-- `SharedPtr` or `WeakPtr`. -/
inductive Kind where
  | owner
  | observer
  deriving DecidableEq, Repr

/-- `ptr_`, and whether `ctrl_` is the block. -/
structure Handle (P : Type*) where
  kind : Kind
  ptr : Option P
  ctrl : Bool
  deriving DecidableEq, Repr

def Handle.empty (kind : Kind) : Handle P := ⟨kind, none, false⟩

/-- Where a thread is. `dispose` is behind the decrement that found one, `dropStake` behind
the return of `dispose`, `delete` behind the decrement of `weak_` that found one. -/
inductive Control (O : Type*) where
  | idle
  | releaseShared
  | dispose
  | disposing
  | dropStake
  | releaseWeak
  | delete
  | lockLoad (src : O)
  | lockCas (src : O) (cur : ℕ)
  deriving DecidableEq, Repr

/-- The handle a running `lock` reads. -/
def Control.source : Control O → Option O
  | .lockLoad src | .lockCas src _ => some src
  | _ => none

structure System (T O P : Type*) where
  shared : ℕ
  weak : ℕ
  handles : O → Option (Handle P)
  control : T → Control O
  disposeCalls : ℕ
  deletions : ℕ

inductive Action (T O P : Type*) where
  | makeEmpty (thread : T) (kind : Kind) (dst : O)
  /-- `SharedPtr(p)`, with a block of its own -/
  | makeOther (thread : T) (dst : O) (p : P)
  | copy (thread : T) (dst src : O)
  /-- `SharedPtr(src, p)` -/
  | aliasTo (thread : T) (dst src : O) (p : Option P)
  /-- `WeakPtr(src)` of a `SharedPtr` -/
  | observe (thread : T) (dst src : O)
  | move (thread : T) (dst src : O)
  | copyAssign (thread : T) (dst src : O)
  | moveAssign (thread : T) (dst src : O)
  /-- `dst = src` of a `WeakPtr` and a `SharedPtr` -/
  | observeAssign (thread : T) (dst src : O)
  | reset (thread : T) (dst : O)
  | resetTo (thread : T) (dst : O) (p : P)
  | swap (thread : T) (a b : O)
  | destroy (thread : T) (dst : O)
  | useCount (thread : T) (src : O)
  | lock (thread : T) (src dst : O)
  /-- The next step of the thread's call; `dst` is where `lock` returns its handle. -/
  | proceed (thread : T) (dst : O) (spurious : Bool)
  deriving DecidableEq, Repr

inductive StepResult where
  | running
  | done
  | count (n : ℕ)
  | locked (nonEmpty : Bool)
  deriving DecidableEq, Repr

namespace System

/-- One owner, just created by `MakeShared` or `SharedPtr(p)`. -/
def init [DecidableEq O] (first : O) (p : P) : System T O P where
  shared := 1
  weak := 1
  handles := Function.update (fun _ => none) first (some ⟨.owner, some p, true⟩)
  control := fun _ => .idle
  disposeCalls := 0
  deletions := 0

def setControl [DecidableEq T] (s : System T O P) (t : T) (c : Control O) : System T O P :=
  { s with control := Function.update s.control t c }

def setHandle [DecidableEq O] (s : System T O P) (o : O) (h : Option (Handle P)) : System T O P :=
  { s with handles := Function.update s.handles o h }

/-- `add_shared` or `add_weak`, when the handle that is copied refers to the block. -/
def add (s : System T O P) (kind : Kind) (ctrl : Bool) : System T O P :=
  if ctrl then
    match kind with
    | .owner => { s with shared := s.shared + 1 }
    | .observer => { s with weak := s.weak + 1 }
  else s

/-- The destructor of a handle or of the temporary of an assignment. -/
def release [DecidableEq T] (s : System T O P) (t : T) (h : Handle P) : System T O P :=
  if h.ctrl then
    match h.kind with
    | .owner => s.setControl t .releaseShared
    | .observer => s.setControl t .releaseWeak
  else s

/-- A thread that is in no call. -/
def ready [DecidableEq O] (s : System T O P) (t : T) : Bool := s.control t = .idle

/-- No running `lock` reads the handle. -/
def unread [Fintype T] [DecidableEq O] (s : System T O P) (o : O) : Bool :=
  ∀ t, (s.control t).source ≠ some o

/-- Construct `dst` as `h`, a copy of the handle `src` of that kind. -/
def construct [DecidableEq O] (s : System T O P) (dst : O) (h : Handle P) : System T O P :=
  (s.add h.kind h.ctrl).setHandle dst (some h)

/-- Copy-and-swap: `dst` becomes `h`, and the temporary is destroyed with what `dst` was. -/
def assign [DecidableEq T] [DecidableEq O] (s : System T O P) (t : T) (dst : O)
    (h old : Handle P) : System T O P :=
  ((s.add h.kind h.ctrl).setHandle dst (some h)).release t old

/-- `fetch_sub` of `weak_`, by a `WeakPtr` or for the owners' stake. -/
def subWeak [DecidableEq T] (s : System T O P) (t : T) : System T O P :=
  { s.setControl t (if s.weak = 1 then .delete else .idle) with weak := s.weak - 1 }

variable [Fintype T] [DecidableEq T] [DecidableEq O]

/-- The next step of the call a thread is in. -/
def proceed (s : System T O P) (t : T) (dst : O) (spurious : Bool) :
    Option (StepResult × System T O P) :=
  match s.control t with
  | .idle => none
  | .releaseShared =>
    some (.running, { s.setControl t (if s.shared = 1 then .dispose else .idle) with
      shared := s.shared - 1 })
  | .dispose =>
    some (.running, { s.setControl t .disposing with disposeCalls := s.disposeCalls + 1 })
  | .disposing => some (.running, s.setControl t .dropStake)
  | .dropStake | .releaseWeak => some (.running, s.subWeak t)
  | .delete => some (.done, { s.setControl t .idle with deletions := s.deletions + 1 })
  | .lockLoad src =>
    if s.shared ≠ 0 then some (.running, s.setControl t (.lockCas src s.shared))
    else if (s.handles dst).isNone then
      some (.locked false, (s.setControl t .idle).setHandle dst (some (.empty .owner)))
    else none
  | .lockCas src cur =>
    if (s.handles dst).isNone then
      match compareExchangeWeak s.shared cur (cur + 1) spurious with
      | some shared =>
        some (.locked true, { (s.setControl t .idle).setHandle dst
          (some ⟨.owner, (s.handles src).bind Handle.ptr, true⟩) with shared := shared })
      | none =>
        if s.shared ≠ 0 then some (.running, s.setControl t (.lockCas src s.shared))
        else some (.locked false, (s.setControl t .idle).setHandle dst (some (.empty .owner)))
    else none

def step (s : System T O P) : Action T O P → Option (StepResult × System T O P)
  | .makeEmpty t kind dst =>
    if s.ready t && (s.handles dst).isNone then some (.done, s.construct dst (.empty kind)) else none
  | .makeOther t dst p =>
    if s.ready t && (s.handles dst).isNone then
      some (.done, s.construct dst ⟨.owner, some p, false⟩)
    else none
  | .copy t dst src =>
    match s.handles src with
    | some h =>
      if s.ready t && (s.handles dst).isNone then some (.done, s.construct dst h) else none
    | none => none
  | .aliasTo t dst src p =>
    match s.handles src with
    | some ⟨.owner, _, ctrl⟩ =>
      if s.ready t && (s.handles dst).isNone then
        some (.done, s.construct dst ⟨.owner, p, ctrl⟩)
      else none
    | _ => none
  | .observe t dst src =>
    match s.handles src with
    | some ⟨.owner, ptr, ctrl⟩ =>
      if s.ready t && (s.handles dst).isNone then
        some (.done, s.construct dst ⟨.observer, ptr, ctrl⟩)
      else none
    | _ => none
  | .move t dst src =>
    match s.handles src with
    | some h =>
      if s.ready t && (s.handles dst).isNone && s.unread src then
        some (.done, (s.setHandle src (some (.empty h.kind))).setHandle dst (some h))
      else none
    | none => none
  | .copyAssign t dst src =>
    match s.handles dst, s.handles src with
    | some old, some h =>
      if s.ready t && s.unread dst && old.kind = h.kind then
        some (.running, s.assign t dst h old)
      else none
    | _, _ => none
  | .moveAssign t dst src =>
    match s.handles src with
    | some h =>
      -- the temporary takes `src`, then swaps with `dst`
      let s' := s.setHandle src (some (.empty h.kind))
      match s'.handles dst with
      | some old =>
        if s.ready t && s.unread dst && s.unread src && old.kind = h.kind then
          some (.running, (s'.setHandle dst (some h)).release t old)
        else none
      | none => none
    | none => none
  | .observeAssign t dst src =>
    match s.handles dst, s.handles src with
    | some ⟨.observer, oldPtr, oldCtrl⟩, some ⟨.owner, ptr, ctrl⟩ =>
      if s.ready t && s.unread dst then
        some (.running, s.assign t dst ⟨.observer, ptr, ctrl⟩ ⟨.observer, oldPtr, oldCtrl⟩)
      else none
    | _, _ => none
  | .reset t dst =>
    match s.handles dst with
    | some old =>
      if s.ready t && s.unread dst then
        some (.running, s.assign t dst (.empty old.kind) old)
      else none
    | none => none
  | .resetTo t dst p =>
    match s.handles dst with
    | some ⟨.owner, oldPtr, oldCtrl⟩ =>
      if s.ready t && s.unread dst then
        some (.running, s.assign t dst ⟨.owner, some p, false⟩ ⟨.owner, oldPtr, oldCtrl⟩)
      else none
    | _ => none
  | .swap t a b =>
    match s.handles a, s.handles b with
    | some g, some h =>
      if s.ready t && s.unread a && s.unread b && g.kind = h.kind then
        some (.done, (s.setHandle a (some h)).setHandle b (some g))
      else none
    | _, _ => none
  | .destroy t dst =>
    match s.handles dst with
    | some old =>
      if s.ready t && s.unread dst then some (.running, (s.setHandle dst none).release t old)
      else none
    | none => none
  | .useCount t src =>
    match s.handles src with
    | some h => if s.ready t then some (.count (if h.ctrl then s.shared else 0), s) else none
    | none => none
  | .lock t src dst =>
    match s.handles src with
    | some ⟨.observer, _, true⟩ =>
      if s.ready t then some (.running, s.setControl t (.lockLoad src)) else none
    | some ⟨.observer, _, false⟩ =>
      if s.ready t && (s.handles dst).isNone then
        some (.locked false, s.construct dst (.empty .owner))
      else none
    | _ => none
  | .proceed t dst spurious => s.proceed t dst spurious

end System

/-- What a handle holds of the block: nothing, or a share of its kind. -/
def Handle.claim (h : Handle P) : Option Kind := if h.ctrl then some h.kind else none

/-- A live handle of the kind that refers to the block. -/
def refers (k : Kind) : Option (Handle P) → Bool
  | some h => h.claim = some k
  | none => false

/-- The destructor that gives up a share. -/
def Control.giveUp : Option Kind → Control O
  | none => .idle
  | some .owner => .releaseShared
  | some .observer => .releaseWeak

/-- Some handle to add a share from. -/
def HasSource (s : System T O P) (add : Option Kind) : Prop :=
  ∀ k, add = some k → ∃ o h, s.handles o = some h ∧ h.ctrl = true ∧ (k = .owner → h.kind = .owner)

/-- What a step can do. The first rule is every call that begins and ends here: shares are
handed over between handles, at most one is added from a handle that has one, and at most one
is given up to a destructor. -/
inductive StepSpec [Fintype O] [DecidableEq T] [DecidableEq O] (s : System T O P) :
    StepResult → System T O P → Prop
  | operate {r : StepResult} {t : T} {handles : O → Option (Handle P)} {add drop : Option Kind}
      (hr : r ≠ .locked true) (ht : s.control t = .idle)
      (hbalance : ∀ k, countAt (refers k) handles + (drop = some k : Bool).toNat =
        countAt (refers k) s.handles + (add = some k : Bool).toNat)
      (hsource : HasSource s add)
      (hread : ∀ u o h, (s.control u).source = some o → s.handles o = some h → handles o = some h) :
      StepSpec s r { s with
        shared := s.shared + (add = some .owner : Bool).toNat
        weak := s.weak + (add = some .observer : Bool).toNat
        handles := handles
        control := Function.update s.control t (.giveUp drop) }
  | look {r : StepResult} (hr : r ≠ .locked true) : StepSpec s r s
  | lockStart {t : T} {src : O} {p : Option P} (ht : s.control t = .idle)
      (hsrc : s.handles src = some ⟨.observer, p, true⟩) :
      StepSpec s .running (s.setControl t (.lockLoad src))
  | releaseShared {t : T} (ht : s.control t = .releaseShared) :
      StepSpec s .running { s.setControl t (if s.shared = 1 then .dispose else .idle) with
        shared := s.shared - 1 }
  | dispose {t : T} (ht : s.control t = .dispose) :
      StepSpec s .running { s.setControl t .disposing with disposeCalls := s.disposeCalls + 1 }
  | disposeReturns {t : T} (ht : s.control t = .disposing) :
      StepSpec s .running (s.setControl t .dropStake)
  | dropStake {t : T} (ht : s.control t = .dropStake) : StepSpec s .running (s.subWeak t)
  | releaseWeak {t : T} (ht : s.control t = .releaseWeak) : StepSpec s .running (s.subWeak t)
  | delete {t : T} (ht : s.control t = .delete) :
      StepSpec s .done { s.setControl t .idle with deletions := s.deletions + 1 }
  | lockRetry {t : T} {src : O} (ht : (s.control t).source = some src) (hs : s.shared ≠ 0) :
      StepSpec s .running (s.setControl t (.lockCas src s.shared))
  | lockFail {t : T} {src dst : O} (ht : (s.control t).source = some src) (hs : s.shared = 0)
      (hdst : s.handles dst = none) :
      StepSpec s (.locked false) ((s.setControl t .idle).setHandle dst (some (.empty .owner)))
  | lockClaim {t : T} {src dst : O} {p : Option P} (ht : s.control t = .lockCas src s.shared)
      (hdst : s.handles dst = none) :
      StepSpec s (.locked true) { (s.setControl t .idle).setHandle dst (some ⟨.owner, p, true⟩) with
        shared := s.shared + 1 }

section Steps
variable [DecidableEq T] [DecidableEq O] {s s' : System T O P} {t : T} {h old : Handle P}
variable {src dst : O} {r : StepResult}

omit [DecidableEq T] [DecidableEq O] in
theorem add_eq (s : System T O P) (h : Handle P) : s.add h.kind h.ctrl = { s with
    shared := s.shared + (h.claim = some .owner : Bool).toNat
    weak := s.weak + (h.claim = some .observer : Bool).toNat } := by
  obtain ⟨kind, ptr, ctrl⟩ := h
  cases kind <;> cases ctrl <;> rfl

omit [DecidableEq O] in
theorem release_eq (ht : s.control t = .idle) (h : Handle P) : s.release t h =
    { s with control := Function.update s.control t (.giveUp h.claim) } := by
  have hidle : Function.update s.control t .idle = s.control := by
    rw [← ht, Function.update_eq_self]
  obtain ⟨kind, ptr, ctrl⟩ := h
  cases ctrl with
  | false =>
    change s = { s with control := Function.update s.control t .idle }
    rw [hidle]
  | true => cases kind <;> rfl

omit [DecidableEq T] in
theorem ready_iff : s.ready t = true ↔ s.control t = .idle := by
  simp [System.ready]

omit [DecidableEq T] in
theorem unread_iff [Fintype T] : s.unread dst = true ↔ ∀ u, (s.control u).source ≠ some dst := by
  simp [System.unread]

variable [Fintype O]

omit [DecidableEq T] [DecidableEq O] [Fintype O] in
theorem Handle.ctrl_of_claim {k : Kind} (hk : h.claim = some k) : h.ctrl = true ∧ h.kind = k := by
  obtain ⟨kind, ptr, ctrl⟩ := h
  cases ctrl with
  | false => cases hk
  | true => exact ⟨rfl, Option.some.inj hk⟩

omit [DecidableEq T] [DecidableEq O] [Fintype O] in
theorem hasSource_self {o : O} (ho : s.handles o = some h) : HasSource s h.claim := by
  intro k hk
  obtain ⟨hctrl, hkind⟩ := Handle.ctrl_of_claim hk
  exact ⟨o, h, ho, hctrl, fun hown => hkind.trans hown⟩

omit [DecidableEq T] [DecidableEq O] [Fintype O] in
theorem hasSource_owner {o : O} {p q : Option P} {kind : Kind} {ctrl : Bool}
    (ho : s.handles o = some ⟨.owner, p, ctrl⟩) : HasSource s (Handle.mk kind q ctrl).claim := by
  intro k hk
  obtain ⟨hctrl, -⟩ := Handle.ctrl_of_claim hk
  exact ⟨o, _, ho, hctrl, fun _ => rfl⟩

omit [DecidableEq T] [DecidableEq O] [Fintype O] in
theorem hasSource_none {kind : Kind} {p : Option P} :
    HasSource s (Handle.mk kind p false).claim := nofun

/-- One handle changes, and the shares of its old and new value are accounted for. -/
theorem update_spec {new : Option (Handle P)} {add drop : Option Kind} (hr : r ≠ .locked true)
    (ht : s.control t = .idle) (hold : ∀ k, refers k (s.handles dst) = (drop = some k : Bool))
    (hnew : ∀ k, refers k new = (add = some k : Bool)) (hsrc : HasSource s add)
    (hread : ∀ u h, (s.control u).source = some dst → s.handles dst = some h → new = some h) :
    StepSpec s r { s with
      shared := s.shared + (add = some .owner : Bool).toNat
      weak := s.weak + (add = some .observer : Bool).toNat
      handles := Function.update s.handles dst new
      control := Function.update s.control t (.giveUp drop) } := by
  refine .operate hr ht (fun k => ?_) hsrc fun u o h hu ho => ?_
  · rw [← hold k, ← hnew k]
    exact countAt_update (refers k) s.handles dst new
  · by_cases hod : o = dst
    · subst hod
      rw [Function.update_self]
      exact hread u h hu ho
    · rw [Function.update_of_ne hod, ho]

omit [Fintype O] [DecidableEq O] in
theorem update_idle (ht : s.control t = .idle) : Function.update s.control t .idle = s.control := by
  rw [← ht, Function.update_eq_self]

theorem assign_spec (hr : r ≠ .locked true) (ht : s.control t = .idle)
    (hdst : s.handles dst = some old) (hread : ∀ u, (s.control u).source ≠ some dst)
    (hsrc : HasSource s h.claim) : StepSpec s r (s.assign t dst h old) := by
  have heq : s.assign t dst h old = { s with
      shared := s.shared + (h.claim = some .owner : Bool).toNat
      weak := s.weak + (h.claim = some .observer : Bool).toNat
      handles := Function.update s.handles dst (some h)
      control := Function.update s.control t (.giveUp old.claim) } := by
    rw [System.assign, add_eq, release_eq]
    · rfl
    · exact ht
  rw [heq]
  exact update_spec hr ht (fun k => by rw [hdst]; rfl) (fun _ => rfl) hsrc
    fun u _ hu => absurd hu (hread u)

theorem construct_spec (hr : r ≠ .locked true) (ht : s.control t = .idle)
    (hdst : s.handles dst = none) (hsrc : HasSource s h.claim) :
    StepSpec s r (s.construct dst h) := by
  have heq : s.construct dst h = { s with
      shared := s.shared + (h.claim = some .owner : Bool).toNat
      weak := s.weak + (h.claim = some .observer : Bool).toNat
      handles := Function.update s.handles dst (some h)
      control := Function.update s.control t (.giveUp none) } := by
    rw [System.construct, add_eq, Control.giveUp, update_idle ht]
    rfl
  rw [heq]
  refine update_spec hr ht (fun k => ?_) (fun _ => rfl) hsrc fun u h' _ hsome => ?_
  · rw [hdst]
    rfl
  · rw [hdst] at hsome
    cases hsome

theorem destroy_spec (hr : r ≠ .locked true) (ht : s.control t = .idle)
    (hdst : s.handles dst = some old) (hread : ∀ u, (s.control u).source ≠ some dst) :
    StepSpec s r ((s.setHandle dst none).release t old) := by
  have ht' : (s.setHandle dst none).control t = .idle := ht
  have hnew : ∀ k, refers k (none : Option (Handle P)) = (none = some k : Bool) := fun _ => rfl
  rw [release_eq ht']
  exact update_spec hr ht (fun k => by rw [hdst]; rfl) hnew nofun fun u _ hu => absurd hu (hread u)

/-- The value of one handle goes to another; `drop` is what is given up on the way. -/
theorem handOver_spec {a b : O} {g : Handle P} {x y : Option (Handle P)} {drop : Option Kind}
    (hr : r ≠ .locked true) (ht : s.control t = .idle) (ha : s.handles a = some g)
    (hreada : ∀ u, (s.control u).source ≠ some a)
    (hreadb : ∀ u h, (s.control u).source = some b → s.handles b ≠ some h)
    (hshares : ∀ k, (refers k (Function.update s.handles a x b)).toNat + (refers k (some g)).toNat =
      (drop = some k : Bool).toNat + (refers k x).toNat + (refers k y).toNat) :
    StepSpec s r { s with
      handles := Function.update (Function.update s.handles a x) b y
      control := Function.update s.control t (.giveUp drop) } := by
  have hnosource : HasSource s none := nofun
  refine .operate hr ht (fun k => ?_) hnosource fun u o h hu ho => ?_
  · have hfirst := countAt_update (refers k) s.handles a x
    have hsecond := countAt_update (refers k) (Function.update s.handles a x) b y
    have hk := hshares k
    rw [ha] at hfirst
    have hnone : ((none : Option Kind) = some k : Bool).toNat = 0 := rfl
    rw [hnone]
    omega
  · rw [Function.update_of_ne, Function.update_of_ne, ho]
    · rintro rfl
      exact hreada u hu
    · rintro rfl
      exact hreadb u h hu ho

/-- Two handles change hands and no share is given up. -/
theorem exchange_spec {a b : O} {g : Handle P} {x y : Option (Handle P)} (hr : r ≠ .locked true)
    (ht : s.control t = .idle) (ha : s.handles a = some g)
    (hreada : ∀ u, (s.control u).source ≠ some a)
    (hreadb : ∀ u h, (s.control u).source = some b → s.handles b ≠ some h)
    (hshares : ∀ k, (refers k (Function.update s.handles a x b)).toNat + (refers k (some g)).toNat =
      (refers k x).toNat + (refers k y).toNat) :
    StepSpec s r { s with handles := Function.update (Function.update s.handles a x) b y } := by
  have hspec : StepSpec s r { s with
      handles := Function.update (Function.update s.handles a x) b y
      control := Function.update s.control t (.giveUp none) } := by
    refine handOver_spec hr ht ha hreada hreadb fun k => ?_
    have hnone : ((none : Option Kind) = some k : Bool).toNat = 0 := rfl
    rw [hnone, Nat.zero_add]
    exact hshares k
  rw [Control.giveUp, update_idle ht] at hspec
  exact hspec

end Steps

section Inversion
variable [Fintype T] [Fintype O] [DecidableEq T] [DecidableEq O] {s s' : System T O P}
variable {r : StepResult}

omit [Fintype T] in
theorem proceed_spec {t : T} {dst : O} {spurious : Bool}
    (h : s.proceed t dst spurious = some (r, s')) : StepSpec s r s' := by
  unfold System.proceed at h
  split at h
  · cases h
  · rename_i ht
    cases h
    exact .releaseShared ht
  · rename_i ht
    cases h
    exact .dispose ht
  · rename_i ht
    cases h
    exact .disposeReturns ht
  · rename_i ht
    cases h
    exact .dropStake ht
  · rename_i ht
    cases h
    exact .releaseWeak ht
  · rename_i ht
    cases h
    exact .delete ht
  · rename_i src ht
    have hsource : (s.control t).source = some src := by rw [ht]; rfl
    split_ifs at h with hs hdst
    · cases h
      exact .lockRetry hsource hs
    · cases h
      exact .lockFail hsource (not_not.mp hs) (Option.isNone_iff_eq_none.mp hdst)
  · rename_i src cur ht
    have hsource : (s.control t).source = some src := by rw [ht]; rfl
    by_cases hdst : (s.handles dst).isNone = true
    · rw [if_pos hdst] at h
      rw [Option.isNone_iff_eq_none] at hdst
      split at h
      · rename_i shared hcas
        obtain ⟨rfl, rfl⟩ := compareExchangeWeak_eq_some hcas
        cases h
        exact .lockClaim ht hdst
      · split_ifs at h with hs
        · cases h
          exact .lockRetry hsource hs
        · cases h
          exact .lockFail hsource (not_not.mp hs) hdst
    · rw [if_neg hdst] at h
      cases h

theorem System.step_spec {a : Action T O P} (h : s.step a = some (r, s')) : StepSpec s r s' := by
  cases a with
  | makeEmpty t kind dst =>
    simp only [System.step] at h
    split_ifs at h with hg
    rw [Bool.and_eq_true, ready_iff, Option.isNone_iff_eq_none] at hg
    cases h
    exact construct_spec nofun hg.1 hg.2 hasSource_none
  | makeOther t dst p =>
    simp only [System.step] at h
    split_ifs at h with hg
    rw [Bool.and_eq_true, ready_iff, Option.isNone_iff_eq_none] at hg
    cases h
    exact construct_spec nofun hg.1 hg.2 hasSource_none
  | copy t dst src =>
    simp only [System.step] at h
    split at h
    · rename_i hsrc
      split_ifs at h with hg
      rw [Bool.and_eq_true, ready_iff, Option.isNone_iff_eq_none] at hg
      cases h
      exact construct_spec nofun hg.1 hg.2 (hasSource_self hsrc)
    · cases h
  | aliasTo t dst src p =>
    simp only [System.step] at h
    split at h
    · rename_i hsrc
      split_ifs at h with hg
      rw [Bool.and_eq_true, ready_iff, Option.isNone_iff_eq_none] at hg
      cases h
      exact construct_spec nofun hg.1 hg.2 (hasSource_owner hsrc)
    · cases h
  | observe t dst src =>
    simp only [System.step] at h
    split at h
    · rename_i hsrc
      split_ifs at h with hg
      rw [Bool.and_eq_true, ready_iff, Option.isNone_iff_eq_none] at hg
      cases h
      exact construct_spec nofun hg.1 hg.2 (hasSource_owner hsrc)
    · cases h
  | move t dst src =>
    simp only [System.step] at h
    split at h
    · rename_i g hsrc
      split_ifs at h with hg
      rw [Bool.and_eq_true, Bool.and_eq_true, ready_iff, Option.isNone_iff_eq_none, unread_iff] at hg
      obtain ⟨⟨ht, hdst⟩, hread⟩ := hg
      cases h
      have hds : dst ≠ src := by
        rintro rfl
        rw [hsrc] at hdst
        cases hdst
      refine exchange_spec nofun ht hsrc hread (fun u h _ => by rw [hdst]; exact nofun) fun k => ?_
      rw [Function.update_of_ne hds, hdst]
      simp [refers, Handle.empty, Handle.claim]
    · cases h
  | copyAssign t dst src =>
    simp only [System.step] at h
    split at h
    · rename_i old g hdst hsrc
      split_ifs at h with hg
      rw [Bool.and_eq_true, Bool.and_eq_true, ready_iff, unread_iff] at hg
      cases h
      exact assign_spec nofun hg.1.1 hdst hg.1.2 (hasSource_self hsrc)
    · cases h
  | moveAssign t dst src =>
    simp only [System.step] at h
    split at h
    · rename_i g hsrc
      split at h
      · rename_i old hdst
        split_ifs at h with hg
        simp only [Bool.and_eq_true, ready_iff, unread_iff] at hg
        obtain ⟨⟨⟨ht, hreadd⟩, hreads⟩, -⟩ := hg
        cases h
        have hold : Function.update s.handles src (some (.empty g.kind)) dst = some old := hdst
        rw [release_eq (show ((s.setHandle src (some (.empty g.kind))).setHandle dst (some g)).control t =
          .idle from ht)]
        refine handOver_spec nofun ht hsrc hreads (fun u _ hu => absurd hu (hreadd u)) fun k => ?_
        rw [hold]
        simp [refers, Handle.empty, Handle.claim]
      · cases h
    · cases h
  | observeAssign t dst src =>
    simp only [System.step] at h
    split at h
    · rename_i hdst hsrc
      split_ifs at h with hg
      rw [Bool.and_eq_true, ready_iff, unread_iff] at hg
      cases h
      exact assign_spec nofun hg.1 hdst hg.2 (hasSource_owner hsrc)
    · cases h
  | reset t dst =>
    simp only [System.step] at h
    split at h
    · rename_i old hdst
      split_ifs at h with hg
      rw [Bool.and_eq_true, ready_iff, unread_iff] at hg
      cases h
      exact assign_spec nofun hg.1 hdst hg.2 hasSource_none
    · cases h
  | resetTo t dst p =>
    simp only [System.step] at h
    split at h
    · rename_i hdst
      split_ifs at h with hg
      rw [Bool.and_eq_true, ready_iff, unread_iff] at hg
      cases h
      exact assign_spec nofun hg.1 hdst hg.2 hasSource_none
    · cases h
  | swap t a b =>
    simp only [System.step] at h
    split at h
    · rename_i g g' ha hb
      split_ifs at h with hg
      simp only [Bool.and_eq_true, ready_iff, unread_iff] at hg
      obtain ⟨⟨⟨ht, hreada⟩, hreadb⟩, -⟩ := hg
      cases h
      have hmid : Function.update s.handles a (some g') b = some g' := by
        by_cases hab : b = a
        · rw [hab, Function.update_self]
        · rw [Function.update_of_ne hab, hb]
      refine exchange_spec nofun ht ha hreada (fun u _ hu => absurd hu (hreadb u)) fun k => ?_
      rw [hmid]
    · cases h
  | destroy t dst =>
    simp only [System.step] at h
    split at h
    · rename_i old hdst
      split_ifs at h with hg
      rw [Bool.and_eq_true, ready_iff, unread_iff] at hg
      cases h
      exact destroy_spec nofun hg.1 hdst hg.2
    · cases h
  | useCount t src =>
    simp only [System.step] at h
    split at h
    · split_ifs at h
      · cases h
        exact .look nofun
      · cases h
        exact .look nofun
    · cases h
  | lock t src dst =>
    simp only [System.step] at h
    split at h
    · rename_i hsrc
      split_ifs at h with hg
      cases h
      exact .lockStart (ready_iff.mp hg) hsrc
    · split_ifs at h with hg
      rw [Bool.and_eq_true, ready_iff, Option.isNone_iff_eq_none] at hg
      cases h
      exact construct_spec nofun hg.1 hg.2 hasSource_none
    · cases h
  | proceed t dst spurious => exact proceed_spec h

end Inversion

end HftExercises.Shared
