import Mathlib.Data.Fintype.Option
import HftExercises.Memory.SharedPtr

/-! # The life of a control block

The counters are the shares that live handles and running destructors hold, with
one more for the owners as a group until the last of them has disposed of the
object. From this the block outlives everybody who touches it, the object dies
once, and no `lock` brings it back.
-/
namespace HftExercises.Shared
variable {T O P : Type*}

namespace Control

/-- A `SharedPtr` destructor before its decrement. -/
@[simp] def releasesShared : Control O → Bool
  | .releaseShared => true
  | _ => false

/-- A `WeakPtr` destructor before its decrement. -/
@[simp] def releasesWeak : Control O → Bool
  | .releaseWeak => true
  | _ => false

/-- The last owner, from its decrement to the end of the owners' stake. -/
@[simp] def holdsStake : Control O → Bool
  | .dispose | .disposing | .dropStake => true
  | _ => false

@[simp] def beforeDispose : Control O → Bool
  | .dispose => true
  | _ => false

@[simp] def beforeDelete : Control O → Bool
  | .delete => true
  | _ => false

/-- The next step of the call accesses a counter. -/
def accesses : Control O → Bool
  | .releaseShared | .dropStake | .releaseWeak | .lockLoad _ | .lockCas _ _ => true
  | _ => false

end Control

section Counts
variable [Fintype T] [Fintype O]

def liveOwners (s : System T O P) : ℕ := countAt (refers .owner) s.handles

def liveObservers (s : System T O P) : ℕ := countAt (refers .observer) s.handles

def releasingShared (s : System T O P) : ℕ := countAt Control.releasesShared s.control

def releasingWeak (s : System T O P) : ℕ := countAt Control.releasesWeak s.control

def holdingStake (s : System T O P) : ℕ := countAt Control.holdsStake s.control

def toDispose (s : System T O P) : ℕ := countAt Control.beforeDispose s.control

def toDelete (s : System T O P) : ℕ := countAt Control.beforeDelete s.control

/-- The two counters, and how far the object and the block have come. -/
structure BlockInv (s : System T O P) : Prop where
  shared : s.shared = liveOwners s + releasingShared s
  owned : (s.shared ≠ 0 ∧ holdingStake s = 0 ∧ s.disposeCalls = 0 ∧
      s.weak = liveObservers s + releasingWeak s + 1) ∨
    (s.shared = 0 ∧ holdingStake s ≤ 1 ∧ s.disposeCalls + toDispose s = 1 ∧
      s.weak = liveObservers s + releasingWeak s + holdingStake s)
  block : (s.weak ≠ 0 ∧ s.deletions = 0 ∧ toDelete s = 0) ∨
    (s.weak = 0 ∧ s.deletions + toDelete s = 1)
  reads : ∀ t src, (s.control t).source = some src → ∃ p, s.handles src = some ⟨.observer, p, true⟩
  claims : ∀ t src cur, s.control t = .lockCas src cur → cur ≠ 0

end Counts

section Invariant
variable [Fintype T] [Fintype O] [DecidableEq T] [DecidableEq O] {s s' : System T O P}

omit [DecidableEq T] in
theorem blockInv_init (first : O) (p : P) : BlockInv (System.init first p : System T O P) := by
  have hhandles : ∀ k, countAt (refers k) (System.init first p : System T O P).handles =
      (k = .owner : Bool).toNat := by
    intro k
    have hcount := countAt_update (refers k) (fun _ : O => (none : Option (Handle P))) first
      (some ⟨.owner, some p, true⟩)
    have hzero : countAt (refers k) (fun _ : O => (none : Option (Handle P))) = 0 := countAt_const rfl
    rw [hzero] at hcount
    refine hcount.trans ?_
    cases k <;> rfl
  have hcontrol : ∀ q : Control O → Bool, q .idle = false →
      countAt q (System.init first p : System T O P).control = 0 := fun q hq => countAt_const hq
  refine ⟨?_, Or.inl ⟨nofun, hcontrol _ rfl, rfl, ?_⟩, Or.inl ⟨nofun, rfl, hcontrol _ rfl⟩, nofun, nofun⟩
  · rw [liveOwners, releasingShared, hhandles, hcontrol _ rfl]
    rfl
  · rw [liveObservers, releasingWeak, hhandles, hcontrol _ rfl]
    rfl

omit [DecidableEq T] [DecidableEq O] in
theorem BlockInv.weak_pos_of_owner (hs : BlockInv s) {o : O} (ho : refers .owner (s.handles o) = true) :
    s.shared ≠ 0 ∧ s.weak ≠ 0 := by
  have hpos : liveOwners s ≠ 0 := countAt_ne_zero ho
  have hshared := hs.shared
  have howned := hs.owned
  omega

omit [DecidableEq T] [DecidableEq O] in
theorem BlockInv.weak_pos_of_observer (hs : BlockInv s) {o : O}
    (ho : refers .observer (s.handles o) = true) : s.weak ≠ 0 := by
  have hpos : liveObservers s ≠ 0 := countAt_ne_zero ho
  have howned := hs.owned
  omega

omit [DecidableEq T] [DecidableEq O] in
theorem BlockInv.weak_pos_of_ctrl (hs : BlockInv s) {o : O} {h : Handle P}
    (ho : s.handles o = some h) (hctrl : h.ctrl = true) : s.weak ≠ 0 := by
  cases hk : h.kind with
  | owner =>
    refine (hs.weak_pos_of_owner (o := o) ?_).2
    simp [ho, refers, Handle.claim, hctrl, hk]
  | observer =>
    refine hs.weak_pos_of_observer (o := o) ?_
    simp [ho, refers, Handle.claim, hctrl, hk]

omit [Fintype O] [DecidableEq O] in
/-- One thread moves from one place to another. -/
theorem counts_update (control : T → Control O) (t : T) (c : Control O) :
    countAt Control.releasesShared (Function.update control t c) +
        (control t).releasesShared.toNat =
      countAt Control.releasesShared control + c.releasesShared.toNat ∧
    countAt Control.releasesWeak (Function.update control t c) + (control t).releasesWeak.toNat =
      countAt Control.releasesWeak control + c.releasesWeak.toNat ∧
    countAt Control.holdsStake (Function.update control t c) + (control t).holdsStake.toNat =
      countAt Control.holdsStake control + c.holdsStake.toNat ∧
    countAt Control.beforeDispose (Function.update control t c) + (control t).beforeDispose.toNat =
      countAt Control.beforeDispose control + c.beforeDispose.toNat ∧
    countAt Control.beforeDelete (Function.update control t c) + (control t).beforeDelete.toNat =
      countAt Control.beforeDelete control + c.beforeDelete.toNat :=
  ⟨countAt_update _ _ _ _, countAt_update _ _ _ _, countAt_update _ _ _ _, countAt_update _ _ _ _,
    countAt_update _ _ _ _⟩

omit [DecidableEq O] in
/-- A thread that moves to a place where it reads no handle keeps what the others read. -/
theorem BlockInv.reads_update (hs : BlockInv s) {handles : O → Option (Handle P)} {t : T}
    {c : Control O} (hc : c.source = none)
    (hkeep : ∀ u o h, (s.control u).source = some o → s.handles o = some h → handles o = some h)
    (u : T) (src : O) (hu : (Function.update s.control t c u).source = some src) :
    ∃ p, handles src = some ⟨.observer, p, true⟩ := by
  rcases update_cases (fun c : Control O => c.source = some src) hu with ⟨-, hcsrc⟩ | ⟨-, husrc⟩
  · rw [hc] at hcsrc
    cases hcsrc
  · obtain ⟨p, hp⟩ := hs.reads u src husrc
    exact ⟨p, hkeep u src _ husrc hp⟩

omit [DecidableEq O] in
theorem BlockInv.claims_update (hs : BlockInv s) {t : T} {c : Control O} (hc : c.source = none)
    (u : T) (src : O) (cur : ℕ) (hu : Function.update s.control t c u = .lockCas src cur) :
    cur ≠ 0 := by
  rcases update_cases (fun c : Control O => c = .lockCas src cur) hu with ⟨-, rfl⟩ | ⟨-, husrc⟩
  · cases hc
  · exact hs.claims u src cur husrc

omit [Fintype T] [Fintype O] [DecidableEq T] [DecidableEq O] in
/-- A destructor that gives up a share is counted for it and nothing else. -/
theorem giveUp_counts (k : Option Kind) :
    (Control.giveUp k : Control O).releasesShared = (k = some .owner : Bool) ∧
    (Control.giveUp k : Control O).releasesWeak = (k = some .observer : Bool) ∧
    (Control.giveUp k : Control O).holdsStake = false ∧
    (Control.giveUp k : Control O).beforeDispose = false ∧
    (Control.giveUp k : Control O).beforeDelete = false ∧
    (Control.giveUp k : Control O).source = none := by
  rcases k with _ | _ | _ <;> exact ⟨rfl, rfl, rfl, rfl, rfl, rfl⟩

omit [DecidableEq T] [DecidableEq O] in
/-- A share is added only while the counter it goes to is not zero. -/
theorem BlockInv.not_zero_of_source (hs : BlockInv s) {add : Option Kind} (hsource : HasSource s add) :
    (add = some .owner → s.shared ≠ 0) ∧ (add = some .observer → s.weak ≠ 0) := by
  constructor
  · intro hadd
    obtain ⟨o, h, ho, hctrl, hkind⟩ := hsource _ hadd
    refine (hs.weak_pos_of_owner (o := o) ?_).1
    simp [ho, refers, Handle.claim, hctrl, hkind rfl]
  · intro hadd
    obtain ⟨o, h, ho, hctrl, -⟩ := hsource _ hadd
    exact hs.weak_pos_of_ctrl ho hctrl

theorem toNat_decide_le {p : Prop} [Decidable p] {n : ℕ} (h : p → n ≠ 0) :
    (decide p).toNat ≤ n := by
  by_cases hp : p
  · have := h hp
    simp only [hp, decide_true, Bool.toNat_true]
    omega
  · simp [hp]

omit [DecidableEq O] in
theorem BlockInv.operate (hs : BlockInv s) {t : T} {handles : O → Option (Handle P)}
    {add drop : Option Kind} (ht : s.control t = .idle)
    (hbalance : ∀ k, countAt (refers k) handles + (drop = some k : Bool).toNat =
      countAt (refers k) s.handles + (add = some k : Bool).toNat)
    (hsource : HasSource s add)
    (hread : ∀ u o h, (s.control u).source = some o → s.handles o = some h → handles o = some h) :
    BlockInv { s with
      shared := s.shared + (add = some .owner : Bool).toNat
      weak := s.weak + (add = some .observer : Bool).toNat
      handles := handles
      control := Function.update s.control t (.giveUp drop) } := by
  obtain ⟨g1, g2, g3, g4, g5, gsource⟩ := giveUp_counts (O := O) drop
  obtain ⟨h1, h2, h3, h4, h5⟩ := counts_update s.control t (.giveUp drop)
  obtain ⟨hshared', hweak'⟩ := hs.not_zero_of_source hsource
  rw [ht, g1] at h1
  rw [ht, g2] at h2
  rw [ht, g3] at h3
  rw [ht, g4] at h4
  rw [ht, g5] at h5
  have hle := toNat_decide_le hshared'
  have hle' := toNat_decide_le hweak'
  have hown := hbalance .owner
  have hobs := hbalance .observer
  have hreads := hs.reads_update gsource hread (t := t)
  have hclaims := hs.claims_update gsource (t := t)
  obtain ⟨hshared, howned, hblock, -, -⟩ := hs
  simp only [Control.releasesShared, Control.releasesWeak, Control.holdsStake, Control.beforeDispose,
    Control.beforeDelete, Bool.toNat_false] at h1 h2 h3 h4 h5
  simp only [liveOwners, liveObservers, releasingShared, releasingWeak, holdingStake, toDispose,
    toDelete] at hshared howned hblock
  refine ⟨?_, ?_, ?_, hreads, hclaims⟩
  · clear howned hblock
    simp only [liveOwners, releasingShared]
    omega
  · clear hblock
    simp only [liveObservers, releasingWeak, holdingStake, toDispose]
    rcases howned with howned | howned
    · left
      omega
    · right
      omega
  · clear howned
    simp only [toDelete]
    rcases hblock with hblock | hblock
    · left
      omega
    · right
      omega

omit [DecidableEq O] in
/-- A thread moves on while the handles stay; the counters and the ghosts may change. -/
theorem BlockInv.move (hs : BlockInv s) {t : T} {c₀ c : Control O} {shared weak calls deletions : ℕ}
    (ht : s.control t = c₀) (hc : c.source = none)
    (hshared : shared + c₀.releasesShared.toNat = s.shared + c.releasesShared.toNat)
    (howned : ∀ releasing holding disposing : ℕ,
      releasing + c₀.releasesWeak.toNat = releasingWeak s + c.releasesWeak.toNat →
      holding + c₀.holdsStake.toNat = holdingStake s + c.holdsStake.toNat →
      disposing + c₀.beforeDispose.toNat = toDispose s + c.beforeDispose.toNat →
      (shared ≠ 0 ∧ holding = 0 ∧ calls = 0 ∧ weak = liveObservers s + releasing + 1) ∨
      (shared = 0 ∧ holding ≤ 1 ∧ calls + disposing = 1 ∧
        weak = liveObservers s + releasing + holding))
    (hblock : ∀ deleting : ℕ,
      deleting + c₀.beforeDelete.toNat = toDelete s + c.beforeDelete.toNat →
      (weak ≠ 0 ∧ deletions = 0 ∧ deleting = 0) ∨ (weak = 0 ∧ deletions + deleting = 1)) :
    BlockInv { s.setControl t c with
      shared := shared, weak := weak, disposeCalls := calls, deletions := deletions } := by
  subst ht
  obtain ⟨h1, h2, h3, h4, h5⟩ := counts_update s.control t c
  refine ⟨?_, howned _ _ _ h2 h3 h4, hblock _ h5, hs.reads_update hc fun _ _ _ _ ho => ho,
    hs.claims_update hc⟩
  have hold := hs.shared
  simp only [liveOwners, releasingShared, System.setControl] at hold ⊢
  omega

omit [DecidableEq T] [DecidableEq O] [Fintype O] in
theorem toDispose_le (s : System T O P) : toDispose s ≤ holdingStake s := by
  refine countAt_mono fun c hc => ?_
  cases c <;> first | rfl | cases hc

omit [DecidableEq O] in
/-- A decrement of `weak_` by a thread that is counted in it. -/
theorem BlockInv.subWeak (hs : BlockInv s) {t : T}
    (ht : s.control t = .dropStake ∨ s.control t = .releaseWeak) : BlockInv (s.subWeak t) := by
  have howned := hs.owned
  have hblock := hs.block
  have hpos : holdingStake s ≠ 0 ∨ releasingWeak s ≠ 0 := by
    rcases ht with ht | ht
    · exact Or.inl (countAt_ne_zero (by rw [ht]; rfl))
    · exact Or.inr (countAt_ne_zero (by rw [ht]; rfl))
  have hweak : s.weak ≠ 0 := by
    clear hblock
    omega
  have hkept : s.deletions = 0 ∧ toDelete s = 0 := by
    clear howned hpos
    omega
  clear hblock
  by_cases hone : s.weak = 1
  · rw [System.subWeak, if_pos hone]
    rcases ht with ht | ht
    · refine hs.move ht rfl ?_ ?_ ?_ <;> simp [System.setControl] <;> omega
    · refine hs.move ht rfl ?_ ?_ ?_ <;> simp [System.setControl] <;> omega
  · rw [System.subWeak, if_neg hone]
    rcases ht with ht | ht
    · refine hs.move ht rfl ?_ ?_ ?_ <;> simp [System.setControl] <;> omega
    · refine hs.move ht rfl ?_ ?_ ?_ <;> simp [System.setControl] <;> omega

/-- A thread that is in no count: it is in no call, or in `lock`. -/
def Control.uncounted : Control O → Bool
  | .idle | .lockLoad _ | .lockCas _ _ => true
  | _ => false

omit [Fintype T] [Fintype O] [DecidableEq T] [DecidableEq O] in
theorem uncounted_of_source {c : Control O} {src : O} (h : c.source = some src) :
    c.uncounted = true := by
  cases c <;> first | rfl | cases h

omit [Fintype O] [DecidableEq O] in
theorem counts_update_uncounted {control : T → Control O} {t : T} {c : Control O}
    (ht : (control t).uncounted = true) (hc : c.uncounted = true) (q : Control O → Bool)
    (hq : ∀ c : Control O, c.uncounted = true → q c = false) :
    countAt q (Function.update control t c) = countAt q control :=
  countAt_update_same (by rw [hq c hc, hq _ ht])

omit [DecidableEq O] in
/-- A thread moves between places outside the counts; one handle may be new, with a claim that
the counter has. -/
theorem BlockInv.lockMove (hs : BlockInv s) {t : T} {c : Control O} {claimed : ℕ}
    {handles : O → Option (Handle P)} (ht : (s.control t).uncounted = true)
    (hc : c.uncounted = true)
    (hown : countAt (refers .owner) handles = countAt (refers .owner) s.handles + claimed)
    (hobs : countAt (refers .observer) handles = countAt (refers .observer) s.handles)
    (hclaimed : claimed = 0 ∨ s.shared ≠ 0)
    (hreads : ∀ u src, (Function.update s.control t c u).source = some src →
      ∃ p, handles src = some ⟨.observer, p, true⟩)
    (hclaims : ∀ u src cur, Function.update s.control t c u = .lockCas src cur → cur ≠ 0) :
    BlockInv { s.setControl t c with shared := s.shared + claimed, handles := handles } := by
  have hsame := counts_update_uncounted ht hc
  have h1 := hsame Control.releasesShared fun c hc => by cases c <;> first | rfl | cases hc
  have h2 := hsame Control.releasesWeak fun c hc => by cases c <;> first | rfl | cases hc
  have h3 := hsame Control.holdsStake fun c hc => by cases c <;> first | rfl | cases hc
  have h4 := hsame Control.beforeDispose fun c hc => by cases c <;> first | rfl | cases hc
  have h5 := hsame Control.beforeDelete fun c hc => by cases c <;> first | rfl | cases hc
  obtain ⟨hshared, howned, hblock, -, -⟩ := hs
  simp only [liveOwners, liveObservers, releasingShared, releasingWeak, holdingStake, toDispose,
    toDelete] at hshared howned hblock
  refine ⟨?_, ?_, ?_, hreads, hclaims⟩
  · clear howned hblock
    simp only [liveOwners, releasingShared, System.setControl]
    omega
  · clear hblock
    simp only [liveObservers, releasingWeak, holdingStake, toDispose, System.setControl]
    rcases howned with howned | howned
    · left
      omega
    · right
      omega
  · clear howned
    simp only [toDelete, System.setControl]
    omega

omit [Fintype T] [Fintype O] [DecidableEq T] in
/-- A new handle leaves the handles that are read. -/
theorem keeps_fresh {dst : O} {new : Handle P} (hdst : s.handles dst = none) (u : T) (o : O)
    (h : Handle P) (_hu : (s.control u).source = some o) (ho : s.handles o = some h) :
    Function.update s.handles dst (some new) o = some h := by
  rw [Function.update_of_ne, ho]
  rintro rfl
  rw [hdst] at ho
  cases ho

theorem StepSpec.blockInv {r : StepResult} (hs : BlockInv s) (h : StepSpec s r s') : BlockInv s' := by
  have hshared := hs.shared
  have howned := hs.owned
  have hblock := hs.block
  have hdispose := toDispose_le s
  cases h with
  | operate hr ht hbalance hsource hread => exact hs.operate ht hbalance hsource hread
  | look hr => exact hs
  | releaseShared ht =>
    have hpos : releasingShared s ≠ 0 := countAt_ne_zero (by rw [ht]; rfl)
    by_cases hone : s.shared = 1
    · rw [if_pos hone]
      refine hs.move ht rfl ?_ ?_ ?_ <;> simp [System.setControl] <;> omega
    · rw [if_neg hone]
      refine hs.move ht rfl ?_ ?_ ?_ <;> simp [System.setControl] <;> omega
  | dispose ht =>
    have hpos : toDispose s ≠ 0 := countAt_ne_zero (by rw [ht]; rfl)
    refine hs.move ht rfl ?_ ?_ ?_ <;> simp [System.setControl] <;> omega
  | disposeReturns ht =>
    have hpos : holdingStake s ≠ 0 := countAt_ne_zero (by rw [ht]; rfl)
    refine hs.move ht rfl ?_ ?_ ?_ <;> simp <;> omega
  | dropStake ht => exact hs.subWeak (Or.inl ht)
  | releaseWeak ht => exact hs.subWeak (Or.inr ht)
  | delete ht =>
    have hpos : toDelete s ≠ 0 := countAt_ne_zero (by rw [ht]; rfl)
    refine hs.move ht rfl ?_ ?_ ?_ <;> simp [System.setControl] <;> omega
  | @lockStart t src p ht hsrc =>
    refine hs.lockMove (by rw [ht]; rfl) rfl rfl rfl (Or.inl rfl) (fun u o hu => ?_) fun u o cur hu => ?_
    · rcases update_cases (fun c : Control O => c.source = some o) hu with ⟨-, hc⟩ | ⟨-, hu⟩
      · cases hc
        exact ⟨p, hsrc⟩
      · exact hs.reads u o hu
    · rcases update_cases (fun c : Control O => c = .lockCas o cur) hu with ⟨-, hc⟩ | ⟨-, hu⟩
      · cases hc
      · exact hs.claims u o cur hu
  | @lockRetry t src ht hnz =>
    refine hs.lockMove (uncounted_of_source ht) rfl rfl rfl (Or.inl rfl) (fun u o hu => ?_)
      fun u o cur hu => ?_
    · rcases update_cases (fun c : Control O => c.source = some o) hu with ⟨-, hc⟩ | ⟨-, hu⟩
      · cases hc
        exact hs.reads t src ht
      · exact hs.reads u o hu
    · rcases update_cases (fun c : Control O => c = .lockCas o cur) hu with ⟨-, hc⟩ | ⟨-, hu⟩
      · cases hc
        exact hnz
      · exact hs.claims u o cur hu
  | @lockFail t src dst ht hzero hdst =>
    have ho := countAt_update (refers .owner) s.handles dst (some (.empty .owner))
    have hw := countAt_update (refers .observer) s.handles dst (some (.empty .owner))
    rw [hdst] at ho hw
    exact hs.lockMove (uncounted_of_source ht) rfl ho hw (Or.inl rfl)
      (hs.reads_update rfl (keeps_fresh hdst)) (hs.claims_update rfl)
  | @lockClaim t src dst p ht hdst =>
    have ho := countAt_update (refers .owner) s.handles dst (some ⟨.owner, p, true⟩)
    have hw := countAt_update (refers .observer) s.handles dst (some ⟨.owner, p, true⟩)
    rw [hdst] at ho hw
    exact hs.lockMove (by rw [ht]; rfl) rfl ho hw (Or.inr (hs.claims t src _ ht))
      (hs.reads_update rfl (keeps_fresh hdst)) (hs.claims_update rfl)

end Invariant

/-- The step accesses a counter of the block. -/
def System.accesses (s : System T O P) : Action T O P → Bool
  | .copy _ _ src | .aliasTo _ _ src _ | .observe _ _ src | .copyAssign _ _ src
  | .observeAssign _ _ src | .useCount _ src => (s.handles src).any Handle.ctrl
  | .proceed t _ _ => (s.control t).accesses
  | _ => false

/-- The owners, or the last of them on its way out, still have their stake in the block. -/
def stakeHeld [Fintype T] (s : System T O P) : Bool := s.shared ≠ 0 ∨ holdingStake s ≠ 0

section Runs
variable [Fintype T] [Fintype O] [DecidableEq T] [DecidableEq O] {s s' : System T O P}

omit [DecidableEq T] [DecidableEq O] in
/-- Whoever accesses a counter holds a share of the block. -/
theorem BlockInv.weak_pos_of_accesses (hs : BlockInv s) {a : Action T O P}
    (ha : s.accesses a = true) : s.weak ≠ 0 := by
  have hsource : ∀ src, (s.handles src).any Handle.ctrl = true → s.weak ≠ 0 := by
    intro src hsrc
    rw [Option.any_eq_true] at hsrc
    obtain ⟨h, ho, hctrl⟩ := hsrc
    exact hs.weak_pos_of_ctrl ho hctrl
  have hshared := hs.shared
  have howned := hs.owned
  cases a with
  | copy t dst src => exact hsource src ha
  | aliasTo t dst src p => exact hsource src ha
  | observe t dst src => exact hsource src ha
  | copyAssign t dst src => exact hsource src ha
  | observeAssign t dst src => exact hsource src ha
  | useCount t src => exact hsource src ha
  | proceed t dst spurious =>
    simp only [System.accesses] at ha
    cases hc : s.control t with
    | releaseShared =>
      have hpos : releasingShared s ≠ 0 := countAt_ne_zero (by rw [hc]; rfl)
      omega
    | dropStake =>
      have hpos : holdingStake s ≠ 0 := countAt_ne_zero (by rw [hc]; rfl)
      omega
    | releaseWeak =>
      have hpos : releasingWeak s ≠ 0 := countAt_ne_zero (by rw [hc]; rfl)
      omega
    | lockLoad src =>
      obtain ⟨p, hp⟩ := hs.reads t src (by rw [hc]; rfl)
      exact hs.weak_pos_of_ctrl hp rfl
    | lockCas src cur =>
      obtain ⟨p, hp⟩ := hs.reads t src (by rw [hc]; rfl)
      exact hs.weak_pos_of_ctrl hp rfl
    | idle | dispose | disposing | delete =>
      rw [hc] at ha
      cases ha
  | _ => cases ha

omit [DecidableEq T] [DecidableEq O] in
/-- Nobody is in a call: what is gone is gone, and what is held is there. -/
theorem BlockInv.quiet (hs : BlockInv s) (hidle : ∀ t, s.control t = .idle) :
    (s.disposeCalls = 1 ↔ liveOwners s = 0) ∧
    (s.deletions = 1 ↔ liveOwners s = 0 ∧ liveObservers s = 0) := by
  have hzero : ∀ q : Control O → Bool, q .idle = false → countAt q s.control = 0 := fun q hq =>
    countAt_eq_zero.mpr fun t => by rw [hidle t, hq]
  have h1 : releasingShared s = 0 := hzero _ rfl
  have h2 : releasingWeak s = 0 := hzero _ rfl
  have h3 : holdingStake s = 0 := hzero _ rfl
  have h4 : toDispose s = 0 := hzero _ rfl
  have h5 : toDelete s = 0 := hzero _ rfl
  have hshared := hs.shared
  have howned := hs.owned
  have hblock := hs.block
  constructor <;> omega

omit [Fintype O] in
/-- A call in progress can go on. -/
theorem proceed_isSome {t : T} {dst : O} {spurious : Bool} (ht : s.control t ≠ .idle)
    (hdst : s.handles dst = none) : (s.step (.proceed t dst spurious)).isSome = true := by
  simp only [System.step, System.proceed]
  cases hc : s.control t with
  | idle => exact absurd hc ht
  | lockLoad src =>
    simp only [hdst, Option.isNone_none, if_true]
    split_ifs <;> rfl
  | lockCas src cur =>
    simp only [hdst, Option.isNone_none, if_true]
    split
    · rfl
    · split_ifs <;> rfl
  | _ => rfl

theorem step_locked {a : Action T O P} (hs : BlockInv s) (h : s.step a = some (.locked true, s')) :
    s.disposeCalls = 0 := by
  have howned := hs.owned
  cases System.step_spec h with
  | operate hr => exact absurd rfl hr
  | look hr => exact absurd rfl hr
  | lockClaim ht hdst =>
    have hnz := hs.claims _ _ _ ht
    omega

theorem exec_blockInv {first : O} {p : P} {actions : List (Action T O P)}
    {es : List (Event (System T O P) (Action T O P) StepResult)}
    (h : exec System.step (System.init first p) actions = some (es, s)) : BlockInv s :=
  exec_invariant (fun _ s => BlockInv s)
    (fun _ _ _ _ _ hs hstep => (System.step_spec hstep).blockInv hs) (blockInv_init first p) h

/-- In every run the counters are the shares that are held; the object is disposed of once,
after its last owner; the block is deleted once, after that and after everybody who refers to
it; nobody accesses a counter after the deletion, and `lock` never brings the object back. -/
theorem controlBlock_life {first : O} {p : P} {actions : List (Action T O P)}
    {es : List (Event (System T O P) (Action T O P) StepResult)}
    (h : exec System.step (System.init first p) actions = some (es, s)) :
    s.shared = liveOwners s + releasingShared s ∧
    s.weak = liveObservers s + releasingWeak s + (stakeHeld s).toNat ∧
    (s.disposeCalls ≤ 1 ∧ (s.disposeCalls = 1 → liveOwners s = 0 ∧ releasingShared s = 0)) ∧
    (s.deletions ≤ 1 ∧ (s.deletions = 1 → s.disposeCalls = 1 ∧ stakeHeld s = false ∧
      releasingWeak s = 0 ∧ ∀ o h, s.handles o = some h → h.ctrl = false)) ∧
    ((∀ t, s.control t = .idle) → (s.disposeCalls = 1 ↔ liveOwners s = 0) ∧
      (s.deletions = 1 ↔ liveOwners s = 0 ∧ liveObservers s = 0)) ∧
    (∀ t dst spurious, s.control t ≠ .idle → s.handles dst = none →
      (s.step (.proceed t dst spurious)).isSome = true) ∧
    (∀ e ∈ es, e.before.accesses e.call = true → e.before.deletions = 0) ∧
    ∀ e ∈ es, e.result = .locked true → e.before.disposeCalls = 0 := by
  have hs := exec_blockInv h
  have hshared := hs.shared
  have howned := hs.owned
  have hblock := hs.block
  have hdispose := toDispose_le s
  have hbefore : ∀ e ∈ es, BlockInv e.before ∧ ∃ u, e.before.step e.call = some (e.result, u) := by
    intro e he
    obtain ⟨is, l, u, his, -, hstep⟩ := exec_mem h he
    exact ⟨exec_blockInv his, u, hstep⟩
  have hstake : (stakeHeld s).toNat = if s.shared ≠ 0 ∨ holdingStake s ≠ 0 then 1 else 0 := by
    unfold stakeHeld
    split_ifs with hc <;> simp [hc]
  refine ⟨hshared, ?_, ⟨by omega, by omega⟩, ⟨by omega, fun hdel => ?_⟩, hs.quiet,
    fun t dst spurious => proceed_isSome, fun e he ha => ?_, fun e he hr => ?_⟩
  · rw [hstake]
    split_ifs <;> omega
  · refine ⟨by omega, ?_, by omega, fun o h ho => ?_⟩
    · rw [stakeHeld, decide_eq_false_iff_not]
      omega
    · by_contra hctrl
      have := hs.weak_pos_of_ctrl ho (Bool.not_eq_false _ ▸ hctrl)
      omega
  · have hpos := (hbefore e he).1.weak_pos_of_accesses ha
    have := (hbefore e he).1.block
    omega
  · obtain ⟨hinv, u, hstep⟩ := hbefore e he
    rw [hr] at hstep
    exact step_locked hinv hstep

/-- An observer locks while the first owner goes: the object outlives the first owner, is
disposed of with the second, and the block goes with the observer. -/
theorem controlBlock_life_with_lock :
    ∃ es s, exec System.step (System.init none () : System Bool (Option Bool) Unit)
        [.observe true (some true) none, .lock false (some true) (some false),
          .proceed false (some false) false, .proceed false (some false) false, .destroy true none,
          .proceed true none false, .destroy true (some false), .proceed true none false,
          .proceed true none false, .proceed true none false, .proceed true none false,
          .destroy false (some true), .proceed false none false, .proceed false none false] =
          some (es, s) ∧
      s.disposeCalls = 1 ∧ s.deletions = 1 ∧ s.shared = 0 ∧ s.weak = 0 ∧ liveOwners s = 0 := by
  have hrun : exec System.step (System.init none () : System Bool (Option Bool) Unit)
      [.observe true (some true) none, .lock false (some true) (some false),
        .proceed false (some false) false, .proceed false (some false) false, .destroy true none,
        .proceed true none false, .destroy true (some false), .proceed true none false,
        .proceed true none false, .proceed true none false, .proceed true none false,
        .destroy false (some true), .proceed false none false, .proceed false none false] =
        some (_, _) := rfl
  exact ⟨_, _, hrun, rfl, rfl, rfl, rfl, ((controlBlock_life hrun).2.2.1.2 rfl).1⟩

end Runs

end HftExercises.Shared
