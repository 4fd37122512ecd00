import HftExercises.Core.GuardRegistry
import HftExercises.Memory.ArenaGcHeap

/-! # Runs of allocations, guards, collections and resets

The arena with the `ArenaRoot` guards, driven by any sequence of calls. A guard takes
its entry out of `roots_` by the index. The entry may be gone by then, dropped by a
`reset()` or by a collection that found its index past the end, and the index may be
in use again: the guard then takes out the entry of another one.
-/
namespace HftExercises.ArenaGc

/-- A handle that is not null, with the object that it was issued for. -/
structure ArenaPtr where
  slot : ℕ
  object : ℕ
  deriving DecidableEq, Repr

/-- A guard that is not empty. It is registered as long as no collection and no `reset()` has
dropped the entry made for it; the code keeps no such flag. -/
structure ArenaRoot where
  ptr : ArenaPtr
  registered : Bool
  deriving DecidableEq, Repr

def ArenaRoot.slot (g : ArenaRoot) : ℕ := g.ptr.slot

/-- The objects are numbered in the order of their allocation; `handles` are the handles issued
so far. -/
structure System where
  heap : ArenaGcHeap
  guards : List (Option ArenaRoot)
  handles : List ArenaPtr

inductive Action where
  | allocate
  | root (h : Option ArenaPtr)
  /-- `ArenaRoot(ArenaRoot&&)` -/
  | moveGuard (src : ℕ)
  | assignGuard (dst src : ℕ)
  /-- `~ArenaRoot()` -/
  | destroyGuard (i : ℕ)
  | collect (trace : ℕ → List ℕ)
  | reset

inductive Result where
  | done
  | handle (h : Option ArenaPtr)
  | freed (n : ℕ)
  deriving DecidableEq, Repr

/-- The guard that an action releases. -/
def Action.released : Action → Option ℕ
  | .assignGuard dst src => if dst = src then none else some dst
  | .destroyGuard i => some i
  | _ => none

namespace System

def init (capacity : UInt64) : System where
  heap := .init capacity
  guards := []
  handles := []

/-- The entries of `roots_` and the guards that `release()` them. -/
def registry (s : System) : Guards.Registry ℕ ArenaRoot where
  roots := s.heap.roots
  guards := s.guards

def setRegistry (s : System) (r : Guards.Registry ℕ ArenaRoot) : System :=
  { s with heap := { s.heap with roots := r.roots }, guards := r.guards }

/-- The entries of the indices that do not satisfy `keep` have been dropped. -/
def drop (guards : List (Option ArenaRoot)) (keep : ℕ → Bool) : List (Option ArenaRoot) :=
  guards.map (Option.map fun g => { g with registered := g.registered && keep g.slot })

/-- `none` is a call that the program cannot make: there is no such guard, or the handle has
not been issued. A guard of a null handle does nothing, like one that was moved from; its entry
is `kNull`. -/
def step (s : System) : Action → Option (Result × System)
  | .allocate =>
    match s.heap.allocate s.handles.length with
    | none => some (.handle none, s)
    | some (i, heap) =>
      let h : ArenaPtr := ⟨i, s.handles.length⟩
      some (.handle (some h), { s with heap := heap, handles := s.handles ++ [h] })
  | .root none => some (.done, s.setRegistry (s.registry.enter [kNull] none))
  | .root (some h) =>
    if h ∈ s.handles then
      some (.done, s.setRegistry (s.registry.enter [h.slot] (some ⟨h, true⟩)))
    else none
  | .moveGuard src =>
    if src < s.guards.length then some (.done, s.setRegistry (s.registry.move src)) else none
  | .assignGuard dst src =>
    if dst < s.guards.length ∧ src < s.guards.length then
      some (.done, s.setRegistry (s.registry.assign ArenaRoot.slot dst src))
    else none
  | .destroyGuard i =>
    if i < s.guards.length then some (.done, s.setRegistry (s.registry.release ArenaRoot.slot i))
    else none
  | .collect trace =>
    (s.heap.collect trace).map fun r =>
      (.freed r.2, { s with heap := r.1, guards := drop s.guards (· < r.1.slots.length) })
  | .reset => some (.done, { s with heap := s.heap.reset, guards := drop s.guards fun _ => false })

/-- The action releases a guard whose entry has been dropped, and `roots_` names its index. -/
def Steals (s : System) (a : Action) : Prop :=
  ∃ i ∈ a.released, ∃ g ∈ s.registry.guard i, g.registered = false ∧ g.slot ∈ s.heap.roots

instance (s : System) (a : Action) : Decidable (s.Steals a) :=
  inferInstanceAs (Decidable (∃ i ∈ a.released, ∃ g ∈ s.registry.guard i,
    g.registered = false ∧ g.slot ∈ s.heap.roots))

/-- What every call keeps. -/
structure Invariant (s : System) : Prop where
  sound : s.heap.Sound
  issued : ∀ (n : ℕ) (h : ArenaPtr), s.handles[n]? = some h → h.object = n ∧ h.slot < kNull
  placed : ∀ i o : ℕ, s.heap.slots[i]? = some o → ⟨i, o⟩ ∈ s.handles
  named : ∀ g, some g ∈ s.guards → g.ptr ∈ s.handles
  held : ∀ g, some g ∈ s.guards → g.ptr.object ∈ s.heap.slots → g.registered = true

/-- Every index but `kNull` has an entry for each registered guard over it. -/
def Rooted (s : System) : Prop :=
  ∀ i, i ≠ kNull → s.registry.Balanced ArenaRoot.slot ArenaRoot.registered i

theorem init_invariant (capacity : UInt64) : (init capacity).Invariant where
  sound := ArenaGcHeap.sound_init capacity
  issued _ _ h := by simp [init] at h
  placed _ _ h := by simp [init, ArenaGcHeap.init] at h
  named _ h := by simp [init] at h
  held _ h := by simp [init] at h

theorem init_rooted (capacity : UInt64) : (init capacity).Rooted := fun _ _ => rfl

variable {s s' : System}

/-- The released guard has an entry of its own unless its entry has been dropped. -/
theorem not_steals {a : Action} (hok : ¬ s.Steals a) {i : ℕ} (hrel : a.released = some i)
    {g : ArenaRoot} (hg : s.registry.guard i = some g) :
    g.registered = true ∨ g.slot ∉ s.heap.roots := by
  by_contra hne
  push Not at hne
  exact hok ⟨i, hrel, g, hg, by simpa using hne.1, hne.2⟩

/-- The entries and the guards after a call. The guards are old, or new over a handle that has
been issued; unless the call steals, a guard takes out its own entry. -/
structure Rearranged (s : System) (a : Action) (r : Guards.Registry ℕ ArenaRoot) : Prop where
  guards : ∀ g, some g ∈ r.guards → some g ∈ s.guards ∨ g.ptr ∈ s.handles ∧ g.registered = true
  balanced : ¬ s.Steals a → ∀ i, i ≠ kNull →
    s.registry.Balanced ArenaRoot.slot ArenaRoot.registered i →
    r.Balanced ArenaRoot.slot ArenaRoot.registered i

/-- What the calls can do. -/
inductive Steps (s : System) : Action → System → Prop where
  | full : Steps s .allocate s
  | allocate {i : ℕ} {heap : ArenaGcHeap}
      (h : s.heap.allocate s.handles.length = some (i, heap)) :
      Steps s .allocate { s with heap := heap, handles := s.handles ++ [⟨i, s.handles.length⟩] }
  | rearrange {a : Action} {r : Guards.Registry ℕ ArenaRoot} (h : s.Rearranged a r) :
      Steps s a (s.setRegistry r)
  | collect {trace : ℕ → List ℕ} {heap : ArenaGcHeap} {n : ℕ}
      (h : s.heap.collect trace = some (heap, n)) :
      Steps s (.collect trace)
        { s with heap := heap, guards := drop s.guards (· < heap.slots.length) }
  | reset : Steps s .reset { s with heap := s.heap.reset, guards := drop s.guards fun _ => false }

theorem rearranged_root_null : s.Rearranged (.root none) (s.registry.enter [kNull] none) where
  guards g hg := .inl ((List.mem_append.mp hg).resolve_right (by simp))
  balanced _ i hne h := by
    refine h.enter ?_
    rw [List.count_singleton, if_neg (by simpa using hne.symm)]
    rfl

theorem rearranged_root {h : ArenaPtr} (hh : h ∈ s.handles) :
    s.Rearranged (.root (some h)) (s.registry.enter [h.slot] (some ⟨h, true⟩)) where
  guards g hg := by
    rcases List.mem_append.mp hg with hg | hg
    · exact .inl hg
    · cases List.mem_singleton.mp hg
      exact .inr ⟨hh, rfl⟩
  balanced _ i hne hr := by
    refine hr.enter ?_
    rw [List.count_singleton, Guards.Registry.holds_some, Bool.true_and]
    exact if_congr (beq_iff_eq.trans decide_eq_true_iff.symm) rfl rfl

theorem step_steps {a : Action} {o : Result} (hstep : s.step a = some (o, s')) :
    s.Steps a s' := by
  cases a with
  | allocate =>
    simp only [step] at hstep
    cases ha : s.heap.allocate s.handles.length with
    | none =>
      rw [ha] at hstep
      cases hstep
      exact .full
    | some r =>
      rw [ha] at hstep
      cases hstep
      exact .allocate ha
  | root h =>
    cases h with
    | none =>
      cases hstep
      exact .rearrange rearranged_root_null
    | some h =>
      simp only [step] at hstep
      split_ifs at hstep with hh
      cases hstep
      exact .rearrange (rearranged_root hh)
  | moveGuard src =>
    simp only [step] at hstep
    split_ifs at hstep
    cases hstep
    exact .rearrange ⟨fun _ hg => .inl (Guards.Registry.mem_move hg), fun _ _ _ hr => hr.move src⟩
  | assignGuard dst src =>
    simp only [step] at hstep
    split_ifs at hstep with hlen
    cases hstep
    refine .rearrange ⟨fun _ hg => .inl (Guards.Registry.mem_assign hg), fun hok _ _ hr => ?_⟩
    refine hr.assign hlen.1 fun g hself hg hslot => ?_
    exact hslot ▸ not_steals hok (if_neg hself) hg
  | destroyGuard i =>
    simp only [step] at hstep
    split_ifs at hstep
    cases hstep
    refine .rearrange ⟨fun _ hg => .inl (Guards.Registry.mem_release hg), fun hok _ _ hr => ?_⟩
    exact hr.release fun g hg hslot => hslot ▸ not_steals hok rfl hg
  | collect trace =>
    obtain ⟨⟨heap, n⟩, hcollect, hs⟩ := Option.map_eq_some_iff.mp hstep
    cases hs
    exact .collect hcollect
  | reset =>
    cases hstep
    exact .reset

/-- A handle is told by its object. -/
theorem Invariant.handle_eq (hi : s.Invariant) {h h' : ArenaPtr} (hh : h ∈ s.handles)
    (hh' : h' ∈ s.handles) (hobject : h.object = h'.object) : h = h' := by
  obtain ⟨n, hn⟩ := List.mem_iff_getElem?.mp hh
  obtain ⟨m, hm⟩ := List.mem_iff_getElem?.mp hh'
  have hnm : n = m := by rw [← (hi.issued n h hn).1, ← (hi.issued m h' hm).1, hobject]
  rw [hnm, hm] at hn
  exact (Option.some.inj hn).symm

theorem Invariant.object_lt (hi : s.Invariant) {h : ArenaPtr} (hh : h ∈ s.handles) :
    h.object < s.handles.length := by
  obtain ⟨n, hn⟩ := List.mem_iff_getElem?.mp hh
  rw [(hi.issued n h hn).1]
  exact (List.getElem?_eq_some_iff.mp hn).1

/-- An object that is there is at the index of its handle. -/
theorem Invariant.mem_slots_iff (hi : s.Invariant) {h : ArenaPtr} (hh : h ∈ s.handles) :
    h.object ∈ s.heap.slots ↔ s.heap.slots[h.slot]? = some h.object := by
  constructor
  · intro ho
    obtain ⟨i, hget⟩ := List.mem_iff_getElem?.mp ho
    have heq := hi.handle_eq hh (hi.placed i _ hget) rfl
    rw [heq]
    exact hget
  · exact List.mem_of_getElem?

/-- The guards are moved or released, or a new one is made. -/
theorem Invariant.setRegistry (hi : s.Invariant) {r : Guards.Registry ℕ ArenaRoot}
    (hr : ∀ g, some g ∈ r.guards → some g ∈ s.guards ∨ g.ptr ∈ s.handles ∧ g.registered = true) :
    (s.setRegistry r).Invariant where
  sound := ⟨hi.sound.fits, hi.sound.clean⟩
  issued := hi.issued
  placed := hi.placed
  named g hg := by
    rcases hr g hg with hg | hg
    · exact hi.named g hg
    · exact hg.1
  held g hg ho := by
    rcases hr g hg with hg | hg
    · exact hi.held g hg ho
    · exact hg.2

theorem mem_drop {guards : List (Option ArenaRoot)} {keep : ℕ → Bool} {g : ArenaRoot}
    (hg : some g ∈ drop guards keep) :
    ∃ g', some g' ∈ guards ∧ g'.ptr = g.ptr ∧ g.registered = (g'.registered && keep g.slot) := by
  obtain ⟨v, hv, hg⟩ := List.mem_map.mp hg
  cases v with
  | none => simp at hg
  | some g' =>
    cases hg
    exact ⟨g', hv, rfl, rfl⟩

/-- Slots are cut off the end, and the entries of their indices are dropped. -/
theorem Invariant.cut (hi : s.Invariant) {h : ArenaGcHeap} (hs : h.Sound) {k : ℕ}
    (hslots : h.slots = s.heap.slots.take k) {keep : ℕ → Bool} (hkeep : ∀ i < k, keep i = true) :
    Invariant { s with heap := h, guards := drop s.guards keep } where
  sound := hs
  issued := hi.issued
  placed i o ho := by
    rw [hslots, List.getElem?_take] at ho
    split_ifs at ho
    exact hi.placed i o ho
  named g hg := by
    obtain ⟨g', hg', hptr, -⟩ := mem_drop hg
    exact hptr ▸ hi.named g' hg'
  held g hg ho := by
    obtain ⟨g', hg', hptr, hregistered⟩ := mem_drop hg
    have hh : g.ptr ∈ s.handles := hptr ▸ hi.named g' hg'
    rw [hslots] at ho
    have hslot := (hi.mem_slots_iff hh).mp (List.mem_of_mem_take ho)
    obtain ⟨i, hget⟩ := List.mem_iff_getElem?.mp ho
    rw [List.getElem?_take] at hget
    split_ifs at hget with hik
    have heq := hi.handle_eq hh (hi.placed i _ hget) rfl
    have hlt : g.slot < k := by
      rw [ArenaRoot.slot, heq]
      exact hik
    rw [hregistered, hkeep _ hlt, hi.held g' hg' (hptr ▸ List.mem_of_mem_take ho)]
    rfl

theorem Invariant.allocate (hi : s.Invariant) {i : ℕ} {h : ArenaGcHeap}
    (ha : s.heap.allocate s.handles.length = some (i, h)) :
    Invariant { s with heap := h, handles := s.handles ++ [⟨i, s.handles.length⟩] } := by
  have hs := hi.sound.allocate ha
  obtain ⟨rfl, hroom, rfl⟩ := ArenaGcHeap.allocate_eq_some ha
  constructor
  case sound => exact hs
  case issued =>
    intro n p hn
    rw [List.getElem?_append] at hn
    split_ifs at hn with hlt
    · exact hi.issued n p hn
    · rw [List.getElem?_singleton] at hn
      split_ifs at hn with hzero
      cases hn
      have hcapacity := s.heap.capacity.toNat_lt
      exact ⟨by simp only; omega, by simp only [kNull]; omega⟩
  case placed =>
    intro j o ho
    rw [List.getElem?_append] at ho
    split_ifs at ho with hlt
    · exact List.mem_append_left _ (hi.placed j o ho)
    · rw [List.getElem?_singleton] at ho
      split_ifs at ho with hzero
      cases ho
      have hj : j = s.heap.slots.length := by omega
      exact hj ▸ List.mem_append_right _ (List.mem_singleton_self _)
  case named => exact fun g hg => List.mem_append_left _ (hi.named g hg)
  case held =>
    intro g hg ho
    have hold := hi.object_lt (hi.named g hg)
    rcases List.mem_append.mp ho with ho | ho
    · exact hi.held g hg ho
    · rw [List.mem_singleton.mp ho] at hold
      omega

theorem step_invariant (hi : s.Invariant) {a : Action} {o : Result}
    (hstep : s.step a = some (o, s')) : s'.Invariant := by
  cases step_steps hstep with
  | full => exact hi
  | allocate ha => exact hi.allocate ha
  | rearrange hr => exact hi.setRegistry hr.guards
  | collect hcollect =>
    obtain ⟨h, k, hcollect', hsound, hk, hslots, -⟩ := hi.sound.collect _
    obtain ⟨rfl, rfl⟩ := Prod.mk.inj (Option.some.inj (hcollect.symm.trans hcollect'))
    refine hi.cut hsound hslots fun i hik => ?_
    rw [hslots, List.length_take_of_le hk]
    exact decide_eq_true hik
  | reset => exact hi.cut ArenaGcHeap.Sound.reset (k := 0) (by simp [ArenaGcHeap.reset]) (by simp)

/-- Entries and guards of the indices that are kept stay, the other entries go. -/
theorem Rooted.drop {h : ArenaGcHeap} (hr : s.Rooted) (keep : ℕ → Bool)
    (hroots : h.roots = s.heap.roots.filter keep) :
    Rooted { s with heap := h, guards := drop s.guards keep } := by
  intro i hi
  have hcount : s.heap.roots.count i =
      s.guards.countP (Guards.Registry.holds ArenaRoot.slot ArenaRoot.registered i) := hr i hi
  change h.roots.count i = (System.drop s.guards keep).countP
    (Guards.Registry.holds ArenaRoot.slot ArenaRoot.registered i)
  rw [System.drop, List.countP_map, hroots]
  cases hkeep : keep i with
  | true =>
    rw [List.count_filter hkeep, hcount]
    refine List.countP_congr fun g _ => ?_
    cases g with
    | none => simp
    | some g =>
      simp only [Function.comp_apply, Option.map_some, Guards.Registry.holds_some, Bool.and_eq_true,
        decide_eq_true_eq]
      constructor
      · rintro ⟨hg, hslot⟩
        have hkept : keep g.slot = true := hslot ▸ hkeep
        exact ⟨⟨hg, hkept⟩, hslot⟩
      · rintro ⟨⟨hg, -⟩, hslot⟩
        exact ⟨hg, hslot⟩
  | false =>
    rw [List.count_eq_zero.mpr (by simp [hkeep])]
    refine (List.countP_eq_zero.mpr fun g _ => ?_).symm
    cases g with
    | none => simp
    | some g =>
      simp only [Function.comp_apply, Option.map_some, Guards.Registry.holds_some, Bool.and_eq_true,
        decide_eq_true_eq]
      rintro ⟨⟨-, hkept⟩, hslot⟩
      have hkept' : keep i = true := hslot ▸ hkept
      rw [hkeep] at hkept'
      exact Bool.false_ne_true hkept'

theorem step_rooted (hi : s.Invariant) (hr : s.Rooted) {a : Action} (hok : ¬ s.Steals a)
    {o : Result} (hstep : s.step a = some (o, s')) : s'.Rooted := by
  cases step_steps hstep with
  | full => exact hr
  | allocate ha =>
    obtain ⟨-, -, rfl⟩ := ArenaGcHeap.allocate_eq_some ha
    exact hr
  | rearrange h => exact fun i hne => h.balanced hok i hne (hr i hne)
  | collect hcollect =>
    obtain ⟨h, k, hcollect', -, hk, hslots, hroots, -⟩ := hi.sound.collect _
    obtain ⟨rfl, rfl⟩ := Prod.mk.inj (Option.some.inj (hcollect.symm.trans hcollect'))
    refine hr.drop _ ?_
    simp only [hroots, hslots, List.length_take_of_le hk]
  | reset => exact hr.drop _ (by simp [ArenaGcHeap.reset])

theorem exec_step_invariant {capacity : UInt64} {actions : List Action}
    {es : List (Event System Action Result)} {t : System}
    (hrun : exec step (init capacity) actions = some (es, t)) :
    t.Invariant ∧ ((∀ e ∈ es, ¬ e.before.Steals e.call) → t.Rooted) := by
  refine exec_invariant (fun es t => t.Invariant ∧
    ((∀ e ∈ es, ¬ e.before.Steals e.call) → t.Rooted)) ?_
    ⟨init_invariant capacity, fun _ => init_rooted capacity⟩ hrun
  rintro es s a o s' ⟨hi, hr⟩ hstep
  refine ⟨step_invariant hi hstep, fun hok => ?_⟩
  rw [List.forall_mem_append, List.forall_mem_singleton] at hok
  exact step_rooted hi (hr hok.1) hok.2 hstep

/-- What is reachable from a guarded object lies before the end of what a collection keeps. -/
theorem Invariant.reachable_lt (hi : s.Invariant) (hr : s.Rooted) {trace : ℕ → List ℕ} {k : ℕ}
    (hk : ∀ j, (∀ i, j ≤ i → i < s.heap.slots.length →
      ¬ Worklist.Reachable s.heap.indices (edges trace) s.heap.roots i) ↔ k ≤ j)
    {g : ArenaRoot} (hg : some g ∈ s.guards) (hthere : g.ptr.object ∈ s.heap.slots) {i : ℕ}
    (hreach : Worklist.Reachable s.heap.indices (edges trace) [g.slot] i) : i < k := by
  have hregistered := hi.held g hg hthere
  have hh := hi.named g hg
  obtain ⟨n, hn⟩ := List.mem_iff_getElem?.mp hh
  have hbalanced : s.heap.roots.count g.slot =
      s.guards.countP (Guards.Registry.holds ArenaRoot.slot ArenaRoot.registered g.slot) :=
    hr g.slot (hi.issued n g.ptr hn).2.ne
  have hroot : g.slot ∈ s.heap.roots := by
    rw [← List.count_pos_iff, hbalanced, List.countP_pos_iff]
    exact ⟨some g, hg, by simp [Guards.Registry.holds_some, hregistered]⟩
  obtain ⟨x, hx, hlive, hpath⟩ := hreach
  rw [List.mem_singleton.mp hx] at hlive hpath
  have hreach' : Worklist.Reachable s.heap.indices (edges trace) s.heap.roots i :=
    ⟨g.slot, hroot, hlive, hpath⟩
  have hi_lt : i < s.heap.slots.length := by
    have hmem : i ∈ s.heap.indices := Worklist.Reachable.mem_of_closed
      (P := (· ∈ s.heap.indices)) (fun _ _ hl => hl) (fun _ _ _ _ _ hl => hl) hreach'
    exact (hi.sound.mem_indices i).mp hmem
  by_contra hle
  exact (hk i).mpr (by omega) i le_rfl hi_lt hreach'

theorem Invariant.reachable_self (hi : s.Invariant) (trace : ℕ → List ℕ) {g : ArenaRoot}
    (hg : some g ∈ s.guards) (hthere : g.ptr.object ∈ s.heap.slots) :
    Worklist.Reachable s.heap.indices (edges trace) [g.slot] g.slot := by
  have hslot := (hi.mem_slots_iff (hi.named g hg)).mp hthere
  have hlt := (List.getElem?_eq_some_iff.mp hslot).1
  exact ⟨g.slot, List.mem_singleton_self _, (hi.sound.mem_indices _).mpr hlt, .refl⟩

theorem Invariant.guarded_survives (hi : s.Invariant) (hr : s.Rooted) {trace : ℕ → List ℕ}
    {h : ArenaGcHeap} {n : ℕ} (hcollect : s.heap.collect trace = some (h, n)) {g : ArenaRoot}
    (hg : some g ∈ s.guards) (hthere : g.ptr.object ∈ s.heap.slots) : g.ptr.object ∈ h.slots := by
  obtain ⟨h', k, hcollect', -, -, hslots, -, hdead⟩ := hi.sound.collect trace
  obtain ⟨rfl, rfl⟩ := Prod.mk.inj (Option.some.inj (hcollect.symm.trans hcollect'))
  have hself := hi.reachable_lt hr hdead hg hthere (hi.reachable_self trace hg hthere)
  have hget := (hi.mem_slots_iff (hi.named g hg)).mp hthere
  rw [hslots]
  refine List.mem_of_getElem? (i := g.slot) ?_
  rw [List.getElem?_take_of_lt hself]
  exact hget

/-- After every run a collection ends whatever the payloads trace. It pops the longest run of
slots at the end that no path joins to a root, answers with their number, leaves the others at
their index and without a mark, and drops the entries past the end. As long as no release has
taken an entry of another guard, it keeps the guarded objects that are there and what they reach. -/
theorem collect_pops_dead_tail {capacity : UInt64} {actions : List Action}
    {es : List (Event System Action Result)} {t : System}
    (hrun : exec step (init capacity) actions = some (es, t)) (trace : ℕ → List ℕ) :
    ∃ h' k, t.heap.collect trace = some (h', t.heap.slots.length - k) ∧
      k ≤ t.heap.slots.length ∧ h'.slots = t.heap.slots.take k ∧
      (∀ j, (∀ i, j ≤ i → i < t.heap.slots.length →
        ¬ Worklist.Reachable t.heap.indices (edges trace) t.heap.roots i) ↔ k ≤ j) ∧
      (∀ i < k, h'.marked i = false) ∧ h'.roots = t.heap.roots.filter (· < k) ∧
      ((∀ e ∈ es, ¬ e.before.Steals e.call) →
        ∀ g, some g ∈ t.guards → g.ptr.object ∈ t.heap.slots → g.ptr.object ∈ h'.slots ∧
          ∀ i, Worklist.Reachable t.heap.indices (edges trace) [g.slot] i → i < k) := by
  obtain ⟨hi, hr⟩ := exec_step_invariant hrun
  obtain ⟨h', k, hcollect, hsound, hk, hslots, hroots, hdead⟩ := hi.sound.collect trace
  have hlen : h'.slots.length = k := by rw [hslots, List.length_take_of_le hk]
  refine ⟨h', k, hcollect, hk, hslots, hdead, fun i hik => hsound.clean i (hlen ▸ hik), hroots, ?_⟩
  intro hok g hg hthere
  exact ⟨hi.guarded_survives (hr hok) hcollect hg hthere,
    fun i hreach => hi.reachable_lt (hr hok) hdead hg hthere hreach⟩

/-- A guarded slot with a cycle through null and past the end, and a slot that nothing holds. -/
def guardedCycle : List Action :=
  [.allocate, .allocate, .allocate, .root (some ⟨1, 1⟩), .root none, .moveGuard 0, .destroyGuard 0]

theorem collect_pops_dead_tail_guardedCycle :
    ∃ es t h' k, exec step (init 3) guardedCycle = some (es, t) ∧
      t.heap.collect (fun i => [kNull, 1 - i, 9]) = some (h', t.heap.slots.length - k) ∧
      h'.slots = t.heap.slots.take k ∧ h'.roots = t.heap.roots.filter (· < k) ∧
      ∀ g, some g ∈ t.guards → g.ptr.object ∈ t.heap.slots → g.ptr.object ∈ h'.slots := by
  have hrun : exec step (init 3) guardedCycle = some (_, _) := rfl
  have hok : ∀ e ∈ (Option.get (exec step (init 3) guardedCycle) rfl).1,
      ¬ e.before.Steals e.call := by decide
  obtain ⟨h', k, hcollect, -, hslots, -, -, hroots, hkeep⟩ :=
    collect_pops_dead_tail hrun fun i => [kNull, 1 - i, 9]
  exact ⟨_, _, h', k, hrun, hcollect, hslots, hroots, fun g hg ho => (hkeep hok g hg ho).1⟩

/-- The handle of a slot that is gone is rooted, a collection drops the entry, and its guard
goes when the index is in use again. -/
theorem dead_handle_steals : ∃ es t h' n,
    exec step (init 1) [.allocate, .collect fun _ => [], .root (some ⟨0, 0⟩), .collect fun _ => [],
      .allocate, .root (some ⟨0, 1⟩), .destroyGuard 0] = some (es, t) ∧
    some ⟨⟨0, 1⟩, true⟩ ∈ t.guards ∧ 1 ∈ t.heap.slots ∧
    t.heap.collect (fun _ => []) = some (h', n) ∧ 1 ∉ h'.slots :=
  ⟨_, _, _, _, rfl, by decide, by decide, rfl, by decide⟩

/-- In every run, with resets, whose releases take no entry of another guard no collection takes
an object that a guard holds. -/
theorem guarded_never_reclaimed {capacity : UInt64} {actions : List Action}
    {es : List (Event System Action Result)} {t : System}
    (hrun : exec step (init capacity) actions = some (es, t))
    (hok : ∀ e ∈ es, ¬ e.before.Steals e.call) :
    ∀ e ∈ es, ∀ trace, e.call = .collect trace →
      ∃ s', e.before.step e.call = some (e.result, s') ∧
        ∀ g, some g ∈ e.before.guards → g.ptr.object ∈ e.before.heap.slots →
          g.ptr.object ∈ s'.heap.slots := by
  intro e he trace hcall
  obtain ⟨_, l, s', hbefore, hsub, hstep⟩ := exec_mem hrun he
  refine ⟨s', hstep, fun g hg hthere => ?_⟩
  obtain ⟨hi, hr⟩ := exec_step_invariant hbefore
  have hrooted := hr fun e he => hok e (hsub he)
  rw [hcall] at hstep
  obtain ⟨⟨h, n⟩, hcollect, hs⟩ := Option.map_eq_some_iff.mp hstep
  obtain ⟨-, rfl⟩ := Prod.mk.inj hs
  exact hi.guarded_survives hrooted hcollect hg hthere

/-- A guard outlives a reset and goes when its index is free; the next one is kept. -/
def staleGuard : List Action :=
  [.allocate, .root (some ⟨0, 0⟩), .reset, .destroyGuard 0, .allocate, .root (some ⟨0, 1⟩),
    .collect fun _ => []]

theorem guarded_never_reclaimed_staleGuard :
    ∃ es t, exec step (init 1) staleGuard = some (es, t) ∧
      ∀ e ∈ es, ∀ trace, e.call = .collect trace →
        ∃ s', e.before.step e.call = some (e.result, s') ∧
          ∀ g, some g ∈ e.before.guards → g.ptr.object ∈ e.before.heap.slots →
            g.ptr.object ∈ s'.heap.slots := by
  have hrun : exec step (init 1) staleGuard = some (_, _) := rfl
  have hok : ∀ e ∈ (Option.get (exec step (init 1) staleGuard) rfl).1,
      ¬ e.before.Steals e.call := by decide
  exact ⟨_, _, hrun, guarded_never_reclaimed hrun hok⟩

/-- The guard goes when the index is in use again. -/
theorem stale_guard_steals : ∃ es t h' n,
    exec step (init 1) [.allocate, .root (some ⟨0, 0⟩), .reset, .allocate, .root (some ⟨0, 1⟩),
      .destroyGuard 0] = some (es, t) ∧
    some ⟨⟨0, 1⟩, true⟩ ∈ t.guards ∧ 1 ∈ t.heap.slots ∧
    t.heap.collect (fun _ => []) = some (h', n) ∧ 1 ∉ h'.slots :=
  ⟨_, _, _, _, rfl, by decide, by decide, rfl, by decide⟩

end System
end HftExercises.ArenaGc
