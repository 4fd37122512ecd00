import HftExercises.Memory.GcHeapRuns
import HftExercises.Memory.ArenaGcHeapRuns

/-! # Liveness queries and indices that are given out again

A handle is an index or an address without a generation. `is_live` answers for the
slot that is there now: it speaks of the object that the handle was issued for until
the index or the address is given out again.
-/
namespace HftExercises

namespace ArenaGc.System
variable {s s' : System}

/-- `is_live` tells for every handle whether its object is still in the arena. -/
def Truthful (s : System) : Prop :=
  ∀ h ∈ s.handles, s.heap.isLive h.slot = true ↔ h.object ∈ s.heap.slots

/-- The action gives out an index that a handle already names. -/
def Reuses (s : System) : Action → Prop
  | .allocate => s.heap.slots.length < s.heap.capacity.toNat ∧
      ∃ h ∈ s.handles, h.slot = s.heap.slots.length
  | _ => False

instance (s : System) : (a : Action) → Decidable (s.Reuses a)
  | .allocate => inferInstanceAs (Decidable (s.heap.slots.length < s.heap.capacity.toNat ∧
      ∃ h ∈ s.handles, h.slot = s.heap.slots.length))
  | .root _ | .moveGuard _ | .assignGuard _ _ | .destroyGuard _ | .collect _ | .reset =>
    inferInstanceAs (Decidable False)

theorem isLive_iff (h : ArenaGcHeap) (i : ℕ) : h.isLive i = true ↔ i < h.slots.length :=
  decide_eq_true_iff

/-- Slots are cut off the end. -/
theorem Invariant.truthful_cut (hi : s.Invariant) (ht : s.Truthful) {t : System} {k : ℕ}
    (hslots : t.heap.slots = s.heap.slots.take k) (hhandles : t.handles = s.handles) :
    t.Truthful := by
  intro h hh
  rw [hhandles] at hh
  have hwas := ht h hh
  rw [isLive_iff] at hwas ⊢
  rw [hslots, List.length_take]
  constructor
  · intro hlt
    have hget := (hi.mem_slots_iff hh).mp (hwas.mp (by omega))
    refine List.mem_of_getElem? (i := h.slot) ?_
    rw [List.getElem?_take_of_lt (by omega)]
    exact hget
  · intro ho
    obtain ⟨i, hget⟩ := List.mem_iff_getElem?.mp ho
    rw [List.getElem?_take] at hget
    split_ifs at hget with hik
    have heq := hi.handle_eq hh (hi.placed i _ hget) rfl
    have hlt := hwas.mpr (List.mem_of_mem_take ho)
    have hslot : h.slot = i := by rw [heq]
    omega

theorem step_truthful (hi : s.Invariant) (ht : s.Truthful) {a : Action} (hok : ¬ s.Reuses a)
    {o : Result} (hstep : s.step a = some (o, s')) : s'.Truthful := by
  cases step_steps hstep with
  | full => exact ht
  | allocate ha =>
    obtain ⟨rfl, hroom, rfl⟩ := ArenaGcHeap.allocate_eq_some ha
    intro h hh
    rw [isLive_iff, List.length_append, List.length_singleton, List.mem_append, List.mem_singleton]
    rcases List.mem_append.mp hh with hh | hh
    · have hwas := ht h hh
      rw [isLive_iff] at hwas
      have hnew : h.slot ≠ s.heap.slots.length := fun heq => hok ⟨hroom, h, hh, heq⟩
      have hold := hi.object_lt hh
      rw [← hwas]
      omega
    · rw [List.mem_singleton.mp hh]
      simp
  | rearrange => exact ht
  | collect hcollect =>
    obtain ⟨h, k, hcollect', -, -, hslots, -⟩ := hi.sound.collect _
    obtain ⟨rfl, rfl⟩ := Prod.mk.inj (Option.some.inj (hcollect.symm.trans hcollect'))
    exact hi.truthful_cut ht hslots rfl
  | reset => exact hi.truthful_cut ht (k := 0) (by simp [ArenaGcHeap.reset]) rfl

/-- The old handle speaks of the new object. -/
theorem step_not_truthful (hi : s.Invariant) {a : Action} (hreuse : s.Reuses a) {o : Result}
    (hstep : s.step a = some (o, s')) : ¬ s'.Truthful := by
  cases a with
  | allocate =>
    obtain ⟨hroom, h, hh, hslot⟩ := hreuse
    simp only [step, ArenaGcHeap.allocate, if_neg (Nat.not_le.mpr hroom)] at hstep
    cases hstep
    intro ht
    have hlive : h.object ∈ s.heap.slots ++ [s.handles.length] := by
      refine (ht h (List.mem_append_left _ hh)).mp ?_
      rw [isLive_iff]
      simp [hslot]
    have hold := hi.object_lt hh
    rcases List.mem_append.mp hlive with ho | ho
    · have hget := (List.getElem?_eq_some_iff.mp ((hi.mem_slots_iff hh).mp ho)).1
      omega
    · rw [List.mem_singleton.mp ho] at hold
      omega
  | root | moveGuard | assignGuard | destroyGuard | collect | reset => exact hreuse.elim

/-- `is_live` is right in every state of a run if and only if no index is given out that a
handle already names. -/
theorem arena_truthful_iff {capacity : UInt64} {actions : List Action}
    {es : List (Event System Action Result)} {t : System}
    (hrun : exec step (init capacity) actions = some (es, t)) :
    ((∀ e ∈ es, e.before.Truthful) ∧ t.Truthful) ↔ ∀ e ∈ es, ¬ e.before.Reuses e.call :=
  exec_forall_iff Invariant Truthful Reuses (fun _ _ _ _ hi hs => step_invariant hi hs)
    (fun _ _ _ _ hi ht hok hs => step_truthful hi ht hok hs)
    (fun _ _ _ _ hi hreuse hs => step_not_truthful hi hreuse hs)
    (init_invariant capacity) (fun _ h => by simp [init] at h) hrun

end ArenaGc.System

namespace Gc.System
variable {A : Type*} [DecidableEq A] {s s' : System A}

/-- The object that the handle was issued for is still in the heap. -/
def Holds (s : System A) (h : GcPtr A) : Prop := h.slot ∈ s.heap.slots ∧ s.object h.slot = h.object

/-- `is_live` tells for every handle whether its object is still in the heap. -/
def Truthful (s : System A) : Prop :=
  ∀ h ∈ s.handles, s.heap.isLive (some h.slot) = true ↔ s.Holds h

/-- The allocator gives out an address that a handle already names. -/
def Reuses (s : System A) : Action A → Prop
  | .allocate a => ∃ h ∈ s.handles, h.slot = a
  | _ => False

instance (s : System A) : (a : Action A) → Decidable (s.Reuses a)
  | .allocate a => inferInstanceAs (Decidable (∃ h ∈ s.handles, h.slot = a))
  | .root _ | .moveGuard _ | .assignGuard _ _ | .destroyGuard _ | .collect _ =>
    inferInstanceAs (Decidable False)

theorem isLive_iff (h : GcHeap A) (a : A) : h.isLive (some a) = true ↔ a ∈ h.live :=
  decide_eq_true_iff

theorem step_truthful (hi : s.Invariant) (ht : s.Truthful) {a : Action A} (hok : ¬ s.Reuses a)
    {o : Result A} (hstep : s.step a = some (o, s')) : s'.Truthful := by
  cases step_steps hstep with
  | @allocate a ha =>
    intro h hh
    rw [isLive_iff]
    simp only [Holds, GcHeap.allocate, Finset.mem_insert, List.mem_append, List.mem_singleton]
    rcases List.mem_append.mp hh with hh | hh
    · have hne : h.slot ≠ a := fun heq => hok ⟨h, hh, heq⟩
      have hwas := ht h hh
      rw [isLive_iff] at hwas
      simp only [hne, false_or, or_false, Function.update_of_ne hne]
      exact hwas
    · rw [List.mem_singleton.mp hh]
      simp
  | rearrange => exact ht
  | collect hcollect =>
    obtain ⟨h, n, hcollect', hsound, -, -, hslots, -⟩ := hi.sound.collect _
    obtain ⟨rfl, rfl⟩ := Prod.mk.inj (Option.some.inj (hcollect.symm.trans hcollect'))
    intro p hp
    have hwas := ht p hp
    rw [isLive_iff] at hwas ⊢
    constructor
    · intro hlive
      have hmem := (hsound.agree _).mpr hlive
      have hbefore : p.slot ∈ s.heap.slots := by
        rw [hslots] at hmem
        exact List.mem_of_mem_filter hmem
      exact ⟨hmem, (hwas.mp ((hi.sound.agree _).mp hbefore)).2⟩
    · exact fun hthere => (hsound.agree _).mp hthere.1

/-- The old handle speaks of the new object. -/
theorem step_not_truthful (hi : s.Invariant) {a : Action A} (hreuse : s.Reuses a) {o : Result A}
    (hstep : s.step a = some (o, s')) : ¬ s'.Truthful := by
  cases a with
  | allocate a =>
    obtain ⟨h, hh, rfl⟩ := hreuse
    simp only [step] at hstep
    split_ifs at hstep with ha
    cases hstep
    intro ht
    have hlive := (ht h (List.mem_append_left _ hh)).mp (by
      rw [isLive_iff]
      exact Finset.mem_insert_self _ _)
    have hobject : s.handles.length = h.object := by simpa using hlive.2
    have hold := hi.issued h hh
    omega
  | root | moveGuard | assignGuard | destroyGuard | collect => exact hreuse.elim

/-- `is_live` is right in every state of a run if and only if the allocator gives out no address
that a handle already names. -/
theorem heap_truthful_iff {actions : List (Action A)}
    {es : List (Event (System A) (Action A) (Result A))} {t : System A}
    (hrun : exec step init actions = some (es, t)) :
    ((∀ e ∈ es, e.before.Truthful) ∧ t.Truthful) ↔ ∀ e ∈ es, ¬ e.before.Reuses e.call :=
  exec_forall_iff Invariant Truthful Reuses (fun _ _ _ _ hi hs => step_invariant hi hs)
    (fun _ _ _ _ hi ht hok hs => step_truthful hi ht hok hs)
    (fun _ _ _ _ hi hreuse hs => step_not_truthful hi hreuse hs)
    init_invariant (fun _ h => by simp [init] at h) hrun

end Gc.System

/-- In both heaps the liveness queries are right in every state of a run if and only if the run
gives out no index and no address that a handle already names. -/
theorem is_live_truthful_iff (A : Type*) [DecidableEq A] :
    (∀ capacity actions es t,
      exec ArenaGc.System.step (ArenaGc.System.init capacity) actions = some (es, t) →
        (((∀ e ∈ es, e.before.Truthful) ∧ t.Truthful) ↔ ∀ e ∈ es, ¬ e.before.Reuses e.call)) ∧
    ∀ actions es t, exec Gc.System.step (Gc.System.init : Gc.System A) actions = some (es, t) →
      (((∀ e ∈ es, e.before.Truthful) ∧ t.Truthful) ↔ ∀ e ∈ es, ¬ e.before.Reuses e.call) :=
  ⟨fun _ _ _ _ hrun => ArenaGc.System.arena_truthful_iff hrun,
    fun _ _ _ hrun => Gc.System.heap_truthful_iff hrun⟩

/-- Slots are taken out, and others are made at indices and addresses that are new. -/
theorem is_live_truthful_iff_fresh :
    (∃ es t, exec ArenaGc.System.step (ArenaGc.System.init 2)
      [.allocate, .root (some ⟨0, 0⟩), .collect fun _ => [], .allocate, .allocate] = some (es, t) ∧
      (∀ e ∈ es, e.before.Truthful) ∧ t.Truthful) ∧
    ∃ es t, exec Gc.System.step (Gc.System.init : Gc.System ℕ)
      [.allocate 7, .collect fun _ => [], .allocate 8] = some (es, t) ∧
      (∀ e ∈ es, e.before.Truthful) ∧ t.Truthful := by
  have harena : exec ArenaGc.System.step (ArenaGc.System.init 2)
      [.allocate, .root (some ⟨0, 0⟩), .collect fun _ => [], .allocate, .allocate] = some (_, _) := rfl
  have hheap : exec Gc.System.step (Gc.System.init : Gc.System ℕ)
      [.allocate 7, .collect fun _ => [], .allocate 8] = some (_, _) := rfl
  have hiff := is_live_truthful_iff ℕ
  exact ⟨⟨_, _, harena, (hiff.1 _ _ _ _ harena).mpr (by decide)⟩,
    ⟨_, _, hheap, (hiff.2 _ _ _ hheap).mpr (by decide)⟩⟩

/-- The handle of a slot that is gone answers for the next one at its index, and at its address. -/
theorem dead_handle_answers :
    (∃ es t, exec ArenaGc.System.step (ArenaGc.System.init 1)
      [.allocate, .collect fun _ => [], .allocate] = some (es, t) ∧
      ⟨0, 0⟩ ∈ t.handles ∧ t.heap.isLive 0 = true ∧ 0 ∉ t.heap.slots) ∧
    ∃ es t, exec Gc.System.step (Gc.System.init : Gc.System ℕ)
      [.allocate 7, .collect fun _ => [], .allocate 7] = some (es, t) ∧
      ⟨7, 0⟩ ∈ t.handles ∧ t.heap.isLive (some 7) = true ∧ t.object 7 ≠ 0 :=
  ⟨⟨_, _, rfl, by decide, by decide, by decide⟩, ⟨_, _, rfl, by decide, by decide, by decide⟩⟩

end HftExercises
