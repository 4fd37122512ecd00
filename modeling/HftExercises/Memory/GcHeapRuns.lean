import HftExercises.Core.GuardRegistry
import HftExercises.Memory.GcHeap

/-! # Runs of allocations, guards and collections

The heap with the `GcRooted` guards, driven by any sequence of calls. The payloads
trace what they like, also null and slots that are gone, and may trace something
else at every collection. Handles are never taken back: they may be rooted when the
slot is gone, and when its address has been given out again. A payload that owns guards
lets go of them during the sweep, which does not look at `roots_`: that is a collection
and then the end of these guards.
-/
namespace HftExercises.Gc
variable {A : Type*} [DecidableEq A]

/-- A handle that is not null, with the object that it was issued for. -/
structure GcPtr (A : Type*) where
  slot : A
  object : ℕ
  deriving DecidableEq, Repr

/-- The objects are numbered in the order of their allocation; `object` is the one that an
address was last given to, and `handles` are the handles issued so far. -/
structure System (A : Type*) where
  heap : GcHeap A
  guards : List (Option (GcPtr A))
  handles : List (GcPtr A)
  object : A → ℕ

inductive Action (A : Type*) where
  | allocate (a : A)
  | root (h : Option (GcPtr A))
  /-- `GcRooted(GcRooted&&)` -/
  | moveGuard (src : ℕ)
  | assignGuard (dst src : ℕ)
  /-- `~GcRooted()` -/
  | destroyGuard (i : ℕ)
  | collect (trace : A → List (Option A))

inductive Result (A : Type*) where
  | done
  | handle (h : GcPtr A)
  | freed (n : ℕ)
  deriving DecidableEq, Repr

namespace System

def init : System A where
  heap := .init
  guards := []
  handles := []
  object := fun _ => 0

/-- The entries of `roots_` and the guards that `release()` them. -/
def registry (s : System A) : Guards.Registry A (GcPtr A) where
  roots := s.heap.roots
  guards := s.guards

def setRegistry (s : System A) (r : Guards.Registry A (GcPtr A)) : System A :=
  { s with heap := { s.heap with roots := r.roots }, guards := r.guards }

/-- `none` is a call that the program cannot make: there is no such guard, the handle has
not been issued, or the address of a new slot is in use. A guard of a null handle has no entry
and does nothing, like one that was moved from. -/
def step (s : System A) : Action A → Option (Result A × System A)
  | .allocate a =>
    if a ∈ s.heap.live then none
    else
      let h : GcPtr A := ⟨a, s.handles.length⟩
      some (.handle h, { s with
        heap := s.heap.allocate a
        handles := s.handles ++ [h]
        object := Function.update s.object a h.object })
  | .root none => some (.done, s.setRegistry (s.registry.enter [] none))
  | .root (some h) =>
    if h ∈ s.handles then some (.done, s.setRegistry (s.registry.enter [h.slot] (some h)))
    else none
  | .moveGuard src =>
    if src < s.guards.length then some (.done, s.setRegistry (s.registry.move src)) else none
  | .assignGuard dst src =>
    if dst < s.guards.length ∧ src < s.guards.length then
      some (.done, s.setRegistry (s.registry.assign GcPtr.slot dst src))
    else none
  | .destroyGuard i =>
    if i < s.guards.length then some (.done, s.setRegistry (s.registry.release GcPtr.slot i))
    else none
  | .collect trace => (s.heap.collect trace).map fun r => (.freed r.2, { s with heap := r.1 })

/-- What every call keeps. -/
structure Invariant (s : System A) : Prop where
  sound : s.heap.Sound
  rooted : ∀ a, s.registry.Balanced GcPtr.slot (fun _ => true) a
  issued : ∀ h ∈ s.handles, h.object < s.handles.length

theorem init_invariant : (init : System A).Invariant where
  sound := GcHeap.sound_init
  rooted _ := rfl
  issued _ h := by simp [init] at h

variable {s s' : System A}

theorem Invariant.setRegistry (hi : s.Invariant) {r : Guards.Registry A (GcPtr A)}
    (hr : ∀ a, r.Balanced GcPtr.slot (fun _ => true) a) : (s.setRegistry r).Invariant where
  sound := ⟨hi.sound.nodup, hi.sound.agree, hi.sound.clean⟩
  rooted := hr
  issued := hi.issued

/-- What the calls can do. A call that changes the guards keeps an entry for each of them. -/
inductive Steps (s : System A) : Action A → System A → Prop where
  | allocate {a : A} (h : a ∉ s.heap.live) :
      Steps s (.allocate a) { s with
        heap := s.heap.allocate a
        handles := s.handles ++ [⟨a, s.handles.length⟩]
        object := Function.update s.object a s.handles.length }
  | rearrange {a : Action A} {r : Guards.Registry A (GcPtr A)}
      (h : ∀ x, s.registry.Balanced GcPtr.slot (fun _ => true) x →
        r.Balanced GcPtr.slot (fun _ => true) x) :
      Steps s a (s.setRegistry r)
  | collect {trace : A → List (Option A)} {heap : GcHeap A} {n : ℕ}
      (h : s.heap.collect trace = some (heap, n)) : Steps s (.collect trace) { s with heap := heap }

theorem step_steps {a : Action A} {o : Result A} (hstep : s.step a = some (o, s')) :
    s.Steps a s' := by
  cases a with
  | allocate a =>
    simp only [step] at hstep
    split_ifs at hstep with ha
    cases hstep
    exact .allocate ha
  | root h =>
    cases h with
    | none =>
      cases hstep
      exact .rearrange fun _ hr => hr.enter rfl
    | some h =>
      simp only [step] at hstep
      split_ifs at hstep
      cases hstep
      refine .rearrange fun _ hr => hr.enter ?_
      rw [List.count_singleton, Guards.Registry.holds_some]
      simp
  | moveGuard src =>
    simp only [step] at hstep
    split_ifs at hstep
    cases hstep
    exact .rearrange fun _ hr => hr.move src
  | assignGuard dst src =>
    simp only [step] at hstep
    split_ifs at hstep with hlen
    cases hstep
    exact .rearrange fun _ hr => hr.assign hlen.1 fun _ _ _ _ => .inl rfl
  | destroyGuard i =>
    simp only [step] at hstep
    split_ifs at hstep
    cases hstep
    exact .rearrange fun _ hr => hr.release fun _ _ _ => .inl rfl
  | collect trace =>
    obtain ⟨⟨heap, n⟩, hcollect, hs⟩ := Option.map_eq_some_iff.mp hstep
    cases hs
    exact .collect hcollect

theorem step_invariant (hi : s.Invariant) {a : Action A} {o : Result A}
    (hstep : s.step a = some (o, s')) : s'.Invariant := by
  cases step_steps hstep with
  | allocate ha =>
    refine ⟨hi.sound.allocate ha, hi.rooted, fun h hh => ?_⟩
    rw [List.length_append, List.length_singleton]
    rcases List.mem_append.mp hh with hh | hh
    · have hold := hi.issued h hh
      omega
    · rw [List.mem_singleton.mp hh]
      exact Nat.lt_succ_self _
  | rearrange hr => exact hi.setRegistry fun x => hr x (hi.rooted x)
  | collect hcollect =>
    obtain ⟨h, n, hcollect', hsound, hroots, -⟩ := hi.sound.collect _
    obtain ⟨rfl, rfl⟩ := Prod.mk.inj (Option.some.inj (hcollect.symm.trans hcollect'))
    refine ⟨hsound, fun a => ?_, hi.issued⟩
    simp only [registry, hroots]
    exact hi.rooted a

theorem exec_step_invariant {actions : List (Action A)}
    {es : List (Event (System A) (Action A) (Result A))} {t : System A}
    (hrun : exec step init actions = some (es, t)) : t.Invariant :=
  exec_invariant (fun _ t => t.Invariant) (fun _ _ _ _ _ hi hs => step_invariant hi hs)
    init_invariant hrun

/-- As many entries of a slot as guards over it. -/
theorem Invariant.count_roots (hi : s.Invariant) (a : A) :
    s.heap.roots.count a = (s.guards.map (Option.map GcPtr.slot)).count (some a) := by
  have hcount : s.heap.roots.count a =
      s.guards.countP (Guards.Registry.holds GcPtr.slot (fun _ => true) a) := hi.rooted a
  rw [hcount, List.count, List.countP_map]
  refine List.countP_congr fun g _ => ?_
  cases g with
  | none => simp
  | some h => simp [Guards.Registry.holds_some]

/-- After every run a collection ends whatever the payloads trace. It takes out exactly the
slots that no path of live slots joins to a root, answers with their number, leaves no mark on
the others and the two registers in agreement; and `roots_` has one entry for each guard. -/
theorem collect_exact {actions : List (Action A)}
    {es : List (Event (System A) (Action A) (Result A))} {t : System A}
    (hrun : exec step init actions = some (es, t)) (trace : A → List (Option A)) :
    ∃ h' n, t.heap.collect trace = some (h', n) ∧
      (∀ a, a ∈ h'.live ↔ Worklist.Reachable t.heap.live (edges trace) t.heap.roots a) ∧
      h'.slots = t.heap.slots.filter (· ∈ h'.live) ∧
      n = (t.heap.slots.filter (· ∉ h'.live)).length ∧
      (∀ a ∈ h'.live, h'.marked a = false) ∧
      (t.heap.slots.Nodup ∧ ∀ a, a ∈ t.heap.slots ↔ a ∈ t.heap.live) ∧
      (h'.slots.Nodup ∧ ∀ a, a ∈ h'.slots ↔ a ∈ h'.live) ∧
      ∀ a, t.heap.roots.count a = (t.guards.map (Option.map GcPtr.slot)).count (some a) := by
  have hi := exec_step_invariant hrun
  obtain ⟨h', n, hcollect, hsound, -, hlive, hslots, hn⟩ := hi.sound.collect trace
  exact ⟨h', n, hcollect, hlive, hslots, hn, hsound.clean, ⟨hi.sound.nodup, hi.sound.agree⟩,
    ⟨hsound.nodup, hsound.agree⟩, hi.count_roots⟩

/-- A rooted slot, a cycle that nothing holds, and a moved guard. -/
def looseCycle : List (Action ℕ) :=
  [.allocate 7, .allocate 8, .allocate 9, .root (some ⟨7, 0⟩), .root none, .moveGuard 0]

theorem collect_exact_looseCycle :
    ∃ es t h' n, exec step init looseCycle = some (es, t) ∧
      t.heap.collect (fun a => if a = 7 then [some 3, none] else [some (17 - a)]) = some (h', n) ∧
      h'.slots = t.heap.slots.filter (· ∈ h'.live) ∧
      n = (t.heap.slots.filter (· ∉ h'.live)).length ∧
      ∀ a, t.heap.roots.count a = (t.guards.map (Option.map GcPtr.slot)).count (some a) := by
  have hrun : exec step init looseCycle = some (_, _) := rfl
  obtain ⟨h', n, hcollect, -, hslots, hn, -, -, -, hroots⟩ :=
    collect_exact hrun fun a => if a = 7 then [some 3, none] else [some (17 - a)]
  exact ⟨_, _, h', n, hrun, hcollect, hslots, hn, hroots⟩

end System
end HftExercises.Gc
