import HftExercises.Core.Worklist
import Mathlib.Data.List.ReduceOption

/-! # The mark-sweep heap

`GcHeap` owns its slots, which are named by their addresses. A collection marks
from `roots_` along what the payloads trace at that moment, and then takes every
slot without a mark out, wherever it sits.
-/
namespace HftExercises.Gc
variable {A : Type*} [DecidableEq A]

/-- `marked` is the flag of the slot at an address. -/
structure GcHeap (A : Type*) where
  slots : List A
  live : Finset A
  roots : List A
  marked : A → Bool

/-- What `trace()` of the slot at an address puts on the worklist: `visit` drops null. -/
def edges (trace : A → List (Option A)) (a : A) : List A := (trace a).reduceOption

namespace GcHeap

def init : GcHeap A where
  slots := []
  live := ∅
  roots := []
  marked := fun _ => false

/-- The slot is made at an address that the allocator chooses. -/
def allocate (h : GcHeap A) (a : A) : GcHeap A :=
  { h with
    slots := h.slots ++ [a]
    live := insert a h.live
    marked := Function.update h.marked a false }

def isLive (h : GcHeap A) (slot : Option A) : Bool := slot.any fun a => decide (a ∈ h.live)

/-- The sweep, with the slots it has kept, the ones that it has freed counted and the ones
that it has yet to see. -/
def sweep (h : GcHeap A) (kept : List A) (freed : ℕ) : List A → GcHeap A × ℕ
  | [] => ({ h with slots := kept }, freed)
  | s :: rest =>
    if !h.marked s then sweep { h with live := h.live.erase s } kept (freed + 1) rest
    else sweep { h with marked := Function.update h.marked s false } (kept ++ [s]) freed rest

/-- The worklist starts as a copy of `roots_` and is popped at its back. -/
def collect (h : GcHeap A) (trace : A → List (Option A)) : Option (GcHeap A × ℕ) :=
  let start := (h.marked, h.roots.reverse)
  (Worklist.visitAll h.live (edges trace) (Worklist.work h.live (edges trace) start) start).map
    fun s => sweep { h with marked := s.1 } [] 0 h.slots

/-- Between the calls. -/
structure Sound (h : GcHeap A) : Prop where
  nodup : h.slots.Nodup
  agree : ∀ a, a ∈ h.slots ↔ a ∈ h.live
  clean : ∀ a ∈ h.live, h.marked a = false

omit [DecidableEq A] in
theorem sound_init : Sound (init : GcHeap A) where
  nodup := List.nodup_nil
  agree _ := by simp [init]
  clean _ _ := rfl

theorem Sound.allocate {h : GcHeap A} (hs : h.Sound) {a : A} (ha : a ∉ h.live) :
    (h.allocate a).Sound where
  nodup := by
    refine List.nodup_append.mpr ⟨hs.nodup, List.nodup_singleton a, ?_⟩
    rintro x hx y hy rfl
    rw [List.mem_singleton.mp hy, hs.agree] at hx
    exact ha hx
  agree x := by simp [GcHeap.allocate, hs.agree, or_comm]
  clean x hx := by
    by_cases hxa : x = a
    · simp [GcHeap.allocate, hxa]
    · have hlive : x ∈ h.live := (Finset.mem_insert.mp hx).resolve_left hxa
      simp only [GcHeap.allocate, Function.update_of_ne hxa]
      exact hs.clean x hlive

/-- Of the slots that the sweep has yet to see it keeps the marked ones, and unmarks them. -/
theorem sweep_eq (rest : List A) (hrest : rest.Nodup) (h : GcHeap A) (kept : List A) (freed : ℕ) :
    h.sweep kept freed rest =
      ({ slots := kept ++ rest.filter h.marked
         live := h.live.filter fun a => a ∈ rest → h.marked a = true
         roots := h.roots
         marked := fun a => h.marked a && decide (a ∉ rest) },
        freed + (rest.filter fun a => !h.marked a).length) := by
  induction rest generalizing h kept freed with
  | nil => simp [sweep]
  | cons s rest ih =>
    obtain ⟨hs, hrest⟩ := List.nodup_cons.mp hrest
    rw [sweep]
    cases hm : h.marked s with
    | false =>
      rw [if_pos (by simp), ih hrest]
      refine Prod.ext ?_ ?_
      · have hlive : (h.live.erase s).filter (fun a => a ∈ rest → h.marked a = true) =
            h.live.filter fun a => a ∈ s :: rest → h.marked a = true := by
          ext a
          by_cases has : a = s
          · simp [has, hm]
          · simp [has]
        have hmarked : (fun a => h.marked a && decide (a ∉ rest)) =
            fun a => h.marked a && decide (a ∉ s :: rest) := by
          funext a
          by_cases has : a = s
          · simp [has, hm]
          · simp [has]
        rw [List.filter_cons_of_neg (by simp [hm]), ← hlive, ← hmarked]
      · simp only [hm, List.filter_cons, Bool.not_false, if_true, List.length_cons]
        omega
    | true =>
      rw [if_neg (by simp), ih hrest]
      have hkeep : ∀ a ∈ rest, Function.update h.marked s false a = h.marked a := by
        intro a ha
        have has : a ≠ s := fun heq => hs (heq ▸ ha)
        exact Function.update_of_ne has _ _
      refine Prod.ext ?_ ?_
      · have hlive : h.live.filter (fun a => a ∈ rest → Function.update h.marked s false a = true) =
            h.live.filter fun a => a ∈ s :: rest → h.marked a = true := by
          refine Finset.filter_congr fun a _ => ?_
          by_cases has : a = s
          · simp [has, hm, hs]
          · simp [has]
        have hmarked : (fun a => Function.update h.marked s false a && decide (a ∉ rest)) =
            fun a => h.marked a && decide (a ∉ s :: rest) := by
          funext a
          by_cases has : a = s
          · simp [has]
          · simp [has]
        rw [List.filter_cons_of_pos hm, List.filter_congr hkeep, ← hlive, ← hmarked,
          List.append_assoc, List.singleton_append]
      · have hrest : rest.filter (fun a => !Function.update h.marked s false a) =
            (s :: rest).filter fun a => !h.marked a := by
          rw [List.filter_cons_of_neg (by simp [hm])]
          exact List.filter_congr fun a ha => congrArg (!·) (hkeep a ha)
        rw [← hrest]

/-- A collection ends on every graph. It keeps exactly what a path of live slots joins to a
root, counts the rest and leaves the heap as the next one needs it. -/
theorem Sound.collect {h : GcHeap A} (hs : h.Sound) (trace : A → List (Option A)) :
    ∃ h' n, h.collect trace = some (h', n) ∧ h'.Sound ∧ h'.roots = h.roots ∧
      (∀ a, a ∈ h'.live ↔ Worklist.Reachable h.live (edges trace) h.roots a) ∧
      h'.slots = h.slots.filter (· ∈ h'.live) ∧
      n = (h.slots.filter (· ∉ h'.live)).length := by
  obtain ⟨marked, hmark, hreach, -⟩ :=
    Worklist.visitAll_spec (edges trace) h.roots.reverse hs.clean le_rfl
  have hall : ∀ a ∈ h.slots, marked a = true ↔ Worklist.Reachable h.live (edges trace) h.roots a := by
    intro a ha
    rw [hreach a ((hs.agree a).mp ha)]
    simp [Worklist.Reachable]
  have hlive : ∀ a, a ∈ h.live.filter (fun a => a ∈ h.slots → marked a = true) ↔
      a ∈ h.slots ∧ marked a = true := by
    intro a
    rw [Finset.mem_filter, ← hs.agree]
    tauto
  have hrun : h.collect trace = some (sweep { h with marked := marked } [] 0 h.slots) := by
    rw [GcHeap.collect]
    simp only [hmark, Option.map_some]
  rw [sweep_eq _ hs.nodup] at hrun
  refine ⟨_, _, hrun, ?_, rfl, ?_, ?_, ?_⟩
  · constructor
    case nodup => exact hs.nodup.filter _
    case agree =>
      intro a
      rw [hlive, List.nil_append, List.mem_filter]
    case clean =>
      intro a ha
      simp [((hlive a).mp ha).1]
  · intro a
    rw [hlive]
    constructor
    · rintro ⟨ha, hm⟩
      exact (hall a ha).mp hm
    · intro hr
      have ha : a ∈ h.slots := (hs.agree a).mpr (Worklist.Reachable.mem_of_closed
        (P := (· ∈ h.live)) (fun _ _ hl => hl) (fun _ _ _ _ _ hl => hl) hr)
      exact ⟨ha, (hall a ha).mpr hr⟩
  · rw [List.nil_append]
    refine List.filter_congr fun a ha => ?_
    simp [hlive, ha]
  · rw [Nat.zero_add]
    congr 1
    refine List.filter_congr fun a ha => ?_
    simp [hlive, ha]

end GcHeap
end HftExercises.Gc
