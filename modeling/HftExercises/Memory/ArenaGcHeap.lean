import HftExercises.Core.Worklist
import Mathlib.Data.List.TakeDrop

/-! # The arena with a mark phase

`ArenaGcHeap` keeps its slots in the order of allocation and names them by index. A
collection marks from `roots_` and pops the slots behind the last marked one; what
lies before it stays at its index, marked or not.
-/
namespace HftExercises.ArenaGc

/-- `ArenaGcTracer::kNull` -/
def kNull : ℕ := 2 ^ 64 - 1

/-- A slot is given by the number of its object, `marked` is the flag of the slot at an index. -/
structure ArenaGcHeap where
  slots : List ℕ
  marked : ℕ → Bool
  roots : List ℕ
  capacity : UInt64

/-- What `trace()` of the slot at an index puts on the worklist: `visit` drops `kNull`. -/
def edges (trace : ℕ → List ℕ) (i : ℕ) : List ℕ := (trace i).filter (· ≠ kNull)

/-- One round of the loop that moves the entries to keep to the front: the entry at `j` is
written behind the ones kept before. -/
def pruneAt (size : ℕ) (s : List ℕ × ℕ) (j : ℕ) : List ℕ × ℕ :=
  match s.1[j]? with
  | none => s
  | some r => if r < size then (s.1.set s.2 r, s.2 + 1) else s

/-- The entries are cut down to the ones kept. -/
def prune (size : ℕ) (roots : List ℕ) : List ℕ :=
  let s := (List.range roots.length).foldl (pruneAt size) (roots, 0)
  s.1.take s.2

theorem prune_eq (size : ℕ) (roots : List ℕ) : prune size roots = roots.filter (· < size) := by
  -- the entries from `j` on are untouched and the ones kept lie before them
  suffices hloop : ∀ j ≤ roots.length, ∃ l kept,
      (List.range j).foldl (pruneAt size) (roots, 0) = (l, kept) ∧ kept ≤ j ∧
        l.length = roots.length ∧ l.drop j = roots.drop j ∧
        l.take kept = (roots.take j).filter (· < size) by
    obtain ⟨l, kept, hrun, -, -, -, htake⟩ := hloop roots.length le_rfl
    rw [List.take_length] at htake
    rw [prune, hrun]
    exact htake
  intro j
  induction j with
  | zero => exact fun _ => ⟨roots, 0, rfl, le_rfl, rfl, rfl, rfl⟩
  | succ j ih =>
    intro hj
    obtain ⟨l, kept, hrun, hkept, hlen, hdrop, htake⟩ := ih (by omega)
    have hjl : j < roots.length := hj
    have hget : l[j]? = some roots[j] := by
      have hhead := congrArg List.head? hdrop
      rwa [List.head?_drop, List.head?_drop, List.getElem?_eq_getElem hjl] at hhead
    have hdrop' : l.drop (j + 1) = roots.drop (j + 1) := by
      rw [← List.tail_drop, hdrop, List.tail_drop]
    rw [List.range_succ, List.foldl_append, hrun, List.foldl_cons, List.foldl_nil, pruneAt, hget]
    rw [List.take_succ_eq_append_getElem hjl, List.filter_append]
    by_cases hr : roots[j] < size
    · refine ⟨l.set kept roots[j], kept + 1, if_pos hr, by omega, by simpa using hlen, ?_, ?_⟩
      · rw [List.drop_set_of_lt (by omega), hdrop']
      · rw [List.take_succ_eq_append_getElem (by simp; omega), List.take_set_of_le le_rfl, htake,
          List.getElem_set_self, List.filter_singleton, decide_eq_true hr, cond_true]
    · exact ⟨l, kept, if_neg hr, by omega, hlen, hdrop', by simp [hr, htake]⟩

namespace ArenaGcHeap

def init (capacity : UInt64) : ArenaGcHeap where
  slots := []
  marked := fun _ => false
  roots := []
  capacity := capacity

/-- The index of the new slot; `none` is the null handle. -/
def allocate (h : ArenaGcHeap) (object : ℕ) : Option (ℕ × ArenaGcHeap) :=
  if h.slots.length ≥ h.capacity.toNat then none
  else some (h.slots.length, { h with
    slots := h.slots ++ [object]
    marked := Function.update h.marked h.slots.length false })

def isLive (h : ArenaGcHeap) (slot : ℕ) : Bool := slot < h.slots.length

/-- The indices that the mark phase does not skip. -/
def indices (h : ArenaGcHeap) : Finset ℕ := (Finset.range h.slots.length).erase kNull

/-- Slots are popped until the back one is marked or none is left. -/
def popDead (marked : ℕ → Bool) (slots : List ℕ) : Option (List ℕ × ℕ) :=
  whileLoop (fun s => !s.1.isEmpty && !marked (s.1.length - 1))
    (fun s => some (s.1.dropLast, s.2 + 1)) slots.length (slots, 0)

/-- The worklist starts as a copy of `roots_` and is popped at its back. -/
def collect (h : ArenaGcHeap) (trace : ℕ → List ℕ) : Option (ArenaGcHeap × ℕ) :=
  let start := (h.marked, h.roots.reverse)
  (Worklist.visitAll h.indices (edges trace) (Worklist.work h.indices (edges trace) start) start).bind
    fun s => (popDead s.1 h.slots).map fun r =>
      ({ h with
        slots := r.1
        marked := fun i => s.1 i && decide (r.1.length ≤ i)
        roots := prune r.1.length h.roots }, r.2)

def reset (h : ArenaGcHeap) : ArenaGcHeap := { h with slots := [], roots := [] }

/-- Between the calls. -/
structure Sound (h : ArenaGcHeap) : Prop where
  fits : h.slots.length ≤ h.capacity.toNat
  clean : ∀ i < h.slots.length, h.marked i = false

theorem sound_init (capacity : UInt64) : (init capacity).Sound where
  fits := Nat.zero_le _
  clean _ hi := absurd hi (Nat.not_lt_zero _)

theorem allocate_eq_some {h h' : ArenaGcHeap} {object i : ℕ}
    (ha : h.allocate object = some (i, h')) :
    i = h.slots.length ∧ i < h.capacity.toNat ∧ h' = { h with
      slots := h.slots ++ [object]
      marked := Function.update h.marked h.slots.length false } := by
  rw [ArenaGcHeap.allocate] at ha
  split_ifs at ha with hfull
  cases ha
  exact ⟨rfl, by omega, rfl⟩

theorem Sound.allocate {h h' : ArenaGcHeap} (hs : h.Sound) {object i : ℕ}
    (ha : h.allocate object = some (i, h')) : h'.Sound := by
  obtain ⟨rfl, hroom, rfl⟩ := allocate_eq_some ha
  constructor
  case fits =>
    simp only [List.length_append, List.length_singleton]
    exact hroom
  case clean =>
    intro i hi
    simp only [List.length_append, List.length_singleton] at hi
    by_cases hlast : i = h.slots.length
    · simp [hlast]
    · simp only [Function.update_of_ne hlast]
      exact hs.clean i (by omega)

theorem Sound.reset {h : ArenaGcHeap} : h.reset.Sound where
  fits := Nat.zero_le _
  clean _ hi := absurd hi (Nat.not_lt_zero _)

theorem Sound.mem_indices {h : ArenaGcHeap} (hs : h.Sound) (i : ℕ) :
    i ∈ h.indices ↔ i < h.slots.length := by
  have hfits := hs.fits
  have hcapacity := h.capacity.toNat_lt
  rw [indices, Finset.mem_erase, Finset.mem_range, kNull]
  omega

/-- What is popped is the longest run of unmarked slots at the end. -/
theorem popDead_spec (marked : ℕ → Bool) (slots : List ℕ) :
    ∃ k ≤ slots.length, popDead marked slots = some (slots.take k, slots.length - k) ∧
      (∀ i, k ≤ i → i < slots.length → marked i = false) ∧ (k = 0 ∨ marked (k - 1) = true) := by
  have hpop : ∀ s : List ℕ × ℕ,
      (∃ k ≤ slots.length, s = (slots.take k, slots.length - k) ∧
        ∀ i, k ≤ i → i < slots.length → marked i = false) →
      (!s.1.isEmpty && !marked (s.1.length - 1)) = true →
      ∃ s', (∀ _ : Unit, some (s.1.dropLast, s.2 + 1) = some s') ∧
        (∃ k ≤ slots.length, s' = (slots.take k, slots.length - k) ∧
          ∀ i, k ≤ i → i < slots.length → marked i = false) ∧ s'.1.length < s.1.length := by
    rintro _ ⟨k, hk, rfl, hdead⟩ hg
    simp only [Bool.and_eq_true, Bool.not_eq_true', List.isEmpty_eq_false_iff,
      List.length_take_of_le hk] at hg
    have hpos : 0 < k := by
      rw [← List.length_take_of_le hk]
      exact List.length_pos_of_ne_nil hg.1
    refine ⟨_, fun _ => rfl, ⟨k - 1, by omega, ?_, fun i hi hlt => ?_⟩, ?_⟩
    · rw [List.dropLast_eq_take, List.length_take_of_le hk, List.take_take,
        Nat.min_eq_left (by omega)]
      refine Prod.ext rfl ?_
      change slots.length - k + 1 = slots.length - (k - 1)
      omega
    · by_cases hlast : i = k - 1
      · exact hlast ▸ hg.2
      · exact hdead i (by omega) hlt
    · simp only [List.length_dropLast, List.length_take_of_le hk]
      omega
  obtain ⟨_, hrun, ⟨k, hk, rfl, hdead⟩, hstop⟩ := whileLoop_total
    (fun (_ : Unit) (s : List ℕ × ℕ) => some (s.1.dropLast, s.2 + 1)) _ (fun s => s.1.length) hpop
    (n := slots.length) (s := (slots, 0)) le_rfl
    ⟨slots.length, le_rfl, by simp, fun i hi hlt => absurd hlt (by omega)⟩
  refine ⟨k, hk, hrun (), hdead, ?_⟩
  simp only [Bool.and_eq_false_iff, Bool.not_eq_false', List.isEmpty_iff,
    List.length_take_of_le hk] at hstop
  refine hstop.imp_left fun hnil => ?_
  rw [← List.length_take_of_le hk, hnil, List.length_nil]

/-- A collection ends on every graph. It cuts off the longest run of slots at the end that no
path joins to a root, and answers with its length. -/
theorem Sound.collect {h : ArenaGcHeap} (hs : h.Sound) (trace : ℕ → List ℕ) :
    ∃ h' k, h.collect trace = some (h', h.slots.length - k) ∧ h'.Sound ∧ k ≤ h.slots.length ∧
      h'.slots = h.slots.take k ∧ h'.roots = h.roots.filter (· < k) ∧
      ∀ j, (∀ i, j ≤ i → i < h.slots.length →
        ¬ Worklist.Reachable h.indices (edges trace) h.roots i) ↔ k ≤ j := by
  obtain ⟨marked, hmark, hreach, -⟩ := Worklist.visitAll_spec (edges trace) h.roots.reverse
    (fun i hi => hs.clean i ((hs.mem_indices i).mp hi)) le_rfl
  have hall : ∀ i < h.slots.length,
      marked i = true ↔ Worklist.Reachable h.indices (edges trace) h.roots i := by
    intro i hi
    rw [hreach i ((hs.mem_indices i).mpr hi)]
    simp [Worklist.Reachable]
  obtain ⟨k, hk, hpop, hdead, hback⟩ := popDead_spec marked h.slots
  have hlen : (h.slots.take k).length = k := List.length_take_of_le hk
  have hrun : h.collect trace = some ({ h with
      slots := h.slots.take k
      marked := fun i => marked i && decide ((h.slots.take k).length ≤ i)
      roots := prune (h.slots.take k).length h.roots }, h.slots.length - k) := by
    rw [ArenaGcHeap.collect]
    simp only [hmark, Option.bind_some, hpop, Option.map_some]
  refine ⟨_, k, hrun, ⟨?_, fun i hi => ?_⟩, hk, rfl, ?_, fun j => ?_⟩
  · exact hlen.trans_le (hk.trans hs.fits)
  · simp only [decide_eq_false (Nat.not_le.mpr hi), Bool.and_false]
  · simp only [prune_eq, hlen]
  · constructor
    · intro hnone
      by_contra hlt
      rcases hback with rfl | hm
      · omega
      · exact hnone (k - 1) (by omega) (by omega) ((hall (k - 1) (by omega)).mp hm)
    · intro hkj i hi hlt hr
      rw [← hall i hlt, hdead i (hkj.trans hi) hlt] at hr
      exact Bool.false_ne_true hr

end ArenaGcHeap
end HftExercises.ArenaGc
