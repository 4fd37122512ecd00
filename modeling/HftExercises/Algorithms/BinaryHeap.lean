import HftExercises.Algorithms.HeapArrays
import HftExercises.Core.Answers

/-! # The binary heap

An array that is kept a heap, with erasure at an index and a linear construction.
-/
namespace HftExercises.Heaps
open ImplicitHeap

namespace BinaryHeap
variable {T : Type} (lower : T → T → Prop) [DecidableRel lower] {n : ℕ}

def siftDown (heap : Vector T n) (i : Fin n) : Vector T n := siftDownTo lower le_rfl heap i

def buildHeap (heap : Vector T n) : Vector T n :=
  if n < 2 then heap else siftDownBelow lower le_rfl (n / 2) (Nat.div_le_self n 2) heap

def fromRange (values : List T) : Array T := (buildHeap lower values.toArray.toVector).toArray

def push (heap : Array T) (value : T) : Array T := pushBack lower heap value

def emplace (heap : Array T) (value : T) : Array T := pushBack lower heap value

def top (heap : Array T) : Except String T := front "BinaryHeap::top on empty" heap

def pop (heap : Array T) : Except String (Array T) :=
  if h : 0 < heap.size then .ok (popFront (siftDown lower) heap h)
  else .error "BinaryHeap::pop on empty"

def eraseAt (heap : Array T) (i : ℕ) : Except String (Array T) :=
  if h : i < heap.size then
    let rest := dropAt heap ⟨i, h⟩
    .ok (if hr : i < heap.size - 1 then
        (siftDown lower (siftUp lower rest ⟨i, hr⟩) ⟨i, hr⟩).toArray
      else rest.toArray)
  else .error "BinaryHeap::erase_at OOB"

def replace (heap : Array T) (value : T) : Array T :=
  if h : 0 < heap.size then
    (siftDown lower (heap.toVector.set 0 value h) ⟨0, h⟩).toArray
  else push lower heap value

inductive Command (T : Type)
  | push (value : T)
  | emplace (value : T)
  | top
  | pop
  | eraseAt (i : ℕ)
  | replace (value : T)
  | clear

/-- What `top` returns, or `none` of the other members. -/
abbrev Answer (T : Type) := Except String (Option T)

/-- A call; when it throws, the array is as before. -/
def step (heap : Array T) : Command T → Answer T × Array T
  | .push value => (.ok none, push lower heap value)
  | .emplace value => (.ok none, emplace lower heap value)
  | .top => ((top heap).map some, heap)
  | .pop =>
    match pop lower heap with
    | .ok heap' => (.ok none, heap')
    | .error e => (.error e, heap)
  | .eraseAt i =>
    match eraseAt lower heap i with
    | .ok heap' => (.ok none, heap')
    | .error e => (.error e, heap)
  | .replace value => (.ok none, replace lower heap value)
  | .clear => (.ok none, #[])

/-- The element on top, and the heap without it. -/
def popTop (heap : Array T) : Option (T × Array T) :=
  match top heap, pop lower heap with
  | .ok x, .ok heap' => some (x, heap')
  | _, _ => none

end BinaryHeap

namespace BinaryHeap
variable {T : Type} {lower : T → T → Prop} {n : ℕ}

/-- What a call does to the elements of a heap. -/
inductive Specified (lower : T → T → Prop) (heap : Array T) :
    Command T → Answer T → Multiset T → Prop
  | push (value : T) : Specified lower heap (.push value) (.ok none) (value ::ₘ contents heap)
  | emplace (value : T) : Specified lower heap (.emplace value) (.ok none) (value ::ₘ contents heap)
  | top {x : T} (h : IsTop lower (contents heap) x) :
    Specified lower heap .top (.ok (some x)) (contents heap)
  | topEmpty (h : contents heap = 0) :
    Specified lower heap .top (.error "BinaryHeap::top on empty") (contents heap)
  | pop {x : T} {s : Multiset T} (h : IsTop lower (contents heap) x)
    (hs : contents heap = x ::ₘ s) : Specified lower heap .pop (.ok none) s
  | popEmpty (h : contents heap = 0) :
    Specified lower heap .pop (.error "BinaryHeap::pop on empty") (contents heap)
  | eraseAt {i : ℕ} {x : T} {s : Multiset T} (h : heap[i]? = some x)
    (hs : contents heap = x ::ₘ s) : Specified lower heap (.eraseAt i) (.ok none) s
  | eraseOut {i : ℕ} (h : heap.size ≤ i) :
    Specified lower heap (.eraseAt i) (.error "BinaryHeap::erase_at OOB") (contents heap)
  | replace {x : T} {s : Multiset T} (h : IsTop lower (contents heap) x)
    (hs : contents heap = x ::ₘ s) (value : T) :
    Specified lower heap (.replace value) (.ok none) (value ::ₘ s)
  | replaceEmpty (h : contents heap = 0) (value : T) :
    Specified lower heap (.replace value) (.ok none) {value}
  | clear : Specified lower heap .clear (.ok none) 0

/-! ## Members -/

section Members
variable [DecidableRel lower] [IsStrictWeakOrder T lower]
variable (lower)

theorem siftDown_goesDown (n : ℕ) (heap : Vector T n) (i : Fin n) :
    GoesDown lower n (values heap) i (values (siftDown lower heap i)) :=
  siftDownTo_goesDown lower le_rfl heap i

theorem fromRange_spec (range : List T) :
    HeapOrdered lower (fromRange lower range) ∧ contents (fromRange lower range) = range := by
  rw [fromRange, buildHeap]
  split_ifs with hn
  · exact ⟨heapOrdered_toArray (ordered_of_half (by omega)), rfl⟩
  · have hhalf := Nat.div_le_self range.toArray.size 2
    refine ⟨heapOrdered_toArray (siftDownBelow_ordered hhalf (ordered_of_half (by omega))), ?_⟩
    exact contents_of_rearranges (siftDownBelow_rearranges _ hhalf hhalf)

theorem pop_cases (heap : Array T) :
    contents heap = 0 ∧ pop lower heap = .error "BinaryHeap::pop on empty" ∨
      ∃ h : 0 < heap.size, ∃ heap', pop lower heap = .ok heap' ∧
        contents heap = heap[0] ::ₘ contents heap' ∧
        (HeapOrdered lower heap → HeapOrdered lower heap') := by
  by_cases h : 0 < heap.size
  · exact .inr ⟨h, _, dif_pos h, popFront_spec (siftDown_goesDown lower) h⟩
  · exact .inl ⟨contents_eq_zero.mpr h, dif_neg h⟩

theorem eraseAt_cases (heap : Array T) (i : ℕ) :
    heap.size ≤ i ∧ eraseAt lower heap i = .error "BinaryHeap::erase_at OOB" ∨
      ∃ h : i < heap.size, ∃ heap', eraseAt lower heap i = .ok heap' ∧
        contents heap = heap[i] ::ₘ contents heap' ∧
        (HeapOrdered lower heap → HeapOrdered lower heap') := by
  by_cases h : i < heap.size
  · refine .inr ⟨h, _, dif_pos h, ?_, fun hord => ?_⟩
    · rw [contents_dropAt heap ⟨i, h⟩]
      split_ifs with hi
      · rw [contents_of_goesDown (siftDown_goesDown lower _ _ _), contents_siftUp]
        rfl
      · rfl
    · split_ifs with hi
      · have hloose : Loose lower (values (dropAt heap ⟨i, h⟩)) (heap.size - 1) ⟨i, hi⟩ :=
          hord.loose (Nat.sub_le _ 1) fun k hk => values_dropAt heap ⟨i, h⟩ (Fin.val_ne_of_ne hk)
        exact heapOrdered_of_goesDown (siftDown_goesDown lower _ _ _)
          ((siftUp_goesUp lower _ _).sinking hloose hi)
      · refine heapOrdered_toArray (hord.restrict (Nat.sub_le _ 1) fun k => ?_)
        exact values_dropAt heap ⟨i, h⟩ fun hk => hi (hk.symm.trans_lt k.isLt)
  · exact .inl ⟨not_lt.mp h, dif_neg h⟩

/-- `replace` of a heap that is not empty exchanges the root for the value. -/
theorem replace_of_pos {heap : Array T} (h : 0 < heap.size) (value : T) :
    ∃ s, contents heap = heap[0] ::ₘ s ∧ contents (replace lower heap value) = value ::ₘ s ∧
      (HeapOrdered lower heap → HeapOrdered lower (replace lower heap value)) := by
  have hreplace : replace lower heap value =
      (siftDown lower (heap.toVector.set 0 value h) ⟨0, h⟩).toArray := dif_pos h
  have hgoes := siftDown_goesDown lower _ (heap.toVector.set 0 value h) ⟨0, h⟩
  obtain ⟨x, rest, hlist⟩ := List.exists_cons_of_length_pos (Array.length_toList.symm ▸ h)
  have hx : heap[0] = x := by
    rw [← Array.getElem_toList h]
    simp [hlist]
  refine ⟨rest, ?_, ?_, fun hord => ?_⟩
  · rw [hx, contents, hlist, Multiset.cons_coe]
  · rw [hreplace, contents_of_goesDown hgoes, contents]
    change ((heap.set 0 value h).toList : Multiset T) = _
    rw [Array.toList_set, hlist, List.set_cons_zero, Multiset.cons_coe]
  · rw [hreplace]
    have hloose : Loose lower (values (heap.toVector.set 0 value h)) heap.size ⟨0, h⟩ :=
      hord.loose le_rfl fun k hk =>
        Vector.getElem_set_ne h k.isLt fun heq => hk (Fin.ext heq.symm)
    exact heapOrdered_of_goesDown hgoes
      (hloose.sinking fun p hp => absurd hp.lt (Nat.not_lt_zero _))

end Members

section Calls
variable [DecidableRel lower] [IsStrictWeakOrder T lower] {heap : Array T}

/-! ## Runs -/

theorem step_specified (h : HeapOrdered lower heap) (call : Command T) :
    HeapOrdered lower (step lower heap call).2 ∧
      Specified lower heap call (step lower heap call).1 (contents (step lower heap call).2) := by
  cases call with
  | push value =>
    refine ⟨h.pushBack value, ?_⟩
    rw [step, push, contents_pushBack]
    exact .push value
  | emplace value =>
    refine ⟨h.pushBack value, ?_⟩
    rw [step, emplace, contents_pushBack]
    exact .emplace value
  | top =>
    refine ⟨h, ?_⟩
    rw [step, top, front]
    split_ifs with hpos
    · exact .top (h.isTop hpos)
    · exact .topEmpty (contents_eq_zero.mpr hpos)
  | pop =>
    rw [step]
    rcases pop_cases lower heap with ⟨hempty, hpop⟩ | ⟨hpos, heap', hpop, hcons, hkept⟩
    · rw [hpop]
      exact ⟨h, .popEmpty hempty⟩
    · rw [hpop]
      exact ⟨hkept h, .pop (h.isTop hpos) hcons⟩
  | eraseAt i =>
    rw [step]
    rcases eraseAt_cases lower heap i with
      ⟨hout, herase⟩ | ⟨hi, heap', herase, hcons, hkept⟩
    · rw [herase]
      exact ⟨h, .eraseOut hout⟩
    · rw [herase]
      exact ⟨hkept h, .eraseAt (Array.getElem?_eq_getElem hi) hcons⟩
  | replace value =>
    rw [step]
    by_cases hpos : 0 < heap.size
    · obtain ⟨s, hcons, hreplaced, hkept⟩ := replace_of_pos lower hpos value
      refine ⟨hkept h, ?_⟩
      rw [hreplaced]
      exact .replace (h.isTop hpos) hcons value
    · have hpush : replace lower heap value = pushBack lower heap value := dif_neg hpos
      have hempty := contents_eq_zero.mpr hpos
      rw [hpush, contents_pushBack, hempty]
      exact ⟨h.pushBack value, .replaceEmpty hempty value⟩
  | clear => exact ⟨fun p => p.elim0, .clear⟩

theorem drain_popTop (h : HeapOrdered lower heap) :
    (drain (popTop lower) heap.size heap : Multiset T) = contents heap ∧
      (drain (popTop lower) heap.size heap).Pairwise (fun x y => ¬lower x y) := by
  refine drain_spec contents (HeapOrdered lower) (fun s hs hnone => ?_)
    (fun s x s' hs hsome => ?_) h (Nat.le_of_eq Array.length_toList)
  · rw [contents_eq_zero]
    intro hpos
    obtain ⟨hempty, -⟩ | ⟨-, s', hpop, -⟩ := pop_cases lower s
    · exact contents_eq_zero.mp hempty hpos
    · rw [popTop, top, front, dif_pos hpos, hpop] at hnone
      cases hnone
  · rcases pop_cases lower s with ⟨-, hpop⟩ | ⟨hpos, s'', hpop, hcons, hkept⟩
    · rw [popTop, hpop] at hsome
      cases htop : top s <;> rw [htop] at hsome <;> cases hsome
    · rw [popTop, top, front, dif_pos hpos, hpop] at hsome
      cases hsome
      exact ⟨hkept hs, hcons, (hs.isTop hpos).2⟩

/-- Built from any range, after any calls: a heap, whose elements the next call changes as it
should, and which is emptied from its maximal elements on. -/
theorem binaryHeap_kept (lower : T → T → Prop) [DecidableRel lower] [IsStrictWeakOrder T lower]
    (range : List T) (calls : List (Command T)) :
    let heap := stateAfter (step lower) (fromRange lower range) calls
    contents (fromRange lower range) = range ∧ HeapOrdered lower heap ∧
      (∀ call, Specified lower heap call (step lower heap call).1
        (contents (step lower heap call).2)) ∧
      (drain (popTop lower) heap.size heap : Multiset T) = contents heap ∧
      (drain (popTop lower) heap.size heap).Pairwise (fun x y => ¬lower x y) := by
  intro heap
  obtain ⟨hbuilt, hcontents⟩ := fromRange_spec lower range
  have hkept : ∀ s call, HeapOrdered lower s → True → HeapOrdered lower (step lower s call).2 :=
    fun s call hs _ => (step_specified hs call).1
  have hord : HeapOrdered lower heap :=
    stateAfter_invariant (step lower) (HeapOrdered lower) hkept hbuilt fun _ _ => trivial
  exact ⟨hcontents, hord, fun call => (step_specified hord call).2, drain_popTop hord⟩

theorem binaryHeap_kept_nat : HeapOrdered (fun x y : ℕ => x < y)
    (stateAfter (step fun x y : ℕ => x < y) (fromRange (fun x y : ℕ => x < y) [3, 1, 4, 1, 5])
      [.push 2, .eraseAt 1, .replace 0]) :=
  (binaryHeap_kept (fun x y : ℕ => x < y) [3, 1, 4, 1, 5] [.push 2, .eraseAt 1, .replace 0]).2.1

end Calls

end BinaryHeap

end HftExercises.Heaps
