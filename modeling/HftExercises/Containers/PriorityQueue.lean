import HftExercises.Algorithms.HeapArrays
import HftExercises.Core.Answers

/-! # The priority queue

The loop that goes down picks a child first and compares the parent with that one only. What
goes up, and what the members do to the array, is as in the heap exercise.
-/
namespace HftExercises.PriorityQueue
open ImplicitHeap Heaps

section Operations
variable {T : Type} (lower : T → T → Prop) [DecidableRel lower] {n : ℕ}

/-- `++child` when the right child has strictly higher priority. -/
def higherChild (heap : Vector T n) (i : Fin n) (h : 2 * i.val + 1 < n) : Fin n :=
  let child : Fin n := ⟨2 * i + 1, h⟩
  if hr : 2 * i.val + 1 + 1 < n then
    let right : Fin n := ⟨2 * i + 1 + 1, hr⟩
    if lower heap[child] heap[right] then right else child
  else child

variable {lower} in
theorem higherChild_isChild (heap : Vector T n) (i : Fin n) (h : 2 * i.val + 1 < n) :
    IsChild i (higherChild lower heap i h) := by
  simp only [higherChild]
  split_ifs with hr hlow
  · exact .inr rfl
  · exact .inl rfl
  · exact .inl rfl

def siftDown (heap : Vector T n) (i : Fin n) : Vector T n :=
  if h : 2 * i.val + 1 < n then
    let child := higherChild lower heap i h
    if lower (heap.get i) (heap.get child) then
      siftDown (heap.swap i child i.isLt child.isLt) child
    else heap
  else heap
termination_by n - i
decreasing_by
  have hchild : IsChild i (higherChild lower heap i h) := higherChild_isChild heap i h
  have hlt := hchild.lt
  omega

def push (heap : Array T) (value : T) : Array T := pushBack lower heap value

def emplace (heap : Array T) (value : T) : Array T := pushBack lower heap value

def top (heap : Array T) : Except String T := front "PriorityQueue::top on empty" heap

def pop (heap : Array T) : Array T :=
  if h : 0 < heap.size then popFront (siftDown lower) heap h else heap

inductive Command (T : Type)
  | push (value : T)
  | emplace (value : T)
  | top
  | pop
  | clear

/-- What `top` returns, or `none` of the other members. -/
abbrev Answer (T : Type) := Except String (Option T)

def step (heap : Array T) : Command T → Answer T × Array T
  | .push value => (.ok none, push lower heap value)
  | .emplace value => (.ok none, emplace lower heap value)
  | .top => ((top heap).map some, heap)
  | .pop => (.ok none, pop lower heap)
  | .clear => (.ok none, #[])

/-- The element on top, and the queue without it. -/
def popTop (heap : Array T) : Option (T × Array T) :=
  match top heap with
  | .ok x => some (x, pop lower heap)
  | .error _ => none

end Operations

variable {T : Type} {lower : T → T → Prop} {n : ℕ} {heap : Array T}

/-- What a call does to the elements of a queue. -/
inductive Specified (lower : T → T → Prop) :
    Multiset T → Command T → Answer T → Multiset T → Prop
  | push (s : Multiset T) (value : T) : Specified lower s (.push value) (.ok none) (value ::ₘ s)
  | emplace (s : Multiset T) (value : T) :
    Specified lower s (.emplace value) (.ok none) (value ::ₘ s)
  | top {s : Multiset T} {x : T} (h : IsTop lower s x) : Specified lower s .top (.ok (some x)) s
  | topEmpty : Specified lower 0 .top (.error "PriorityQueue::top on empty") 0
  | pop {s : Multiset T} {x : T} (h : IsTop lower (x ::ₘ s) x) :
    Specified lower (x ::ₘ s) .pop (.ok none) s
  | popEmpty : Specified lower 0 .pop (.ok none) 0
  | clear (s : Multiset T) : Specified lower s .clear (.ok none) 0

section Down
variable [DecidableRel lower] [IsStrictWeakOrder T lower]

theorem not_lower_higherChild {heap : Vector T n} {i s : Fin n} (h : 2 * i.val + 1 < n)
    (hs : IsChild i s) : ¬lower (values heap (higherChild lower heap i h)) (values heap s) := by
  have hleft : s.val = 2 * i + 1 → s = ⟨2 * i + 1, h⟩ := fun hs => Fin.ext hs
  simp only [higherChild]
  split_ifs with hr hlow
  · rcases hs with hs | hs
    · rw [hleft hs]
      exact asymm_of lower hlow
    · rw [show s = ⟨2 * i + 1 + 1, hr⟩ from Fin.ext hs]
      exact irrefl_of lower _
  · rcases hs with hs | hs
    · rw [hleft hs]
      exact irrefl_of lower _
    · rw [show s = ⟨2 * i + 1 + 1, hr⟩ from Fin.ext hs]
      exact hlow
  · rcases hs with hs | hs
    · rw [hleft hs]
      exact irrefl_of lower _
    · exact absurd (hs ▸ s.isLt) hr

variable (lower)

theorem siftDown_goesDown (n : ℕ) (heap : Vector T n) (i : Fin n) :
    GoesDown lower n (values heap) i (values (siftDown lower heap i)) := by
  induction heap, i using siftDown.induct lower with
  | case1 heap i h child hlow ih =>
    have hstep : siftDown lower heap i = siftDown lower (heap.swap i child) child := by
      rw [siftDown, dif_pos h]
      exact if_pos hlow
    rw [hstep]
    rw [values_swap] at ih
    exact .move (higherChild_isChild heap i h) child.isLt hlow
      (fun s hs _ => not_lower_higherChild h hs) ih
  | case2 heap i h child hlow =>
    have hstep : siftDown lower heap i = heap := by
      rw [siftDown, dif_pos h]
      exact if_neg hlow
    rw [hstep]
    exact .stay fun c hc _ => not_lower_trans hlow (not_lower_higherChild h hc)
  | case3 heap i h =>
    rw [siftDown, dif_neg h]
    refine .stay fun c hc hlt => absurd ?_ h
    rcases hc with hc | hc <;> omega

end Down

/-! ## Runs -/

section Calls
variable [DecidableRel lower] [IsStrictWeakOrder T lower]

variable (lower) in
theorem pop_spec (hpos : 0 < heap.size) : contents heap = heap[0] ::ₘ contents (pop lower heap) ∧
    (HeapOrdered lower heap → HeapOrdered lower (pop lower heap)) := by
  rw [pop, dif_pos hpos]
  exact popFront_spec (siftDown_goesDown lower) hpos

theorem step_specified (h : HeapOrdered lower heap) (call : Command T) :
    HeapOrdered lower (step lower heap call).2 ∧ Specified lower (contents heap) call
      (step lower heap call).1 (contents (step lower heap call).2) := by
  cases call with
  | push value =>
    refine ⟨h.pushBack value, ?_⟩
    rw [step, push, contents_pushBack]
    exact .push _ value
  | emplace value =>
    refine ⟨h.pushBack value, ?_⟩
    rw [step, emplace, contents_pushBack]
    exact .emplace _ value
  | top =>
    refine ⟨h, ?_⟩
    rw [step, top, front]
    split_ifs with hpos
    · exact .top (h.isTop hpos)
    · rw [contents_eq_zero.mpr hpos]
      exact .topEmpty
  | pop =>
    rw [step]
    by_cases hpos : 0 < heap.size
    · obtain ⟨hcons, hkept⟩ := pop_spec lower hpos
      have htop := h.isTop hpos
      refine ⟨hkept h, ?_⟩
      rw [hcons] at htop ⊢
      exact .pop htop
    · rw [pop, dif_neg hpos, contents_eq_zero.mpr hpos]
      exact ⟨h, .popEmpty⟩
  | clear => exact ⟨fun p => p.elim0, .clear _⟩

theorem drain_popTop (h : HeapOrdered lower heap) :
    (drain (popTop lower) heap.size heap : Multiset T) = contents heap ∧
      (drain (popTop lower) heap.size heap).Pairwise (fun x y => ¬lower x y) := by
  refine drain_spec contents (HeapOrdered lower) (fun s hs hnone => ?_)
    (fun s x s' hs hsome => ?_) h (Nat.le_of_eq Array.length_toList)
  · rw [contents_eq_zero]
    intro hpos
    rw [popTop, top, front, dif_pos hpos] at hnone
    cases hnone
  · by_cases hpos : 0 < s.size
    · rw [popTop, top, front, dif_pos hpos] at hsome
      cases hsome
      obtain ⟨hcons, hkept⟩ := pop_spec lower hpos
      exact ⟨hkept hs, hcons, (hs.isTop hpos).2⟩
    · rw [popTop, top, front, dif_neg hpos] at hsome
      cases hsome

/-- After any calls: a heap, whose elements the next call changes as it should, and which is
emptied from its maximal elements on. -/
theorem priorityQueue_kept (lower : T → T → Prop) [DecidableRel lower] [IsStrictWeakOrder T lower]
    (calls : List (Command T)) :
    let heap := stateAfter (step lower) #[] calls
    HeapOrdered lower heap ∧
      (∀ call, Specified lower (contents heap) call (step lower heap call).1
        (contents (step lower heap call).2)) ∧
      (drain (popTop lower) heap.size heap : Multiset T) = contents heap ∧
      (drain (popTop lower) heap.size heap).Pairwise (fun x y => ¬lower x y) := by
  intro heap
  have hkept : ∀ s call, HeapOrdered lower s → True → HeapOrdered lower (step lower s call).2 :=
    fun s call hs _ => (step_specified hs call).1
  have hempty : HeapOrdered lower (#[] : Array T) := fun p => p.elim0
  have hord : HeapOrdered lower heap :=
    stateAfter_invariant (step lower) (HeapOrdered lower) hkept hempty fun _ _ => trivial
  exact ⟨hord, fun call => (step_specified hord call).2, drain_popTop hord⟩

theorem priorityQueue_kept_nat : HeapOrdered (fun x y : ℕ => x < y)
    (stateAfter (step fun x y : ℕ => x < y) #[] [.push 2, .push 3, .emplace 3, .pop, .push 1]) :=
  (priorityQueue_kept (fun x y : ℕ => x < y)
    [.push 2, .push 3, .emplace 3, .pop, .push 1]).1

end Calls

end HftExercises.PriorityQueue
