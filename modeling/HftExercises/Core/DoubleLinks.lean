import Mathlib.Data.List.Chain
import Mathlib.Data.List.Nodup
import Mathlib.Logic.Function.Basic

/-! # Doubly linked lists of addresses

Every address has two links, and a list of addresses is linked when neighbours point at
each other. Putting an address in, taking one out, turning the list around and giving it
other ends each change a few links; what stays linked is said in terms of these links,
not of the order in which they were written.
-/
namespace HftExercises
variable {A : Type*}

@[ext]
structure Links (A : Type*) where
  next : A → Option A
  prev : A → Option A

namespace Links

def Adjacent (L : Links A) (a b : A) : Prop := L.next a = some b ∧ L.prev b = some a

def Linked (L : Links A) (as : List A) : Prop := as.IsChain L.Adjacent

variable {L L' : Links A} {a b n : A} {pre post as : List A}

section Write
variable [DecidableEq A]

def setNext (L : Links A) (a : A) (p : Option A) : Links A :=
  { L with next := Function.update L.next a p }

def setPrev (L : Links A) (a : A) (p : Option A) : Links A :=
  { L with prev := Function.update L.prev a p }

@[simp] theorem setNext_next (L : Links A) (a : A) (p : Option A) (x : A) :
    (L.setNext a p).next x = if x = a then p else L.next x := Function.update_apply ..

@[simp] theorem setNext_prev (L : Links A) (a : A) (p : Option A) :
    (L.setNext a p).prev = L.prev := rfl

@[simp] theorem setPrev_prev (L : Links A) (a : A) (p : Option A) (x : A) :
    (L.setPrev a p).prev x = if x = a then p else L.prev x := Function.update_apply ..

@[simp] theorem setPrev_next (L : Links A) (a : A) (p : Option A) :
    (L.setPrev a p).next = L.next := rfl

/-- Storing what is there changes nothing. -/
@[simp] theorem setNext_self (L : Links A) (a : A) : L.setNext a (L.next a) = L := by
  rw [setNext, Function.update_eq_self]

@[simp] theorem setPrev_self (L : Links A) (a : A) : L.setPrev a (L.prev a) = L := by
  rw [setPrev, Function.update_eq_self]

end Write

/-- Only the links between neighbours matter. -/
theorem Linked.congr (h : L.Linked as) (hnext : ∀ a ∈ as.dropLast, L'.next a = L.next a)
    (hprev : ∀ a ∈ as.tail, L'.prev a = L.prev a) : L'.Linked as := by
  induction as with
  | nil => exact List.isChain_nil
  | cons a as ih =>
    cases as with
    | nil => exact List.isChain_singleton a
    | cons b as =>
      obtain ⟨⟨hab, hba⟩, hrest⟩ := List.isChain_cons_cons.mp h
      rw [List.dropLast_cons_cons] at hnext
      refine List.isChain_cons_cons.mpr ⟨⟨?_, ?_⟩, ih hrest ?_ ?_⟩
      · rw [hnext a List.mem_cons_self, hab]
      · rw [hprev b List.mem_cons_self, hba]
      · exact fun x hx => hnext x (List.mem_cons_of_mem a hx)
      · exact fun x hx => hprev x (List.mem_cons_of_mem b hx)

theorem Linked.frame (h : L.Linked as) (hnext : ∀ a ∈ as, L'.next a = L.next a)
    (hprev : ∀ a ∈ as, L'.prev a = L.prev a) : L'.Linked as :=
  h.congr (fun a ha => hnext a (List.dropLast_subset as ha))
    fun a ha => hprev a (List.mem_of_mem_tail ha)

/-- The links once `n` is between `a` and `b`. -/
structure Inserted (L L' : Links A) (a n b : A) : Prop where
  next_left : L'.next a = some n
  next_new : L'.next n = some b
  prev_right : L'.prev b = some n
  prev_new : L'.prev n = some a
  next_other : ∀ x, x ≠ a → x ≠ n → L'.next x = L.next x
  prev_other : ∀ x, x ≠ b → x ≠ n → L'.prev x = L.prev x

/-- The links once what was between `a` and `b` is gone. -/
structure Erased (L L' : Links A) (a b : A) : Prop where
  next_left : L'.next a = some b
  prev_right : L'.prev b = some a
  next_other : ∀ x, x ≠ a → L'.next x = L.next x
  prev_other : ∀ x, x ≠ b → L'.prev x = L.prev x

theorem Linked.insert (h : L.Linked (pre ++ a :: b :: post)) (hnodup : (pre ++ a :: b :: post).Nodup)
    (hn : n ∉ pre ++ a :: b :: post) (hi : Inserted L L' a n b) :
    L'.Linked (pre ++ a :: n :: b :: post) := by
  obtain ⟨hpre, -, hpost⟩ := List.isChain_append_cons_cons.mp h
  rw [List.nodup_append, List.nodup_cons, List.nodup_cons] at hnodup
  obtain ⟨-, ⟨ha, hb, -⟩, hapart⟩ := hnodup
  simp only [List.mem_append, List.mem_cons, not_or] at hn ha
  refine List.isChain_append_cons_cons.mpr ⟨Linked.congr hpre ?_ ?_, ⟨hi.next_left, hi.prev_new⟩,
    List.isChain_cons_cons.mpr ⟨⟨hi.next_new, hi.prev_right⟩, Linked.congr hpost ?_ ?_⟩⟩
  · intro x hx
    rw [List.dropLast_concat] at hx
    exact hi.next_other x (hapart x hx a List.mem_cons_self) fun he => hn.1 (he ▸ hx)
  · intro x hx
    have hx' : x ∈ pre ++ [a] := List.mem_of_mem_tail hx
    simp only [List.mem_append, List.mem_singleton] at hx'
    rcases hx' with hx' | rfl
    · exact hi.prev_other x (hapart x hx' b (by simp)) fun he => hn.1 (he ▸ hx')
    · exact hi.prev_other x ha.1 (Ne.symm hn.2.1)
  · intro x hx
    have hx' : x = b ∨ x ∈ post := List.mem_cons.mp (List.dropLast_subset _ hx)
    rcases hx' with rfl | hx'
    · exact hi.next_other x (Ne.symm ha.1) (Ne.symm hn.2.2.1)
    · exact hi.next_other x (fun he => ha.2 (he ▸ hx')) fun he => hn.2.2.2 (he ▸ hx')
  · intro x hx
    exact hi.prev_other x (fun he => hb (he ▸ hx)) fun he => hn.2.2.2 (he ▸ hx)

theorem Linked.erase (h : L.Linked (pre ++ a :: n :: b :: post))
    (hnodup : (pre ++ a :: n :: b :: post).Nodup) (he : Erased L L' a b) :
    L'.Linked (pre ++ a :: b :: post) := by
  obtain ⟨hpre, -, hrest⟩ := List.isChain_append_cons_cons.mp h
  obtain ⟨-, hpost⟩ := List.isChain_cons_cons.mp hrest
  rw [List.nodup_append, List.nodup_cons, List.nodup_cons, List.nodup_cons] at hnodup
  obtain ⟨-, ⟨ha, -, hb, -⟩, hapart⟩ := hnodup
  simp only [List.mem_cons, not_or] at ha
  refine List.isChain_append_cons_cons.mpr ⟨Linked.congr hpre ?_ ?_, ⟨he.next_left, he.prev_right⟩,
    Linked.congr hpost ?_ ?_⟩
  · intro x hx
    rw [List.dropLast_concat] at hx
    exact he.next_other x (hapart x hx a List.mem_cons_self)
  · intro x hx
    have hx' : x ∈ pre ++ [a] := List.mem_of_mem_tail hx
    simp only [List.mem_append, List.mem_singleton] at hx'
    rcases hx' with hx' | rfl
    · exact he.prev_other x (hapart x hx' b (by simp))
    · exact he.prev_other x ha.2.1
  · intro x hx
    have hx' : x = b ∨ x ∈ post := List.mem_cons.mp (List.dropLast_subset _ hx)
    rcases hx' with rfl | hx'
    · exact he.next_other x (Ne.symm ha.2.1)
    · exact he.next_other x fun he => ha.2.2 (he ▸ hx')
  · intro x hx
    exact he.prev_other x fun he => hb (he ▸ hx)

/-- A linked list between two ends, in terms of what is inside. -/
theorem linked_between (hne : as ≠ []) : L.Linked (a :: (as ++ [b])) ↔
    L.Linked as ∧ (∀ x ∈ as.head?, L.Adjacent a x) ∧ ∀ x ∈ as.getLast?, L.Adjacent x b := by
  obtain ⟨x, xs, rfl⟩ := List.exists_cons_of_ne_nil hne
  unfold Linked
  rw [List.isChain_cons, List.isChain_append]
  simp only [List.head?_append, List.head?_cons, Option.some_or, Option.mem_some_iff,
    forall_eq', List.isChain_singleton, true_and]
  tauto

theorem ne_of_mem_dropLast (hnodup : as.Nodup) (hb : as.getLast? = some b) (ha : a ∈ as.dropLast) :
    a ≠ b := by
  rcases List.eq_nil_or_concat as with rfl | ⟨as, c, rfl⟩
  · simp at hb
  · rw [List.concat_eq_append] at hnodup hb ha
    rw [List.getLast?_concat] at hb
    rw [List.dropLast_concat] at ha
    obtain rfl := Option.some.inj hb
    rintro rfl
    exact (List.nodup_append.mp hnodup).2.2 a ha a (List.mem_singleton_self a) rfl

/-- Attach a linked list to other ends: only the outer links of its first and its last
address change. -/
theorem Linked.attach {first last : A} (h : L.Linked as) (hnodup : as.Nodup)
    (hfirst : as.head? = some first) (hlast : as.getLast? = some last)
    (ha : L'.Adjacent a first) (hb : L'.Adjacent last b)
    (hnext : ∀ x ∈ as, x ≠ last → L'.next x = L.next x)
    (hprev : ∀ x ∈ as, x ≠ first → L'.prev x = L.prev x) : L'.Linked (a :: (as ++ [b])) := by
  have hne : as ≠ [] := by
    rintro rfl
    simp at hfirst
  refine (linked_between hne).mpr ⟨h.congr ?_ ?_, ?_, ?_⟩
  · exact fun x hx => hnext x (List.dropLast_subset as hx) (ne_of_mem_dropLast hnodup hlast hx)
  · intro x hx
    obtain ⟨c, cs, rfl⟩ := List.exists_cons_of_ne_nil hne
    obtain rfl := Option.some.inj hfirst
    refine hprev x (List.mem_cons_of_mem c hx) ?_
    rintro rfl
    exact (List.nodup_cons.mp hnodup).1 hx
  · intro x hx
    obtain rfl := Option.some.inj (hfirst.symm.trans hx)
    exact ha
  · intro x hx
    obtain rfl := Option.some.inj (hlast.symm.trans hx)
    exact hb

/-- Backward, a linked list is the reversed list of the exchanged links. -/
theorem Linked.reverse (h : L.Linked as) (hnext : ∀ a ∈ as, L'.next a = L.prev a)
    (hprev : ∀ a ∈ as, L'.prev a = L.next a) : L'.Linked as.reverse := by
  refine List.isChain_reverse.mpr (List.IsChain.imp_of_mem_imp ?_ h)
  rintro x y hx hy ⟨hxy, hyx⟩
  exact ⟨(hnext y hy).trans hyx, (hprev x hx).trans hxy⟩

end Links

end HftExercises
