import Mathlib.Data.Finset.Card
import HftExercises.Core.Threads

/-! # A mutex with one condition variable

A waiting party gives the mutex up and falls asleep in one step. A notification
wakes any one sleeper, or all of them; a sleeper may also wake for no reason. A
party that was notified counts as such until it has looked at its condition
again, which it does with the mutex in hand.
-/
namespace HftExercises
variable {P : Type*}

/-- `blocked` parties sleep in `wait`; `notified` ones were woken by a
notification and have not looked again. -/
structure Monitor (P : Type*) where
  owner : Option P
  blocked : Finset P
  notified : Finset P
  apart : Disjoint blocked notified

namespace Monitor

def init : Monitor P where
  owner := none
  blocked := ∅
  notified := ∅
  apart := Finset.disjoint_empty_left _

def lock (m : Monitor P) (p : P) : Option (Monitor P) :=
  match m.owner with
  | none => some { m with owner := some p }
  | some _ => none

def unlock (m : Monitor P) : Monitor P :=
  { m with owner := none }

variable [DecidableEq P]

/-- The condition was false: give the mutex up and sleep. -/
def sleep (m : Monitor P) (p : P) : Monitor P where
  owner := none
  blocked := insert p m.blocked
  notified := m.notified.erase p
  apart := by
    rw [Finset.disjoint_insert_left]
    exact ⟨Finset.notMem_erase p _, m.apart.mono_right (Finset.erase_subset p _)⟩

/-- The condition was true: the notification, if there was one, is used up. -/
def checked (m : Monitor P) (p : P) : Monitor P where
  owner := m.owner
  blocked := m.blocked
  notified := m.notified.erase p
  apart := m.apart.mono_right (Finset.erase_subset p _)

/-- Take the mutex again after a sleep. -/
def relock (m : Monitor P) (p : P) : Option (Monitor P) :=
  if p ∈ m.blocked then none else m.lock p

def wakeOne (m : Monitor P) (p : P) : Monitor P where
  owner := m.owner
  blocked := m.blocked.erase p
  notified := insert p m.notified
  apart := by
    rw [Finset.disjoint_insert_right]
    exact ⟨Finset.notMem_erase p _, m.apart.mono_left (Finset.erase_subset p _)⟩

/-- `notify_one` wakes the chosen sleeper, and nobody only when nobody sleeps. -/
def notifyOne (m : Monitor P) (choice : Option P) : Option (Monitor P) :=
  match choice with
  | none => if m.blocked = ∅ then some m else none
  | some p => if p ∈ m.blocked then some (m.wakeOne p) else none

def notifyAll (m : Monitor P) : Monitor P where
  owner := m.owner
  blocked := ∅
  notified := m.notified ∪ m.blocked
  apart := Finset.disjoint_empty_left _

/-- A spurious wake-up. -/
def stir (m : Monitor P) (p : P) : Option (Monitor P) :=
  if p ∈ m.blocked then
    some
      { owner := m.owner
        blocked := m.blocked.erase p
        notified := m.notified
        apart := m.apart.mono_left (Finset.erase_subset p _) }
  else none

section Spec
variable {m m' : Monitor P} {p : P} {choice : Option P}

omit [DecidableEq P] in
theorem lock_eq_some (h : m.lock p = some m') :
    m.owner = none ∧ m'.owner = some p ∧ m'.blocked = m.blocked ∧ m'.notified = m.notified := by
  unfold lock at h
  split at h
  · rename_i howner
    cases h
    exact ⟨howner, rfl, rfl, rfl⟩
  · cases h

theorem relock_eq_some (h : m.relock p = some m') : p ∉ m.blocked ∧ m.lock p = some m' := by
  unfold relock at h
  split_ifs at h with hp
  exact ⟨hp, h⟩

theorem notifyOne_eq_some (h : m.notifyOne choice = some m') :
    (choice = none ∧ m.blocked = ∅ ∧ m' = m) ∨
      ∃ p ∈ m.blocked, choice = some p ∧ m' = m.wakeOne p := by
  unfold notifyOne at h
  cases choice with
  | none =>
    simp only at h
    split_ifs at h with hempty
    cases h
    exact Or.inl ⟨rfl, hempty, rfl⟩
  | some p =>
    simp only at h
    split_ifs at h with hp
    cases h
    exact Or.inr ⟨p, hp, rfl, rfl⟩

theorem stir_eq_some (h : m.stir p = some m') :
    m'.owner = m.owner ∧ m'.blocked = m.blocked.erase p ∧ m'.notified = m.notified := by
  unfold stir at h
  split_ifs at h
  cases h
  exact ⟨rfl, rfl, rfl⟩

theorem notified_card_wakeOne (hp : p ∈ m.blocked) :
    (m.wakeOne p).notified.card = m.notified.card + 1 :=
  Finset.card_insert_of_notMem (Finset.disjoint_left.mp m.apart hp)

theorem notified_card_le_checked : m.notified.card ≤ (m.checked p).notified.card + 1 := by
  have hle : m.notified.card - 1 ≤ (m.checked p).notified.card := Finset.pred_card_le_card_erase
  omega

end Spec

/-- Whoever is inside a critical section owns the mutex. -/
def Guards (m : Monitor P) (inside : P → Bool) : Prop :=
  ∀ p, inside p = true → m.owner = some p

section Guards
variable {m m' : Monitor P} {inside inside' : P → Bool} {p q : P}

omit [DecidableEq P] in
theorem Guards.unique (h : m.Guards inside) (hp : inside p = true) (hq : inside q = true) :
    p = q :=
  Option.some.inj ((h p hp).symm.trans (h q hq))

omit [DecidableEq P] in
/-- Nobody enters. -/
theorem Guards.stay (h : m.Guards inside) (howner : m'.owner = m.owner)
    (hin : ∀ q, inside' q = true → inside q = true) : m'.Guards inside' :=
  fun q hq => howner.trans (h q (hin q hq))

omit [DecidableEq P] in
/-- One party enters with the mutex it has just taken. -/
theorem Guards.enter (h : m.Guards inside) (hm : m.lock p = some m')
    (hin : ∀ q, q ≠ p → inside' q = true → inside q = true) : m'.Guards inside' := by
  obtain ⟨hfree, howner, _⟩ := lock_eq_some hm
  intro q hq
  by_cases hqp : q = p
  · rw [hqp]
    exact howner
  · have hheld := h q (hin q hqp hq)
    rw [hfree] at hheld
    cases hheld

omit [DecidableEq P] in
/-- The party inside leaves, so nobody is left inside. -/
theorem Guards.leave (h : m.Guards inside) (hp : inside p = true) (hout : inside' p = false)
    (hin : ∀ q, q ≠ p → inside' q = true → inside q = true) : m'.Guards inside' := by
  intro q hq
  by_cases hqp : q = p
  · rw [hqp, hout] at hq
    cases hq
  · exact absurd (h.unique (hin q hqp hq) hp) hqp

end Guards
end Monitor
end HftExercises
