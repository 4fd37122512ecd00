import Mathlib.Data.List.Nodup
import Mathlib.Data.List.Perm.Basic
import HftExercises.Core.ThreadCount

/-! # Allocated things, each in one place

Addresses are given out in order and never twice. Every address given out is
either in the common store, once, or in the hand of exactly one thread.
-/
namespace HftExercises
variable {T : Type*}

structure Stock (store : List ℕ) (hand : T → Option ℕ) (fresh : ℕ) : Prop where
  nodup : store.Nodup
  unique : ∀ t u n, hand t = some n → hand u = some n → t = u
  apart : ∀ t n, hand t = some n → n ∉ store
  all : ∀ n, n < fresh ↔ n ∈ store ∨ ∃ t, hand t = some n

namespace Stock
variable {store store' : List ℕ} {hand : T → Option ℕ} {fresh n : ℕ} {t : T}

theorem init : Stock [] (fun _ : T => none) 0 where
  nodup := List.nodup_nil
  unique := nofun
  apart := nofun
  all := by simp

theorem lt_of_mem (h : Stock store hand fresh) (hn : n ∈ store) : n < fresh :=
  (h.all n).mpr (Or.inl hn)

theorem lt_of_hand (h : Stock store hand fresh) (ht : hand t = some n) : n < fresh :=
  (h.all n).mpr (Or.inr ⟨t, ht⟩)

theorem perm (h : Stock store hand fresh) (hperm : store.Perm store') :
    Stock store' hand fresh where
  nodup := hperm.nodup_iff.mp h.nodup
  unique := h.unique
  apart := fun t n ht hn => h.apart t n ht (hperm.mem_iff.mpr hn)
  all := fun n => by rw [h.all n, hperm.mem_iff]

/-- With empty hands everything given out is in the store. -/
theorem perm_range (h : Stock store hand fresh) (hempty : ∀ t, hand t = none) :
    store.Perm (List.range fresh) := by
  refine (List.perm_ext_iff_of_nodup h.nodup List.nodup_range).mpr ?_
  intro n
  rw [List.mem_range, h.all n]
  constructor
  · exact Or.inl
  · rintro (hn | ⟨t, ht⟩)
    · exact hn
    · rw [hempty t] at ht
      cases ht

variable [DecidableEq T]

theorem exists_hand_update {c : Option ℕ} :
    (∃ u, Function.update hand t c u = some n) ↔ c = some n ∨ ∃ u, u ≠ t ∧ hand u = some n := by
  constructor
  · rintro ⟨u, hu⟩
    rcases update_cases (· = some n) hu with ⟨_, hc⟩ | ⟨hne, hold⟩
    · exact Or.inl hc
    · exact Or.inr ⟨u, hne, hold⟩
  · rintro (rfl | ⟨u, hne, hu⟩)
    · exact ⟨t, Function.update_self _ _ _⟩
    · exact ⟨u, by rwa [Function.update_of_ne hne]⟩

theorem exists_hand_split (t : T) :
    (∃ u, hand u = some n) ↔ hand t = some n ∨ ∃ u, u ≠ t ∧ hand u = some n := by
  have hsplit : (∃ u, Function.update hand t (hand t) u = some n) ↔
      hand t = some n ∨ ∃ u, u ≠ t ∧ hand u = some n := exists_hand_update
  rwa [Function.update_eq_self] at hsplit

/-- One hand changes to something nobody else has. -/
theorem unique_update (h : Stock store hand fresh) {c : Option ℕ}
    (hc : ∀ n, c = some n → ∀ u, u ≠ t → hand u ≠ some n) (u v : T) (n : ℕ)
    (hu : Function.update hand t c u = some n) (hv : Function.update hand t c v = some n) :
    u = v := by
  rcases update_cases (· = some n) hu with ⟨hut, hcu⟩ | ⟨hut, hold⟩
  · rcases update_cases (· = some n) hv with ⟨hvt, _⟩ | ⟨hvt, hold⟩
    · rw [hut, hvt]
    · exact absurd hold (hc n hcu v hvt)
  · rcases update_cases (· = some n) hv with ⟨_, hcv⟩ | ⟨_, hold'⟩
    · exact absurd hold (hc n hcv u hut)
    · exact h.unique u v n hold hold'

/-- A thread gets a new one. -/
theorem alloc (h : Stock store hand fresh) (ht : hand t = none) :
    Stock store (Function.update hand t (some fresh)) (fresh + 1) where
  nodup := h.nodup
  unique := by
    refine h.unique_update ?_
    rintro n hn u _ hu
    cases hn
    exact absurd (h.lt_of_hand hu) (Nat.lt_irrefl fresh)
  apart := by
    intro u n hu hn
    rcases update_cases (· = some n) hu with ⟨_, hnew⟩ | ⟨_, hold⟩
    · cases hnew
      exact absurd (h.lt_of_mem hn) (Nat.lt_irrefl fresh)
    · exact h.apart u n hold hn
  all := by
    intro n
    rw [Nat.lt_succ_iff_lt_or_eq, h.all n, exists_hand_update, exists_hand_split t, ht]
    simp only [Option.some.injEq, reduceCtorEq, false_or, eq_comm (a := fresh)]
    exact or_assoc.trans (or_congr_right or_comm)

/-- A thread puts what it has into the store. -/
theorem put (h : Stock store hand fresh) (ht : hand t = some n) :
    Stock (n :: store) (Function.update hand t none) fresh where
  nodup := List.nodup_cons.mpr ⟨h.apart t n ht, h.nodup⟩
  unique := h.unique_update nofun
  apart := by
    intro u k hu hk
    rcases update_cases (· = some k) hu with ⟨_, hnone⟩ | ⟨hut, hold⟩
    · cases hnone
    · rcases List.mem_cons.mp hk with rfl | hk
      · exact hut (h.unique u t k hold ht)
      · exact h.apart u k hold hk
  all := by
    intro k
    rw [h.all k, List.mem_cons, exists_hand_update, exists_hand_split t, ht]
    simp only [Option.some.injEq, reduceCtorEq, false_or, eq_comm (a := n)]
    tauto

/-- A thread with an empty hand takes one from the store. -/
theorem take (h : Stock (n :: store) hand fresh) (ht : hand t = none) :
    Stock store (Function.update hand t (some n)) fresh where
  nodup := (List.nodup_cons.mp h.nodup).2
  unique := by
    refine h.unique_update ?_
    rintro k hk u _ hu
    cases hk
    exact h.apart u n hu List.mem_cons_self
  apart := by
    intro u k hu hk
    rcases update_cases (· = some k) hu with ⟨_, hnew⟩ | ⟨_, hold⟩
    · cases hnew
      exact (List.nodup_cons.mp h.nodup).1 hk
    · exact h.apart u k hold (List.mem_cons_of_mem n hk)
  all := by
    intro k
    rw [h.all k, List.mem_cons, exists_hand_update, exists_hand_split t, ht]
    simp only [Option.some.injEq, reduceCtorEq, false_or, eq_comm (a := n)]
    tauto

end Stock
end HftExercises
