import HftExercises.Core.ListFacts
import Mathlib.Algebra.BigOperators.Ring.List
import Mathlib.Algebra.Order.BigOperators.Group.List
import Mathlib.Algebra.Order.Ring.Int
import Mathlib.Tactic.Ring

/-! # Allocations of a quantity over priced lots

An allocation that takes as much as it can of every lot cheaper than some price, and
nothing of a dearer one, costs least among those of its quantity.
-/
namespace HftExercises
variable {A B K : Type*}

theorem sum_map_sub (f g : A → ℤ) (l : List A) :
    (l.map fun a => f a - g a).sum = (l.map f).sum - (l.map g).sum := by
  induction l with
  | nil => rfl
  | cons a l ih =>
    simp only [List.map_cons, List.sum_cons, ih]
    omega

/-- The exchange: moving a unit from a lot to a cheaper one never costs more. -/
theorem cost_le_of_greedy {l : List A} {price fill alloc : A → ℤ} (last : ℤ)
    (hcheap : ∀ a ∈ l, price a < last → alloc a ≤ fill a)
    (hdear : ∀ a ∈ l, last < price a → fill a ≤ alloc a)
    (hsum : (l.map fill).sum = (l.map alloc).sum) :
    (l.map fun a => price a * fill a).sum ≤ (l.map fun a => price a * alloc a).sum := by
  have hterm : ∀ a ∈ l, 0 ≤ (price a * alloc a - price a * fill a) - (last * alloc a - last * fill a) := by
    intro a ha
    have hsplit : (price a * alloc a - price a * fill a) - (last * alloc a - last * fill a) =
        (price a - last) * (alloc a - fill a) := by ring
    rw [hsplit]
    rcases lt_trichotomy (price a) last with hlt | heq | hgt
    · exact mul_nonneg_of_nonpos_of_nonpos (by omega) (by have := hcheap a ha hlt; omega)
    · rw [heq, sub_self, zero_mul]
    · exact mul_nonneg (by omega) (by have := hdear a ha hgt; omega)
  have htotal : 0 ≤ (l.map fun a =>
      (price a * alloc a - price a * fill a) - (last * alloc a - last * fill a)).sum := by
    refine List.sum_nonneg fun x hx => ?_
    obtain ⟨a, ha, rfl⟩ := List.mem_map.mp hx
    exact hterm a ha
  rw [sum_map_sub, sum_map_sub, sum_map_sub, List.sum_map_mul_left, List.sum_map_mul_left, hsum,
    sub_self, sub_zero] at htotal
  omega

theorem sum_map_flatMap (f : B → ℤ) (g : K → List B) (keys : List K) :
    ((keys.flatMap g).map f).sum = (keys.map fun k => ((g k).map f).sum).sum := by
  induction keys with
  | nil => rfl
  | cons k keys ih =>
    rw [List.flatMap_cons, List.map_append, List.sum_append, List.map_cons, List.sum_cons, ih]

/-- A sum taken key by key. -/
theorem sum_by_key [DecidableEq K] {key : A → K} {label : B → K} {l : List A}
    (hl : (l.map key).Nodup) {ts : List B} (hts : ∀ t ∈ ts, label t ∈ l.map key) (f : B → ℤ) :
    (ts.map f).sum = (l.map fun a => ((ts.filter fun t => label t = key a).map f).sum).sum := by
  have hperm := (flatMap_fibres_perm hl hts).map f
  rw [← hperm.sum_eq, sum_map_flatMap, List.map_map]
  rfl

end HftExercises
