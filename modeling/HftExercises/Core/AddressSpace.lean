import HftExercises.Core.ThreadCount
import Mathlib.Algebra.Group.Nat.Defs

/-! # Counting objects by their addresses

At every address there is at most one object. A count of objects that leaves out one
address is below the number of addresses, so a word can hold it.
-/
namespace HftExercises
variable {γ T : Type*} [Fintype T] {p : γ → Bool} {memory : T → γ} {a b : T}

theorem countAt_lt_card (h : p (memory a) = false) : countAt p memory < Fintype.card T := by
  refine Finset.card_lt_card (Finset.filter_ssubset.mpr ⟨a, Finset.mem_univ a, ?_⟩)
  rw [h]
  decide

theorem countAt_le_card_type (p : γ → Bool) (memory : T → γ) : countAt p memory ≤ Fintype.card T :=
  Finset.card_le_univ _

/-- A 64-bit address. -/
abbrev Address := Fin (2 ^ 64)

theorem countAt_lt_addresses {memory : Address → γ} {a : Address} (h : p (memory a) = false) :
    countAt p memory < 2 ^ 64 :=
  (countAt_lt_card h).trans_eq (Fintype.card_fin _)

variable [DecidableEq T]

theorem countAt_update_update (p : γ → Bool) (memory : T → γ) (hne : b ≠ a) (x y : γ) :
    countAt p (Function.update (Function.update memory a x) b y) + (p (memory a)).toNat +
      (p (memory b)).toNat = countAt p memory + (p x).toNat + (p y).toNat := by
  have hfirst := countAt_update p memory a x
  have hsecond := countAt_update p (Function.update memory a x) b y
  rw [Function.update_of_ne hne] at hsecond
  omega

/-- What is at one address goes to another one where nothing is counted. -/
theorem countAt_relocate (p : γ → Bool) (memory : T → γ) (hne : b ≠ a) {x : γ} (hx : p x = false)
    (hb : p (memory b) = false) :
    countAt p (Function.update (Function.update memory a x) b (memory a)) = countAt p memory := by
  have hmove := countAt_update_update p memory hne x (memory a)
  rw [hx, hb] at hmove
  simp only [Bool.toNat_false] at hmove
  omega

end HftExercises
