import Mathlib.Data.Nat.ModEq

/-! # Probing a ring of slots

From a home position a linear probe visits the slots of a ring one after the
other and comes back after as many steps as the ring is long. A search along it
stops at the first slot of a kind, or has seen the whole ring.
-/
namespace HftExercises

/-- The slot `d` steps behind `home`. -/
def ringPos (cap home d : ℕ) : ℕ := (home + d) % cap

theorem ringPos_lt {cap : ℕ} (hcap : 0 < cap) (home d : ℕ) : ringPos cap home d < cap :=
  Nat.mod_lt _ hcap

theorem ringPos_zero {cap home : ℕ} (h : home < cap) : ringPos cap home 0 = home :=
  Nat.mod_eq_of_lt h

theorem ringPos_next (cap home d : ℕ) :
    ringPos cap ((home + 1) % cap) d = ringPos cap home (d + 1) := by
  rw [ringPos, ringPos, Nat.mod_add_mod]
  congr 1
  omega

theorem ringPos_injective {cap home d e : ℕ} (hd : d < cap) (he : e < cap)
    (h : ringPos cap home d = ringPos cap home e) : d = e := by
  have hmod : Nat.ModEq cap d e := Nat.ModEq.add_left_cancel' home h
  rwa [Nat.ModEq, Nat.mod_eq_of_lt hd, Nat.mod_eq_of_lt he] at hmod

theorem exists_ringPos {cap home i : ℕ} (hhome : home < cap) (hi : i < cap) :
    ∃ d < cap, i = ringPos cap home d := by
  rcases Nat.lt_or_ge i home with h | h
  · refine ⟨cap + i - home, by omega, ?_⟩
    rw [ringPos, show home + (cap + i - home) = i + cap by omega, Nat.add_mod_right,
      Nat.mod_eq_of_lt hi]
  · refine ⟨i - home, by omega, ?_⟩
    rw [ringPos, show home + (i - home) = i by omega, Nat.mod_eq_of_lt hi]

/-- The first of `n` slots from `idx` on at which `p` holds. -/
def firstHit (p : ℕ → Bool) (cap : ℕ) : ℕ → ℕ → Option ℕ
  | 0, _ => none
  | n + 1, idx => if p idx then some idx else firstHit p cap n ((idx + 1) % cap)

theorem firstHit_cases (p : ℕ → Bool) {cap idx : ℕ} (n : ℕ) (hidx : idx < cap) :
    (∃ d < n, firstHit p cap n idx = some (ringPos cap idx d) ∧ p (ringPos cap idx d) = true ∧
      ∀ e < d, p (ringPos cap idx e) = false) ∨
    (firstHit p cap n idx = none ∧ ∀ d < n, p (ringPos cap idx d) = false) := by
  induction n generalizing idx with
  | zero => exact Or.inr ⟨rfl, nofun⟩
  | succ n ih =>
    have hzero := ringPos_zero hidx
    cases hp : p idx with
    | true =>
      refine Or.inl ⟨0, by omega, ?_, by rw [hzero, hp], nofun⟩
      rw [firstHit, if_pos hp, hzero]
    | false =>
      -- position `d` of the rest is position `d + 1` of the whole
      have hfirst : firstHit p cap (n + 1) idx = firstHit p cap n ((idx + 1) % cap) := by
        rw [firstHit, if_neg (by simp [hp])]
      have hpre : ∀ d, (∀ e < d, p (ringPos cap ((idx + 1) % cap) e) = false) →
          ∀ e < d + 1, p (ringPos cap idx e) = false := by
        intro d hd e he
        cases e with
        | zero => rw [hzero, hp]
        | succ e =>
          rw [← ringPos_next]
          exact hd e (by omega)
      rw [hfirst]
      rcases ih (Nat.mod_lt _ (by omega)) with ⟨d, hd, hhit, hpd, hbefore⟩ | ⟨hnone, hall⟩
      · rw [ringPos_next] at hhit hpd
        exact Or.inl ⟨d + 1, by omega, hhit, hpd, hpre d hbefore⟩
      · exact Or.inr ⟨hnone, hpre n hall⟩

/-- Masking with a power of two less one is reduction modulo it. -/
theorem and_pred_eq_mod {cap : ℕ} (hcap : ∃ k, cap = 2 ^ k) (n : ℕ) : n &&& (cap - 1) = n % cap := by
  obtain ⟨k, rfl⟩ := hcap
  exact Nat.and_two_pow_sub_one_eq_mod n k

end HftExercises
