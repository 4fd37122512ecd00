import Mathlib.Algebra.Ring.Int.Defs
import Mathlib.Algebra.Ring.Nat

/-! # Two 32-bit halves of a 64-bit word

The word holds a signed value in its low half and an unsigned one in its high
half. All facts are about the integers the halves stand for.
-/
namespace HftExercises

theorem toNat_mask_or_shift (x y : UInt64) :
    ((x &&& (0xFFFFFFFF : UInt64)) ||| (y <<< (32 : UInt64))).toNat =
      y.toNat % 2 ^ 32 * 2 ^ 32 + x.toNat % 2 ^ 32 := by
  have hmask : (x &&& (0xFFFFFFFF : UInt64)).toNat = x.toNat % 2 ^ 32 := by
    rw [UInt64.toNat_and]
    exact Nat.and_two_pow_sub_one_eq_mod x.toNat 32
  have hshift : (y <<< (32 : UInt64)).toNat = (y.toNat % 2 ^ 32) <<< 32 := by
    have h32 : UInt64.toNat 32 % 64 = 32 := by decide
    rw [UInt64.toNat_shiftLeft, h32, Nat.shiftLeft_eq, Nat.shiftLeft_eq]
    omega
  rw [UInt64.toNat_or, hmask, hshift, Nat.or_comm, ← Nat.shiftLeft_add_eq_or_of_lt (by omega),
    Nat.shiftLeft_eq]

/-- The low half, sign-extended. -/
theorem toInt_low_half (w : UInt64) :
    w.toUInt32.toInt32.toInt64.toInt = (w.toNat : ℤ).bmod (2 ^ 32) := by
  have hint : w.toUInt32.toInt32.toInt = w.toUInt32.toBitVec.toInt := rfl
  have hnat : w.toUInt32.toBitVec.toNat = w.toNat % 2 ^ 32 := by simp
  rw [Int32.toInt_toInt64, hint, BitVec.toInt_eq_toNat_bmod, hnat, Int.natCast_emod]
  exact Int.emod_bmod _ _

theorem toInt_high_half (w : UInt64) :
    (w >>> (32 : UInt64)).toInt64.toInt = (w.toNat : ℤ) / 2 ^ 32 := by
  have hint : (w >>> (32 : UInt64)).toInt64.toInt = (w >>> (32 : UInt64)).toBitVec.toInt := rfl
  have hnat : (w >>> (32 : UInt64)).toNat = w.toNat / 2 ^ 32 := by
    have h32 : UInt64.toNat 32 % 64 = 32 := by decide
    rw [UInt64.toNat_shiftRight, Nat.shiftRight_eq_div_pow, h32]
  have hword : (w >>> (32 : UInt64)).toBitVec.toNat = (w >>> (32 : UInt64)).toNat := rfl
  have hlt := w.toNat_lt
  rw [hint, BitVec.toInt_eq_toNat_bmod, hword, hnat, Int.bmod_eq_of_le (by omega) (by omega)]
  omega

theorem toNat_toUInt64 (a : Int64) : (a.toUInt64.toNat : ℤ) = a.toInt % 2 ^ 64 := by
  have hword : a.toUInt64.toNat = a.toBitVec.toNat := rfl
  have hint : a.toInt = a.toBitVec.toInt := rfl
  have hlt := a.toBitVec.isLt
  rw [hword, hint, BitVec.toInt_eq_toNat_cond]
  split_ifs <;> omega

end HftExercises

/-! ## Signed words that do not overflow

Where an exact result fits, the arithmetic of 64-bit words is that of the integers.
-/
namespace HftExercises.SignedWord
variable {a b : Int64}

def Fits (x : ℤ) : Prop := -2 ^ 63 ≤ x ∧ x < 2 ^ 63

theorem Fits.bmod_eq {x : ℤ} (h : Fits x) : x.bmod (2 ^ 64) = x :=
  Int.bmod_eq_of_le (by have := h.1; omega) (by have := h.2; omega)

theorem Fits.of_le {x y : ℤ} (h : 0 ≤ x) (hxy : x ≤ y) (hy : y < 2 ^ 63) : Fits x :=
  ⟨by omega, by omega⟩

theorem toInt_add (h : Fits (a.toInt + b.toInt)) : (a + b).toInt = a.toInt + b.toInt := by
  rw [Int64.toInt_add, h.bmod_eq]

theorem toInt_mul (h : Fits (a.toInt * b.toInt)) : (a * b).toInt = a.toInt * b.toInt := by
  rw [Int64.toInt_mul, h.bmod_eq]

theorem toInt_div (ha : 0 ≤ a.toInt) (hb : 0 ≤ b.toInt) : (a / b).toInt = a.toInt / b.toInt := by
  have hfits : Fits (a.toInt / b.toInt) :=
    .of_le (Int.ediv_nonneg ha hb) (Int.ediv_le_self _ ha) a.toInt_lt
  rw [Int64.toInt_div, Int.tdiv_eq_ediv_of_nonneg ha, hfits.bmod_eq]

theorem toInt_mod (ha : 0 ≤ a.toInt) : (a % b).toInt = a.toInt % b.toInt := by
  rw [Int64.toInt_mod, Int.tmod_eq_emod_of_nonneg ha]

/-- A quotient, and the multiple it stands for, lie between zero and the dividend. -/
theorem tdiv_between {x y : ℤ} (hx : 0 ≤ x) (hy : 0 < y) :
    (0 ≤ x.tdiv y ∧ x.tdiv y ≤ x) ∧ 0 ≤ x.tdiv y * y ∧ x.tdiv y * y ≤ x := by
  have hquot : 0 ≤ x.tdiv y := Int.tdiv_nonneg hx (by omega)
  have hrem : 0 ≤ x.tmod y := Int.tmod_nonneg y hx
  have hsplit := Int.tdiv_mul_add_tmod x y
  exact ⟨⟨hquot, Int.tdiv_le_self y hx⟩, Int.mul_nonneg hquot (by omega), by omega⟩

/-- Rounding a word toward zero to a multiple. -/
theorem toInt_div_mul (hb : 0 < b.toInt) : (a / b * b).toInt = a.toInt.tdiv b.toInt * b.toInt := by
  have hlt := a.toInt_lt
  have hle := a.le_toInt
  have hfits : Fits (a.toInt.tdiv b.toInt) ∧ Fits (a.toInt.tdiv b.toInt * b.toInt) := by
    rcases Int.le_total 0 a.toInt with hsign | hsign
    · obtain ⟨hquot, hprod⟩ := tdiv_between hsign hb
      exact ⟨⟨by omega, by omega⟩, ⟨by omega, by omega⟩⟩
    · obtain ⟨hquot, hprod⟩ := tdiv_between (Int.neg_nonneg_of_nonpos hsign) hb
      rw [Int.neg_tdiv] at hquot hprod
      rw [Int.neg_mul] at hprod
      exact ⟨⟨by omega, by omega⟩, ⟨by omega, by omega⟩⟩
  have hquot : (a / b).toInt = a.toInt.tdiv b.toInt := by
    rw [Int64.toInt_div, hfits.1.bmod_eq]
  rw [toInt_mul (by rw [hquot]; exact hfits.2), hquot]

/-- An unsigned word below the sign bit keeps its value. -/
theorem toInt_toInt64 {n : UInt64} (h : n.toNat < 2 ^ 63) : n.toInt64.toInt = n.toNat := by
  have hbits : n.toInt64.toInt = (n.toNat : ℤ).bmod (2 ^ 64) := n.toBitVec.toInt_eq_toNat_bmod
  rw [hbits, Fits.bmod_eq ⟨by omega, by omega⟩]

/-- The loop counter of a loop that runs a word's number of times. -/
theorem toNat_ofNat_add_one {n : UInt64} {k : ℕ} (h : k < n.toNat) :
    (UInt64.ofNat k + 1).toNat = k + 1 := by
  have hn := n.toNat_lt
  rw [UInt64.toNat_add, UInt64.toNat_ofNat', UInt64.toNat_one]
  omega

end HftExercises.SignedWord
