import Mathlib.Data.Nat.Digits.Lemmas
import Mathlib.Tactic.Ring

/-! # Numbers as bytes of seven bits

A number is cut into groups of seven bits, lowest first, one to a byte; the high
bit of every byte but the last is set. Here are the value such bytes stand for,
the bytes of a number, and what the word operations that build and read them do
to the numbers behind the words.
-/
namespace HftExercises

/-- The seven-bit groups of the bytes, each times its power of 128. -/
def groupSum (bytes : List UInt8) : ℕ :=
  ((bytes.map fun b => b.toNat % 128).mapIdx fun i group => group * 128 ^ i).sum

/-- Every byte but the last has its high bit set. -/
def Terminated (bytes : List UInt8) : Prop :=
  ∃ groups last, bytes = groups ++ [last] ∧ (∀ b ∈ groups, 0x80 ≤ b) ∧ last < 0x80

/-- The bytes of a number. -/
def groupBytes (n : ℕ) : List UInt8 :=
  if n / 128 = 0 then [UInt8.ofNat (n % 128)]
  else UInt8.ofNat (n % 128 + 128) :: groupBytes (n / 128)
termination_by n

@[simp] theorem groupSum_nil : groupSum [] = 0 := rfl

theorem groupSum_eq_ofDigits (bytes : List UInt8) :
    groupSum bytes = Nat.ofDigits 128 (bytes.map fun b => b.toNat % 128) :=
  (Nat.ofDigits_eq_sum_mapIdx 128 _).symm

@[simp] theorem groupSum_cons (b : UInt8) (bytes : List UInt8) :
    groupSum (b :: bytes) = b.toNat % 128 + 128 * groupSum bytes := by
  simp only [groupSum_eq_ofDigits, List.map_cons, Nat.ofDigits_cons]

theorem groupSum_append (bytes bytes' : List UInt8) :
    groupSum (bytes ++ bytes') = groupSum bytes + 128 ^ bytes.length * groupSum bytes' := by
  rw [groupSum_eq_ofDigits, List.map_append, Nat.ofDigits_append, List.length_map,
    ← groupSum_eq_ofDigits, ← groupSum_eq_ofDigits]

theorem groupSum_lt (bytes : List UInt8) : groupSum bytes < 128 ^ bytes.length := by
  rw [groupSum_eq_ofDigits, ← List.length_map (fun b : UInt8 => b.toNat % 128)]
  refine Nat.ofDigits_lt_base_pow_length (by decide) fun g hg => ?_
  obtain ⟨b, -, rfl⟩ := List.mem_map.mp hg
  exact Nat.mod_lt _ (by decide)

section Bytes

theorem toNat_byte_ofNat {n : ℕ} (h : n < 256) : (UInt8.ofNat n).toNat = n := by
  rw [UInt8.toNat_ofNat']
  exact Nat.mod_eq_of_lt h

theorem terminated_cons {b : UInt8} {bytes : List UInt8} (hb : 0x80 ≤ b) (h : Terminated bytes) :
    Terminated (b :: bytes) := by
  obtain ⟨groups, last, rfl, hgroups, hlast⟩ := h
  exact ⟨b :: groups, last, rfl, List.forall_mem_cons.mpr ⟨hb, hgroups⟩, hlast⟩

theorem terminated_singleton {b : UInt8} (hb : b < 0x80) : Terminated [b] :=
  ⟨[], b, rfl, by simp, hb⟩

theorem groupBytes_of_lt {n : ℕ} (h : n / 128 = 0) : groupBytes n = [UInt8.ofNat (n % 128)] := by
  rw [groupBytes, if_pos h]

theorem groupBytes_of_ge {n : ℕ} (h : n / 128 ≠ 0) :
    groupBytes n = UInt8.ofNat (n % 128 + 128) :: groupBytes (n / 128) := by
  rw [groupBytes, if_neg h]

theorem groupSum_groupBytes (n : ℕ) : groupSum (groupBytes n) = n := by
  fun_induction groupBytes n with
  | case1 n h =>
    rw [groupSum_cons, groupSum_nil, toNat_byte_ofNat (by omega)]
    omega
  | case2 n h ih =>
    rw [groupSum_cons, ih, toNat_byte_ofNat (by omega)]
    omega

theorem terminated_groupBytes (n : ℕ) : Terminated (groupBytes n) := by
  fun_induction groupBytes n with
  | case1 n h =>
    refine terminated_singleton ?_
    rw [UInt8.lt_iff_toNat_lt, toNat_byte_ofNat (by omega)]
    exact Nat.mod_lt _ (by decide)
  | case2 n h ih =>
    refine terminated_cons ?_ ih
    rw [UInt8.le_iff_toNat_le, toNat_byte_ofNat (by omega)]
    exact Nat.le_add_left 128 (n % 128)

theorem groupBytes_length_pos (n : ℕ) : 1 ≤ (groupBytes n).length := by
  rw [groupBytes]
  split <;> simp

/-- A number has no more bytes than its size needs. -/
theorem groupBytes_length_le {n k : ℕ} (h : n < 128 ^ (k + 1)) :
    (groupBytes n).length ≤ k + 1 := by
  induction k generalizing n with
  | zero =>
    rw [groupBytes_of_lt (by omega)]
    rfl
  | succ k ih =>
    by_cases hn : n / 128 = 0
    · rw [groupBytes_of_lt hn]
      simp
    · rw [groupBytes_of_ge hn, List.length_cons]
      have hdiv : n / 128 < 128 ^ (k + 1) := by
        rw [Nat.div_lt_iff_lt_mul (by decide), ← pow_succ]
        exact h
      have := ih hdiv
      omega

/-- No other bytes for the same number are fewer. -/
theorem groupBytes_length_le_of_groupSum {bytes : List UInt8} (hne : bytes ≠ []) :
    (groupBytes (groupSum bytes)).length ≤ bytes.length := by
  cases bytes with
  | nil => exact absurd rfl hne
  | cons b rest => exact groupBytes_length_le (groupSum_lt (b :: rest))

end Bytes

section Words

theorem toNat_shiftRight_seven (v : UInt64) : (v >>> 7).toNat = v.toNat / 128 := by
  rw [UInt64.toNat_shiftRight]
  exact Nat.shiftRight_eq_div_pow v.toNat 7

theorem toNat_low_group_word (v : UInt64) : (v &&& 0x7F).toUInt8.toNat = v.toNat % 128 := by
  have hmask : (v &&& 0x7F).toNat = v.toNat % 128 := by
    rw [UInt64.toNat_and]
    exact Nat.and_two_pow_sub_one_eq_mod v.toNat 7
  rw [UInt64.toNat_toUInt8, hmask]
  omega

theorem toNat_low_group_byte (b : UInt8) : (b &&& 0x7F).toNat = b.toNat % 128 := by
  rw [UInt8.toNat_and]
  exact Nat.and_two_pow_sub_one_eq_mod b.toNat 7

theorem toNat_mark {b : UInt8} (h : b.toNat < 128) : (b ||| 0x80).toNat = b.toNat + 128 := by
  have hor := Nat.two_pow_add_eq_or_of_lt (i := 7) h 1
  rw [UInt8.toNat_or, Nat.or_comm]
  exact hor.symm.trans (Nat.add_comm _ _)

theorem mark_eq_zero_iff (b : UInt8) : b &&& 0x80 = 0 ↔ b < 0x80 := by
  have hall : ∀ i : Fin 256, UInt8.ofFin i &&& 0x80 = 0 ↔ UInt8.ofFin i < 0x80 := by
    decide +kernel
  exact hall b.toFin

theorem high_seven_eq_zero_iff (b : UInt8) : b &&& 0xFE = 0 ↔ b ≤ 1 := by
  have hall : ∀ i : Fin 256, UInt8.ofFin i &&& 0xFE = 0 ↔ UInt8.ofFin i ≤ 1 := by
    decide +kernel
  exact hall b.toFin

/-- Or-ing a group above the bits already there adds it. -/
theorem toNat_or_shiftLeft {acc x s : UInt64} (hs : s.toNat < 64)
    (hacc : acc.toNat < 2 ^ s.toNat) (hx : x.toNat * 2 ^ s.toNat < 2 ^ 64) :
    (acc ||| x <<< s).toNat = acc.toNat + x.toNat * 2 ^ s.toNat := by
  have hshift : (x <<< s).toNat = 2 ^ s.toNat * x.toNat := by
    rw [UInt64.toNat_shiftLeft, Nat.mod_eq_of_lt hs, Nat.shiftLeft_eq, Nat.mod_eq_of_lt hx,
      mul_comm]
  rw [UInt64.toNat_or, hshift, Nat.or_comm, ← Nat.two_pow_add_eq_or_of_lt hacc]
  ring

end Words

end HftExercises
