import HftExercises.Core.SevenBitGroups

/-! # The varint codec

A buffer and its length are one list of bytes. Writing goes through `store`,
which faults outside the buffer, so a successful write has stayed inside it. The
reader returns the number of bytes consumed, zero when they are malformed or
truncated, with the caller's `out` as it leaves it.
-/
namespace HftExercises.Codec

def kMaxVarintBytes : ℕ := 10

/-- `buf[i] = b`; outside the buffer, a fault. -/
def store (buf : List UInt8) (i : ℕ) (b : UInt8) : Option (List UInt8) :=
  if i < buf.length then some (buf.set i b) else none

theorem shiftRight_seven_decreases {v : UInt64} (h : v >>> 7 ≠ 0) : (v >>> 7).toNat < v.toNat := by
  have hpos : (v >>> 7).toNat ≠ 0 := fun h0 => h (UInt64.toNat_inj.mp h0)
  rw [toNat_shiftRight_seven] at hpos ⊢
  omega

/-- The loop of `write_varint` at the pointer `out` into the buffer, with `n` bytes written. -/
def writeVarint (v : UInt64) (buf : List UInt8) (out n : ℕ) : Option (ℕ × List UInt8) :=
  let b := (v &&& 0x7F).toUInt8
  let b := if v >>> 7 ≠ 0 then b ||| 0x80 else b
  match store buf (out + n) b with
  | none => none
  | some buf => if _h : v >>> 7 ≠ 0 then writeVarint (v >>> 7) buf out (n + 1) else some (n + 1, buf)
termination_by v.toNat
decreasing_by exact shiftRight_seven_decreases _h

/-- The loop of `varint_len`, with the count so far. -/
def varintLenFrom (v : UInt64) (n : ℕ) : ℕ :=
  if _h : v >>> 7 ≠ 0 then varintLenFrom (v >>> 7) (n + 1) else n
termination_by v.toNat
decreasing_by exact shiftRight_seven_decreases _h

def varintLen (v : UInt64) : ℕ := varintLenFrom v 1

/-- The loop of `read_varint` at index `i`, with the rest of the buffer. -/
def readVarintFrom (i : ℕ) (result out : UInt64) : List UInt8 → ℕ × UInt64
  | [] => (0, out)
  | byte :: rest =>
    if i ≥ kMaxVarintBytes then (0, out)
    else if i = kMaxVarintBytes - 1 then
      if byte &&& 0xFE ≠ 0 then (0, out)
      else (i + 1, result ||| (byte &&& 0x01).toUInt64 <<< 63)
    else
      let result := result ||| (byte &&& 0x7F).toUInt64 <<< UInt64.ofNat (7 * i)
      if byte &&& 0x80 = 0 then (i + 1, result)
      else readVarintFrom (i + 1) result out rest

def readVarint (buf : List UInt8) (out : UInt64) : ℕ × UInt64 := readVarintFrom 0 0 out buf

def encodeVarint (v : UInt64) (out : List UInt8) : Option (ℕ × List UInt8) :=
  let need := varintLen v
  if need > out.length then some (0, out) else writeVarint v out 0 0

def decodeVarint (buf : List UInt8) (out : UInt64) : Bool × UInt64 :=
  ((readVarint buf out).1 ≠ 0, (readVarint buf out).2)

/-- The bytes a reader at index `i` accepts: groups with the high bit set and a
last one without, no more than ten in all, the tenth at most one. -/
structure Accepted (i : ℕ) (groups : List UInt8) (last : UInt8) : Prop where
  marked : ∀ b ∈ groups, 0x80 ≤ b
  unmarked : last < 0x80
  short : i + groups.length ≤ 9
  tenth : i + groups.length = 9 → last ≤ 1

section Writer

theorem store_append (done : List UInt8) (x : UInt8) (tail : List UInt8) (b : UInt8) :
    store (done ++ x :: tail) done.length b = some (done ++ [b] ++ tail) := by
  simp [store]

theorem shiftRight_seven_ne_zero_iff (v : UInt64) : v >>> 7 ≠ 0 ↔ v.toNat / 128 ≠ 0 := by
  rw [← toNat_shiftRight_seven, ne_eq, ne_eq, ← UInt64.toNat_inj]
  rfl

/-- The byte `write_varint` stores is the next byte of the value. -/
theorem group_eq (v : UInt64) :
    (if v >>> 7 ≠ 0 then (v &&& 0x7F).toUInt8 ||| 0x80 else (v &&& 0x7F).toUInt8) =
      UInt8.ofNat (if v.toNat / 128 ≠ 0 then v.toNat % 128 + 128 else v.toNat % 128) := by
  have hlow := toNat_low_group_word v
  have hlt : v.toNat % 128 < 128 := Nat.mod_lt _ (by decide)
  refine UInt8.toNat_inj.mp ?_
  by_cases h : v >>> 7 ≠ 0
  · rw [if_pos h, if_pos ((shiftRight_seven_ne_zero_iff v).mp h), toNat_mark (by omega),
      toNat_byte_ofNat (by omega), hlow]
  · rw [if_neg h, if_neg (mt (shiftRight_seven_ne_zero_iff v).mpr h),
      toNat_byte_ofNat (by omega), hlow]

theorem varintLenFrom_eq (v : UInt64) (n : ℕ) :
    varintLenFrom v n + 1 = n + (groupBytes v.toNat).length := by
  fun_induction varintLenFrom v n with
  | case1 v n h ih =>
    rw [ih, groupBytes_of_ge ((shiftRight_seven_ne_zero_iff v).mp h), toNat_shiftRight_seven,
      List.length_cons]
    omega
  | case2 v n h =>
    have h0 : v.toNat / 128 = 0 := not_not.mp (mt (shiftRight_seven_ne_zero_iff v).mpr h)
    rw [groupBytes_of_lt h0, List.length_singleton]

theorem varintLen_eq (v : UInt64) : varintLen v = (groupBytes v.toNat).length := by
  have h := varintLenFrom_eq v 1
  unfold varintLen
  omega

/-- Where the buffer has room, the writer puts the bytes of the value at the pointer. -/
theorem writeVarint_eq {v : UInt64} {done tail : List UInt8} {out n : ℕ}
    (hout : out + n = done.length) (hroom : varintLen v ≤ tail.length) :
    writeVarint v (done ++ tail) out n =
      some (n + varintLen v, done ++ groupBytes v.toNat ++ tail.drop (varintLen v)) := by
  rw [varintLen_eq] at hroom ⊢
  -- the value loses seven bits and `done` gains a byte in every iteration
  induction hv : v.toNat using Nat.strong_induction_on generalizing v done tail n with
  | _ m ih =>
    subst hv
    cases tail with
    | nil =>
      have := groupBytes_length_pos v.toNat
      simp only [List.length_nil] at hroom
      omega
    | cons x tail =>
      rw [writeVarint, group_eq, hout, store_append]
      by_cases h : v >>> 7 ≠ 0
      · have h0 := (shiftRight_seven_ne_zero_iff v).mp h
        have hbytes := groupBytes_of_ge h0
        rw [← toNat_shiftRight_seven] at hbytes
        rw [hbytes] at hroom ⊢
        have hindex : out + (n + 1) =
            (done ++ [UInt8.ofNat (v.toNat % 128 + 128)]).length := by
          rw [List.length_append, List.length_singleton]
          omega
        have hnext := ih (v >>> 7).toNat (shiftRight_seven_decreases h) hindex
          (Nat.le_of_succ_le_succ hroom) rfl
        rw [if_pos h0]
        simp only [dif_pos h]
        rw [hnext]
        simp only [List.length_cons, List.drop_succ_cons, Option.some.injEq, Prod.mk.injEq,
          List.append_assoc, List.cons_append, List.nil_append, and_true]
        omega
      · have h0 : v.toNat / 128 = 0 := not_not.mp (mt (shiftRight_seven_ne_zero_iff v).mpr h)
        rw [if_neg (not_not.mpr h0), groupBytes_of_lt h0]
        simp [dif_neg h]

theorem varintLen_bounds (v : UInt64) : 1 ≤ varintLen v ∧ varintLen v ≤ 10 := by
  rw [varintLen_eq]
  have hv : v.toNat < 128 ^ (9 + 1) := lt_trans v.toNat_lt (by decide)
  exact ⟨groupBytes_length_pos _, groupBytes_length_le hv⟩

theorem encodeVarint_of_le {v : UInt64} {out : List UInt8} (h : varintLen v ≤ out.length) :
    encodeVarint v out =
      some (varintLen v, groupBytes v.toNat ++ out.drop (varintLen v)) := by
  have hwrite : writeVarint v ([] ++ out) 0 0 = _ := writeVarint_eq rfl h
  rw [encodeVarint, if_neg (by omega)]
  simpa using hwrite

end Writer

section Reader

/-- Below the tenth byte no bit of a group is shifted out. -/
theorem toNat_add_group {i : ℕ} {result : UInt64} (hi : i < 9) (hresult : result.toNat < 2 ^ (7 * i))
    (byte : UInt8) :
    (result ||| (byte &&& 0x7F).toUInt64 <<< UInt64.ofNat (7 * i)).toNat =
      result.toNat + byte.toNat % 128 * 2 ^ (7 * i) := by
  have hs : (UInt64.ofNat (7 * i)).toNat = 7 * i := by
    rw [UInt64.toNat_ofNat']
    exact Nat.mod_eq_of_lt (by omega)
  have hx : (byte &&& 0x7F).toUInt64.toNat = byte.toNat % 128 := by
    rw [UInt8.toNat_toUInt64, toNat_low_group_byte]
  have hfit : byte.toNat % 128 * 2 ^ (7 * i) < 2 ^ 64 := by
    calc byte.toNat % 128 * 2 ^ (7 * i) < 2 ^ 7 * 2 ^ (7 * i) :=
          Nat.mul_lt_mul_of_pos_right (Nat.mod_lt _ (by decide)) (Nat.two_pow_pos _)
      _ = 2 ^ (7 * i + 7) := by rw [pow_add, mul_comm]
      _ ≤ 2 ^ 64 := Nat.pow_le_pow_right (by decide) (by omega)
  rw [toNat_or_shiftLeft] <;> rw [hs]
  · rw [hx]
  · omega
  · exact hresult
  · rw [hx]
    exact hfit

theorem two_pow_group_succ (i : ℕ) : 2 ^ (7 * (i + 1)) = 128 * 2 ^ (7 * i) := by
  rw [mul_add, pow_add, mul_comm]
  rfl

theorem add_group_lt {i r x : ℕ} (hr : r < 2 ^ (7 * i)) (hx : x < 128) :
    r + x * 2 ^ (7 * i) < 2 ^ (7 * (i + 1)) := by
  have hpow := two_pow_group_succ i
  have hle : (x + 1) * 2 ^ (7 * i) ≤ 128 * 2 ^ (7 * i) := Nat.mul_le_mul_right _ hx
  rw [add_mul] at hle
  omega

/-- The tenth byte carries the top bit only. -/
theorem toNat_add_tenth {result : UInt64} (hresult : result.toNat < 2 ^ 63) {byte : UInt8}
    (hbyte : byte ≤ 1) :
    (result ||| (byte &&& 0x01).toUInt64 <<< 63).toNat = result.toNat + byte.toNat % 128 * 2 ^ 63 := by
  have hle : byte.toNat ≤ 1 := UInt8.le_iff_toNat_le.mp hbyte
  have hx : (byte &&& 0x01).toUInt64.toNat = byte.toNat % 128 := by
    rw [UInt8.toNat_toUInt64, UInt8.toNat_and]
    have hmask := Nat.and_two_pow_sub_one_eq_mod byte.toNat 1
    exact hmask.trans (by omega)
  have hs : (63 : UInt64).toNat = 63 := rfl
  rw [toNat_or_shiftLeft] <;> rw [hs]
  · rw [hx]
  · decide
  · exact hresult
  · rw [hx]
    omega

/-- A reader that has `result` below the position of the next byte adds the groups it reads. -/
theorem readVarintFrom_accepted {i : ℕ} {groups : List UInt8} {last : UInt8} {result : UInt64}
    (h : Accepted i groups last) (hresult : result.toNat < 2 ^ (7 * i)) (out : UInt64)
    (rest : List UInt8) :
    ∃ r : UInt64, readVarintFrom i result out (groups ++ last :: rest) =
        (i + groups.length + 1, r) ∧
      r.toNat = result.toNat + groupSum (groups ++ [last]) * 2 ^ (7 * i) := by
  induction groups generalizing i result with
  | nil =>
    have hshort := h.short
    have hsum : groupSum ([] ++ [last]) = last.toNat % 128 := by simp
    simp only [List.length_nil, Nat.add_zero] at hshort ⊢
    rw [hsum, List.nil_append, readVarintFrom, if_neg (by simp only [kMaxVarintBytes]; omega)]
    by_cases hi : i = 9
    · subst hi
      have hle := h.tenth rfl
      rw [if_pos (by rfl), if_neg (not_not.mpr ((high_seven_eq_zero_iff last).mpr hle))]
      exact ⟨_, rfl, toNat_add_tenth hresult hle⟩
    · rw [if_neg (by simpa [kMaxVarintBytes] using hi)]
      simp only [(mark_eq_zero_iff last).mpr h.unmarked, if_true]
      exact ⟨_, rfl, toNat_add_group (by omega) hresult last⟩
  | cons b groups ih =>
    have hshort := h.short
    rw [List.length_cons] at hshort
    have hmarked : ¬ b &&& 0x80 = 0 := by
      rw [mark_eq_zero_iff]
      exact UInt8.not_lt.mpr (h.marked b List.mem_cons_self)
    have hi : i < 9 := by omega
    have hadd := toNat_add_group hi hresult b
    have hlt := add_group_lt hresult (Nat.mod_lt b.toNat (by decide : 0 < 128))
    have hnext : Accepted (i + 1) groups last :=
      ⟨fun c hc => h.marked c (List.mem_cons_of_mem _ hc), h.unmarked, by omega,
        fun he => h.tenth (by rw [List.length_cons]; omega)⟩
    rw [← hadd] at hlt
    obtain ⟨r, hread, hr⟩ := ih hnext hlt
    refine ⟨r, ?_, ?_⟩
    · rw [List.cons_append, readVarintFrom, if_neg (by simp only [kMaxVarintBytes]; omega),
        if_neg (by simp only [kMaxVarintBytes]; omega)]
      simp only [if_neg hmarked, hread, List.length_cons, Prod.mk.injEq, and_true]
      omega
    · rw [hr, hadd, List.cons_append, groupSum_cons, two_pow_group_succ]
      ring

/-- What a reader does not refuse starts with bytes it accepts. -/
theorem readVarintFrom_cases (i : ℕ) (result out : UInt64) (buf : List UInt8) :
    readVarintFrom i result out buf = (0, out) ∨
      ∃ groups last rest, buf = groups ++ last :: rest ∧ Accepted i groups last := by
  induction buf generalizing i result with
  | nil => exact Or.inl rfl
  | cons byte rest ih =>
    rw [readVarintFrom]
    split_ifs with hmax htenth hhigh hmark
    · exact Or.inl rfl
    · exact Or.inl rfl
    · have hle := (high_seven_eq_zero_iff byte).mp (not_not.mp hhigh)
      refine Or.inr ⟨[], byte, rest, rfl, by simp, UInt8.lt_of_le_of_lt hle (by decide), ?_,
        fun _ => hle⟩
      exact (htenth.trans rfl).le
    · have hi : i < 9 := by simp only [kMaxVarintBytes] at hmax htenth; omega
      exact Or.inr ⟨[], byte, rest, rfl, by simp, (mark_eq_zero_iff byte).mp hmark,
        by simp only [List.length_nil]; omega, by simp only [List.length_nil]; omega⟩
    · have hb : 0x80 ≤ byte := UInt8.not_lt.mp (mt (mark_eq_zero_iff byte).mpr hmark)
      rcases ih (i + 1) _ with hfail | ⟨groups, last, tail, rfl, hacc⟩
      · exact Or.inl hfail
      · have hshort := hacc.short
        refine Or.inr ⟨byte :: groups, last, tail, rfl, ?_, hacc.unmarked, ?_, ?_⟩
        · exact List.forall_mem_cons.mpr ⟨hb, hacc.marked⟩
        · rw [List.length_cons]
          omega
        · intro he
          rw [List.length_cons] at he
          exact hacc.tenth (by omega)

theorem readVarint_accepted {groups : List UInt8} {last : UInt8} (h : Accepted 0 groups last)
    (out : UInt64) (rest : List UInt8) :
    ∃ r : UInt64, readVarint (groups ++ last :: rest) out = (groups.length + 1, r) ∧
      r.toNat = groupSum (groups ++ [last]) := by
  have hzero : (0 : UInt64).toNat < 2 ^ (7 * 0) := by decide
  obtain ⟨r, hread, hr⟩ := readVarintFrom_accepted h hzero out rest
  refine ⟨r, ?_, ?_⟩
  · rw [readVarint, hread, Nat.zero_add]
  · rw [hr]
    simp

theorem readVarint_cases (buf : List UInt8) (out : UInt64) :
    readVarint buf out = (0, out) ∨
      ∃ groups last rest, buf = groups ++ last :: rest ∧ Accepted 0 groups last :=
  readVarintFrom_cases 0 0 out buf

/-- The bytes of a word are bytes the reader accepts. -/
theorem groupBytes_accepted (v : UInt64) :
    ∃ groups last, groupBytes v.toNat = groups ++ [last] ∧ Accepted 0 groups last := by
  obtain ⟨groups, last, hbytes, hgroups, hlast⟩ := terminated_groupBytes v.toNat
  have hlen := (varintLen_bounds v).2
  have hsum := groupSum_groupBytes v.toNat
  rw [varintLen_eq, hbytes, List.length_append, List.length_singleton] at hlen
  refine ⟨groups, last, hbytes, hgroups, hlast, by omega, fun hnine => ?_⟩
  -- nine groups below leave one bit of the word for the tenth byte
  have hv := v.toNat_lt
  have hlt := UInt8.lt_iff_toNat_lt.mp hlast
  have hlt' : last.toNat < 128 := hlt
  rw [Nat.zero_add] at hnine
  rw [hbytes, groupSum_append, hnine, groupSum_cons, groupSum_nil, Nat.mod_eq_of_lt hlt'] at hsum
  have hone : last.toNat ≤ 1 := by omega
  exact UInt8.le_iff_toNat_le.mpr hone

theorem readVarint_groupBytes (v : UInt64) (out : UInt64) (rest : List UInt8) :
    readVarint (groupBytes v.toNat ++ rest) out = (varintLen v, v) := by
  obtain ⟨groups, last, hbytes, hacc⟩ := groupBytes_accepted v
  obtain ⟨r, hread, hr⟩ := readVarint_accepted hacc out rest
  have hlen : varintLen v = groups.length + 1 := by
    rw [varintLen_eq, hbytes, List.length_append, List.length_singleton]
  have hrv : r = v := by
    rw [← hbytes, groupSum_groupBytes] at hr
    exact UInt64.toNat_inj.mp hr
  rw [hbytes, List.append_assoc, List.singleton_append, hread, hlen, hrv]

end Reader

/-- Where the buffer has room, `encode_varint` writes the `varint_len` bytes that the decoder
turns into the value again, whatever follows them; where it has not, it writes nothing; and
no shorter bytes decode to the value. -/
theorem encodeVarint_decodes_shortest (v : UInt64) (out : List UInt8) :
    (1 ≤ varintLen v ∧ varintLen v ≤ 10) ∧
    (varintLen v ≤ out.length → ∃ bytes : List UInt8, bytes.length = varintLen v ∧
      encodeVarint v out = some (varintLen v, bytes ++ out.drop (varintLen v)) ∧
      ∀ (rest : List UInt8) (prev : UInt64),
        readVarint (bytes ++ rest) prev = (varintLen v, v) ∧
        decodeVarint (bytes ++ rest) prev = (true, v)) ∧
    (out.length < varintLen v → encodeVarint v out = some (0, out)) ∧
    ∀ (buf : List UInt8) (prev : UInt64), buf.length < varintLen v →
      decodeVarint buf prev ≠ (true, v) := by
  have hbounds := varintLen_bounds v
  refine ⟨hbounds, fun hroom => ?_, fun hshort => ?_, fun buf prev hshort hdec => ?_⟩
  · refine ⟨groupBytes v.toNat, (varintLen_eq v).symm, encodeVarint_of_le hroom, fun rest prev => ?_⟩
    have hread := readVarint_groupBytes v prev rest
    refine ⟨hread, ?_⟩
    rw [decodeVarint, hread]
    simp only [Prod.mk.injEq, decide_eq_true_eq, and_true]
    omega
  · rw [encodeVarint, if_pos hshort]
  · rcases readVarint_cases buf prev with hfail | ⟨groups, last, rest, rfl, hacc⟩
    · rw [decodeVarint, hfail] at hdec
      simp at hdec
    · obtain ⟨r, hread, hr⟩ := readVarint_accepted hacc prev rest
      have hrv : r = v := by
        rw [decodeVarint, hread] at hdec
        exact (Prod.mk.inj hdec).2
      have hle := groupBytes_length_le_of_groupSum (List.append_ne_nil_of_right_ne_nil groups
        (List.cons_ne_nil last []))
      rw [← hr, hrv, ← varintLen_eq] at hle
      simp only [List.length_append, List.length_cons, List.length_nil] at hle hshort
      omega

/-- The decoder accepts a buffer exactly when it starts with at most nine marked bytes and a
terminator, the tenth at most one; the value is the exact sum of the groups, and a refused
buffer leaves `out` alone. -/
theorem decodeVarint_accepts_iff (buf : List UInt8) (out : UInt64) :
    ((decodeVarint buf out).1 = true ↔
      ∃ groups last rest, buf = groups ++ last :: rest ∧ Accepted 0 groups last) ∧
    (∀ groups last rest, buf = groups ++ last :: rest → Accepted 0 groups last →
      (decodeVarint buf out).2.toNat = groupSum (groups ++ [last])) ∧
    ((decodeVarint buf out).1 = false → (decodeVarint buf out).2 = out) := by
  have haccepted : ∀ groups last rest, buf = groups ++ last :: rest → Accepted 0 groups last →
      (decodeVarint buf out).1 = true ∧
      (decodeVarint buf out).2.toNat = groupSum (groups ++ [last]) := by
    rintro groups last rest rfl hacc
    obtain ⟨r, hread, hr⟩ := readVarint_accepted hacc out rest
    rw [decodeVarint, hread]
    exact ⟨by simp, hr⟩
  refine ⟨⟨fun htrue => ?_, ?_⟩, ?_, fun hfalse => ?_⟩
  · rcases readVarint_cases buf out with hfail | hacc
    · rw [decodeVarint, hfail] at htrue
      simp at htrue
    · exact hacc
  · rintro ⟨groups, last, rest, hbuf, hacc⟩
    exact (haccepted groups last rest hbuf hacc).1
  · intro groups last rest hbuf hacc
    exact (haccepted groups last rest hbuf hacc).2
  · rcases readVarint_cases buf out with hfail | ⟨groups, last, rest, hbuf, hacc⟩
    · rw [decodeVarint, hfail]
    · rw [(haccepted groups last rest hbuf hacc).1] at hfalse
      cases hfalse

end HftExercises.Codec
