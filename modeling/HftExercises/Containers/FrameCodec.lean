import HftExercises.Containers.VarintCodec

/-! # The frame codec

A frame is the payload length in four bytes, lowest first, the varint of the
client's uid and the payload. What the decoder accepts is described once, as a
decomposition of the buffer; the round trip, the refusal of every strict part of
a frame and the bounds of what is read follow from it.
-/
namespace HftExercises.Codec

structure Message where
  clientUid : UInt64
  payload : List UInt8
  deriving DecidableEq, Repr

def frameSize (m : Message) : ℕ := 4 + varintLen m.clientUid + m.payload.length

/-- The loop that copies the payload to the pointer `p`, at index `i`. -/
def copyPayload (buf : List UInt8) (p i : ℕ) : List UInt8 → Option (List UInt8)
  | [] => some buf
  | b :: payload =>
    match store buf (p + i) b with
    | none => none
    | some buf => copyPayload buf p (i + 1) payload

def encodeFrame (m : Message) (out : List UInt8) : Option (ℕ × List UInt8) :=
  let total := frameSize m
  if total > out.length then some (0, out)
  else do
    let plen := UInt32.ofNat m.payload.length
    let out ← store out 0 (plen &&& 0xFF).toUInt8
    let out ← store out 1 ((plen >>> 8) &&& 0xFF).toUInt8
    let out ← store out 2 ((plen >>> 16) &&& 0xFF).toUInt8
    let out ← store out 3 ((plen >>> 24) &&& 0xFF).toUInt8
    let p := 4
    let (n, out) ← writeVarint m.clientUid out p 0
    let p := p + n
    let out ← copyPayload out p 0 m.payload
    return (total, out)

def decodeFrame (buf : List UInt8) : Option Message :=
  match buf with
  | b0 :: b1 :: b2 :: b3 :: rest =>
    let plen := b0.toUInt32 ||| b1.toUInt32 <<< 8 ||| b2.toUInt32 <<< 16 ||| b3.toUInt32 <<< 24
    let (uidBytes, uid) := readVarint rest 0
    if uidBytes = 0 then none
    else
      let payloadAt := 4 + uidBytes
      if buf.length - payloadAt < plen.toNat then none
      else some ⟨uid, (buf.drop payloadAt).take plen.toNat⟩
  -- fewer than four bytes
  | _ => none

section Header

/-- The four header bytes of a length. -/
def header (plen : UInt32) : List UInt8 :=
  [(plen &&& 0xFF).toUInt8, ((plen >>> 8) &&& 0xFF).toUInt8, ((plen >>> 16) &&& 0xFF).toUInt8,
    ((plen >>> 24) &&& 0xFF).toUInt8]

theorem toNat_low_byte (w : UInt32) : (w &&& 0xFF).toUInt8.toNat = w.toNat % 256 := by
  have hmask : (w &&& 0xFF).toNat = w.toNat % 256 := by
    rw [UInt32.toNat_and]
    exact Nat.and_two_pow_sub_one_eq_mod w.toNat 8
  rw [UInt32.toNat_toUInt8, hmask]
  omega

theorem toNat_byte (w s : UInt32) (hs : s.toNat < 32) :
    ((w >>> s) &&& 0xFF).toUInt8.toNat = w.toNat / 2 ^ s.toNat % 256 := by
  rw [toNat_low_byte, UInt32.toNat_shiftRight, Nat.mod_eq_of_lt hs, Nat.shiftRight_eq_div_pow]

theorem ofDigits_header (plen : UInt32) :
    Nat.ofDigits 256 ((header plen).map UInt8.toNat) = plen.toNat := by
  have hlt := plen.toNat_lt
  have h0 := toNat_low_byte plen
  have h1 : ((plen >>> 8) &&& 0xFF).toUInt8.toNat = plen.toNat / 2 ^ 8 % 256 :=
    toNat_byte plen 8 (by decide)
  have h2 : ((plen >>> 16) &&& 0xFF).toUInt8.toNat = plen.toNat / 2 ^ 16 % 256 :=
    toNat_byte plen 16 (by decide)
  have h3 : ((plen >>> 24) &&& 0xFF).toUInt8.toNat = plen.toNat / 2 ^ 24 % 256 :=
    toNat_byte plen 24 (by decide)
  simp only [header, List.map_cons, List.map_nil, Nat.ofDigits_cons, Nat.ofDigits_nil, h0, h1, h2, h3]
  omega

/-- Or-ing a byte above the bits already there adds it. -/
theorem toNat_or_byte {acc s : UInt32} (b : UInt8) (hs : s.toNat ≤ 24)
    (hacc : acc.toNat < 2 ^ s.toNat) :
    (acc ||| b.toUInt32 <<< s).toNat = acc.toNat + b.toNat * 2 ^ s.toNat := by
  have hb : b.toNat * 2 ^ s.toNat < 2 ^ 32 := by
    calc b.toNat * 2 ^ s.toNat < 2 ^ 8 * 2 ^ s.toNat :=
          Nat.mul_lt_mul_of_pos_right b.toNat_lt (Nat.two_pow_pos _)
      _ = 2 ^ (8 + s.toNat) := (pow_add 2 8 _).symm
      _ ≤ 2 ^ 32 := Nat.pow_le_pow_right (by decide) (by omega)
  have hshift : (b.toUInt32 <<< s).toNat = 2 ^ s.toNat * b.toNat := by
    have hmod : s.toNat % 32 = s.toNat := Nat.mod_eq_of_lt (by omega)
    rw [UInt32.toNat_shiftLeft, UInt8.toNat_toUInt32, hmod, Nat.shiftLeft_eq,
      Nat.mod_eq_of_lt hb, mul_comm]
  rw [UInt32.toNat_or, hshift, Nat.or_comm, ← Nat.two_pow_add_eq_or_of_lt hacc]
  ring

theorem toNat_read_header (b0 b1 b2 b3 : UInt8) :
    (b0.toUInt32 ||| b1.toUInt32 <<< 8 ||| b2.toUInt32 <<< 16 ||| b3.toUInt32 <<< 24).toNat =
      Nat.ofDigits 256 ([b0, b1, b2, b3].map UInt8.toNat) := by
  have h0 := b0.toNat_lt
  have h1 := b1.toNat_lt
  have h2 := b2.toNat_lt
  have hb0 : b0.toUInt32.toNat = b0.toNat := UInt8.toNat_toUInt32 b0
  have hs8 : (8 : UInt32).toNat = 8 := rfl
  have hs16 : (16 : UInt32).toNat = 16 := rfl
  have hs24 : (24 : UInt32).toNat = 24 := rfl
  have e1 : (b0.toUInt32 ||| b1.toUInt32 <<< 8).toNat = b0.toNat + b1.toNat * 2 ^ 8 := by
    rw [toNat_or_byte b1 (by rw [hs8]; omega) (by rw [hs8]; omega), hb0, hs8]
  have e2 : (b0.toUInt32 ||| b1.toUInt32 <<< 8 ||| b2.toUInt32 <<< 16).toNat =
      b0.toNat + b1.toNat * 2 ^ 8 + b2.toNat * 2 ^ 16 := by
    rw [toNat_or_byte b2 (by rw [hs16]; omega) (by rw [hs16]; omega), e1, hs16]
  rw [toNat_or_byte b3 (by rw [hs24]) (by rw [hs24, e2]; omega), e2, hs24]
  simp only [List.map_cons, List.map_nil, Nat.ofDigits_cons, Nat.ofDigits_nil]
  omega

end Header

section Encoder

/-- The bytes of a message's frame. -/
def frameBytes (m : Message) : List UInt8 :=
  header (UInt32.ofNat m.payload.length) ++ groupBytes m.clientUid.toNat ++ m.payload

theorem frameBytes_length (m : Message) : (frameBytes m).length = frameSize m := by
  simp only [frameBytes, List.length_append, frameSize, varintLen_eq]
  rfl

theorem copyPayload_eq {done tail payload : List UInt8} {p i : ℕ} (hp : p + i = done.length)
    (hroom : payload.length ≤ tail.length) :
    copyPayload (done ++ tail) p i payload = some (done ++ payload ++ tail.drop payload.length) := by
  induction payload generalizing done tail i with
  | nil => simp [copyPayload]
  | cons b payload ih =>
    cases tail with
    | nil => simp at hroom
    | cons x tail =>
      have hindex : p + (i + 1) = (done ++ [b]).length := by
        rw [List.length_append, List.length_singleton]
        omega
      have hnext := ih hindex (Nat.le_of_succ_le_succ hroom)
      rw [copyPayload, hp, store_append]
      dsimp only
      rw [hnext]
      simp only [List.append_assoc, List.cons_append, List.nil_append, List.length_cons,
        List.drop_succ_cons]

theorem exists_eq_header {out : List UInt8} (h : 4 ≤ out.length) :
    ∃ x0 x1 x2 x3 tail, out = x0 :: x1 :: x2 :: x3 :: tail := by
  match out, h with
  | x0 :: x1 :: x2 :: x3 :: tail, _ => exact ⟨x0, x1, x2, x3, tail, rfl⟩

theorem encodeFrame_of_le {m : Message} {out : List UInt8} (h : frameSize m ≤ out.length) :
    encodeFrame m out = some (frameSize m, frameBytes m ++ out.drop (frameSize m)) := by
  have hsize : frameSize m = 4 + varintLen m.clientUid + m.payload.length := rfl
  obtain ⟨x0, x1, x2, x3, tail, rfl⟩ := exists_eq_header (show 4 ≤ out.length by omega)
  have htail : varintLen m.clientUid + m.payload.length ≤ tail.length := by
    simp only [List.length_cons] at h
    omega
  let head := header (UInt32.ofNat m.payload.length)
  have hwrite : writeVarint m.clientUid (head ++ tail) 4 0 = _ :=
    writeVarint_eq rfl (show varintLen m.clientUid ≤ tail.length by omega)
  have hp : 4 + (0 + varintLen m.clientUid) + 0 =
      (head ++ groupBytes m.clientUid.toNat).length := by
    rw [List.length_append, ← varintLen_eq, Nat.zero_add]
    rfl
  have hrest : m.payload.length ≤ (tail.drop (varintLen m.clientUid)).length := by
    rw [List.length_drop]
    omega
  have hcopy := copyPayload_eq hp hrest
  have hfour : frameSize m = varintLen m.clientUid + m.payload.length + 1 + 1 + 1 + 1 := by omega
  rw [encodeFrame, if_neg (by omega)]
  -- the four stores build the header in front of the tail
  change ((writeVarint m.clientUid (head ++ tail) 4 0).bind _ : Option (ℕ × List UInt8)) = _
  rw [hwrite]
  change ((copyPayload _ (4 + (0 + varintLen m.clientUid)) 0 m.payload).bind _ :
    Option (ℕ × List UInt8)) = _
  rw [hcopy, List.drop_drop]
  nth_rewrite 3 [hfour]
  rfl

end Encoder

section Decoder

/-- A buffer that starts with a header, an accepted uid and as many bytes as the header says. -/
structure Framed (buf : List UInt8) (m : Message) (uid rest : List UInt8) : Prop where
  split : ∃ head : List UInt8, buf = head ++ uid ++ m.payload ++ rest ∧ head.length = 4 ∧
    Nat.ofDigits 256 (head.map UInt8.toNat) = m.payload.length
  accepted : ∃ groups last, uid = groups ++ [last] ∧ Accepted 0 groups last
  value : groupSum uid = m.clientUid.toNat

/-- Behind the header and the uid. -/
theorem drop_header_uid (b0 b1 b2 b3 : UInt8) (groups : List UInt8) (last : UInt8)
    (tail : List UInt8) :
    (b0 :: b1 :: b2 :: b3 :: (groups ++ last :: tail)).drop (4 + (groups.length + 1)) = tail := by
  have hbuf : b0 :: b1 :: b2 :: b3 :: (groups ++ last :: tail) =
      (b0 :: b1 :: b2 :: b3 :: groups ++ [last]) ++ tail := by simp
  have hlen : (b0 :: b1 :: b2 :: b3 :: groups ++ [last]).length = 4 + (groups.length + 1) := by
    simp only [List.length_append, List.length_cons, List.length_nil]
    omega
  rw [hbuf]
  exact List.drop_left' hlen

theorem decodeFrame_framed {buf : List UInt8} {m : Message} {uid rest : List UInt8}
    (h : Framed buf m uid rest) : decodeFrame buf = some m := by
  obtain ⟨head, rfl, hlen, hplen⟩ := h.split
  obtain ⟨groups, last, rfl, hacc⟩ := h.accepted
  obtain ⟨b0, b1, b2, b3, tail, rfl⟩ := exists_eq_header hlen.ge
  obtain rfl : tail = [] := by
    simp only [List.length_cons] at hlen
    exact List.eq_nil_of_length_eq_zero (by omega)
  obtain ⟨r, hread, hr⟩ := readVarint_accepted hacc 0 (m.payload ++ rest)
  have hrm : r = m.clientUid := UInt64.toNat_inj.mp (hr.trans h.value)
  have hbuf : [b0, b1, b2, b3] ++ (groups ++ [last]) ++ m.payload ++ rest =
      b0 :: b1 :: b2 :: b3 :: (groups ++ last :: (m.payload ++ rest)) := by simp
  have hdrop := drop_header_uid b0 b1 b2 b3 groups last (m.payload ++ rest)
  have hlength := congrArg List.length hdrop
  rw [List.length_drop, List.length_append] at hlength
  rw [hbuf, decodeFrame]
  simp only [hread, toNat_read_header, hplen, hdrop, hlength, hrm]
  rw [if_neg (by omega), if_neg (by omega), List.take_left]

theorem framed_of_decodeFrame {buf : List UInt8} {m : Message} (h : decodeFrame buf = some m) :
    ∃ uid rest, Framed buf m uid rest := by
  unfold decodeFrame at h
  split at h
  next b0 b1 b2 b3 rest =>
    dsimp only at h
    rcases readVarint_cases rest 0 with hfail | ⟨groups, last, tail, rfl, hacc⟩
    · rw [hfail] at h
      simp at h
    · obtain ⟨r, hread, hr⟩ := readVarint_accepted hacc 0 tail
      have hdrop := drop_header_uid b0 b1 b2 b3 groups last tail
      have hlength := congrArg List.length hdrop
      rw [List.length_drop] at hlength
      rw [hread, toNat_read_header] at h
      simp only [hdrop, hlength, Nat.add_one_ne_zero, if_false] at h
      split at h
      · cases h
      · next hlen =>
        obtain rfl := (Option.some.inj h).symm
        refine ⟨groups ++ [last], tail.drop (Nat.ofDigits 256 ([b0, b1, b2, b3].map UInt8.toNat)),
          ⟨[b0, b1, b2, b3], ?_, rfl, ?_⟩, ⟨groups, last, rfl, hacc⟩, hr.symm⟩
        · rw [List.append_assoc _ (List.take _ _), List.take_append_drop]
          simp
        · rw [List.length_take]
          omega
  · cases h

/-- The frame of a message is no longer than any bytes that decode to it. -/
theorem Framed.frameSize_le {buf : List UInt8} {m : Message} {uid rest : List UInt8}
    (h : Framed buf m uid rest) : frameSize m ≤ 4 + uid.length + m.payload.length := by
  obtain ⟨groups, last, rfl, hacc⟩ := h.accepted
  have hle := groupBytes_length_le_of_groupSum (List.append_ne_nil_of_right_ne_nil groups
    (List.cons_ne_nil last []))
  rw [h.value, ← varintLen_eq] at hle
  unfold frameSize
  omega

theorem Framed.append {buf : List UInt8} {m : Message} {uid rest : List UInt8}
    (h : Framed buf m uid rest) (suffix : List UInt8) :
    Framed (buf ++ suffix) m uid (rest ++ suffix) := by
  obtain ⟨head, rfl, hlen, hplen⟩ := h.split
  exact ⟨⟨head, by simp, hlen, hplen⟩, h.accepted, h.value⟩

theorem Framed.length_lt {buf : List UInt8} {m : Message} {uid rest : List UInt8}
    (h : Framed buf m uid rest) : m.payload.length < 2 ^ 32 := by
  obtain ⟨head, -, hlen, hplen⟩ := h.split
  have hpow : 2 ^ 32 = 256 ^ (head.map UInt8.toNat).length := by
    rw [List.length_map, hlen]
    rfl
  rw [← hplen, hpow]
  refine Nat.ofDigits_lt_base_pow_length (by decide) fun d hd => ?_
  obtain ⟨b, -, rfl⟩ := List.mem_map.mp hd
  exact b.toNat_lt

theorem framed_frameBytes {m : Message} (h : m.payload.length < 2 ^ 32) :
    Framed (frameBytes m) m (groupBytes m.clientUid.toNat) [] := by
  refine ⟨⟨header (UInt32.ofNat m.payload.length), by simp [frameBytes], rfl, ?_⟩,
    groupBytes_accepted m.clientUid, groupSum_groupBytes _⟩
  rw [ofDigits_header, UInt32.toNat_ofNat']
  exact Nat.mod_eq_of_lt h

theorem decodeFrame_frameBytes {m : Message} (h : m.payload.length < 2 ^ 32)
    (suffix : List UInt8) : decodeFrame (frameBytes m ++ suffix) = some m :=
  decodeFrame_framed ((framed_frameBytes h).append suffix)

/-- No strict part of a frame decodes: it would decode to the same message in fewer bytes. -/
theorem decodeFrame_strict_part {m : Message} (h : m.payload.length < 2 ^ 32) {part : List UInt8}
    (hpart : part <+: frameBytes m) (hne : part ≠ frameBytes m) : decodeFrame part = none := by
  obtain ⟨suffix, hsuffix⟩ := hpart
  by_contra hsome
  obtain ⟨m', hm'⟩ := Option.ne_none_iff_exists'.mp hsome
  obtain ⟨uid, rest, hframed⟩ := framed_of_decodeFrame hm'
  have hwhole := decodeFrame_framed (hframed.append suffix)
  have hself := decodeFrame_framed (framed_frameBytes h)
  rw [hsuffix, hself] at hwhole
  obtain rfl := Option.some.inj hwhole
  have hsize := hframed.frameSize_le
  have hlen : part.length < frameSize m := by
    rw [← frameBytes_length, ← hsuffix, List.length_append]
    have hpos : suffix ≠ [] := by
      rintro rfl
      exact hne (by rw [← hsuffix, List.append_nil])
    have := List.length_pos_iff.mpr hpos
    omega
  obtain ⟨head, hbuf, hhead, -⟩ := hframed.split
  rw [hbuf] at hlen
  simp only [List.length_append] at hlen
  omega

end Decoder

/-- A message's frame is written whole or not at all, decodes to the message whatever follows
it and in no strict part; and what decodes to a message starts with its payload length, an
accepted uid and the payload, in no fewer bytes than the frame the encoder writes for it. -/
theorem frame_roundtrip :
    (∀ (m : Message) (out : List UInt8), m.payload.length < 2 ^ 32 →
      (frameSize m ≤ out.length → ∃ bytes : List UInt8, bytes.length = frameSize m ∧
        encodeFrame m out = some (frameSize m, bytes ++ out.drop (frameSize m)) ∧
        (∀ suffix, decodeFrame (bytes ++ suffix) = some m) ∧
        ∀ part, part <+: bytes → part ≠ bytes → decodeFrame part = none) ∧
      (out.length < frameSize m → encodeFrame m out = some (0, out))) ∧
    ∀ (buf : List UInt8) (m : Message), decodeFrame buf = some m →
      ∃ head uid rest : List UInt8, buf = head ++ uid ++ m.payload ++ rest ∧ head.length = 4 ∧
        Nat.ofDigits 256 (head.map UInt8.toNat) = m.payload.length ∧
        (∃ groups last, uid = groups ++ [last] ∧ Accepted 0 groups last) ∧
        groupSum uid = m.clientUid.toNat ∧
        frameSize m ≤ 4 + uid.length + m.payload.length ∧
        ∀ out : List UInt8, frameSize m ≤ out.length → ∃ bytes : List UInt8,
          bytes.length = frameSize m ∧
          encodeFrame m out = some (frameSize m, bytes ++ out.drop (frameSize m)) ∧
          decodeFrame bytes = some m := by
  refine ⟨fun m out hm => ⟨fun hroom => ?_, fun hshort => ?_⟩, fun buf m hdec => ?_⟩
  · exact ⟨frameBytes m, frameBytes_length m, encodeFrame_of_le hroom, decodeFrame_frameBytes hm,
      fun part => decodeFrame_strict_part hm⟩
  · rw [encodeFrame, if_pos hshort]
  · obtain ⟨uid, rest, hframed⟩ := framed_of_decodeFrame hdec
    obtain ⟨head, hbuf, hhead, hplen⟩ := hframed.split
    refine ⟨head, uid, rest, hbuf, hhead, hplen, hframed.accepted, hframed.value,
      hframed.frameSize_le, fun out hroom => ?_⟩
    exact ⟨frameBytes m, frameBytes_length m, encodeFrame_of_le hroom,
      decodeFrame_framed (framed_frameBytes hframed.length_lt)⟩

/-- The length is stored in 32 bits, while the buffer is checked against the whole of it: what
is written decodes to the message exactly when those bits hold the length or the buffer is
too short. -/
theorem encodeFrame_decodes_iff (m : Message) (out : List UInt8) :
    (∀ n out', encodeFrame m out = some (n, out') → n ≠ 0 →
        decodeFrame (out'.take n) = some m) ↔
      m.payload.length < 2 ^ 32 ∨ out.length < frameSize m := by
  have hwritten : (frameBytes m ++ out.drop (frameSize m)).take (frameSize m) = frameBytes m :=
    List.take_left' (frameBytes_length m)
  constructor
  · intro h
    by_contra hwide
    obtain ⟨hlong, hroom⟩ := not_or.mp hwide
    have hframe := encodeFrame_of_le (not_lt.mp hroom)
    have hcount : frameSize m ≠ 0 := by
      unfold frameSize
      omega
    have hdec := h _ _ hframe hcount
    obtain ⟨uid, rest, hframed⟩ := framed_of_decodeFrame hdec
    exact hlong hframed.length_lt
  · intro h n out' henc hn
    by_cases hroom : frameSize m ≤ out.length
    · have hshort := h.resolve_right (not_lt.mpr hroom)
      rw [encodeFrame_of_le hroom] at henc
      obtain ⟨rfl, rfl⟩ := Prod.mk.inj (Option.some.inj henc)
      rw [hwritten, ← List.append_nil (frameBytes m)]
      exact decodeFrame_frameBytes hshort []
    · rw [encodeFrame, if_pos (not_le.mp hroom)] at henc
      obtain ⟨rfl, -⟩ := Prod.mk.inj (Option.some.inj henc)
      exact absurd rfl hn

/-- A payload of `2 ^ 32` bytes is stored with the length zero. -/
theorem encodeFrame_long_payload :
    ¬ ∀ (m : Message) (out : List UInt8), m.payload.length < 2 ^ 64 - 1 - 14 →
      ∀ n out', encodeFrame m out = some (n, out') → n ≠ 0 →
        decodeFrame (out'.take n) = some m := by
  intro h
  obtain ⟨m, hm⟩ : ∃ m : Message, m.payload.length = 2 ^ 32 :=
    ⟨⟨7, List.replicate (2 ^ 32) 0⟩, List.length_replicate⟩
  obtain ⟨out, hout⟩ : ∃ out : List UInt8, out.length = frameSize m :=
    ⟨List.replicate (frameSize m) 0, List.length_replicate⟩
  have hframe := encodeFrame_of_le hout.ge
  have hcount : frameSize m ≠ 0 := by
    unfold frameSize
    omega
  have hdec := h m out (by omega) _ _ hframe hcount
  obtain ⟨uid, rest, hframed⟩ := framed_of_decodeFrame hdec
  have hlt := hframed.length_lt
  omega

end HftExercises.Codec
