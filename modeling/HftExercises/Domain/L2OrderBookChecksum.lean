import HftExercises.Core.WordMixing
import HftExercises.Domain.L2OrderBook

/-! # What the checksum of a level-2 book tells

The mixer permutes words, and so does a level that is xored in before it. Two books
that differ in one level therefore have different checksums, and a book hashes to 0
just when its first level is the one word that the others, taken back from 0, ask for.
-/
namespace HftExercises.L2

def wordEquiv : UInt64 ≃ BitVec 64 where
  toFun := UInt64.toBitVec
  invFun := UInt64.ofBitVec
  left_inv _ := rfl
  right_inv _ := rfl

/-- The rounds of `mix`, each with what undoes it. -/
def mixPerm : Equiv.Perm UInt64 :=
  wordEquiv.symm.permCongr <|
    (xorShiftPerm 30 2 (by decide)).trans <|
    (mulPerm 0xbf58476d1ce4e5b9 0x96de1b173f119089 (by decide)).trans <|
    (xorShiftPerm 27 2 (by decide)).trans <|
    (mulPerm 0x94d049bb133111eb 0x319642b2d24d8ec3 (by decide)).trans <|
    xorShiftPerm 31 2 (by decide)

/-- `mix` backwards. -/
def unmix : UInt64 → UInt64 := mixPerm.symm

theorem xor_xor_self (h t : UInt64) : h ^^^ t ^^^ t = h := by
  rw [UInt64.xor_assoc, UInt64.xor_self, UInt64.xor_zero]

/-- One step of the fold: a level's word is xored in and the hash mixed. -/
def stepPerm (t : UInt64) : Equiv.Perm UInt64 where
  toFun h := mix (h ^^^ t)
  invFun h := unmix h ^^^ t
  left_inv h := by
    have hback : unmix (mix (h ^^^ t)) = h ^^^ t := mixPerm.symm_apply_apply _
    dsimp only
    rw [hback, xor_xor_self]
  right_inv h := by
    dsimp only
    rw [xor_xor_self]
    exact mixPerm.apply_symm_apply h

theorem stepPerm_ne {t t' : UInt64} (ht : t ≠ t') (h : UInt64) : stepPerm t h ≠ stepPerm t' h := by
  intro heq
  have hxor : h ^^^ t = h ^^^ t' := mixPerm.injective heq
  exact ht ((UInt64.xor_right_inj h).mp hxor)

/-- The multiplier of the encodings, as a permutation. -/
def scalePerm : Equiv.Perm (BitVec 64) :=
  mulPerm 0xC6A4A7935BD1E995 0x5f7a0ea7e59b19bd (by decide)

/-- Both sides encode a level so, with price and quantity in either role. -/
def levelWord (scaled shifted : Int64) (c : UInt64) : UInt64 :=
  scaled.toUInt64 * 0xC6A4A7935BD1E995 ^^^ (shifted.toUInt64 + c)

theorem toUInt64_injective {a b : Int64} (h : a.toUInt64 = b.toUInt64) : a = b := by
  cases a
  cases b
  exact congrArg Int64.ofUInt64 h

theorem levelWord_ne_of_scaled {a a' : Int64} (ha : a ≠ a') (b : Int64) (c : UInt64) :
    levelWord a b c ≠ levelWord a' b c := by
  intro heq
  have hmul := congrArg UInt64.toBitVec ((UInt64.xor_left_inj _).mp heq)
  have hword : a.toUInt64.toBitVec = a'.toUInt64.toBitVec := scalePerm.injective hmul
  exact ha (toUInt64_injective (UInt64.toBitVec_inj.mp hword))

theorem levelWord_ne_of_shifted {b b' : Int64} (hb : b ≠ b') (a : Int64) (c : UInt64) :
    levelWord a b c ≠ levelWord a b' c := by
  intro heq
  have hadd := (UInt64.xor_right_inj _).mp heq
  exact hb (toUInt64_injective ((UInt64.add_left_inj c).mp hadd))

def bidWord (e : Price × Qty) : UInt64 := levelWord e.1 e.2 0x13198A2E

def askWord (e : Price × Qty) : UInt64 := levelWord e.2 e.1 0x165667B1

theorem mixBid_eq (h : UInt64) (e : Price × Qty) : mixBid h e = stepPerm (bidWord e) h := by
  show mix _ = mix _
  rw [bidWord, levelWord, ← UInt64.xor_assoc]

theorem mixAsk_eq (h : UInt64) (e : Price × Qty) : mixAsk h e = stepPerm (askWord e) h := by
  show mix _ = mix _
  rw [askWord, levelWord, ← UInt64.xor_assoc]

/-- The words of a book, bids first. -/
def L2Book.words (b : L2Book) : List UInt64 :=
  b.bids.entries.map bidWord ++ b.asks.entries.map askWord

theorem L2Book.checksum_eq (b : L2Book) : b.checksum =
    if b.words = [] then 0 else b.words.foldl (fun h t => stepPerm t h) 0x9E3779B97F4A7C15 := by
  unfold L2Book.checksum L2Book.words
  simp [List.foldl_append, List.foldl_map, ← mixBid_eq, ← mixAsk_eq]

/-- One level differs, and only in its price or only in its quantity. -/
def OneLevelApart (l l' : List (Price × Qty)) : Prop :=
  ∃ better worse e e', l = better ++ e :: worse ∧ l' = better ++ e' :: worse ∧ e ≠ e' ∧
    (e.1 = e'.1 ∨ e.2 = e'.2)

theorem bidWord_ne {e e' : Price × Qty} (hne : e ≠ e') (h : e.1 = e'.1 ∨ e.2 = e'.2) :
    bidWord e ≠ bidWord e' := by
  unfold bidWord
  rcases h with h | h
  · rw [h]
    exact levelWord_ne_of_shifted (fun hq => hne (Prod.ext h hq)) _ _
  · rw [h]
    exact levelWord_ne_of_scaled (fun hp => hne (Prod.ext hp h)) _ _

theorem askWord_ne {e e' : Price × Qty} (hne : e ≠ e') (h : e.1 = e'.1 ∨ e.2 = e'.2) :
    askWord e ≠ askWord e' := by
  unfold askWord
  rcases h with h | h
  · rw [h]
    exact levelWord_ne_of_scaled (fun hq => hne (Prod.ext h hq)) _ _
  · rw [h]
    exact levelWord_ne_of_shifted (fun hp => hne (Prod.ext hp h)) _ _

/-- The words of two books that are one level apart differ in one place. -/
theorem L2Book.checksum_ne_of_words {b b' : L2Book} (pre post : List UInt64) {t t' : UInt64}
    (hb : b.words = pre ++ t :: post) (hb' : b'.words = pre ++ t' :: post) (ht : t ≠ t') :
    b.checksum ≠ b'.checksum := by
  rw [b.checksum_eq, b'.checksum_eq, hb, hb', if_neg (by simp), if_neg (by simp)]
  exact foldl_perm_ne stepPerm (stepPerm_ne ht) pre post _

/-- The checksum tells every change of one level's price or quantity. -/
theorem L2Book.checksum_sensitive (b b' : L2Book)
    (h : OneLevelApart b.bids.entries b'.bids.entries ∧ b.asks = b'.asks ∨
      b.bids = b'.bids ∧ OneLevelApart b.asks.entries b'.asks.entries) :
    b.checksum ≠ b'.checksum := by
  rcases h with ⟨⟨better, worse, e, e', hl, hl', hne, hone⟩, hasks⟩ |
    ⟨hbids, better, worse, e, e', hl, hl', hne, hone⟩
  · apply L2Book.checksum_ne_of_words (better.map bidWord)
      (worse.map bidWord ++ b'.asks.entries.map askWord) ?_ ?_ (bidWord_ne hne hone)
    · simp [L2Book.words, hl, hasks]
    · simp [L2Book.words, hl']
  · apply L2Book.checksum_ne_of_words (b'.bids.entries.map bidWord ++ better.map askWord)
      (worse.map askWord) ?_ ?_ (askWord_ne hne hone)
    · simp [L2Book.words, hl, hbids]
    · simp [L2Book.words, hl']

/-- The quantity of the second ask grows by one. -/
theorem L2Book.checksum_sensitive_qty :
    let b := L2Book.init.applySnapshot [⟨100, 5⟩] [⟨101, 7⟩, ⟨102, 8⟩, ⟨104, 3⟩]
    let b' := L2Book.init.applySnapshot [⟨100, 5⟩] [⟨101, 7⟩, ⟨102, 9⟩, ⟨104, 3⟩]
    b.checksum ≠ b'.checksum :=
  L2Book.checksum_sensitive _ _
    (.inr ⟨rfl, [(101, 7)], [(104, 3)], (102, 8), (102, 9), rfl, rfl, by decide, .inl rfl⟩)

/-- What the first level's word has to be for the other words to end in 0. -/
def cancellingWord (rest : List UInt64) : UInt64 :=
  0x9E3779B97F4A7C15 ^^^ unmix (rewind stepPerm rest 0)

/-- The first level is the one that the others cancel. -/
def L2Book.Cancels (b : L2Book) : Prop :=
  ∃ t rest, b.words = t :: rest ∧ t = cancellingWord rest

theorem foldl_stepPerm_eq_zero_iff (t : UInt64) (rest : List UInt64) :
    (t :: rest).foldl (fun h t => stepPerm t h) 0x9E3779B97F4A7C15 = 0 ↔
      t = cancellingWord rest := by
  rw [foldl_eq_iff_rewind]
  show (0x9E3779B97F4A7C15 : UInt64) = unmix (rewind stepPerm rest 0) ^^^ t ↔ _
  unfold cancellingWord
  constructor
  · intro h
    rw [h, UInt64.xor_comm (unmix _), xor_xor_self]
  · intro h
    rw [h, UInt64.xor_comm (unmix _), xor_xor_self]

/-- A non-empty book hashes to 0 just when its first level cancels the others. -/
theorem L2Book.checksum_ne_zero_iff (b : L2Book) :
    (b.bids.entries ≠ [] ∨ b.asks.entries ≠ [] → b.checksum ≠ 0) ↔ ¬ b.Cancels := by
  have hempty : b.words = [] ↔ ¬ (b.bids.entries ≠ [] ∨ b.asks.entries ≠ []) := by
    simp [L2Book.words]
  cases hw : b.words with
  | nil =>
    constructor
    · rintro - ⟨t, rest, ht, -⟩
      rw [hw] at ht
      cases ht
    · exact fun _ hne => absurd hne (hempty.mp hw)
  | cons t rest =>
    have hne : b.bids.entries ≠ [] ∨ b.asks.entries ≠ [] := by
      by_contra hno
      rw [hempty.mpr hno] at hw
      cases hw
    have hcancels : b.Cancels ↔ t = cancellingWord rest := by
      constructor
      · rintro ⟨t', rest', heq, ht'⟩
        rw [hw] at heq
        cases heq
        exact ht'
      · exact fun ht => ⟨t, rest, hw, ht⟩
    rw [hcancels, ← foldl_stepPerm_eq_zero_iff, b.checksum_eq, hw, if_neg (List.cons_ne_nil t rest)]
    exact ⟨fun h => h hne, fun h _ => h⟩

/-- One bid at price 100. -/
theorem L2Book.checksum_zero_single_bid :
    ¬ ∀ b : L2Book, b.bids.entries ≠ [] ∨ b.asks.entries ≠ [] → b.checksum ≠ 0 := by
  intro h
  have hzero : (L2Book.init.applySnapshot [⟨100, 461069440329168883⟩] []).checksum = 0 := by decide
  exact h _ (.inl (by decide)) hzero

end HftExercises.L2
