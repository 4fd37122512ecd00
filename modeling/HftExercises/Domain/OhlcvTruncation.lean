import HftExercises.Domain.OhlcvLedger

/-! # Timestamps below zero

The bucket of a trade is computed by a division that truncates towards zero, and a
current bucket of -1 stands for none. Without rolls the candles are those of the
documented buckets as long as neither of the two shows.
-/
namespace HftExercises.Ohlcv
variable {P : Type*} [LinearOrder P] [Zero P]

/-- Every trade of the candle falls in its interval. -/
def Covers (w : ℤ) (c : Candle P) (g : List (Trade P)) : Prop :=
  ∀ t ∈ g, c.openTime ≤ t.ts ∧ t.ts < c.openTime + w

/-- The next candle is the one of the next bucket. -/
def Next (w : ℤ) (x y : ℤ) : Prop := y = x + w

structure WellTimed (w : ℤ) (l : Ledger P) : Prop where
  inside : l.Each (Covers w)
  distinct : (l.agg.completed.map Candle.openTime).Nodup
  steps : (l.agg.completed.map Candle.openTime).IsChain (Next w)

/-- The trade is not stale, and truncation gives it another bucket than the floor,
or it opens another bucket while the open one is taken for none. -/
def Misfiles (a : OhlcvAggregator P) (t : Trade P) : Prop :=
  (a.currentBucket = -1 ∨ a.currentBucket ≤ t.ts.tdiv a.bucketMs) ∧
    (t.ts < 0 ∧ ¬ a.bucketMs ∣ t.ts ∨
      a.currentBucket = -1 ∧ a.hasTrade = true ∧ t.ts.tdiv a.bucketMs ≠ -1)

instance (a : OhlcvAggregator P) (t : Trade P) : Decidable (Misfiles a t) :=
  inferInstanceAs (Decidable (_ ∧ (_ ∨ _)))

def Ledger.addTrades (l : Ledger P) (trades : List (Trade P)) : Ledger P :=
  trades.foldl Ledger.addTrade l

section Division
variable {w ts : ℤ}

theorem tdiv_interval (hw : 0 < w) (h : 0 ≤ ts ∨ w ∣ ts) :
    ts.tdiv w * w ≤ ts ∧ ts < ts.tdiv w * w + w := by
  rcases h with h | h
  · have hlow := Int.ediv_mul_le ts hw.ne'
    have hhigh := Int.lt_ediv_add_one_mul_self ts hw
    rw [Int.tdiv_eq_ediv_of_nonneg h]
    rw [add_mul, one_mul] at hhigh
    exact ⟨hlow, hhigh⟩
  · rw [Int.tdiv_mul_cancel h]
    omega

/-- Below zero the truncated bucket opens after the trade. -/
theorem lt_tdiv_mul (hneg : ts < 0) (h : ¬ w ∣ ts) : ts < ts.tdiv w * w := by
  have hdiv := Int.tdiv_mul_add_tmod ts w
  have hle : (-ts).tmod w ≥ 0 := Int.tmod_nonneg w (by omega)
  have hne : ts.tmod w ≠ 0 := fun hz => h (Int.dvd_of_tmod_eq_zero hz)
  rw [Int.neg_tmod] at hle
  omega

end Division

/-- The candles are consecutive, and the open one is that of the current bucket. -/
structure TimedInv (w : ℤ) (l : Ledger P) : Prop where
  sound : l.Sound
  width : l.agg.bucketMs = w
  fresh : l.opened = [] → l.agg.completed = [] ∧ l.filed = [] ∧ l.agg.currentBucket = -1
  label : l.opened ≠ [] → l.agg.current.openTime = l.agg.currentBucket * w
  inside : l.Each (Covers w)
  chain : l.opened ≠ [] → (l.agg.candles.map Candle.openTime).IsChain (Next w)

section Steps
variable {w : ℤ} {l : Ledger P} {t : Trade P}

omit [LinearOrder P] [Zero P] in
theorem covers_nil (c : Candle P) : Covers w c [] := by
  intro e he
  cases he

theorem TimedInv.of_folded (hsound : l.Sound) (hwidth : l.agg.bucketMs = w)
    (hlabel : l.agg.current.openTime = l.agg.currentBucket * w) (hinside : l.Each (Covers w))
    (hchain : (l.agg.candles.map Candle.openTime).IsChain (Next w))
    (ht : l.agg.currentBucket * w ≤ t.ts ∧ t.ts < l.agg.currentBucket * w + w) :
    TimedInv w (l.foldTrade t) := by
  have hcurrent : (l.foldTrade t).agg.current.openTime = l.agg.current.openTime :=
    foldTrade_openTime
  have htimes : (l.foldTrade t).agg.candles.map Candle.openTime =
      l.agg.candles.map Candle.openTime := foldTrade_openTimes
  refine ⟨hsound.foldTrade t, hwidth, ?_, fun _ => hcurrent.trans hlabel, ⟨hinside.1, ?_⟩,
    fun _ => htimes ▸ hchain⟩
  · intro hnil
    exact absurd hnil (List.append_ne_nil_of_right_ne_nil _ (List.cons_ne_nil t []))
  · intro e he
    rw [hcurrent]
    rcases List.mem_append.mp he with he | he
    · exact hinside.2 e he
    · rw [List.mem_singleton.mp he, hlabel]
      exact ht

/-- A trade that truncation puts in the open bucket -1 only joins it. -/
theorem Ledger.addTrade_of_reopen (hnone : l.agg.currentBucket = -1)
    (hb : t.ts.tdiv l.agg.bucketMs = -1) (hlabel : l.agg.current.openTime = -1 * l.agg.bucketMs) :
    l.addTrade t = l.foldTrade t := by
  unfold Ledger.addTrade
  dsimp only
  rw [hb, if_pos hnone, ← hlabel]
  obtain ⟨⟨_, b, _, _, _⟩, filed, _⟩ := l
  obtain rfl : b = -1 := hnone
  have hnil : filed ++ List.replicate (Int.toNat (-1)) [] = filed := List.append_nil filed
  rw [hnil]
  rfl

theorem TimedInv.first (h : TimedInv w l) (hopened : l.opened = [])
    (ht : t.ts.tdiv w * w ≤ t.ts ∧ t.ts < t.ts.tdiv w * w + w) : TimedInv w (l.addTrade t) := by
  obtain ⟨hcompleted, hfiled, hnone⟩ := h.fresh hopened
  have hsum := h.sound.each.2
  have hno := h.sound.hasTrade
  rw [hopened] at hsum hno
  unfold Ledger.addTrade
  dsimp only
  rw [if_pos hnone, hopened, hcompleted, hfiled, h.width]
  refine TimedInv.of_folded (w := w) ⟨⟨?_, hsum.reopen _⟩, hno⟩ rfl rfl ⟨?_, ?_⟩ ?_ ht
  · exact forall₂_appendEmptyCandles summarizes_empty _ .nil
  · exact forall₂_appendEmptyCandles (fun _ => covers_nil _) _ .nil
  · exact covers_nil _
  · show ((appendEmptyCandles _ _ _ _ ++ [_]).map Candle.openTime).IsChain _
    by_cases hpos : 0 ≤ t.ts.tdiv w
    · apply isChain_appendEmptyCandles (R := Next w) (fun _ => rfl) _ List.isChain_nil
      · intro x hx
        cases hx
      · rw [Int.toNat_of_nonneg hpos, Int.zero_add]
    · rw [Int.toNat_of_nonpos (by omega)]
      exact List.isChain_singleton _

theorem TimedInv.later (h : TimedInv w l) (hopened : l.opened ≠ [])
    (hnone : l.agg.currentBucket ≠ -1) (hlt : l.agg.currentBucket < t.ts.tdiv w)
    (ht : t.ts.tdiv w * w ≤ t.ts ∧ t.ts < t.ts.tdiv w * w + w) : TimedInv w (l.addTrade t) := by
  unfold Ledger.addTrade
  dsimp only
  rw [h.width, if_neg hnone, if_neg (by omega), if_pos hlt]
  refine TimedInv.of_folded (w := w) ⟨⟨?_, rfl⟩, rfl⟩ rfl rfl ⟨?_, covers_nil _⟩ ?_ ht
  · exact forall₂_appendEmptyCandles summarizes_empty _ h.sound.each.forall₂
  · exact forall₂_appendEmptyCandles (fun _ => covers_nil _) _ h.inside.forall₂
  · apply isChain_appendEmptyCandles (R := Next w) (fun _ => rfl) _ (h.chain hopened)
    · intro x hx
      rw [candles_getLast?, Option.mem_some_iff] at hx
      rw [← hx, h.label hopened, Int.add_sub_cancel]
    · rw [Int.toNat_of_nonneg (by omega), add_sub_cancel]
      rfl

theorem TimedInv.addTrade (h : TimedInv w l) (hw : 0 < w) (ht : ¬ Misfiles l.agg t) :
    TimedInv w (l.addTrade t) := by
  unfold Misfiles at ht
  rw [h.width] at ht
  by_cases hstale : l.agg.currentBucket ≠ -1 ∧ t.ts.tdiv w < l.agg.currentBucket
  · have hsame : l.addTrade t = l := by
      unfold Ledger.addTrade
      dsimp only
      rw [h.width, if_neg hstale.1, if_pos hstale.2]
    rw [hsame]
    exact h
  · have hfolded : l.agg.currentBucket = -1 ∨ l.agg.currentBucket ≤ t.ts.tdiv w := by omega
    have hinterval : t.ts.tdiv w * w ≤ t.ts ∧ t.ts < t.ts.tdiv w * w + w := by
      apply tdiv_interval hw
      by_contra hneg
      obtain ⟨hneg, hdvd⟩ := not_or.mp hneg
      exact ht ⟨hfolded, .inl ⟨not_le.mp hneg, hdvd⟩⟩
    by_cases hopened : l.opened = []
    · exact h.first hopened hinterval
    · have hlabel := h.label hopened
      have hjoin : l.agg.currentBucket = t.ts.tdiv w → TimedInv w (l.foldTrade t) := by
        intro heq
        exact TimedInv.of_folded h.sound h.width hlabel h.inside (h.chain hopened) (heq ▸ hinterval)
      by_cases hnone : l.agg.currentBucket = -1
      · have hhas : l.agg.hasTrade = true := by
          rw [h.sound.hasTrade]
          simpa using hopened
        have hb : t.ts.tdiv w = -1 := by
          by_contra hother
          exact ht ⟨hfolded, .inr ⟨hnone, hhas, hother⟩⟩
        rw [hnone, ← h.width] at hlabel
        rw [Ledger.addTrade_of_reopen hnone (h.width ▸ hb) hlabel]
        exact hjoin (hnone.trans hb.symm)
      · by_cases hlt : l.agg.currentBucket < t.ts.tdiv w
        · exact h.later hopened hnone hlt hinterval
        · have hsame : l.addTrade t = l.foldTrade t := by
            unfold Ledger.addTrade
            dsimp only
            rw [h.width, if_neg hnone, if_neg (by omega), if_neg hlt]
          rw [hsame]
          exact hjoin (by omega)

theorem TimedInv.wellTimed (h : TimedInv w l) (hw : 0 < w) : WellTimed w l := by
  have hsteps : (l.agg.completed.map Candle.openTime).IsChain (Next w) := by
    by_cases hopened : l.opened = []
    · rw [(h.fresh hopened).1]
      exact List.isChain_nil
    · have hchain := h.chain hopened
      rw [OhlcvAggregator.candles, List.map_append] at hchain
      exact hchain.left_of_append
  refine ⟨h.inside, ?_, hsteps⟩
  have hlt : (l.agg.completed.map Candle.openTime).IsChain (· < ·) :=
    hsteps.imp (fun x y hxy => by
      unfold Next at hxy
      omega)
  exact (List.isChain_iff_pairwise.mp hlt).imp (fun hxy => hxy.ne)

/-- The trade is in the current candle, which starts with its truncated bucket. -/
theorem TimedInv.opened_of_folded (h : TimedInv w l)
    (hfolded : l.agg.currentBucket = -1 ∨ l.agg.currentBucket ≤ t.ts.tdiv w) :
    t ∈ (l.addTrade t).opened ∧ (l.addTrade t).agg.current.openTime = t.ts.tdiv w * w := by
  unfold Ledger.addTrade
  dsimp only
  rw [h.width]
  split_ifs with hnone hlt hgt
  · exact ⟨List.mem_append_right _ List.mem_cons_self, foldTrade_openTime⟩
  · omega
  · exact ⟨List.mem_append_right _ List.mem_cons_self, foldTrade_openTime⟩
  · have hopened : l.opened ≠ [] := fun hnil => hnone (h.fresh hnil).2.2
    have heq : t.ts.tdiv w = l.agg.currentBucket := by omega
    refine ⟨List.mem_append_right _ List.mem_cons_self, ?_⟩
    rw [heq, ← h.label hopened]
    exact foldTrade_openTime

/-- A candle that is open for bucket -1 gets the open time of the next trade. -/
theorem Ledger.mem_opened_of_reopen (hnone : l.agg.currentBucket = -1) {e : Trade P}
    (he : e ∈ l.opened) : e ∈ (l.addTrade t).opened := by
  unfold Ledger.addTrade
  dsimp only
  rw [if_pos hnone]
  exact List.mem_append_left _ he

theorem TimedInv.not_wellTimed (h : TimedInv w l) (hw : 0 < w) (ht : Misfiles l.agg t) :
    ¬ WellTimed w (l.addTrade t) := by
  unfold Misfiles at ht
  rw [h.width] at ht
  obtain ⟨hfolded, hdefect⟩ := ht
  obtain ⟨hmem, hopen⟩ := h.opened_of_folded hfolded
  intro hgood
  rcases hdefect with ⟨hneg, hdvd⟩ | ⟨hnone, hhas, hother⟩
  · have hle := (hgood.inside.2 t hmem).1
    have hlt := lt_tdiv_mul hneg hdvd
    omega
  · have hopened : l.opened ≠ [] := by
      intro hnil
      rw [h.sound.hasTrade, hnil] at hhas
      cases hhas
    obtain ⟨e, he⟩ := List.exists_mem_of_ne_nil _ hopened
    have hbefore := h.inside.2 e he
    have hafter := hgood.inside.2 e (Ledger.mem_opened_of_reopen hnone he)
    rw [h.label hopened, hnone] at hbefore
    rw [hopen] at hafter
    -- `e` would have to be in the intervals of two buckets
    have hlow : t.ts.tdiv w * w < 0 * w := by omega
    have hhigh : -1 * w < (t.ts.tdiv w + 1) * w := by
      rw [add_mul, one_mul]
      omega
    have hb := lt_of_mul_lt_mul_right hlow hw.le
    have hb' := lt_of_mul_lt_mul_right hhigh hw.le
    omega

end Steps

section Runs
variable {w : ℤ} {l : Ledger P}

theorem TimedInv.start (hw : 0 < w) :
    ∃ a : OhlcvAggregator P, OhlcvAggregator.create w = .ok a ∧ TimedInv w (Ledger.start a) := by
  refine ⟨⟨w, -1, emptyCandle 0, [], false⟩, if_neg (by omega), ⟨⟨.nil, rfl⟩, rfl⟩, rfl,
    fun _ => ⟨rfl, rfl, rfl⟩, ?_, ⟨.nil, covers_nil _⟩, ?_⟩
  · exact fun hne => absurd rfl hne
  · exact fun hne => absurd rfl hne

/-- The first trade that is misfiled spoils the candles. -/
theorem TimedInv.addTrades_iff (h : TimedInv w l) (hw : 0 < w) (trades : List (Trade P)) :
    (∀ before after, trades = before ++ after → WellTimed w (l.addTrades before)) ↔
      ∀ before t after, trades = before ++ t :: after → ¬ Misfiles (l.addTrades before).agg t := by
  induction trades generalizing l with
  | nil =>
    constructor
    · intro _ before t after heq
      cases before <;> cases heq
    · intro _ before after heq
      obtain ⟨rfl, rfl⟩ := List.append_eq_nil_iff.mp heq.symm
      exact h.wellTimed hw
  | cons t trades ih =>
    constructor
    · intro hgood before t' after heq
      have hfirst : ¬ Misfiles l.agg t := by
        intro hbad
        exact h.not_wellTimed hw hbad (hgood [t] trades rfl)
      cases before with
      | nil =>
        obtain ⟨rfl, -⟩ := List.cons.inj heq
        exact hfirst
      | cons e before =>
        obtain ⟨rfl, hrest⟩ := List.cons.inj heq
        refine (ih (h.addTrade hw hfirst)).mp ?_ before t' after hrest
        rintro before' after' rfl
        exact hgood (t :: before') after' rfl
    · intro hgood before after heq
      have hfirst : ¬ Misfiles l.agg t := hgood [] t trades rfl
      cases before with
      | nil => exact h.wellTimed hw
      | cons e before =>
        obtain ⟨rfl, hrest⟩ := List.cons.inj heq
        refine (ih (h.addTrade hw hfirst)).mpr ?_ before after hrest
        rintro before' t' after' rfl
        exact hgood (t :: before') t' after' rfl

theorem Ledger.addTrades_agg (l : Ledger P) (trades : List (Trade P)) :
    (l.addTrades trades).agg = l.agg.addTrades trades := by
  induction trades generalizing l with
  | nil => rfl
  | cons t trades ih =>
    rw [Ledger.addTrades, List.foldl_cons, ← Ledger.addTrades, ih, Ledger.addTrade_agg]
    rfl

end Runs

/-- Whatever the timestamps are, the candles are well timed all along just when no
trade is misfiled. -/
theorem ohlcvAggregator_wellTimed_iff (w : ℤ) (hw : 0 < w) (trades : List (Trade P)) :
    ∃ start : OhlcvAggregator P, OhlcvAggregator.create w = .ok start ∧
      ((∀ before after, trades = before ++ after →
          WellTimed w ((Ledger.start start).addTrades before)) ↔
        ∀ before t after, trades = before ++ t :: after → ¬ Misfiles (start.addTrades before) t) := by
  obtain ⟨start, hcreate, hstart⟩ := TimedInv.start (P := P) hw
  refine ⟨start, hcreate, ?_⟩
  have hiff := hstart.addTrades_iff hw trades
  simp only [Ledger.addTrades_agg] at hiff
  exact hiff

/-- A multiple of the width below zero, then a later trade that reopens its bucket. -/
theorem ohlcvAggregator_wellTimed_iff_below :
    (0 : ℤ) < 100 ∧ ∃ start : OhlcvAggregator ℤ, OhlcvAggregator.create 100 = .ok start ∧
      ((∀ before after, [⟨-300, 10, 1⟩, ⟨-100, 12, 2⟩, ⟨40, 9, 4⟩] = before ++ after →
          WellTimed 100 ((Ledger.start start).addTrades before)) ↔
        ∀ before t after, [⟨-300, 10, 1⟩, ⟨-100, 12, 2⟩, ⟨40, 9, 4⟩] = before ++ t :: after →
          ¬ Misfiles (start.addTrades before) t) :=
  ⟨by decide, ohlcvAggregator_wellTimed_iff 100 (by decide) _⟩

/-- One trade half a bucket before zero goes into the candle from 0 to 100. -/
theorem ohlcvAggregator_negative_trade :
    ¬ ∀ (w : ℤ) (trades : List (Trade ℤ)) (start : OhlcvAggregator ℤ), 0 < w →
      OhlcvAggregator.create w = .ok start → WellTimed w ((Ledger.start start).addTrades trades) := by
  intro h
  have hgood := h 100 [⟨-50, 10, 1⟩] ⟨100, -1, emptyCandle 0, [], false⟩ (by decide) rfl
  have hmem : (⟨-50, 10, 1⟩ : Trade ℤ) ∈ ((Ledger.start ⟨100, -1, emptyCandle 0, [], false⟩).addTrades
      [⟨-50, 10, 1⟩]).opened := List.mem_cons_self
  exact absurd (hgood.inside.2 _ hmem).1 (by decide)

end HftExercises.Ohlcv
