import HftExercises.Domain.OhlcvLedger
import Mathlib.Data.UInt

/-! # The aggregator between rolls

A roll closes the current candle wherever its bucket stands and leaves an empty one
for the same bucket. However rolls and trades alternate, the candles hold the trades
that were not stale, each one in a candle of its bucket, and leave no gap.
-/
namespace HftExercises.Ohlcv
variable {P : Type*} [LinearOrder P] [Zero P]

inductive Call (P : Type*) where
  | addTrade (trade : Trade P)
  | roll
  deriving DecidableEq, Repr

def Call.trade? : Call P → Option (Trade P)
  | .addTrade t => some t
  | .roll => none

def tradesIn (calls : List (Call P)) : List (Trade P) := calls.filterMap Call.trade?

def OhlcvAggregator.apply (a : OhlcvAggregator P) : Call P → OhlcvAggregator P
  | .addTrade t => a.addTrade t
  | .roll => a.roll.2

def OhlcvAggregator.applyAll (a : OhlcvAggregator P) (calls : List (Call P)) : OhlcvAggregator P :=
  calls.foldl OhlcvAggregator.apply a

def Ledger.apply (l : Ledger P) : Call P → Ledger P
  | .addTrade t => l.addTrade t
  | .roll => l.roll

def Ledger.applyAll (l : Ledger P) (calls : List (Call P)) : Ledger P := calls.foldl Ledger.apply l

theorem Ledger.apply_agg (l : Ledger P) (c : Call P) : (l.apply c).agg = l.agg.apply c := by
  cases c with
  | addTrade t => exact l.addTrade_agg t
  | roll => rfl

theorem Ledger.applyAll_agg (l : Ledger P) (calls : List (Call P)) :
    (l.applyAll calls).agg = l.agg.applyAll calls := by
  induction calls generalizing l with
  | nil => rfl
  | cons c calls ih =>
    rw [Ledger.applyAll, List.foldl_cons, ← Ledger.applyAll, ih, Ledger.apply_agg]
    rfl

/-- All the trades fall in the candle's bucket. -/
def Placed (w : ℤ) (c : Candle P) (g : List (Trade P)) : Prop :=
  ∀ t ∈ g, c.openTime = w * t.bucket w

/-- The next candle is one of the same bucket or of the one after it. -/
def NextOrSame (w : ℤ) (x y : ℤ) : Prop := y = x ∨ y = x + w

structure RollInv (w : ℤ) (trades : List (Trade P)) (l : Ledger P) : Prop where
  sound : l.Sound
  width : l.agg.bucketMs = w
  unopened : l.agg.currentBucket = -1 → trades = [] ∧ l.agg.completed = [] ∧ l.filed = [] ∧
    l.opened = [] ∧ l.agg.current.openTime = 0
  opened : l.agg.currentBucket ≠ -1 → 0 ≤ l.agg.currentBucket ∧
    l.agg.current.openTime = l.agg.currentBucket * w ∧
    ∃ t ∈ trades, t.bucket w = l.agg.currentBucket
  latest : ∀ t ∈ trades, t.bucket w ≤ l.agg.currentBucket
  placed : l.Each (Placed w)
  filed : l.groups.flatten = onTime w [] trades
  head : (l.agg.candles.map Candle.openTime).head? = some 0
  chain : (l.agg.candles.map Candle.openTime).IsChain (NextOrSame w)

section Steps
variable {w : ℤ} {trades : List (Trade P)} {l : Ledger P} {t : Trade P}

omit [LinearOrder P] [Zero P] in
theorem not_stale_of_latest {b : ℤ} (h : ∀ e ∈ trades, e.bucket w ≤ b) (ht : b ≤ t.bucket w) :
    ¬ Stale w trades t := by
  rintro ⟨e, he, hlt⟩
  have := h e he
  omega

/-- The trade is folded into the current candle, which is the one of its bucket. -/
theorem RollInv.of_folded (hsound : l.Sound) (hwidth : l.agg.bucketMs = w)
    (hpos : 0 ≤ l.agg.currentBucket) (ht : t.bucket w = l.agg.currentBucket)
    (hopen : l.agg.current.openTime = l.agg.currentBucket * w)
    (hlatest : ∀ e ∈ trades, e.bucket w ≤ l.agg.currentBucket) (hplaced : l.Each (Placed w))
    (hfiled : l.groups.flatten = onTime w [] trades)
    (hhead : (l.agg.candles.map Candle.openTime).head? = some 0)
    (hchain : (l.agg.candles.map Candle.openTime).IsChain (NextOrSame w)) :
    RollInv w (trades ++ [t]) (l.foldTrade t) := by
  have hbucket : (l.foldTrade t).agg.currentBucket = l.agg.currentBucket := rfl
  have htimes : (l.foldTrade t).agg.candles.map Candle.openTime =
      l.agg.candles.map Candle.openTime := foldTrade_openTimes
  have hcurrent : (l.foldTrade t).agg.current.openTime = l.agg.currentBucket * w := by
    show (l.agg.foldTrade t).current.openTime = _
    rw [foldTrade_openTime, hopen]
  refine ⟨hsound.foldTrade t, hwidth, ?_, ?_, ?_, ⟨hplaced.1, ?_⟩, ?_, ?_, ?_⟩
  · intro hnone
    omega
  · intro _
    exact ⟨hpos, hcurrent, t, List.mem_append_right trades List.mem_cons_self, ht⟩
  · intro e he
    rcases List.mem_append.mp he with he | he
    · exact hlatest e he
    · rw [List.mem_singleton.mp he, ht, hbucket]
  · intro e he
    rw [hcurrent]
    rcases List.mem_append.mp he with he | he
    · rw [← hopen]
      exact hplaced.2 e he
    · rw [List.mem_singleton.mp he, ht, mul_comm]
  · rw [onTime_append, List.nil_append, if_neg (not_stale_of_latest hlatest ht.ge), ← hfiled]
    simp [Ledger.groups, Ledger.foldTrade]
  · rw [htimes]
    exact hhead
  · rw [htimes]
    exact hchain

omit [LinearOrder P] [Zero P] in
theorem placed_nil (c : Candle P) : Placed w c [] := by
  intro e he
  cases he

/-- The candles of the buckets before `k`, with the trades that fell in them. -/
structure Closed (w : ℤ) (trades : List (Trade P)) (k : ℤ) (out : List (Candle P))
    (gs : List (List (Trade P))) : Prop where
  sound : List.Forall₂ Summarizes out gs
  placed : List.Forall₂ (Placed w) out gs
  filed : gs.flatten = onTime w [] trades
  head : ∀ x ∈ (out.map Candle.openTime).head?, x = 0
  first : out = [] → k = 0
  chain : (out.map Candle.openTime).IsChain (NextOrSame w)
  last : ∀ x ∈ (out.map Candle.openTime).getLast?, x = (k - 1) * w

theorem closed_nil : Closed (P := P) w [] 0 [] [] := by
  refine ⟨.nil, .nil, rfl, ?_, fun _ => rfl, List.isChain_nil, ?_⟩
  · intro x hx
    cases hx
  · intro x hx
    cases hx

/-- A later trade closes the current candle. -/
theorem RollInv.closed (h : RollInv w trades l) (hopened : l.agg.currentBucket ≠ -1) :
    Closed w trades (l.agg.currentBucket + 1) l.agg.candles l.groups := by
  refine ⟨h.sound.each.forall₂, h.placed.forall₂, h.filed, ?_, ?_, h.chain, ?_⟩
  · rw [h.head]
    intro x hx
    exact (Option.some.inj hx).symm
  · intro hout
    simp [OhlcvAggregator.candles] at hout
  · intro x hx
    rw [candles_getLast?, Option.mem_some_iff] at hx
    rw [← hx, (h.opened hopened).2.1, Int.add_sub_cancel]

/-- The buckets from `k` on are filled with empty candles, up to the one of the trade. -/
theorem RollInv.of_advanced {a : OhlcvAggregator P} {out : List (Candle P)}
    {gs : List (List (Trade P))} {k : ℤ} {n : ℕ} (h : Closed w trades k out gs) (hk : 0 ≤ k)
    (ht : t.bucket w = k + n) (hwidth : a.bucketMs = w) (hbucket : a.currentBucket = k + n)
    (hcompleted : a.completed = appendEmptyCandles w n k out)
    (hopen : a.current.openTime = (k + n) * w) (hempty : Summarizes a.current [])
    (hno : a.hasTrade = false) (hlatest : ∀ e ∈ trades, e.bucket w ≤ k + n) :
    RollInv w (trades ++ [t]) (Ledger.foldTrade ⟨a, gs ++ List.replicate n [], []⟩ t) := by
  refine RollInv.of_folded (l := ⟨a, gs ++ List.replicate n [], []⟩) ⟨⟨?_, hempty⟩, hno⟩ hwidth ?_ ?_
    ?_ ?_ ⟨?_, ?_⟩ ?_ ?_ ?_
  · show List.Forall₂ _ a.completed _
    rw [hcompleted]
    exact forall₂_appendEmptyCandles summarizes_empty n h.sound
  · show 0 ≤ a.currentBucket
    omega
  · exact ht.trans hbucket.symm
  · show _ = a.currentBucket * w
    rw [hbucket]
    exact hopen
  · intro e he
    exact (hlatest e he).trans hbucket.ge
  · show List.Forall₂ _ a.completed _
    rw [hcompleted]
    exact forall₂_appendEmptyCandles (fun _ => placed_nil _) n h.placed
  · exact placed_nil _
  · rw [← h.filed]
    simp [Ledger.groups]
  · show ((a.completed ++ [a.current]).map Candle.openTime).head? = some 0
    rw [hcompleted, appendEmptyCandles_eq]
    cases out with
    | nil =>
      obtain rfl := h.first rfl
      cases n with
      | zero => simpa using hopen
      | succ n => simp [List.range_succ_eq_map, emptyCandle]
    | cons c out => simpa using h.head
  · show ((a.completed ++ [a.current]).map Candle.openTime).IsChain _
    rw [hcompleted]
    exact isChain_appendEmptyCandles (fun x => .inr rfl) n h.chain h.last hopen

theorem RollInv.addTrade (h : RollInv w trades l) (hw : 0 < w) (hts : 0 ≤ t.ts) :
    RollInv w (trades ++ [t]) (l.addTrade t) := by
  have hdiv : t.ts.tdiv w = t.bucket w := Int.tdiv_eq_ediv_of_nonneg hts
  have hpos : 0 ≤ t.bucket w := Int.ediv_nonneg hts hw.le
  unfold Ledger.addTrade
  dsimp only
  rw [h.width, hdiv]
  split_ifs with hnone hlt hgt
  · obtain ⟨rfl, hcompleted, hfiled, hopened, hopen⟩ := h.unopened hnone
    have hsum := h.sound.each.2
    have hno := h.sound.hasTrade
    rw [hopened] at hsum hno
    obtain ⟨n, hn⟩ : ∃ n : ℕ, t.bucket w = n := ⟨(t.bucket w).toNat, by omega⟩
    have hnat : (t.bucket w).toNat = n := by omega
    rw [hnat, hfiled, hopened]
    refine RollInv.of_advanced closed_nil le_rfl ?_ rfl ?_ ?_ ?_ (hsum.reopen _) hno ?_
    · omega
    · dsimp only
      omega
    · rw [hcompleted]
    · dsimp only
      rw [hn, Int.zero_add]
    · intro e he
      cases he
  · obtain ⟨hcb, -, e, he, hreach⟩ := h.opened hnone
    have hstale : Stale w trades t := ⟨e, he, by omega⟩
    refine ⟨h.sound, h.width, fun heq => absurd heq hnone, ?_, ?_, h.placed, ?_, h.head, h.chain⟩
    · intro _
      exact ⟨hcb, (h.opened hnone).2.1, e, List.mem_append_left _ he, hreach⟩
    · intro e he
      rcases List.mem_append.mp he with he | he
      · exact h.latest e he
      · rw [List.mem_singleton.mp he]
        exact hlt.le
    · rw [onTime_append, List.nil_append, if_pos hstale, List.append_nil]
      exact h.filed
  · obtain ⟨hcb, -⟩ := h.opened hnone
    obtain ⟨n, hn⟩ : ∃ n : ℕ, t.bucket w - (l.agg.currentBucket + 1) = n :=
      ⟨(t.bucket w - (l.agg.currentBucket + 1)).toNat, by omega⟩
    have hnat : (t.bucket w - (l.agg.currentBucket + 1)).toNat = n := by omega
    have hb : t.bucket w = l.agg.currentBucket + 1 + n := by omega
    rw [hnat]
    refine RollInv.of_advanced (h.closed hnone) (by omega) hb rfl hb rfl ?_ (summarizes_empty _) rfl
      ?_
    · dsimp only [emptyCandle]
      rw [← hb]
    · intro e he
      have := h.latest e he
      omega
  · obtain ⟨hcb, hopen, -⟩ := h.opened hnone
    exact RollInv.of_folded h.sound h.width hcb (by omega) hopen h.latest h.placed h.filed h.head
      h.chain

/-- The closed candle is followed by an empty one of its bucket. -/
theorem RollInv.roll (h : RollInv w trades l) : RollInv w trades l.roll := by
  have hsound := h.sound.roll
  unfold Ledger.roll OhlcvAggregator.roll at hsound ⊢
  split_ifs at hsound ⊢ with hopened
  · obtain ⟨hcb, hopen, hreach⟩ := h.opened hopened
    refine ⟨hsound, h.width, fun heq => absurd heq hopened, fun _ => ⟨hcb, ?_, hreach⟩, h.latest,
      ⟨h.placed.forall₂, placed_nil _⟩, ?_, ?_, ?_⟩
    · dsimp only [emptyCandle]
      rw [h.width]
    · rw [← h.filed]
      simp [Ledger.groups]
    · show ((l.agg.candles ++ [_]).map Candle.openTime).head? = some 0
      rw [List.map_append, List.head?_append, h.head]
      rfl
    · show ((l.agg.candles ++ [_]).map Candle.openTime).IsChain (NextOrSame w)
      rw [List.map_append]
      refine h.chain.append (List.isChain_singleton _) ?_
      intro x hx y hy
      rw [candles_getLast?, Option.mem_some_iff] at hx
      rw [List.map_singleton, List.head?_cons, Option.mem_some_iff] at hy
      left
      rw [← hx, ← hy, hopen, ← h.width]
      rfl
  · have hnone : l.agg.currentBucket = -1 := not_not.mp hopened
    obtain ⟨rfl, hcompleted, hfiled, hempty, -⟩ := h.unopened hnone
    refine ⟨hsound, h.width, fun _ => ⟨rfl, hcompleted, hfiled, rfl, rfl⟩,
      fun hsome => absurd hnone hsome, h.latest, ⟨h.placed.1, placed_nil _⟩, ?_, ?_, ?_⟩
    · simp [Ledger.groups, hfiled, onTime]
    · simp [OhlcvAggregator.candles, hcompleted, emptyCandle]
    · simp [OhlcvAggregator.candles, hcompleted]

theorem RollInv.start (hw : 0 < w) :
    ∃ a : OhlcvAggregator P, OhlcvAggregator.create w = .ok a ∧ RollInv w [] (Ledger.start a) := by
  refine ⟨⟨w, -1, emptyCandle 0, [], false⟩, if_neg (by omega), ⟨⟨.nil, rfl⟩, rfl⟩, rfl, ?_, ?_, ?_,
    ⟨.nil, ?_⟩, rfl, rfl, List.isChain_singleton _⟩
  · exact fun _ => ⟨rfl, rfl, rfl, rfl, rfl⟩
  · exact fun hsome => absurd rfl hsome
  · intro e he
    cases he
  · exact placed_nil _

end Steps

section Runs
variable {w : ℤ} {trades : List (Trade P)} {l : Ledger P} {a : OhlcvAggregator P}

theorem RollInv.applyAll (h : RollInv w trades l) (hw : 0 < w) {calls : List (Call P)}
    (hts : ∀ t ∈ tradesIn calls, 0 ≤ t.ts) :
    RollInv w (trades ++ tradesIn calls) (l.applyAll calls) := by
  induction calls generalizing trades l with
  | nil => simpa [tradesIn, Ledger.applyAll] using h
  | cons c calls ih =>
    cases c with
    | addTrade t =>
      have hsplit : tradesIn (.addTrade t :: calls) = t :: tradesIn calls := rfl
      rw [hsplit] at hts ⊢
      rw [List.append_cons]
      exact ih (h.addTrade hw (hts t List.mem_cons_self))
        (fun e he => hts e (List.mem_cons_of_mem t he))
    | roll => exact ih h.roll hts

/-- A call only appends to the completed candles. -/
theorem OhlcvAggregator.completed_isPrefix (a : OhlcvAggregator P) (c : Call P) :
    a.completed <+: (a.apply c).completed := by
  cases c with
  | addTrade t =>
    show _ <+: (a.addTrade t).completed
    unfold OhlcvAggregator.addTrade
    dsimp only
    split_ifs
    · show _ <+: appendEmptyCandles _ _ _ _
      rw [appendEmptyCandles_eq]
      exact List.prefix_append _ _
    · exact List.prefix_rfl
    · show _ <+: appendEmptyCandles _ _ _ _
      rw [appendEmptyCandles_eq, List.append_assoc]
      exact List.prefix_append _ _
    · exact List.prefix_rfl
  | roll =>
    show _ <+: a.roll.2.completed
    unfold OhlcvAggregator.roll
    split_ifs
    · exact List.prefix_append _ _
    · exact List.prefix_rfl

theorem OhlcvAggregator.applyAll_isPrefix (a : OhlcvAggregator P) (calls : List (Call P)) :
    a.completed <+: (a.applyAll calls).completed := by
  induction calls generalizing a with
  | nil => exact List.prefix_rfl
  | cons c calls ih => exact (a.completed_isPrefix c).trans (ih (a.apply c))

omit [LinearOrder P] [Zero P] in
theorem foldl_qty (v : UInt64) (g : List (Trade P)) :
    g.foldl (fun v t => v + t.qty) v = v + (g.map Trade.qty).sum := by
  induction g generalizing v with
  | nil => simp
  | cons t g ih => rw [List.foldl_cons, ih, List.map_cons, List.sum_cons, UInt64.add_assoc]

theorem Summarizes.volume {c : Candle P} {g : List (Trade P)} (h : Summarizes c g) :
    c.volume = (g.map Trade.qty).sum := by
  rw [h]
  cases g with
  | nil => rfl
  | cons t g =>
    show (t :: g).foldl _ 0 = _
    rw [foldl_qty, UInt64.zero_add]

theorem sum_volume {candles : List (Candle P)} {groups : List (List (Trade P))}
    (h : List.Forall₂ Summarizes candles groups) :
    (candles.map Candle.volume).sum = (groups.flatten.map Trade.qty).sum := by
  induction h with
  | nil => rfl
  | cons hc _ ih =>
    rw [List.map_cons, List.sum_cons, hc.volume, ih, List.flatten_cons, List.map_append,
      List.sum_append]

/-- Steps of 0 or `w` skip no multiple of `w`. -/
theorem mem_of_isChain (hw : 0 < w) {times : List ℤ} (h : times.IsChain (NextOrSame w)) {j : ℕ}
    {x : ℤ} (hhead : times.head? = some (j * w)) (hlast : times.getLast? = some x) {k : ℕ}
    (hjk : j ≤ k) (hk : k * w ≤ x) : k * w ∈ times := by
  induction times generalizing j with
  | nil => cases hhead
  | cons y times ih =>
    obtain rfl : y = j * w := Option.some.inj hhead
    by_cases heq : j = k
    · rw [heq]
      exact List.mem_cons_self
    · cases times with
      | nil =>
        obtain rfl : j * w = x := Option.some.inj hlast
        have hle := le_of_mul_le_mul_right hk hw
        omega
      | cons z times =>
        obtain ⟨hstep, hrest⟩ := List.isChain_cons_cons.mp h
        rw [List.getLast?_cons_cons] at hlast
        apply List.mem_cons_of_mem
        rcases hstep with rfl | rfl
        · exact ih hrest rfl hlast hjk
        · refine ih hrest ?_ hlast (j := j + 1) (by omega)
          rw [List.head?_cons]
          push_cast
          ring_nf

end Runs

/-- What a run of trades and rolls keeps. -/
structure RollsKeep (w : ℤ) (calls : List (Call P)) (start : OhlcvAggregator P) : Prop where
  folded : ∃ groups, List.Forall₂ (fun c g => Summarizes c g ∧ Placed w c g)
    (start.applyAll calls).candles groups ∧ groups.flatten = onTime w [] (tradesIn calls)
  volume : ((start.applyAll calls).candles.map Candle.volume).sum =
    ((onTime w [] (tradesIn calls)).map Trade.qty).sum
  first : ((start.applyAll calls).candles.map Candle.openTime).head? = some 0
  steps : ((start.applyAll calls).candles.map Candle.openTime).IsChain (NextOrSame w)
  covered : ∀ k : ℕ, k * w ≤ (start.applyAll calls).current.openTime →
    k * w ∈ (start.applyAll calls).candles.map Candle.openTime
  final : ∀ before after, calls = before ++ after →
    (start.applyAll before).completed <+: (start.applyAll calls).completed
  returned : ∀ before after, calls = before ++ .roll :: after → tradesIn before ≠ [] →
    (start.applyAll (before ++ [.roll])).completed =
      (start.applyAll before).completed ++ [(start.applyAll before).roll.1]

/-- Wherever the rolls fall between the trades, which may come in any order. -/
theorem ohlcvAggregator_rolls (w : ℤ) (hw : 0 < w) (calls : List (Call P))
    (hts : ∀ t ∈ tradesIn calls, 0 ≤ t.ts) :
    ∃ start : OhlcvAggregator P, OhlcvAggregator.create w = .ok start ∧ RollsKeep w calls start := by
  obtain ⟨start, hcreate, hstart⟩ := RollInv.start (P := P) hw
  have hi := hstart.applyAll hw hts
  rw [List.nil_append] at hi
  have hagg : ((Ledger.start start).applyAll calls).agg = start.applyAll calls :=
    Ledger.applyAll_agg _ calls
  refine ⟨start, hcreate, ?_, ?_, hagg ▸ hi.head, hagg ▸ hi.chain, ?_, ?_, ?_⟩
  · refine ⟨((Ledger.start start).applyAll calls).groups, ?_, hi.filed⟩
    have hsound := hi.sound.each.forall₂
    have hplaced := hi.placed.forall₂
    rw [hagg] at hsound hplaced
    exact hsound.mp (fun _ _ hs hp => ⟨hs, hp⟩) hplaced
  · have hsound := hi.sound.each.forall₂
    rw [hagg] at hsound
    rw [sum_volume hsound, hi.filed]
  · intro k hk
    refine mem_of_isChain hw (hagg ▸ hi.chain) (j := 0) ?_ (candles_getLast? _) (Nat.zero_le k) hk
    rw [Nat.cast_zero, Int.zero_mul]
    exact hagg ▸ hi.head
  · rintro before after rfl
    rw [OhlcvAggregator.applyAll, OhlcvAggregator.applyAll, List.foldl_append]
    exact OhlcvAggregator.applyAll_isPrefix _ after
  · rintro before after rfl hsome
    have htimes : ∀ t ∈ tradesIn before, 0 ≤ t.ts := by
      intro t ht
      apply hts t
      rw [tradesIn, List.filterMap_append]
      exact List.mem_append_left _ ht
    have hbefore := hstart.applyAll hw htimes
    have hagg' : ((Ledger.start start).applyAll before).agg = start.applyAll before :=
      Ledger.applyAll_agg _ before
    have hopen : (start.applyAll before).currentBucket ≠ -1 := by
      rw [← hagg']
      exact fun hnone => hsome (hbefore.unopened hnone).1
    rw [OhlcvAggregator.applyAll, List.foldl_append]
    show ((start.applyAll before).roll.2).completed = _
    unfold OhlcvAggregator.roll
    rw [if_pos hopen]

/-- A roll before the first trade, one inside a bucket, two in a row, a jump over
two buckets and a stale trade. -/
theorem ohlcvAggregator_rolls_mixed :
    let calls : List (Call ℤ) := [.roll, .addTrade ⟨150, 10, 1⟩, .roll, .addTrade ⟨190, 12, 2⟩,
      .roll, .roll, .addTrade ⟨420, 9, 4⟩, .addTrade ⟨160, 99, 8⟩, .roll]
    (0 : ℤ) < 100 ∧ (∀ t ∈ tradesIn calls, 0 ≤ t.ts) ∧
    ∃ start : OhlcvAggregator ℤ, OhlcvAggregator.create 100 = .ok start ∧
      RollsKeep 100 calls start :=
  ⟨by decide, by decide, ohlcvAggregator_rolls 100 (by decide) _ (by decide)⟩

end HftExercises.Ohlcv
