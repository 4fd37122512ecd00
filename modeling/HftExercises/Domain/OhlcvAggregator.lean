import Mathlib.Order.Lattice
import Mathlib.Algebra.Order.Ring.Int
import HftExercises.Core.ListFacts

/-! # The OHLCV candle aggregator

Trades fall into buckets of equal width. The aggregator keeps the candle of the
latest bucket open, closes it when a later bucket arrives and fills the buckets
in between with empty candles; a trade of an earlier bucket is dropped. Times and
bucket indices are integers, prices any linear order with a zero.
-/
namespace HftExercises.Ohlcv

structure Candle (P : Type*) where
  openTime : ℤ
  openPrice : P
  high : P
  low : P
  close : P
  volume : UInt64
  deriving DecidableEq, Repr

structure OhlcvAggregator (P : Type*) where
  bucketMs : ℤ
  currentBucket : ℤ
  current : Candle P
  completed : List (Candle P)
  hasTrade : Bool

variable {P : Type*} [LinearOrder P] [Zero P]

/-- A candle without trades. -/
def emptyCandle (openTime : ℤ) : Candle P := ⟨openTime, 0, 0, 0, 0, 0⟩

def OhlcvAggregator.create (bucketMs : ℤ) : Except String (OhlcvAggregator P) :=
  if bucketMs ≤ 0 then .error "bucket duration must be positive"
  else .ok ⟨bucketMs, -1, emptyCandle 0, [], false⟩

/-- `n` iterations of the loop that appends an empty candle for bucket `k`. -/
def appendEmptyCandles (bucketMs : ℤ) : ℕ → ℤ → List (Candle P) → List (Candle P)
  | 0, _, out => out
  | n + 1, k, out => appendEmptyCandles bucketMs n (k + 1) (out ++ [emptyCandle (k * bucketMs)])

structure Trade (P : Type*) where
  ts : ℤ
  price : P
  qty : UInt64
  deriving DecidableEq, Repr

namespace OhlcvAggregator

/-- The end of `add_trade`: fold the trade into the current candle. -/
def foldTrade (a : OhlcvAggregator P) (t : Trade P) : OhlcvAggregator P :=
  let c := if !a.hasTrade then
      { a.current with openPrice := t.price, high := t.price, low := t.price, close := t.price }
    else
      { a.current with
        high := max a.current.high t.price
        low := min a.current.low t.price
        close := t.price }
  { a with current := { c with volume := c.volume + t.qty }, hasTrade := true }

def addTrade (a : OhlcvAggregator P) (t : Trade P) : OhlcvAggregator P :=
  let b := t.ts.tdiv a.bucketMs
  if a.currentBucket = -1 then
    foldTrade { a with
      completed := appendEmptyCandles a.bucketMs b.toNat 0 a.completed
      currentBucket := b
      current := { a.current with openTime := b * a.bucketMs } } t
  else if b < a.currentBucket then a
  else if b > a.currentBucket then
    foldTrade { a with
      completed := appendEmptyCandles a.bucketMs (b - (a.currentBucket + 1)).toNat
        (a.currentBucket + 1) (a.completed ++ [a.current])
      currentBucket := b
      current := emptyCandle (b * a.bucketMs)
      hasTrade := false } t
  else foldTrade a t

/-- The finished candle and the aggregator after it. -/
def roll (a : OhlcvAggregator P) : Candle P × OhlcvAggregator P :=
  if a.currentBucket ≠ -1 then
    (a.current, { a with
      completed := a.completed ++ [a.current]
      current := emptyCandle (a.currentBucket * a.bucketMs)
      hasTrade := false })
  else (a.current, { a with current := emptyCandle 0, hasTrade := false })

def addTrades (a : OhlcvAggregator P) (trades : List (Trade P)) : OhlcvAggregator P :=
  trades.foldl addTrade a

end OhlcvAggregator

/-- The bucket a trade falls in. -/
def Trade.bucket (bucketMs : ℤ) (t : Trade P) : ℤ := t.ts / bucketMs

/-- An earlier trade fell in a later bucket. -/
def Stale (bucketMs : ℤ) (earlier : List (Trade P)) (t : Trade P) : Prop :=
  ∃ e ∈ earlier, t.bucket bucketMs < e.bucket bucketMs

instance (bucketMs : ℤ) (earlier : List (Trade P)) (t : Trade P) :
    Decidable (Stale bucketMs earlier t) :=
  inferInstanceAs (Decidable (∃ e ∈ earlier, t.bucket bucketMs < e.bucket bucketMs))

/-- The trades of `rest` that were not stale on arrival, after `earlier`. -/
def onTime (bucketMs : ℤ) : List (Trade P) → List (Trade P) → List (Trade P)
  | _, [] => []
  | earlier, t :: rest =>
    (if Stale bucketMs earlier t then [] else [t]) ++ onTime bucketMs (earlier ++ [t]) rest

/-- The trades that belong in the candle of bucket `k`. -/
def tradesOf (bucketMs : ℤ) (k : ℤ) (trades : List (Trade P)) : List (Trade P) :=
  (onTime bucketMs [] trades).filter (fun t => t.bucket bucketMs = k)

/-- First, highest, lowest and last price, and the summed quantity. -/
def summarize (openTime : ℤ) : List (Trade P) → Candle P
  | [] => emptyCandle openTime
  | t :: rest => {
      openTime := openTime
      openPrice := t.price
      high := rest.foldl (fun p t => max p t.price) t.price
      low := rest.foldl (fun p t => min p t.price) t.price
      close := (rest.getLast?.getD t).price
      volume := (t :: rest).foldl (fun v t => v + t.qty) 0 }

/-- The candle of bucket `k` after some trades. -/
def candleOf (bucketMs : ℤ) (trades : List (Trade P)) (k : ℕ) : Candle P :=
  summarize (k * bucketMs) (tradesOf bucketMs k trades)

section OnTime
variable {bucketMs : ℤ}

omit [LinearOrder P] [Zero P]

theorem onTime_append (earlier l : List (Trade P)) (t : Trade P) :
    onTime bucketMs earlier (l ++ [t]) = onTime bucketMs earlier l ++
      (if Stale bucketMs (earlier ++ l) t then [] else [t]) := by
  induction l generalizing earlier with
  | nil => simp [onTime]
  | cons e l ih =>
    simp only [List.cons_append, onTime, ih, List.append_assoc, List.nil_append]

theorem onTime_sublist (earlier l : List (Trade P)) : (onTime bucketMs earlier l).Sublist l := by
  induction l generalizing earlier with
  | nil => exact List.Sublist.refl _
  | cons t l ih =>
    simp only [onTime]
    split_ifs
    · exact (ih _).cons t
    · exact (ih _).cons_cons t

end OnTime

section Candles
variable {bucketMs : ℤ} {l : List (Trade P)} {t : Trade P}

omit [LinearOrder P] [Zero P] in
theorem tradesOf_append (k : ℤ) : tradesOf bucketMs k (l ++ [t]) = tradesOf bucketMs k l ++
    (if ¬ Stale bucketMs l t ∧ t.bucket bucketMs = k then [t] else []) := by
  unfold tradesOf
  rw [onTime_append, List.filter_append, List.nil_append]
  apply congrArg
  by_cases hs : Stale bucketMs l t <;> by_cases hk : t.bucket bucketMs = k <;> simp [hs, hk]

theorem candleOf_append_other {k : ℕ} (h : Stale bucketMs l t ∨ t.bucket bucketMs ≠ k) :
    candleOf bucketMs (l ++ [t]) k = candleOf bucketMs l k := by
  unfold candleOf
  rw [tradesOf_append, if_neg (by tauto), List.append_nil]

omit [LinearOrder P] [Zero P] in
/-- No trade has reached bucket `k` yet. -/
theorem tradesOf_unreached {k : ℤ} (h : ∀ t ∈ l, t.bucket bucketMs < k) :
    tradesOf bucketMs k l = [] := by
  apply List.filter_eq_nil_iff.mpr
  intro t ht
  have hlt := h t ((onTime_sublist [] l).subset ht)
  simp only [decide_eq_true_eq]
  omega

theorem summarize_append (openTime : ℤ) {ts : List (Trade P)} (hts : ts ≠ []) :
    summarize openTime (ts ++ [t]) = { summarize openTime ts with
      high := max (summarize openTime ts).high t.price
      low := min (summarize openTime ts).low t.price
      close := t.price
      volume := (summarize openTime ts).volume + t.qty } := by
  cases ts with
  | nil => exact absurd rfl hts
  | cons e ts => simp [summarize]

omit [LinearOrder P] in
theorem appendEmptyCandles_eq (n : ℕ) (k : ℤ) (out : List (Candle P)) :
    appendEmptyCandles bucketMs n k out =
      out ++ (List.range n).map (fun i : ℕ => emptyCandle ((k + i) * bucketMs)) := by
  induction n generalizing k out with
  | zero => simp [appendEmptyCandles]
  | succ n ih =>
    have hshift : ∀ i : ℕ, k + 1 + (i : ℤ) = k + (i + 1) := by
      intro i
      omega
    rw [appendEmptyCandles, ih, List.append_assoc, List.range_succ_eq_map]
    simp [hshift]

end Candles

namespace OhlcvAggregator

/-- Every candle so far, the open one included. -/
def timeline (a : OhlcvAggregator P) : List (Candle P) :=
  if a.currentBucket = -1 then a.completed else a.completed ++ [a.current]

/-- The buckets up to `b` are filled and `b` is open, without a trade yet. -/
def advance (a : OhlcvAggregator P) (b : ℤ) : OhlcvAggregator P where
  bucketMs := a.bucketMs
  currentBucket := b
  current := emptyCandle (b * a.bucketMs)
  completed := appendEmptyCandles a.bucketMs (b - (a.currentBucket + 1)).toNat
    (a.currentBucket + 1) a.timeline
  hasTrade := false

end OhlcvAggregator

/-- The aggregator holds one candle for each bucket up to the latest one. -/
structure AggInv (bucketMs : ℤ) (l : List (Trade P)) (a : OhlcvAggregator P) : Prop where
  width : a.bucketMs = bucketMs
  unopened : a.currentBucket = -1 → l = [] ∧ a.current = emptyCandle 0 ∧ a.hasTrade = false
  opened : a.currentBucket ≠ -1 → 0 ≤ a.currentBucket ∧ a.hasTrade = true ∧
    (∃ t ∈ l, t.bucket bucketMs = a.currentBucket) ∧ tradesOf bucketMs a.currentBucket l ≠ []
  latest : ∀ t ∈ l, t.bucket bucketMs ≤ a.currentBucket
  timeline : a.timeline = (List.range (a.currentBucket + 1).toNat).map (candleOf bucketMs l)

section Invariant
variable {bucketMs : ℤ} {l : List (Trade P)} {a : OhlcvAggregator P} {t : Trade P}

theorem AggInv.floor (h : AggInv bucketMs l a) : -1 ≤ a.currentBucket := by
  by_cases hc : a.currentBucket = -1
  · omega
  · have := (h.opened hc).1
    omega

theorem AggInv.addTrade_eq (h : AggInv bucketMs l a) (ht : 0 ≤ t.ts) (hw : 0 < bucketMs) :
    a.addTrade t = if t.bucket bucketMs < a.currentBucket then a
      else if t.bucket bucketMs > a.currentBucket then (a.advance (t.bucket bucketMs)).foldTrade t
      else a.foldTrade t := by
  have hdiv : t.ts.tdiv bucketMs = t.bucket bucketMs := Int.tdiv_eq_ediv_of_nonneg ht
  have hnonneg : 0 ≤ t.bucket bucketMs := Int.ediv_nonneg ht hw.le
  unfold OhlcvAggregator.addTrade
  simp only [h.width, hdiv]
  by_cases hc : a.currentBucket = -1
  · obtain ⟨_, hcurrent, hno⟩ := h.unopened hc
    rw [if_pos hc, if_neg (by omega), if_pos (by omega)]
    simp only [OhlcvAggregator.advance, OhlcvAggregator.timeline, hc, hcurrent, hno, h.width]
    simp [emptyCandle]
  · rw [if_neg hc]
    simp [OhlcvAggregator.advance, OhlcvAggregator.timeline, hc, h.width]

/-- The invariant right after the trade `t` was folded into its bucket `n`. -/
theorem AggInv.of_folded {n : ℕ} (hwidth : a.bucketMs = bucketMs) (hbucket : a.currentBucket = n)
    (ht : t.bucket bucketMs = n) (hlatest : ∀ e ∈ l, e.bucket bucketMs ≤ n)
    (hcompleted : a.completed = (List.range n).map (candleOf bucketMs l))
    (hcurrent : (a.foldTrade t).current = candleOf bucketMs (l ++ [t]) n) :
    AggInv bucketMs (l ++ [t]) (a.foldTrade t) := by
  have hfresh : ¬ Stale bucketMs l t := by
    rintro ⟨e, he, hlt⟩
    have := hlatest e he
    omega
  have hc : (a.foldTrade t).currentBucket = n := hbucket
  have hopen : (a.foldTrade t).currentBucket ≠ -1 := by omega
  refine ⟨hwidth, fun heq => absurd heq hopen, fun _ => ⟨by omega, rfl, ?_, ?_⟩, ?_, ?_⟩
  · exact ⟨t, List.mem_append_right l List.mem_cons_self, ht.trans hc.symm⟩
  · rw [tradesOf_append, if_pos ⟨hfresh, ht.trans hc.symm⟩]
    simp
  · intro e he
    rw [hc]
    rcases List.mem_append.mp he with he | he
    · exact hlatest e he
    · rw [List.mem_singleton.mp he, ht]
  · have hlen : ((a.foldTrade t).currentBucket + 1).toNat = n + 1 := by omega
    have hkept : (a.foldTrade t).completed = a.completed := rfl
    have hclosed : (List.range n).map (candleOf bucketMs l) =
        (List.range n).map (candleOf bucketMs (l ++ [t])) := by
      apply List.map_congr_left
      intro k hk
      have hlt := List.mem_range.mp hk
      exact (candleOf_append_other (Or.inr (by omega))).symm
    rw [OhlcvAggregator.timeline, if_neg hopen, hlen, List.range_succ, List.map_append, hkept,
      hcompleted, hclosed, hcurrent]
    rfl

/-- Folding a trade into the open bucket appends it to the trades of the bucket. -/
theorem AggInv.fold (h : AggInv bucketMs l a) (ht : t.bucket bucketMs = a.currentBucket)
    (hc : a.currentBucket ≠ -1) : AggInv bucketMs (l ++ [t]) (a.foldTrade t) := by
  obtain ⟨hpos, htrade, _, hne⟩ := h.opened hc
  obtain ⟨n, hn⟩ : ∃ n : ℕ, a.currentBucket = n := ⟨a.currentBucket.toNat, by omega⟩
  have hlen : (a.currentBucket + 1).toNat = n + 1 := by omega
  have htl := h.timeline
  rw [OhlcvAggregator.timeline, if_neg hc, hlen, List.range_succ, List.map_append] at htl
  obtain ⟨hcompleted, hcurrent⟩ := List.append_inj' htl rfl
  have hcurrent : a.current = candleOf bucketMs l n := by simpa using hcurrent
  have hlatest : ∀ e ∈ l, e.bucket bucketMs ≤ n := hn ▸ h.latest
  have hfresh : ¬ Stale bucketMs l t := by
    rintro ⟨e, he, hlt⟩
    have := h.latest e he
    omega
  apply AggInv.of_folded h.width hn (ht.trans hn) hlatest hcompleted
  have hsnoc : tradesOf bucketMs n (l ++ [t]) = tradesOf bucketMs n l ++ [t] := by
    rw [tradesOf_append, if_pos ⟨hfresh, ht.trans hn⟩]
  simp only [candleOf, hsnoc, summarize_append _ (hn ▸ hne)]
  simp [OhlcvAggregator.foldTrade, htrade, hcurrent, candleOf]

/-- A later bucket closes the open one and fills the gap. -/
theorem AggInv.advance (h : AggInv bucketMs l a) (ht : a.currentBucket < t.bucket bucketMs) :
    AggInv bucketMs (l ++ [t]) ((a.advance (t.bucket bucketMs)).foldTrade t) := by
  have hfloor := h.floor
  obtain ⟨n, hn⟩ : ∃ n : ℕ, t.bucket bucketMs = n := ⟨(t.bucket bucketMs).toNat, by omega⟩
  obtain ⟨k, hk⟩ : ∃ k : ℕ, a.currentBucket + 1 = k := ⟨(a.currentBucket + 1).toNat, by omega⟩
  obtain ⟨m, rfl⟩ : ∃ m, n = k + m := ⟨n - k, by omega⟩
  have hlatest : ∀ e ∈ l, e.bucket bucketMs < k := by
    intro e he
    have := h.latest e he
    omega
  have hfresh : ¬ Stale bucketMs l t := by
    rintro ⟨e, he, hlt⟩
    have := hlatest e he
    omega
  have hunreached : ∀ i : ℕ, tradesOf bucketMs (k + i : ℕ) l = [] := by
    intro i
    apply tradesOf_unreached
    intro e he
    have := hlatest e he
    omega
  apply AggInv.of_folded (a := a.advance (t.bucket bucketMs)) h.width hn hn
  · intro e he
    have := hlatest e he
    omega
  · have hgap : (t.bucket bucketMs - (a.currentBucket + 1)).toNat = m := by omega
    have hclosed : (a.currentBucket + 1).toNat = k := by omega
    show appendEmptyCandles _ _ _ _ = _
    rw [hgap, appendEmptyCandles_eq, h.timeline, hclosed, hk, List.range_add, List.map_append,
      List.map_map]
    apply congrArg
    apply List.map_congr_left
    intro i _
    rw [Function.comp_apply, candleOf, hunreached, h.width]
    simp [summarize]
  · rw [candleOf, tradesOf_append, hunreached, if_pos ⟨hfresh, hn⟩, List.nil_append, ← hn, ← h.width]
    simp [OhlcvAggregator.foldTrade, OhlcvAggregator.advance, summarize, emptyCandle]

theorem AggInv.stale (h : AggInv bucketMs l a) (ht : t.bucket bucketMs < a.currentBucket)
    (hpos : 0 ≤ t.bucket bucketMs) : AggInv bucketMs (l ++ [t]) a := by
  have hc : a.currentBucket ≠ -1 := by omega
  obtain ⟨hfloor, htrade, ⟨e, he, hreach⟩, hne⟩ := h.opened hc
  have hstale : Stale bucketMs l t := ⟨e, he, by omega⟩
  refine ⟨h.width, fun heq => absurd heq hc, fun _ => ⟨hfloor, htrade, ?_, ?_⟩, ?_, ?_⟩
  · exact ⟨e, List.mem_append_left _ he, hreach⟩
  · rw [tradesOf_append, if_neg (fun hs => hs.1 hstale), List.append_nil]
    exact hne
  · intro x hx
    rcases List.mem_append.mp hx with hx | hx
    · exact h.latest x hx
    · rw [List.mem_singleton.mp hx]
      omega
  · rw [h.timeline]
    apply List.map_congr_left
    intro k _
    exact (candleOf_append_other (Or.inl hstale)).symm

theorem AggInv.addTrade (h : AggInv bucketMs l a) (ht : 0 ≤ t.ts) (hw : 0 < bucketMs) :
    AggInv bucketMs (l ++ [t]) (a.addTrade t) := by
  have hpos : 0 ≤ t.bucket bucketMs := Int.ediv_nonneg ht hw.le
  rw [h.addTrade_eq ht hw]
  split_ifs with hlt hgt
  · exact h.stale hlt hpos
  · exact h.advance hgt
  · exact h.fold (by omega) (by omega)

theorem AggInv.addTrades (h : AggInv bucketMs l a) (hw : 0 < bucketMs) (trades : List (Trade P))
    (hts : ∀ t ∈ trades, 0 ≤ t.ts) : AggInv bucketMs (l ++ trades) (a.addTrades trades) := by
  induction trades generalizing l a with
  | nil => simpa [OhlcvAggregator.addTrades] using h
  | cons t trades ih =>
    have hstep := h.addTrade (hts t List.mem_cons_self) hw
    rw [List.append_cons]
    exact ih hstep (fun e he => hts e (List.mem_cons_of_mem t he))

end Invariant

/-- After any trades, in any order, there is exactly one candle for each bucket
up to the latest one, and it summarizes the trades of its bucket that were not
stale on arrival. -/
theorem ohlcvAggregator_candles (bucketMs : ℤ) (hw : 0 < bucketMs) (trades : List (Trade P))
    (hne : trades ≠ []) (hts : ∀ t ∈ trades, 0 ≤ t.ts) :
    ∃ (start : OhlcvAggregator P) (B : ℕ), OhlcvAggregator.create bucketMs = .ok start ∧
      (∀ t ∈ trades, t.bucket bucketMs ≤ B) ∧ (∃ t ∈ trades, t.bucket bucketMs = B) ∧
      (start.addTrades trades).completed ++ [(start.addTrades trades).current] =
        (List.range (B + 1)).map (candleOf bucketMs trades) := by
  let start : OhlcvAggregator P := ⟨bucketMs, -1, emptyCandle 0, [], false⟩
  have hstart : AggInv bucketMs [] start :=
    ⟨rfl, fun _ => ⟨rfl, rfl, rfl⟩, fun h => absurd rfl h, by simp, rfl⟩
  have hi := hstart.addTrades hw trades hts
  rw [List.nil_append] at hi
  have hc : (start.addTrades trades).currentBucket ≠ -1 := fun h => hne (hi.unopened h).1
  obtain ⟨hpos, _, hreach, _⟩ := hi.opened hc
  obtain ⟨B, hB⟩ : ∃ B : ℕ, (start.addTrades trades).currentBucket = B :=
    ⟨(start.addTrades trades).currentBucket.toNat, by omega⟩
  refine ⟨start, B, if_neg (by omega), hB ▸ hi.latest, hB ▸ hreach, ?_⟩
  have htl := hi.timeline
  rwa [OhlcvAggregator.timeline, if_neg hc, hB, Int.toNat_natCast_add_one] at htl

/-- A first trade in a later bucket, a stale one, a jump and a fold. -/
theorem ohlcvAggregator_candles_jump :
    let trades : List (Trade ℤ) := [⟨150, 10, 1⟩, ⟨190, 12, 2⟩, ⟨420, 9, 4⟩, ⟨160, 99, 8⟩, ⟨430, 7, 16⟩]
    (0 : ℤ) < 100 ∧ trades ≠ [] ∧ (∀ t ∈ trades, 0 ≤ t.ts) ∧
    ∃ (start : OhlcvAggregator ℤ) (B : ℕ), OhlcvAggregator.create 100 = .ok start ∧
      (∀ t ∈ trades, t.bucket 100 ≤ B) ∧ (∃ t ∈ trades, t.bucket 100 = B) ∧
      (start.addTrades trades).completed ++ [(start.addTrades trades).current] =
        (List.range (B + 1)).map (candleOf 100 trades) :=
  ⟨by decide, by decide, by decide,
    ohlcvAggregator_candles 100 (by decide) _ (by decide) (by decide)⟩

end HftExercises.Ohlcv
