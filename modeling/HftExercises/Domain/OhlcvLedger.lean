import Mathlib.Data.List.Chain
import Mathlib.Data.List.Forall2
import Mathlib.Tactic.Ring
import HftExercises.Domain.OhlcvAggregator

/-! # Which trades a candle holds

A ledger runs the aggregator and writes down, for every candle, the trades that
were folded into it. Whatever the timestamps are, each candle summarizes the
trades written down for it, so a statement about the ledger is one about candles.
-/
namespace HftExercises.Ohlcv
variable {P : Type*} [LinearOrder P] [Zero P]

def OhlcvAggregator.candles (a : OhlcvAggregator P) : List (Candle P) := a.completed ++ [a.current]

/-- The trades of each completed candle, and those of the current one. -/
structure Ledger (P : Type*) where
  agg : OhlcvAggregator P
  filed : List (List (Trade P))
  opened : List (Trade P)

namespace Ledger

def foldTrade (l : Ledger P) (t : Trade P) : Ledger P :=
  { l with agg := l.agg.foldTrade t, opened := l.opened ++ [t] }

/-- `add_trade`, branch by branch. -/
def addTrade (l : Ledger P) (t : Trade P) : Ledger P :=
  let a := l.agg
  let b := t.ts.tdiv a.bucketMs
  if a.currentBucket = -1 then
    foldTrade {
      agg := { a with
        completed := appendEmptyCandles a.bucketMs b.toNat 0 a.completed
        currentBucket := b
        current := { a.current with openTime := b * a.bucketMs } }
      filed := l.filed ++ List.replicate b.toNat []
      opened := l.opened } t
  else if b < a.currentBucket then l
  else if b > a.currentBucket then
    foldTrade {
      agg := { a with
        completed := appendEmptyCandles a.bucketMs (b - (a.currentBucket + 1)).toNat
          (a.currentBucket + 1) (a.completed ++ [a.current])
        currentBucket := b
        current := emptyCandle (b * a.bucketMs)
        hasTrade := false }
      filed := l.filed ++ [l.opened] ++ List.replicate (b - (a.currentBucket + 1)).toNat []
      opened := [] } t
  else foldTrade l t

def roll (l : Ledger P) : Ledger P where
  agg := l.agg.roll.2
  filed := if l.agg.currentBucket ≠ -1 then l.filed ++ [l.opened] else l.filed
  opened := []

/-- Nothing is written down yet. -/
def start (a : OhlcvAggregator P) : Ledger P := ⟨a, [], []⟩

def groups (l : Ledger P) : List (List (Trade P)) := l.filed ++ [l.opened]

/-- Every candle and its trades are related. -/
def Each (l : Ledger P) (R : Candle P → List (Trade P) → Prop) : Prop :=
  List.Forall₂ R l.agg.completed l.filed ∧ R l.agg.current l.opened

omit [LinearOrder P] [Zero P] in
theorem Each.forall₂ {l : Ledger P} {R : Candle P → List (Trade P) → Prop} (h : l.Each R) :
    List.Forall₂ R l.agg.candles l.groups := List.rel_append h.1 (.cons h.2 .nil)

theorem addTrade_agg (l : Ledger P) (t : Trade P) : (l.addTrade t).agg = l.agg.addTrade t := by
  unfold addTrade OhlcvAggregator.addTrade
  dsimp only
  split_ifs <;> rfl

end Ledger

/-- A candle and its trades. -/
def Summarizes (c : Candle P) (g : List (Trade P)) : Prop := c = summarize c.openTime g

structure Ledger.Sound (l : Ledger P) : Prop where
  each : l.Each Summarizes
  hasTrade : l.agg.hasTrade = !l.opened.isEmpty

section Sound
variable {l : Ledger P} {t : Trade P}

omit [LinearOrder P] in
theorem forall₂_appendEmptyCandles {R : Candle P → List (Trade P) → Prop}
    (hR : ∀ o, R (emptyCandle o) []) {w : ℤ} (n : ℕ) {k : ℤ} {out : List (Candle P)}
    {gs : List (List (Trade P))} (h : List.Forall₂ R out gs) :
    List.Forall₂ R (appendEmptyCandles w n k out) (gs ++ List.replicate n []) := by
  induction n generalizing k out gs with
  | zero => simpa [appendEmptyCandles] using h
  | succ n ih =>
    rw [List.replicate_succ, List.append_cons]
    exact ih (List.rel_append h (.cons (hR _) .nil))

theorem summarizes_empty (o : ℤ) : Summarizes (emptyCandle o : Candle P) [] := rfl

/-- A candle that is given another open time keeps its trades. -/
theorem Summarizes.reopen {c : Candle P} {g : List (Trade P)} (h : Summarizes c g) (o : ℤ) :
    Summarizes { c with openTime := o } g := by
  unfold Summarizes at h ⊢
  rw [h]
  cases g <;> rfl

theorem Ledger.Sound.foldTrade (h : l.Sound) (t : Trade P) : (l.foldTrade t).Sound := by
  refine ⟨⟨h.each.1, ?_⟩, ?_⟩
  · have hcurrent := h.each.2
    unfold Summarizes at hcurrent ⊢
    unfold Ledger.foldTrade OhlcvAggregator.foldTrade
    rw [h.hasTrade]
    cases ho : l.opened with
    | nil =>
      rw [ho] at hcurrent
      rw [hcurrent]
      rfl
    | cons e es =>
      rw [ho] at hcurrent
      rw [summarize_append _ (List.cons_ne_nil e es), hcurrent]
      rfl
  · show true = !(l.opened ++ [t]).isEmpty
    simp

theorem Ledger.Sound.addTrade (h : l.Sound) (t : Trade P) : (l.addTrade t).Sound := by
  unfold Ledger.addTrade
  dsimp only
  split_ifs
  · apply Ledger.Sound.foldTrade
    exact ⟨⟨forall₂_appendEmptyCandles summarizes_empty _ h.each.1, h.each.2.reopen _⟩, h.hasTrade⟩
  · exact h
  · apply Ledger.Sound.foldTrade
    exact ⟨⟨forall₂_appendEmptyCandles summarizes_empty _ h.each.forall₂, rfl⟩, rfl⟩
  · exact h.foldTrade t

theorem Ledger.Sound.roll (h : l.Sound) : l.roll.Sound := by
  unfold Ledger.roll OhlcvAggregator.roll
  split_ifs
  · exact ⟨⟨h.each.forall₂, rfl⟩, rfl⟩
  · exact ⟨⟨h.each.1, rfl⟩, rfl⟩

end Sound

section OpenTimes
variable {a : OhlcvAggregator P} {t : Trade P}

omit [Zero P] in
@[simp] theorem foldTrade_openTime : (a.foldTrade t).current.openTime = a.current.openTime := by
  unfold OhlcvAggregator.foldTrade
  split_ifs <;> rfl

omit [Zero P] in
theorem foldTrade_openTimes :
    (a.foldTrade t).candles.map Candle.openTime = a.candles.map Candle.openTime := by
  have hcompleted : (a.foldTrade t).completed = a.completed := rfl
  simp [OhlcvAggregator.candles, hcompleted]

omit [LinearOrder P] [Zero P] in
theorem candles_getLast? (a : OhlcvAggregator P) :
    (a.candles.map Candle.openTime).getLast? = some a.current.openTime := by
  rw [OhlcvAggregator.candles, List.map_append, List.map_singleton, List.getLast?_concat]

end OpenTimes

section Chains
variable {w k : ℤ} {R : ℤ → ℤ → Prop} {out : List (Candle P)} {c : Candle P}

omit [LinearOrder P] [Zero P] in
/-- The candle of bucket `k` comes after those before it. -/
theorem isChain_concat (hR : ∀ x, R x (x + w)) (h : (out.map Candle.openTime).IsChain R)
    (hlast : ∀ x ∈ (out.map Candle.openTime).getLast?, x = (k - 1) * w) (hc : c.openTime = k * w) :
    ((out ++ [c]).map Candle.openTime).IsChain R := by
  rw [List.map_append]
  refine h.append (List.isChain_singleton _) ?_
  intro x hx y hy
  rw [List.map_singleton, List.head?_cons, Option.mem_some_iff] at hy
  have hstep : k * w = (k - 1) * w + w := by ring
  rw [← hy, hc, hlast x hx, hstep]
  exact hR _

omit [LinearOrder P] in
/-- The empty candles lead from one bucket to the next, `n` times. -/
theorem isChain_appendEmptyCandles (hR : ∀ x, R x (x + w)) (n : ℕ)
    (h : (out.map Candle.openTime).IsChain R)
    (hlast : ∀ x ∈ (out.map Candle.openTime).getLast?, x = (k - 1) * w)
    (hc : c.openTime = (k + n) * w) :
    ((appendEmptyCandles w n k out ++ [c]).map Candle.openTime).IsChain R := by
  induction n generalizing k out with
  | zero =>
    rw [Nat.cast_zero, Int.add_zero] at hc
    exact isChain_concat hR h hlast hc
  | succ n ih =>
    apply ih (isChain_concat hR h hlast rfl)
    · intro x hx
      rw [List.map_append, List.map_singleton, List.getLast?_concat, Option.mem_some_iff] at hx
      rw [← hx, Int.add_sub_cancel]
      rfl
    · rw [hc]
      push_cast
      ring

end Chains

end HftExercises.Ohlcv
