import HftExercises.Core.Answers
import Mathlib.Algebra.BigOperators.Group.List.Basic
import Mathlib.Algebra.Order.Field.Rat
import Mathlib.Data.List.Infix
import Mathlib.Order.Bounds.Defs
import Mathlib.Tactic.Linarith
import Mathlib.Tactic.Positivity
import Mathlib.Tactic.Ring

/-! # The token bucket

Tokens are refilled when they are asked for, by the time since they last were. The
bucket it stands for is refilled all the time. Tokens are exact rationals, times
integer nanoseconds.
-/
namespace HftExercises.Tokens

structure TokenBucket where
  ratePerSec : ℚ
  burst : ℚ
  tokens : ℚ
  lastRefill : ℤ
  now : ℤ
  deriving DecidableEq, Repr

inductive Call where
  | tryAcquire (tokens : ℚ)
  | advance (elapsed : ℤ)
  deriving DecidableEq, Repr

def Call.NonNeg : Call → Prop
  | tryAcquire tokens => 0 ≤ tokens
  | advance elapsed => 0 ≤ elapsed

def Call.elapsed : Call → ℤ
  | tryAcquire _ => 0
  | advance elapsed => elapsed

/-- The time that passes over some calls. -/
def elapsed (calls : List Call) : ℤ := (calls.map Call.elapsed).sum

namespace TokenBucket

def create (ratePerSec burst : ℚ) : TokenBucket := ⟨ratePerSec, burst, burst, 0, 0⟩

def tryAcquire (b : TokenBucket) (tokens : ℚ) : Bool × TokenBucket :=
  let elapsedNs : ℚ := (b.now - b.lastRefill : ℤ)
  let refill := elapsedNs * b.ratePerSec / 10 ^ 9
  let b := { b with tokens := min b.burst (b.tokens + refill), lastRefill := b.now }
  if b.tokens < tokens then (false, b) else (true, { b with tokens := b.tokens - tokens })

def advance (b : TokenBucket) (elapsed : ℤ) : TokenBucket := { b with now := b.now + elapsed }

/-- What a call returns, nothing for `advance`. -/
def step (b : TokenBucket) : Call → Option Bool × TokenBucket
  | .tryAcquire tokens => (some (b.tryAcquire tokens).1, (b.tryAcquire tokens).2)
  | .advance elapsed => (none, b.advance elapsed)

def after (b : TokenBucket) (calls : List Call) : TokenBucket := stateAfter step b calls

/-- What the `tryAcquire` calls of a run return. -/
def outcomes (b : TokenBucket) (calls : List Call) : List Bool :=
  (answers step b calls).reduceOption

def grantedBy (b : TokenBucket) : Call → ℚ
  | .tryAcquire tokens => if (b.tryAcquire tokens).1 then tokens else 0
  | .advance _ => 0

/-- The tokens granted over a run. -/
def granted : TokenBucket → List Call → ℚ
  | _, [] => 0
  | b, c :: calls => b.grantedBy c + granted (b.step c).2 calls

end TokenBucket

/-- The bucket that is refilled as the clock moves. -/
structure ContinuousBucket where
  ratePerSec : ℚ
  burst : ℚ
  level : ℚ
  deriving DecidableEq, Repr

namespace ContinuousBucket

def full (ratePerSec burst : ℚ) : ContinuousBucket := ⟨ratePerSec, burst, burst⟩

/-- A request that fails leaves the bucket alone. -/
def step (c : ContinuousBucket) : Call → Option Bool × ContinuousBucket
  | .tryAcquire tokens =>
    if c.level < tokens then (some false, c) else (some true, { c with level := c.level - tokens })
  | .advance elapsed =>
    (none, { c with level := min c.burst (c.level + elapsed * c.ratePerSec / 10 ^ 9) })

def outcomes (c : ContinuousBucket) (calls : List Call) : List Bool :=
  (answers step c calls).reduceOption

end ContinuousBucket

namespace TokenBucket
variable {b : TokenBucket} {c : Call} {calls : List Call}

/-- The tokens a request made now would find. -/
def level (b : TokenBucket) : ℚ :=
  min b.burst (b.tokens + ((b.now - b.lastRefill : ℤ) : ℚ) * b.ratePerSec / 10 ^ 9)

def continuous (b : TokenBucket) : ContinuousBucket := ⟨b.ratePerSec, b.burst, b.level⟩

theorem tryAcquire_eq (b : TokenBucket) (tokens : ℚ) :
    b.tryAcquire tokens =
      if b.level < tokens then (false, { b with tokens := b.level, lastRefill := b.now })
      else (true, { b with tokens := b.level - tokens, lastRefill := b.now }) := rfl

/-- The bucket in every state of a run. -/
structure Inv (b : TokenBucket) : Prop where
  rate : 0 ≤ b.ratePerSec
  nonneg : 0 ≤ b.tokens
  capped : b.tokens ≤ b.burst
  clock : b.lastRefill ≤ b.now

theorem refill_nonneg {ratePerSec : ℚ} (hrate : 0 ≤ ratePerSec) {elapsed : ℤ} (h : 0 ≤ elapsed) :
    0 ≤ (elapsed : ℚ) * ratePerSec / 10 ^ 9 := by
  have helapsed : (0 : ℚ) ≤ elapsed := Int.cast_nonneg h
  positivity

theorem Inv.tokens_le_level (hi : b.Inv) : b.tokens ≤ b.level :=
  le_min hi.capped
    (le_add_of_nonneg_right (refill_nonneg hi.rate (Int.sub_nonneg.mpr hi.clock)))

theorem Inv.level_nonneg (hi : b.Inv) : 0 ≤ b.level := hi.nonneg.trans hi.tokens_le_level

theorem level_le_burst (b : TokenBucket) : b.level ≤ b.burst := min_le_left ..

theorem Inv.next (hi : b.Inv) (hc : c.NonNeg) : (b.step c).2.Inv := by
  cases c with
  | tryAcquire tokens =>
    dsimp only [step]
    rw [tryAcquire_eq]
    split_ifs with h
    · exact ⟨hi.rate, hi.level_nonneg, b.level_le_burst, le_rfl⟩
    · have hspent : b.level - tokens ≤ b.level := sub_le_self _ hc
      exact ⟨hi.rate, sub_nonneg.mpr (not_lt.mp h), hspent.trans b.level_le_burst, le_rfl⟩
  | advance elapsed =>
    have hclock : b.lastRefill ≤ b.now + elapsed := hi.clock.trans (Int.le_add_of_nonneg_right hc)
    exact ⟨hi.rate, hi.nonneg, hi.capped, hclock⟩

theorem level_refilled {tokens : ℚ} (h : tokens ≤ b.burst) :
    level { b with tokens := tokens, lastRefill := b.now } = tokens := by
  simpa [level] using h

/-- Capping in between does not change what is reached later. -/
theorem min_min_add {cap x y : ℚ} (hy : 0 ≤ y) : min cap (min cap x + y) = min cap (x + y) := by
  rw [← min_add_add_right, ← min_assoc, min_eq_left (le_add_of_nonneg_right hy)]

theorem level_advance (hrate : 0 ≤ b.ratePerSec) {elapsed : ℤ} (h : 0 ≤ elapsed) :
    (b.advance elapsed).level = min b.burst (b.level + elapsed * b.ratePerSec / 10 ^ 9) := by
  have hsplit : b.tokens + ((b.now + elapsed - b.lastRefill : ℤ) : ℚ) * b.ratePerSec / 10 ^ 9 =
      b.tokens + ((b.now - b.lastRefill : ℤ) : ℚ) * b.ratePerSec / 10 ^ 9 +
        elapsed * b.ratePerSec / 10 ^ 9 := by
    push_cast
    ring
  unfold level advance
  dsimp only
  rw [hsplit, min_min_add (refill_nonneg hrate h)]

/-- A call does to the lazy bucket what it does to the continuous one. -/
theorem Inv.continuous_next (hi : b.Inv) (hc : c.NonNeg) :
    (b.step c).1 = (b.continuous.step c).1 ∧ (b.step c).2.continuous = (b.continuous.step c).2 := by
  cases c with
  | tryAcquire tokens =>
    dsimp only [step, ContinuousBucket.step, continuous]
    rw [tryAcquire_eq]
    split_ifs with h
    · refine ⟨rfl, ?_⟩
      rw [level_refilled b.level_le_burst]
    · have hcapped : b.level - tokens ≤ b.burst := (sub_le_self _ hc).trans b.level_le_burst
      refine ⟨rfl, ?_⟩
      rw [level_refilled hcapped]
  | advance elapsed =>
    dsimp only [step, ContinuousBucket.step, continuous]
    rw [level_advance hi.rate hc]
    exact ⟨rfl, rfl⟩

theorem Inv.run (hi : b.Inv) (hcalls : ∀ c ∈ calls, c.NonNeg) : (b.after calls).Inv :=
  stateAfter_invariant step Inv (fun _ _ hi hc => hi.next hc) hi hcalls

theorem Inv.outcomes_continuous (hi : b.Inv) (hcalls : ∀ c ∈ calls, c.NonNeg) :
    b.outcomes calls = b.continuous.outcomes calls := by
  have hsame := answers_lockstep step ContinuousBucket.step
    (fun b c => b.Inv ∧ c = b.continuous) ?_ ⟨hi, rfl⟩ hcalls
  · exact congrArg List.reduceOption hsame.1
  · rintro b _ c ⟨hi, rfl⟩ hc
    obtain ⟨hanswer, hnext⟩ := hi.continuous_next hc
    exact ⟨hanswer, hi.next hc, hnext.symm⟩

theorem outcomes_append (b : TokenBucket) (calls rest : List Call) :
    b.outcomes (calls ++ rest) = b.outcomes calls ++ (b.after calls).outcomes rest := by
  unfold outcomes
  rw [answers_append, List.reduceOption_append]
  rfl

/-- A request that fails refills the bucket, which is refilled as before. -/
theorem continuous_of_failed {tokens : ℚ} (h : (b.tryAcquire tokens).1 = false) :
    (b.tryAcquire tokens).2.continuous = b.continuous := by
  rw [tryAcquire_eq] at h ⊢
  split_ifs at h ⊢ with hlevel
  unfold continuous
  rw [level_refilled b.level_le_burst]

theorem now_after (b : TokenBucket) (calls : List Call) :
    (b.after calls).now = b.now + elapsed calls := by
  induction calls generalizing b with
  | nil => exact (Int.add_zero _).symm
  | cons c calls ih =>
    have hnow : (b.step c).2.now = b.now + c.elapsed := by
      cases c with
      | tryAcquire tokens =>
        dsimp only [step]
        rw [tryAcquire_eq]
        split_ifs <;> exact (Int.add_zero _).symm
      | advance elapsed => rfl
    calc ((b.step c).2.after calls).now = b.now + c.elapsed + elapsed calls := by rw [ih, hnow]
      _ = b.now + elapsed (c :: calls) := by
        rw [elapsed, elapsed, List.map_cons, List.sum_cons, Int.add_assoc]

/-- What is granted is taken from what there is. -/
theorem Inv.grantedBy_le (hi : b.Inv) (c : Call) : b.grantedBy c ≤ b.level := by
  cases c with
  | tryAcquire tokens =>
    dsimp only [grantedBy]
    rw [tryAcquire_eq]
    by_cases h : b.level < tokens
    · rw [if_pos h]
      exact hi.level_nonneg
    · rw [if_neg h]
      exact not_lt.mp h
  | advance elapsed => exact hi.level_nonneg

theorem Inv.grantedBy_add_level (hi : b.Inv) (hc : c.NonNeg) :
    b.grantedBy c + (b.step c).2.level ≤ b.level + c.elapsed * b.ratePerSec / 10 ^ 9 := by
  cases c with
  | tryAcquire tokens =>
    have hcapped : b.level - tokens ≤ b.burst := (sub_le_self _ hc).trans b.level_le_burst
    dsimp only [grantedBy, step, Call.elapsed]
    rw [tryAcquire_eq, Int.cast_zero, zero_mul, zero_div, add_zero]
    by_cases h : b.level < tokens
    · rw [if_pos h, level_refilled b.level_le_burst]
      exact (zero_add _).le
    · rw [if_neg h, level_refilled hcapped]
      exact (add_sub_cancel _ _).le
  | advance elapsed =>
    dsimp only [grantedBy, step, Call.elapsed]
    rw [level_advance hi.rate hc, zero_add]
    exact min_le_right ..

theorem step_eq (b : TokenBucket) (c : Call) :
    (b.step c).2.ratePerSec = b.ratePerSec ∧ (b.step c).2.burst = b.burst := by
  cases c with
  | tryAcquire tokens =>
    dsimp only [step]
    rw [tryAcquire_eq]
    split_ifs <;> exact ⟨rfl, rfl⟩
  | advance elapsed => exact ⟨rfl, rfl⟩

/-- Whatever is granted, and whatever is left, was there or has flown in since. -/
theorem Inv.granted_add_level (hi : b.Inv) (hcalls : ∀ c ∈ calls, c.NonNeg) :
    b.granted calls + (b.after calls).level ≤ b.level + elapsed calls * b.ratePerSec / 10 ^ 9 := by
  induction calls generalizing b with
  | nil => simp [granted, after, elapsed]
  | cons c calls ih =>
    obtain ⟨hc, hcs⟩ := List.forall_mem_cons.mp hcalls
    have hnow := hi.grantedBy_add_level hc
    have hlater := ih (hi.next hc) hcs
    rw [(step_eq b _).1] at hlater
    calc b.granted (c :: calls) + (b.after (c :: calls)).level
        = b.grantedBy c + ((b.step c).2.granted calls + ((b.step c).2.after calls).level) :=
        add_assoc ..
      _ ≤ b.level +
          (c.elapsed * b.ratePerSec / 10 ^ 9 + elapsed calls * b.ratePerSec / 10 ^ 9) := by
        linarith
      _ = b.level + elapsed (c :: calls) * b.ratePerSec / 10 ^ 9 := by
        rw [elapsed, elapsed, List.map_cons, List.sum_cons, Int.cast_add]
        ring

theorem granted_append (b : TokenBucket) (calls rest : List Call) :
    b.granted (calls ++ rest) = b.granted calls + (b.after calls).granted rest := by
  induction calls generalizing b with
  | nil => exact (zero_add _).symm
  | cons c calls ih =>
    rw [List.cons_append, granted, granted, ih, add_assoc]
    rfl

theorem Inv.grantedBy_add_level_le_burst (hi : b.Inv) (hc : c.NonNeg) :
    b.grantedBy c + (b.step c).2.level ≤ b.burst := by
  cases c with
  | tryAcquire tokens =>
    have hspent := hi.grantedBy_add_level hc
    simp only [Call.elapsed, Int.cast_zero, zero_mul, zero_div, add_zero] at hspent
    exact hspent.trans b.level_le_burst
  | advance elapsed =>
    rw [grantedBy, zero_add]
    exact level_le_burst ..

/-- The time between the first call of a stretch and the last is what it is worth. -/
theorem Inv.granted_le (hi : b.Inv) (hcalls : ∀ c ∈ calls, c.NonNeg) :
    b.granted calls ≤ b.burst + elapsed calls.tail.dropLast * b.ratePerSec / 10 ^ 9 := by
  cases calls with
  | nil => simpa [granted, elapsed] using hi.nonneg.trans hi.capped
  | cons first rest =>
    obtain ⟨hfirst, hrest⟩ := List.forall_mem_cons.mp hcalls
    have hlevel := hi.grantedBy_add_level_le_burst hfirst
    have hi' := hi.next hfirst
    rw [granted, List.tail_cons]
    obtain rfl | ⟨during, last, rfl⟩ := rest.eq_nil_or_concat'
    · have hleft := hi'.level_nonneg
      simp only [granted, elapsed, List.dropLast_nil, List.map_nil, List.sum_nil, Int.cast_zero,
        zero_mul, zero_div]
      linarith
    · have hduring : ∀ c ∈ during, c.NonNeg := fun c hc => hrest c (List.mem_append_left _ hc)
      have hspent := hi'.granted_add_level hduring
      have hlast := (hi'.run hduring).grantedBy_le last
      rw [(step_eq b _).1] at hspent
      rw [granted_append, List.dropLast_concat, granted, granted]
      linarith

theorem create_inv {ratePerSec burst : ℚ} (hrate : 0 ≤ ratePerSec) (hburst : 0 ≤ burst) :
    (create ratePerSec burst).Inv :=
  ⟨hrate, hburst, le_rfl, le_rfl⟩

theorem after_eq (b : TokenBucket) (calls : List Call) :
    (b.after calls).ratePerSec = b.ratePerSec ∧ (b.after calls).burst = b.burst := by
  induction calls generalizing b with
  | nil => exact ⟨rfl, rfl⟩
  | cons c calls ih => exact ⟨(ih _).1.trans (step_eq b c).1, (ih _).2.trans (step_eq b c).2⟩

theorem create_continuous (ratePerSec burst : ℚ) :
    (create ratePerSec burst).continuous = ContinuousBucket.full ratePerSec burst := by
  have hlevel : (create ratePerSec burst).level = burst := by simp [level, create]
  rw [continuous, hlevel]
  rfl

/-- A request that fails may be left out of a run. -/
theorem Inv.outcomes_failed (hi : b.Inv) {tokens : ℚ} (htokens : 0 ≤ tokens)
    (hfailed : (b.tryAcquire tokens).1 = false) (hcalls : ∀ c ∈ calls, c.NonNeg) :
    b.outcomes (.tryAcquire tokens :: calls) = false :: b.outcomes calls := by
  have hi' : (b.tryAcquire tokens).2.Inv := hi.next (c := .tryAcquire tokens) htokens
  calc b.outcomes (.tryAcquire tokens :: calls)
      = (b.tryAcquire tokens).1 :: (b.tryAcquire tokens).2.outcomes calls := rfl
    _ = false :: b.outcomes calls := by
      rw [hfailed, hi'.outcomes_continuous hcalls, continuous_of_failed hfailed,
        ← hi.outcomes_continuous hcalls]

/-- An advance may be split. -/
theorem outcomes_split (b : TokenBucket) (e e' : ℤ) (calls : List Call) :
    b.outcomes (.advance e :: .advance e' :: calls) = b.outcomes (.advance (e + e') :: calls) := by
  have hstate : (b.advance e).advance e' = b.advance (e + e') := by
    rw [advance, advance, advance, Int.add_assoc]
  calc b.outcomes (.advance e :: .advance e' :: calls)
      = ((b.advance e).advance e').outcomes calls := rfl
    _ = b.outcomes (.advance (e + e') :: calls) := by
      rw [hstate]
      rfl

end TokenBucket

open TokenBucket in
/-- What a stretch of a run grants, and which changes of the run its calls do not see. -/
theorem tokenBucket_continuous {ratePerSec burst : ℚ} (hrate : 0 ≤ ratePerSec) (hburst : 0 ≤ burst)
    {before stretch : List Call} (hbefore : ∀ c ∈ before, c.NonNeg)
    (hstretch : ∀ c ∈ stretch, c.NonNeg) :
    let b := create ratePerSec burst
    let b' := b.after before
    (0 ≤ b'.tokens ∧ b'.tokens ≤ burst) ∧
      (b'.after stretch).now = b'.now + elapsed stretch ∧
      b'.granted stretch ≤ burst + ratePerSec * (elapsed stretch.tail.dropLast / 10 ^ 9) ∧
      (∀ tokens, 0 ≤ tokens → (b'.tryAcquire tokens).1 = false →
        ∃ rest, b.outcomes (before ++ stretch) = b.outcomes before ++ rest ∧
          b.outcomes (before ++ .tryAcquire tokens :: stretch) =
            b.outcomes before ++ false :: rest) ∧
      (∀ e e', 0 ≤ e → 0 ≤ e' →
        b.outcomes (before ++ .advance e :: .advance e' :: stretch) =
          b.outcomes (before ++ .advance (e + e') :: stretch)) ∧
      b.outcomes (before ++ stretch) =
        (ContinuousBucket.full ratePerSec burst).outcomes (before ++ stretch) := by
  intro b b'
  have hi : b.Inv := create_inv hrate hburst
  have hi' : b'.Inv := hi.run hbefore
  have hrate' : b'.ratePerSec = ratePerSec := (after_eq b before).1
  have hburst' : b'.burst = burst := (after_eq b before).2
  have hgranted := hi'.granted_le hstretch
  rw [hrate', hburst', mul_comm _ ratePerSec, mul_div_assoc] at hgranted
  have hall : ∀ c ∈ before ++ stretch, c.NonNeg := by
    intro c hc
    exact (List.mem_append.mp hc).elim (hbefore c) (hstretch c)
  refine ⟨⟨hi'.nonneg, hi'.capped.trans_eq hburst'⟩, now_after b' stretch, hgranted, ?_, ?_, ?_⟩
  · intro tokens htokens hfailed
    refine ⟨b'.outcomes stretch, outcomes_append .., ?_⟩
    rw [outcomes_append, hi'.outcomes_failed htokens hfailed hstretch]
  · intro e e' _ _
    rw [outcomes_append, outcomes_append, outcomes_split]
  · rw [hi.outcomes_continuous hall, create_continuous]

open TokenBucket in
/-- Half an interval after the only token is gone. -/
theorem tokenBucket_continuous_half_interval :
    let before := [.tryAcquire 1, .tryAcquire 1, .advance 50000000]
    let stretch := [.tryAcquire 1, .advance 50000000, .tryAcquire 1]
    ((create 10 1).after before).granted stretch ≤ 1 + 10 * (elapsed [.advance 50000000] / 10 ^ 9) ∧
      (create 10 1).outcomes (before ++ stretch) =
        (ContinuousBucket.full 10 1).outcomes (before ++ stretch) := by
  intro before stretch
  have hbefore : ∀ c ∈ before, c.NonNeg := by simp [before, Call.NonNeg]
  have hstretch : ∀ c ∈ stretch, c.NonNeg := by simp [stretch, Call.NonNeg]
  obtain ⟨-, -, hgranted, -, -, hsame⟩ :=
    tokenBucket_continuous (by norm_num : (0 : ℚ) ≤ 10) (by norm_num : (0 : ℚ) ≤ 1) hbefore hstretch
  exact ⟨hgranted, hsame⟩

/-- What a limiter lets through when it answers a call as it does. -/
def spent : Call × Bool → ℚ
  | (.tryAcquire tokens, true) => tokens
  | _ => 0

def admits : Call × Bool → Bool
  | (.tryAcquire _, true) => true
  | _ => false

/-- No stretch of a run lets through more than the burst and what flows in meanwhile. -/
def Conforms (ratePerSec burst : ℚ) (run : List (Call × Bool)) : Prop :=
  ∀ stretch, stretch <:+: run →
    (stretch.map spent).sum ≤ burst + ratePerSec * (elapsed (stretch.map Prod.fst) / 10 ^ 9)

/-- The call asks for `tokens` tokens, or lets time pass. -/
def Call.AsksFor (tokens : ℚ) : Call → Prop
  | .tryAcquire asked => asked = tokens
  | .advance elapsed => 0 ≤ elapsed

/-- What a limiter has left, if it is refilled as the bucket is. -/
def drained (ratePerSec burst level : ℚ) : Call × Bool → ℚ
  | (.advance elapsed, _) => min burst (level + elapsed * ratePerSec / 10 ^ 9)
  | e => level - spent e

def levelAfter (ratePerSec burst : ℚ) (run : List (Call × Bool)) : ℚ :=
  run.foldl (drained ratePerSec burst) burst

section Limiters
variable {ratePerSec burst tokens : ℚ} {run stretch : List (Call × Bool)} {calls : List Call}

theorem Conforms.mono (h : Conforms ratePerSec burst run) (hs : stretch <:+: run) :
    Conforms ratePerSec burst stretch :=
  fun part hpart => h part (hpart.trans hs)

/-- The bucket has let at least as many requests through as another limiter, and what that
limiter has more of it has saved on requests. -/
structure Leads (tokens : ℚ) (count admitted : ℕ) (level rival : ℚ) : Prop where
  admitted_le : admitted ≤ count
  rival_le : rival ≤ level + tokens * (count - admitted)

theorem Leads.saved_nonneg {count admitted : ℕ} {level rival : ℚ} (htokens : 0 ≤ tokens)
    (h : Leads tokens count admitted level rival) : 0 ≤ tokens * (count - admitted : ℚ) :=
  mul_nonneg htokens (sub_nonneg.mpr (Nat.cast_le.mpr h.admitted_le))

theorem Leads.refill {count admitted : ℕ} {level rival : ℚ} (htokens : 0 ≤ tokens)
    (h : Leads tokens count admitted level rival) (cap flow : ℚ) :
    Leads tokens count admitted (min cap (level + flow)) (min cap (rival + flow)) := by
  refine ⟨h.admitted_le, ?_⟩
  rw [← min_add_add_right]
  have hrival := h.rival_le
  exact min_le_min (le_add_of_nonneg_right (h.saved_nonneg htokens)) (by linarith)

theorem Leads.grant {count admitted : ℕ} {level rival : ℚ}
    (h : Leads tokens count admitted level rival) :
    Leads tokens (count + 1) admitted (level - tokens) rival := by
  have hrival := h.rival_le
  refine ⟨h.admitted_le.trans (Nat.le_add_right ..), ?_⟩
  push_cast
  linarith

theorem Leads.grantBoth {count admitted : ℕ} {level rival : ℚ}
    (h : Leads tokens count admitted level rival) :
    Leads tokens (count + 1) (admitted + 1) (level - tokens) (rival - tokens) := by
  have hrival := h.rival_le
  refine ⟨Nat.add_le_add_right h.admitted_le 1, ?_⟩
  push_cast
  linarith

/-- What the other limiter lets through and the bucket does not was saved before. -/
theorem Leads.overtake {count admitted : ℕ} {level rival : ℚ} (htokens : 0 ≤ tokens)
    (h : Leads tokens count admitted level rival) (hlevel : level < tokens)
    (hrival : 0 ≤ rival - tokens) :
    Leads tokens count (admitted + 1) level (rival - tokens) := by
  have hsaved := h.rival_le
  have hpositive : 0 < tokens * (count - admitted : ℚ) := by linarith
  have hmore : (0 : ℚ) < count - admitted := pos_of_mul_pos_right hpositive htokens
  refine ⟨Nat.succ_le_of_lt (Nat.cast_lt.mp (sub_pos.mp hmore)), ?_⟩
  push_cast
  linarith

theorem Leads.step {b : TokenBucket} {count admitted : ℕ} {rival : ℚ} {e : Call × Bool}
    (hi : b.Inv) (htokens : 0 ≤ tokens) (hask : e.1.AsksFor tokens)
    (h : Leads tokens count admitted b.level rival)
    (hrival : 0 ≤ drained b.ratePerSec b.burst rival e) :
    Leads tokens (count + (b.outcomes [e.1]).count true) (admitted + [e].countP admits)
      (b.step e.1).2.level (drained b.ratePerSec b.burst rival e) := by
  obtain ⟨c, answer⟩ := e
  cases c with
  | tryAcquire asked =>
    obtain rfl : asked = tokens := hask
    have hlevel : (b.step (.tryAcquire asked)).2.level =
        if b.level < asked then b.level else b.level - asked := by
      have hcapped : b.level - asked ≤ b.burst := (sub_le_self _ htokens).trans b.level_le_burst
      dsimp only [TokenBucket.step]
      rw [TokenBucket.tryAcquire_eq]
      split_ifs
      · exact TokenBucket.level_refilled b.level_le_burst
      · exact TokenBucket.level_refilled hcapped
    have hanswer : b.outcomes [.tryAcquire asked] = [!decide (b.level < asked)] := by
      change [(b.tryAcquire asked).1] = _
      rw [TokenBucket.tryAcquire_eq]
      split_ifs with hlow <;> simp [hlow]
    rw [hlevel, hanswer]
    by_cases hlow : b.level < asked
    · cases answer with
      | false => simpa [hlow, drained, spent, admits] using h
      | true => simpa [hlow, drained, spent, admits] using h.overtake htokens hlow hrival
    · cases answer with
      | false => simpa [hlow, drained, spent, admits] using h.grant
      | true => simpa [hlow, drained, spent, admits] using h.grantBoth
  | advance elapsed =>
    have hadmits : [(Call.advance elapsed, answer)].countP admits = 0 := by cases answer <;> rfl
    rw [TokenBucket.step, TokenBucket.level_advance hi.rate hask, hadmits]
    exact h.refill htokens ..

end Limiters

namespace TokenBucket
variable {b : TokenBucket} {calls : List Call}

/-- What the bucket itself answers. -/
def answered (b : TokenBucket) : List Call → List (Call × Bool)
  | [] => []
  | c :: calls => (c, (b.step c).1 == some true) :: (b.step c).2.answered calls

end TokenBucket

end HftExercises.Tokens
