import HftExercises.Patterns.ChainRisk
import Mathlib.Algebra.Ring.Int.Defs
import Mathlib.Algebra.Ring.Nat

/-! # What the notional handler has used

The handler multiplies and adds as `int64` before it compares. Its sum is the
exact one as long as no product and no sum wraps around and no product of two
negative numbers gets through.
-/
namespace HftExercises.RiskChains

/-- The exact `price * qty`. -/
def OrderCheck.notional (r : OrderCheck) : ℤ := r.price.toInt * r.qty.toInt

def OrderCheck.Positive (r : OrderCheck) : Prop := 0 < r.price.toInt ∧ 0 < r.qty.toInt

instance (r : OrderCheck) : Decidable r.Positive := inferInstanceAs (Decidable (_ ∧ _))

inductive NotionalCall where
  | check (request : OrderCheck)
  | reset
  deriving DecidableEq

namespace MaxNotionalHandler

/-- The handler with no handler behind it. -/
def step (h : MaxNotionalHandler) : NotionalCall → Option (Bool × MaxNotionalHandler)
  | .check request => some ((h.doCheck request).1.ok, (h.doCheck request).2)
  | .reset => some (true, h.reset)

abbrev CallEvent := Event MaxNotionalHandler NotionalCall Bool

/-- The exact sum over the requests with positive price and quantity that passed since
the last reset. -/
def passedNotional (es : List CallEvent) : ℤ :=
  es.foldl (fun sum e =>
    match e.call with
    | .check request =>
      if e.result = true ∧ request.Positive then sum + request.notional else sum
    | .reset => 0) 0

theorem passedNotional_snoc (es : List CallEvent) (e : CallEvent) :
    passedNotional (es ++ [e]) =
      match e.call with
      | .check request =>
        if e.result = true ∧ request.Positive then passedNotional es + request.notional
        else passedNotional es
      | .reset => 0 := by
  rw [passedNotional, List.foldl_append]
  rfl

/-- The product as the handler computes it. -/
def wrapped (r : OrderCheck) : ℤ := r.notional.bmod (2 ^ 64)

theorem toInt_mul_eq_wrapped (r : OrderCheck) : (r.price * r.qty).toInt = wrapped r :=
  Int64.toInt_mul _ _

/-- The calls whose outcome is exact: the request counts and neither product nor sum
leaves `int64`; it does not count and its product is not positive; or it is refused. -/
def Exact (h : MaxNotionalHandler) : NotionalCall → Prop
  | .check r =>
    (r.Positive ∧ h.used.toInt + r.notional < 2 ^ 63) ∨ (¬ r.Positive ∧ wrapped r ≤ 0) ∨
      (h.maxNotional.toInt < h.used.toInt + wrapped r ∧ h.used.toInt + wrapped r < 2 ^ 63)
  | .reset => True

/-- What a check does, over the integers. -/
theorem doCheck_cases (h : MaxNotionalHandler) (r : OrderCheck) :
    (wrapped r ≤ 0 ∧ (h.doCheck r).1.ok = true ∧ (h.doCheck r).2 = h) ∨
    (0 < wrapped r ∧ h.maxNotional.toInt < (h.used.toInt + wrapped r).bmod (2 ^ 64) ∧
      (h.doCheck r).1.ok = false ∧ (h.doCheck r).2 = h) ∨
    (0 < wrapped r ∧ (h.used.toInt + wrapped r).bmod (2 ^ 64) ≤ h.maxNotional.toInt ∧
      (h.doCheck r).1.ok = true ∧ (h.doCheck r).2.maxNotional = h.maxNotional ∧
      (h.doCheck r).2.used.toInt = (h.used.toInt + wrapped r).bmod (2 ^ 64)) := by
  have hpos : 0 < r.price * r.qty ↔ 0 < wrapped r := by
    rw [Int64.lt_iff_toInt_lt, toInt_mul_eq_wrapped]
    rfl
  have hsum : (h.used + r.price * r.qty).toInt = (h.used.toInt + wrapped r).bmod (2 ^ 64) := by
    rw [Int64.toInt_add, toInt_mul_eq_wrapped]
  have hover : h.maxNotional < h.used + r.price * r.qty ↔
      h.maxNotional.toInt < (h.used.toInt + wrapped r).bmod (2 ^ 64) := by
    rw [Int64.lt_iff_toInt_lt, hsum]
  simp only [doCheck, gt_iff_lt, hpos, hover]
  by_cases hw : 0 < wrapped r
  · by_cases ho : h.maxNotional.toInt < (h.used.toInt + wrapped r).bmod (2 ^ 64)
    · rw [if_pos ⟨hw, ho⟩]
      exact .inr (.inl ⟨hw, ho, rfl, rfl⟩)
    · rw [if_neg (fun hc => ho hc.2), if_pos hw]
      exact .inr (.inr ⟨hw, not_lt.mp ho, rfl, rfl, hsum⟩)
  · rw [if_neg (fun hc => hw hc.1), if_neg hw]
    exact .inl ⟨not_lt.mp hw, rfl, rfl⟩

/-- A sum of two numbers below `2 ^ 63`, the second one positive, as `int64`. -/
theorem bmod_sum {used delta : ℤ} (hused : 0 ≤ used) (hlt : used < 2 ^ 63) (hpos : 0 < delta)
    (hdelta : delta < 2 ^ 63) :
    (used + delta < 2 ^ 63 ∧ (used + delta).bmod (2 ^ 64) = used + delta) ∨
      (2 ^ 63 ≤ used + delta ∧ (used + delta).bmod (2 ^ 64) = used + delta - 2 ^ 64) := by
  rw [Int.bmod_def]
  split_ifs <;> omega

theorem wrapped_lt (r : OrderCheck) : wrapped r < 2 ^ 63 := by
  have h := Int.bmod_lt (x := r.notional) (m := 2 ^ 64) (by decide)
  simp only [wrapped]
  omega

/-- A request that counts and whose product fits is computed exactly. -/
theorem wrapped_eq {r : OrderCheck} (hpos : r.Positive) (hlt : r.notional < 2 ^ 63) :
    wrapped r = r.notional := by
  have hnn : 0 < r.notional := Int.mul_pos hpos.1 hpos.2
  exact Int.bmod_eq_of_le (by omega) (by omega)

/-- The sum is exact and below the limit. -/
def Exactly (es : List CallEvent) (h : MaxNotionalHandler) : Prop :=
  h.used.toInt = passedNotional es ∧ passedNotional es ≤ h.maxNotional.toInt

instance (es : List CallEvent) (h : MaxNotionalHandler) : Decidable (Exactly es h) :=
  inferInstanceAs (Decidable (_ ∧ _))

theorem passedNotional_nonneg (es : List CallEvent) : 0 ≤ passedNotional es := by
  induction es using List.reverseRecOn with
  | nil => exact le_refl 0
  | append_singleton es e ih =>
    rw [passedNotional_snoc]
    cases e.call with
    | reset => exact le_refl 0
    | check r =>
      dsimp only
      split_ifs with hr
      · have hn : 0 < r.notional := Int.mul_pos hr.2.1 hr.2.2
        omega
      · exact ih

/-- The equation that a check has to meet: what it leaves in `used_` is the old sum,
and the request on top of it where it passed and counts. -/
theorem exactly_snoc_check {es : List CallEvent} {h h' : MaxNotionalHandler} {r : OrderCheck}
    {ok : Bool} (hmax : h'.maxNotional = h.maxNotional) :
    Exactly (es ++ [⟨h, .check r, ok⟩]) h' ↔
      h'.used.toInt = passedNotional es + (if ok = true ∧ r.Positive then r.notional else 0) ∧
        h'.used.toInt ≤ h.maxNotional.toInt := by
  rw [Exactly, passedNotional_snoc, hmax]
  dsimp only
  split_ifs
  · exact and_congr_right fun he => by rw [he]
  · rw [Int.add_zero]
    exact and_congr_right fun he => by rw [he]

theorem exactly_check_iff {es : List CallEvent} {h : MaxNotionalHandler} (hE : Exactly es h)
    (r : OrderCheck) :
    Exactly (es ++ [⟨h, .check r, (h.doCheck r).1.ok⟩]) (h.doCheck r).2 ↔ Exact h (.check r) := by
  obtain ⟨hused, hle⟩ := hE
  have hnn := passedNotional_nonneg es
  have hlt : h.used.toInt < 2 ^ 63 := Int64.toInt_lt _
  have hwlt := wrapped_lt r
  have hfits : r.Positive → h.used.toInt + r.notional < 2 ^ 63 → wrapped r = r.notional :=
    fun hp hs => wrapped_eq hp (by omega)
  have hnpos : r.Positive → 0 < r.notional := fun hp => Int.mul_pos hp.1 hp.2
  rcases doCheck_cases h r with ⟨hw, hok, hh⟩ | ⟨hw, hover, hok, hh⟩ | ⟨hw, hunder, hok, hm, hu⟩
  · -- the product is not positive: the request passes and nothing is added
    rw [hh, hok, exactly_snoc_check rfl, Exact]
    by_cases hp : r.Positive
    · have hn := hnpos hp
      have hf := hfits hp
      simp only [hp, and_self, if_true, not_true, false_and, true_and, false_or]
      omega
    · simp only [hp, and_false, if_false, not_false_eq_true, true_and, false_and, false_or]
      omega
  · -- refused: the sum, which did not wrap around, is above the limit
    rw [hh, hok, exactly_snoc_check rfl, Exact]
    have hs := bmod_sum (show 0 ≤ h.used.toInt by omega) hlt hw hwlt
    simp only [Bool.false_eq_true, false_and, if_false]
    omega
  · -- the wrapped sum is taken over
    rw [hok, exactly_snoc_check hm, Exact, hu]
    have hs := bmod_sum (show 0 ≤ h.used.toInt by omega) hlt hw hwlt
    by_cases hp : r.Positive
    · have hn := hnpos hp
      have hf := hfits hp
      simp only [hp, and_self, if_true, not_true, false_and, true_and, false_or]
      omega
    · simp only [hp, and_false, if_false, not_false_eq_true, true_and, false_and, false_or]
      omega

theorem exactly_step_iff {es : List CallEvent} {h h' : MaxNotionalHandler} {call : NotionalCall}
    {ok : Bool} (hE : Exactly es h)
    (hs : h.step call = some (ok, h')) : Exactly (es ++ [⟨h, call, ok⟩]) h' ↔ Exact h call := by
  cases call with
  | check r =>
    cases hs
    exact exactly_check_iff hE r
  | reset =>
    cases hs
    rw [Exactly, passedNotional_snoc, iff_true_intro (a := Exact h .reset) trivial, iff_true]
    exact ⟨rfl, (passedNotional_nonneg es).trans hE.2⟩

/-- No call faults. -/
theorem exec_isSome (h : MaxNotionalHandler) (calls : List NotionalCall) :
    ∃ es h', exec step h calls = some (es, h') := by
  induction calls generalizing h with
  | nil => exact ⟨[], h, rfl⟩
  | cons call calls ih =>
    obtain ⟨ok, h', hs⟩ : ∃ ok h', h.step call = some (ok, h') := by
      cases call with
      | check r => exact ⟨_, _, rfl⟩
      | reset => exact ⟨_, _, rfl⟩
    obtain ⟨es, t, hrun⟩ := ih h'
    exact ⟨⟨h, call, ok⟩ :: es, t, by simp [exec, hs, hrun]⟩

end MaxNotionalHandler

/-- In a run from any limit that is not negative, `used()` is the exact sum and within the
limit at every moment if and only if every call is exact. -/
theorem notional_exact_iff {maxNotional : Int64} (hmax : 0 ≤ maxNotional.toInt)
    (calls : List NotionalCall) :
    ∃ es h, exec MaxNotionalHandler.step ⟨maxNotional, 0⟩ calls = some (es, h) ∧
      ((Admissible (fun l e => MaxNotionalHandler.Exactly l e.before) es ∧
          MaxNotionalHandler.Exactly es h) ↔
        ∀ e ∈ es, e.before.Exact e.call) := by
  obtain ⟨es, h, hrun⟩ := MaxNotionalHandler.exec_isSome ⟨maxNotional, 0⟩ calls
  have h₀ : MaxNotionalHandler.Exactly [] ⟨maxNotional, 0⟩ := ⟨rfl, hmax⟩
  refine ⟨es, h, hrun, ?_⟩
  rw [exec_history_iff MaxNotionalHandler.Exactly (fun _ h call => ¬ h.Exact call) ?_ h₀ hrun]
  · simp only [not_not]
    constructor
    · intro hall e he
      obtain ⟨l, r, rfl⟩ := List.append_of_mem he
      exact hall l e r rfl
    · rintro hall l e r rfl
      exact hall e (by simp)
  · intro es h call ok h' hE hs
    rw [not_not]
    exact MaxNotionalHandler.exactly_step_iff hE hs

/-- Up to the limit and, after a reset, once more. -/
theorem notional_exact_iff_up_to_limit :
    0 ≤ (60 : Int64).toInt ∧ ∃ es h,
      exec MaxNotionalHandler.step ⟨60, 0⟩
        [.check { price := 10, qty := 6 }, .check { price := 10, qty := 1 }, .reset,
          .check { price := 10, qty := 1 }] = some (es, h) ∧
      ((Admissible (fun l e => MaxNotionalHandler.Exactly l e.before) es ∧
          MaxNotionalHandler.Exactly es h) ↔
        ∀ e ∈ es, e.before.Exact e.call) :=
  ⟨by decide, notional_exact_iff (by decide) _⟩

/-- Two negative numbers have a positive product, which is added though the request does
not count; and a product that wraps around to zero passes without being added. -/
theorem used_not_exact :
    (∃ es h, exec MaxNotionalHandler.step ⟨100, 0⟩ [.check { price := -5, qty := -5 }] =
      some (es, h) ∧ h.used.toInt = 25 ∧ ¬ MaxNotionalHandler.Exactly es h) ∧
    ∃ es h, exec MaxNotionalHandler.step ⟨100, 0⟩
        [.check { price := 4294967296, qty := 4294967296 }] = some (es, h) ∧
      MaxNotionalHandler.passedNotional es = 2 ^ 64 ∧ ¬ MaxNotionalHandler.Exactly es h :=
  ⟨⟨_, _, rfl, by decide, by decide⟩, _, _, rfl, by decide, by decide⟩

end HftExercises.RiskChains
