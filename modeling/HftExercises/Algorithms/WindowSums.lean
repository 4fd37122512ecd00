import HftExercises.Algorithms.VariableWindow
import HftExercises.Core.Execution
import Mathlib.Algebra.Order.Field.Rat
import Mathlib.Data.List.MinMax
import Mathlib.Tactic.Ring

/-! # The sums of a window

One accumulator gains the element that enters and then loses the one that leaves, so for
a moment it is the sum of one element more than the window has.
-/
namespace HftExercises.SlidingWindow

/-- `if (i >= k) run -= values[i - k]` -/
def dropLeaving (values : List Int32) (k i : ℕ) (run : ℤ) : Option ℤ :=
  if k ≤ i then do
    let y ← values[i - k]?
    int64 (run - y.toInt)
  else some run

/-- One round: the accumulator and the sums so far. -/
def sumsRound (values : List Int32) (k : ℕ) (s : ℤ × List ℤ) (i : ℕ) : Option (ℤ × List ℤ) := do
  let x ← values[i]?
  let grown ← int64 (s.1 + x.toInt)
  let run ← dropLeaving values k i grown
  return (run, if k ≤ i + 1 then s.2 ++ [run] else s.2)

variable {values : List Int32} {k i l r : ℕ}

/-- The sum of the window that starts at an index. -/
def windowSum (values : List Int32) (k t : ℕ) : ℤ := before values (t + k) - before values t

/-- A span of at most 2^32 elements has a sum that fits. -/
theorem int64_span (h : l ≤ r) (hr : r ≤ values.length) (hspan : r - l ≤ 2 ^ 32) :
    int64 (before values r - before values l) = some (before values r - before values l) := by
  have hbounds : ∀ d, l + d ≤ values.length →
      -(2 ^ 31 * (d : ℤ)) ≤ before values (l + d) - before values l ∧
        before values (l + d) - before values l ≤ (2 ^ 31 - 1) * d := by
    intro d hd
    induction d with
    | zero => simp
    | succ d ih =>
      obtain ⟨hlo, hhi⟩ := ih (by omega)
      have hx := values[l + d].toInt_lt
      have hx' := values[l + d].le_toInt
      rw [← Nat.add_assoc, before_succ (by omega)]
      push_cast
      constructor <;> omega
  obtain ⟨d, rfl⟩ := Nat.exists_eq_add_of_le h
  obtain ⟨hlo, hhi⟩ := hbounds d hr
  exact if_pos ⟨by omega, by omega⟩

/-- The accumulator before round `i` is the sum of the last `k` elements, and the sums
are those of the windows that are complete. -/
def Summed (values : List Int32) (k i : ℕ) (s : ℤ × List ℤ) : Prop :=
  s.1 = before values i - before values (i - k) ∧
    s.2 = (List.range (i + 1 - k)).map (windowSum values k)

theorem dropLeaving_eq (hi : i < values.length) (hk : k < 2 ^ 32) :
    dropLeaving values k i (before values (i + 1) - before values (i - k)) =
      some (before values (i + 1) - before values (i + 1 - k)) := by
  unfold dropLeaving
  split_ifs with hle
  · have hlt : i - k < values.length := by omega
    have hleft : i + 1 - k = i - k + 1 := by omega
    have hrun : before values (i + 1) - before values (i - k) - values[i - k].toInt =
        before values (i + 1) - before values (i - k + 1) := by
      rw [before_succ hlt]
      omega
    simp only [List.getElem?_eq_getElem hlt, Option.bind_eq_bind, Option.bind_some, hrun, hleft]
    exact int64_span (by omega) hi (by omega)
  · rw [show i + 1 - k = i - k by omega]

theorem Summed.next {s : ℤ × List ℤ} (h : Summed values k i s) (hi : i < values.length)
    (hpos : 0 < k) (hk : k < 2 ^ 32) :
    ∃ s', sumsRound values k s i = some s' ∧ Summed values k (i + 1) s' := by
  obtain ⟨hrun, hsums⟩ := h
  have hgrown : s.1 + values[i].toInt = before values (i + 1) - before values (i - k) := by
    rw [hrun, before_succ hi]
    omega
  have hfits : int64 (before values (i + 1) - before values (i - k)) =
      some (before values (i + 1) - before values (i - k)) :=
    int64_span (by omega) hi (by omega)
  refine ⟨(before values (i + 1) - before values (i + 1 - k), if k ≤ i + 1 then
    s.2 ++ [before values (i + 1) - before values (i + 1 - k)] else s.2), ?_, rfl, ?_⟩
  · simp only [sumsRound, List.getElem?_eq_getElem hi, Option.bind_eq_bind, Option.bind_some, hgrown,
      hfits, dropLeaving_eq hi hk]
    rfl
  · dsimp only
    split_ifs with hle
    · have hcount : i + 1 + 1 - k = i + 1 - k + 1 := by omega
      rw [hsums, hcount, List.range_succ, List.map_append, List.map_singleton, windowSum,
        Nat.sub_add_cancel hle]
    · rw [hsums, show i + 1 + 1 - k = 0 by omega, show i + 1 - k = 0 by omega]

end HftExercises.SlidingWindow
