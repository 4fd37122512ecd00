import Mathlib.Logic.Equiv.Basic
import Mathlib.Logic.Function.Basic
import Mathlib.Algebra.Ring.Nat

/-! # Mixing words

A right shift xored into its own word can be taken out again, from the high bits
down, and a factor with an inverse can be divided out. A fold whose every step
permutes the accumulator runs backwards as well: the start leads to a result just
when the result leads back to the start, and no later step hides a changed one.
-/
namespace HftExercises
section Words
variable {w : ℕ}

def xorShift (k : ℕ) (x : BitVec w) : BitVec w := x ^^^ (x >>> k)

/-- `n` rounds of taking the shift out, each right in `k` more bits. -/
def unXorShift (k : ℕ) : ℕ → BitVec w → BitVec w
  | 0, x => x
  | n + 1, x => x ^^^ (unXorShift k n x >>> k)

theorem unXorShift_xorShift (k n : ℕ) (x : BitVec w) :
    unXorShift k n (xorShift k x) = x ^^^ (x >>> (k * (n + 1))) := by
  induction n with
  | zero => simp [unXorShift, xorShift]
  | succ n ih =>
    rw [unXorShift, ih, BitVec.ushiftRight_xor_distrib, ← BitVec.shiftRight_add, xorShift]
    rw [BitVec.xor_assoc, ← BitVec.xor_assoc (x >>> k), BitVec.xor_self, BitVec.zero_xor]
    rfl

theorem xorShift_unXorShift (k n : ℕ) (x : BitVec w) :
    xorShift k (unXorShift k n x) = x ^^^ (x >>> (k * (n + 1))) := by
  induction n with
  | zero => simp [unXorShift, xorShift]
  | succ n ih =>
    obtain ⟨v, hv⟩ : ∃ v, v = unXorShift k n x >>> k := ⟨_, rfl⟩
    have hshift : v ^^^ (v >>> k) = (x >>> k) ^^^ (x >>> (k * (n + 1 + 1))) := by
      have hround := congrArg (fun y : BitVec w => y >>> k) ih
      simp only [xorShift, BitVec.ushiftRight_xor_distrib, ← hv] at hround
      rw [hround, ← BitVec.shiftRight_add]
      rfl
    calc xorShift k (unXorShift k (n + 1) x) = (x ^^^ v) ^^^ ((x ^^^ v) >>> k) := by rw [hv]; rfl
      _ = (x ^^^ (x >>> k)) ^^^ (v ^^^ (v >>> k)) := by
        rw [BitVec.ushiftRight_xor_distrib]
        ac_rfl
      _ = (x ^^^ ((x >>> k) ^^^ (x >>> k))) ^^^ (x >>> (k * (n + 1 + 1))) := by
        rw [hshift]
        ac_rfl
      _ = x ^^^ (x >>> (k * (n + 1 + 1))) := by rw [BitVec.xor_self, BitVec.xor_zero]

/-- Enough rounds take the shift out of every bit. -/
def xorShiftPerm (k n : ℕ) (h : w ≤ k * (n + 1)) : Equiv.Perm (BitVec w) where
  toFun := xorShift k
  invFun := unXorShift k n
  left_inv x := by rw [unXorShift_xorShift, BitVec.ushiftRight_eq_zero h, BitVec.xor_zero]
  right_inv x := by rw [xorShift_unXorShift, BitVec.ushiftRight_eq_zero h, BitVec.xor_zero]

def mulPerm (c d : BitVec w) (h : c * d = 1#w) : Equiv.Perm (BitVec w) where
  toFun x := x * c
  invFun x := x * d
  left_inv x := by
    dsimp only
    rw [BitVec.mul_assoc, h, BitVec.mul_one]
  right_inv x := by
    dsimp only
    rw [BitVec.mul_assoc, BitVec.mul_comm d, h, BitVec.mul_one]

end Words

section Folds
variable {σ α : Type*} (f : α → Equiv.Perm σ)

/-- Back over the elements, the last one first. -/
def rewind (l : List α) (t : σ) : σ := l.foldr (fun a t => (f a).symm t) t

theorem foldl_eq_iff_rewind {l : List α} {s t : σ} :
    l.foldl (fun s a => f a s) s = t ↔ s = rewind f l t := by
  induction l generalizing s with
  | nil => exact Iff.rfl
  | cons a l ih =>
    rw [List.foldl_cons, ih, ← Equiv.eq_symm_apply]
    rfl

theorem foldl_perm_injective (l : List α) : Function.Injective (l.foldl (fun s a => f a s)) := by
  intro s t h
  rw [(foldl_eq_iff_rewind f).mp h, ← (foldl_eq_iff_rewind f).mp rfl]

/-- Steps that differ on every accumulator make folds that differ. -/
theorem foldl_perm_ne {a b : α} (hab : ∀ s, f a s ≠ f b s) (pre post : List α) (s : σ) :
    (pre ++ a :: post).foldl (fun s a => f a s) s ≠
      (pre ++ b :: post).foldl (fun s a => f a s) s := by
  rw [List.foldl_append, List.foldl_append, List.foldl_cons, List.foldl_cons]
  exact fun h => hab _ (foldl_perm_injective f post h)

end Folds

end HftExercises
