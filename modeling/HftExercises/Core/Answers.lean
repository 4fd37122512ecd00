import Mathlib.Data.List.ReduceOption
import Mathlib.Order.Basic

/-! # Machines that answer every call

A total machine answers each call and moves on. Two machines whose steps answer
alike answer every run alike, so what a run answers may be read off whichever of
the two is simpler.
-/
namespace HftExercises
section Answers
variable {σ τ ι ο : Type*}

def stateAfter (step : σ → ι → ο × σ) (s : σ) (calls : List ι) : σ :=
  calls.foldl (fun s i => (step s i).2) s

def answers (step : σ → ι → ο × σ) : σ → List ι → List ο
  | _, [] => []
  | s, i :: is => (step s i).1 :: answers step (step s i).2 is

@[simp] theorem stateAfter_nil (step : σ → ι → ο × σ) (s : σ) : stateAfter step s [] = s := rfl

@[simp] theorem stateAfter_cons (step : σ → ι → ο × σ) (s : σ) (i : ι) (is : List ι) :
    stateAfter step s (i :: is) = stateAfter step (step s i).2 is := rfl

theorem stateAfter_append (step : σ → ι → ο × σ) (s : σ) (calls rest : List ι) :
    stateAfter step s (calls ++ rest) = stateAfter step (stateAfter step s calls) rest :=
  List.foldl_append ..

theorem answers_append (step : σ → ι → ο × σ) (s : σ) (calls rest : List ι) :
    answers step s (calls ++ rest) =
      answers step s calls ++ answers step (stateAfter step s calls) rest := by
  induction calls generalizing s with
  | nil => rfl
  | cons i is ih =>
    rw [List.cons_append, answers, ih]
    rfl

theorem stateAfter_invariant (step : σ → ι → ο × σ) {Pre : ι → Prop} (P : σ → Prop)
    (hstep : ∀ s i, P s → Pre i → P (step s i).2) {s : σ} (hs : P s) {calls : List ι}
    (hcalls : ∀ i ∈ calls, Pre i) : P (stateAfter step s calls) := by
  induction calls generalizing s with
  | nil => exact hs
  | cons i is ih =>
    obtain ⟨hi, his⟩ := List.forall_mem_cons.mp hcalls
    exact ih (hstep s i hs hi) his

/-- Related states give the same answers and stay related. -/
theorem answers_lockstep (step : σ → ι → ο × σ) (step' : τ → ι → ο × τ) {Pre : ι → Prop}
    (R : σ → τ → Prop)
    (hstep : ∀ s a i, R s a → Pre i → (step s i).1 = (step' a i).1 ∧ R (step s i).2 (step' a i).2)
    {s : σ} {a : τ} (hs : R s a) {calls : List ι} (hcalls : ∀ i ∈ calls, Pre i) :
    answers step s calls = answers step' a calls ∧
      R (stateAfter step s calls) (stateAfter step' a calls) := by
  induction calls generalizing s a with
  | nil => exact ⟨rfl, hs⟩
  | cons i is ih =>
    obtain ⟨hi, his⟩ := List.forall_mem_cons.mp hcalls
    obtain ⟨hanswer, hnext⟩ := hstep s a i hs hi
    obtain ⟨hrest, hend⟩ := ih hnext his
    exact ⟨by rw [answers, answers, hanswer, hrest], hend⟩

end Answers
end HftExercises
