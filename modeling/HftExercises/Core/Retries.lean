import HftExercises.Core.Execution
import Mathlib.Algebra.BigOperators.Ring.List
import Mathlib.Algebra.Ring.Nat

/-! # Paying for retries

A step may raise a potential only by what it is credited with, so over a run the costs of the
steps stay within the start and the credits. A thread that retries its exchange of a shared word
is paid for by the thread that has changed the word, or fails for no reason.
-/
namespace HftExercises
section Potential
variable {σ ι ο : Type*} {step : σ → ι → Option (ο × σ)} {I : σ → Prop}

/-- What each step pays out of a potential and out of a credit of its own, a run pays out of the
sum. -/
theorem exec_potential (φ : σ → ℕ) (cost credit : Event σ ι ο → ℕ)
    (hstep : ∀ s i o t, I s → step s i = some (o, t) →
      I t ∧ φ t + cost ⟨s, i, o⟩ ≤ φ s + credit ⟨s, i, o⟩)
    {s t : σ} (hs : I s) {calls : List ι} {es : List (Event σ ι ο)}
    (h : exec step s calls = some (es, t)) :
    φ t + (es.map cost).sum ≤ φ s + (es.map credit).sum := by
  have hrun := exec_invariant
    (fun es t => I t ∧ φ t + (es.map cost).sum ≤ φ s + (es.map credit).sum) ?_ ⟨hs, by simp⟩ h
  · exact hrun.2
  · rintro es t i o u ⟨ht, hpaid⟩ hi
    obtain ⟨hu, hnext⟩ := hstep t i o u ht hi
    refine ⟨hu, ?_⟩
    simp only [List.map_append, List.map_cons, List.map_nil, List.sum_append, List.sum_cons,
      List.sum_nil]
    omega

theorem sum_map_toNat {α : Type*} (p : α → Bool) (l : List α) :
    (l.map fun a => (p a).toNat).sum = l.countP p := by
  induction l with
  | nil => rfl
  | cons a l ih =>
    rw [List.map_cons, List.sum_cons, ih, List.countP_cons, Nat.add_comm]
    cases p a <;> rfl

end Potential

section Retries
variable {σ ι ο T : Type*} [DecidableEq T] {step : σ → ι → Option (ο × σ)} {I : σ → Prop}

def takenBy (thread : ι → T) (t : T) (e : Event σ ι ο) : Bool := decide (thread e.call = t)

def startedBy (thread : ι → T) (starts : ι → Bool) (t : T) (e : Event σ ι ο) : Bool :=
  takenBy thread t e && starts e.call

/-- An exchange of the thread that fails for no reason. -/
def failedBy (thread : ι → T) (fails : σ → ι → Bool) (t : T) (e : Event σ ι ο) : Bool :=
  takenBy thread t e && fails e.before e.call

/-- Another thread changes a shared word. -/
def interferedWith (thread : ι → T) (updates : ο → Bool) (t : T) (e : Event σ ι ο) : Bool :=
  !takenBy thread t e && updates e.result

/-- `work` bounds the steps until the end of a call, and is raised by `retry` at most when an
exchange fails or is bound to fail from now on. -/
theorem steps_le_of_retries {thread : ι → T} {starts : ι → Bool} {fails : σ → ι → Bool}
    {updates : ο → Bool} {call retry : ℕ} (work : σ → T → ℕ)
    (hkeep : ∀ s i o s', I s → step s i = some (o, s') → I s')
    (hown : ∀ s i o s', I s → step s i = some (o, s') → work s' (thread i) + 1 ≤
      work s (thread i) + call * (starts i).toNat + retry * (fails s i).toNat)
    (hother : ∀ s i o s' t, I s → step s i = some (o, s') → t ≠ thread i →
      work s' t ≤ work s t + retry * (updates o).toNat)
    {s s' : σ} (hs : I s) {calls : List ι} {es : List (Event σ ι ο)}
    (h : exec step s calls = some (es, s')) {t : T} (hstart : work s t = 0) :
    es.countP (takenBy thread t) ≤ call * es.countP (startedBy thread starts t) +
      retry * (es.countP (failedBy thread fails t) +
        es.countP (interferedWith thread updates t)) := by
  have hrun := exec_potential (I := I) (fun s => work s t) (fun e => (takenBy thread t e).toNat)
    (fun e => call * (startedBy thread starts t e).toNat +
      retry * ((failedBy thread fails t e).toNat + (interferedWith thread updates t e).toNat))
    ?_ hs h
  · simp only [List.sum_map_add, List.sum_map_mul_left, sum_map_toNat] at hrun
    omega
  · intro s i o s' hs hi
    refine ⟨hkeep s i o s' hs hi, ?_⟩
    by_cases ht : t = thread i
    · subst ht
      have hpaid := hown s i o s' hs hi
      simpa [takenBy, startedBy, failedBy, interferedWith, Nat.add_assoc] using hpaid
    · have hpaid := hother s i o s' t hs hi ht
      simpa [takenBy, startedBy, failedBy, interferedWith, Ne.symm ht] using hpaid

end Retries
end HftExercises
