import Mathlib.Data.Fintype.Card
import Mathlib.Data.Finset.Card
import HftExercises.Core.Threads

/-! # Counting threads by where they are

The number of threads whose control satisfies a predicate, and how one step of
one thread moves it.
-/
namespace HftExercises
variable {T γ : Type*}

/-- After one thread moved, a thread at such a place is that one, or was there before. -/
theorem update_cases [DecidableEq T] (P : γ → Prop) {control : T → γ} {t u : T} {c : γ}
    (h : P (Function.update control t c u)) : (u = t ∧ P c) ∨ (u ≠ t ∧ P (control u)) := by
  by_cases heq : u = t
  · subst heq
    rw [Function.update_self] at h
    exact Or.inl ⟨rfl, h⟩
  · rw [Function.update_of_ne heq] at h
    exact Or.inr ⟨heq, h⟩

theorem update_forall [DecidableEq T] (P : γ → Prop) {control : T → γ} {t : T} {c : γ}
    (h : ∀ u, P (control u)) (hc : P c) (u : T) : P (Function.update control t c u) := by
  by_cases heq : u = t
  · subst heq
    rwa [Function.update_self]
  · rw [Function.update_of_ne heq]
    exact h u

theorem comp_update_eq [DecidableEq T] {δ : Type*} (f : γ → δ) (control : T → γ) (t : T) (c : γ) :
    (fun u => f (Function.update control t c u)) =
      Function.update (fun u => f (control u)) t (f c) :=
  Function.comp_update f control t c

theorem filter_update_same [DecidableEq T] {p : γ → Bool} {control : T → γ} {t : T} {c : γ}
    (h : p c = p (control t)) (threads : List T) :
    threads.filter (fun u => p (Function.update control t c u)) =
      threads.filter (fun u => p (control u)) := by
  apply List.filter_congr
  intro u _
  by_cases hu : u = t
  · subst hu
    rw [Function.update_self, h]
  · rw [Function.update_of_ne hu]

theorem filter_update_notMem [DecidableEq T] {p : γ → Bool} {control : T → γ} {t : T} {c : γ}
    {threads : List T} (h : t ∉ threads) :
    threads.filter (fun u => p (Function.update control t c u)) =
      threads.filter (fun u => p (control u)) := by
  apply List.filter_congr
  intro u hu
  have hne : u ≠ t := fun he => h (he ▸ hu)
  rw [Function.update_of_ne hne]

variable [Fintype T]

/-- How many threads are at a control that satisfies `p`. -/
def countAt (p : γ → Bool) (control : T → γ) : ℕ :=
  (Finset.univ.filter fun t => p (control t) = true).card

section Count
variable {p q : γ → Bool} {control : T → γ}

theorem countAt_eq_zero : countAt p control = 0 ↔ ∀ t, p (control t) = false := by
  simp [countAt, Finset.filter_eq_empty_iff]

theorem countAt_const {c : γ} (h : p c = false) : countAt p (fun _ : T => c) = 0 :=
  countAt_eq_zero.mpr fun _ => h

theorem countAt_eq_card : countAt p control = Fintype.card T ↔ ∀ t, p (control t) = true := by
  rw [countAt, Finset.card_eq_iff_eq_univ, Finset.filter_eq_self]
  simp

/-- At most one thread satisfies a predicate that counts to at most one. -/
theorem eq_of_countAt_le_one (h : countAt p control ≤ 1) {t u : T} (ht : p (control t) = true)
    (hu : p (control u) = true) : t = u :=
  Finset.card_le_one.mp h t (by simpa using ht) u (by simpa using hu)

theorem countAt_le_card {threads : Finset T} (h : ∀ t, p (control t) = true → t ∈ threads) :
    countAt p control ≤ threads.card :=
  Finset.card_le_card fun t ht => h t (by simpa using ht)

theorem countAt_mono (h : ∀ c, p c = true → q c = true) : countAt p control ≤ countAt q control :=
  Finset.card_le_card (Finset.monotone_filter_right _ fun t _ => h (control t))

theorem countAt_ne_zero {t : T} (h : p (control t) = true) : countAt p control ≠ 0 := by
  intro h0
  rw [countAt_eq_zero.mp h0 t] at h
  cases h

/-- Disjoint places are counted one after the other. -/
theorem countAt_or (h : ∀ c, p c = true → q c = false) :
    countAt (fun c => p c || q c) control = countAt p control + countAt q control := by
  classical
  unfold countAt
  rw [← Finset.card_union_of_disjoint]
  · congr 1
    ext t
    simp
  · rw [Finset.disjoint_filter]
    intro t _ hp hq
    rw [h _ hp] at hq
    cases hq

/-- One thread moves: the count loses its old place and gains its new one. -/
theorem countAt_update [DecidableEq T] (p : γ → Bool) (control : T → γ) (t : T) (c : γ) :
    countAt p (Function.update control t c) + (p (control t)).toNat =
      countAt p control + (p c).toNat := by
  classical
  have herase : ∀ control' : T → γ, countAt p control' =
      ((Finset.univ.erase t).filter fun u => p (control' u) = true).card + (p (control' t)).toNat := by
    intro control'
    unfold countAt
    rw [← Finset.insert_erase (Finset.mem_univ t), Finset.filter_insert]
    cases p (control' t) with
    | true => simp
    | false => simp
  have hrest : ((Finset.univ.erase t).filter fun u => p (Function.update control t c u) = true) =
      (Finset.univ.erase t).filter fun u => p (control u) = true := by
    apply Finset.filter_congr
    intro u hu
    rw [Function.update_of_ne (Finset.ne_of_mem_erase hu)]
  rw [herase (Function.update control t c), herase control, hrest, Function.update_self]
  omega

theorem countAt_update_same [DecidableEq T] {t : T} {c : γ} (h : p c = p (control t)) :
    countAt p (Function.update control t c) = countAt p control := by
  have hmove := countAt_update p control t c
  rw [h] at hmove
  omega

theorem countAt_update_enter [DecidableEq T] {t : T} {c : γ} (hs : p (control t) = false)
    (hc : p c = true) : countAt p (Function.update control t c) = countAt p control + 1 := by
  have hmove := countAt_update p control t c
  rw [hs, hc] at hmove
  exact hmove

theorem countAt_update_leave [DecidableEq T] {t : T} {c : γ} (hs : p (control t) = true)
    (hc : p c = false) : countAt p (Function.update control t c) + 1 = countAt p control := by
  have hmove := countAt_update p control t c
  rw [hs, hc] at hmove
  exact hmove

end Count
end HftExercises
