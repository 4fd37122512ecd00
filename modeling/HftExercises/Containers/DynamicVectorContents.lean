import HftExercises.Containers.DynamicVectorConstructors
import Mathlib.Algebra.BigOperators.Finprod

/-! # Many vectors

The contents are a list for each vector there is. No two vectors own one block, so that a
change of one leaves the others as they are; a move hands the block over.
-/
namespace HftExercises.DynVector
open Throwing
variable {ι T : Type} {w w' w'' : World ι T}

abbrev Contents (ι T : Type) := ι → Option (List T)

namespace Contents
variable {q : Contents ι T}

def count (c : Option (List T)) : ℕ := (c.getD []).length

/-- The number of elements in all vectors. -/
noncomputable def total (q : Contents ι T) : ℕ := ∑ᶠ v, count (q v)

@[simp] theorem count_none : count (none : Option (List T)) = 0 := rfl

@[simp] theorem count_some (xs : List T) : count (some xs) = xs.length := rfl

theorem total_eq_sum {s : Finset ι} (hs : ∀ v, q v ≠ none → v ∈ s) :
    q.total = ∑ v ∈ s, count (q v) := by
  refine finsum_eq_sum_of_support_subset _ fun v hv => hs v ?_
  intro hnone
  rw [Function.mem_support, hnone] at hv
  exact hv rfl

variable [DecidableEq ι]

theorem finite_update (hq : {v | q v ≠ none}.Finite) (v : ι) (c : Option (List T)) :
    {u | Function.update q v c u ≠ none}.Finite := by
  refine (hq.insert v).subset fun u hu => ?_
  by_cases huv : u = v
  · exact .inl huv
  · have hkept : Function.update q v c u ≠ none := hu
    rw [Function.update_of_ne huv] at hkept
    exact .inr hkept

theorem total_update (hq : {v | q v ≠ none}.Finite) (v : ι) (c : Option (List T)) :
    total (Function.update q v c) + count (q v) = q.total + count c := by
  obtain ⟨s, hs⟩ : ∃ s, s = insert v hq.toFinset := ⟨_, rfl⟩
  have hv : v ∈ s := by simp [hs]
  have hold : ∀ u, q u ≠ none → u ∈ s := fun u hu => by simp [hs, hu]
  have hnew : ∀ u, Function.update q v c u ≠ none → u ∈ s := by
    intro u hu
    by_cases huv : u = v
    · exact huv ▸ hv
    · rw [Function.update_of_ne huv] at hu
      exact hold u hu
  have hrest : ∑ u ∈ s.erase v, count (Function.update q v c u) = ∑ u ∈ s.erase v, count (q u) := by
    refine Finset.sum_congr rfl fun u hu => ?_
    rw [Function.update_of_ne (Finset.ne_of_mem_erase hu)]
  rw [total_eq_sum hold, total_eq_sum hnew, ← Finset.add_sum_erase s _ hv,
    ← Finset.add_sum_erase s (fun u => count (q u)) hv, hrest, Function.update_self]
  omega

end Contents

section Representation
variable {q q' q'' : Contents ι T} {u v this o : ι} {f g : Vec} {r : Option Vec}
variable {c : Option (List T)} {xs ys : List T}

structure Represents (w : World ι T) (q : Contents ι T) : Prop where
  holds : ∀ v, Option.Rel (Owns w) (w.vec v) (q v)
  apart : ∀ u v f g b, w.vec u = some f → w.vec v = some g → f.data = some b → g.data = some b → u = v
  fresh : Fresh w
  finite : {v | q v ≠ none}.Finite

theorem Represents.owns (hr : Represents w q) (hq : q v = some xs) :
    ∃ f, w.vec v = some f ∧ Owns w f xs := by
  have hv := hr.holds v
  rw [hq] at hv
  cases hvec : w.vec v with
  | none =>
    rw [hvec] at hv
    cases hv
  | some f =>
    rw [hvec] at hv
    exact ⟨f, rfl, Option.rel_some_some.mp hv⟩

theorem Represents.gone (hr : Represents w q) (hq : q v = none) : w.vec v = none := by
  have hv := hr.holds v
  rw [hq] at hv
  cases hvec : w.vec v with
  | none => rfl
  | some f =>
    rw [hvec] at hv
    cases hv

theorem Represents.owned (hr : Represents w q) (hv : w.vec v = some f) :
    ∃ xs, q v = some xs ∧ Owns w f xs := by
  have hq := hr.holds v
  rw [hv] at hq
  cases hc : q v with
  | none =>
    rw [hc] at hq
    cases hq
  | some xs =>
    rw [hc] at hq
    exact ⟨xs, rfl, Option.rel_some_some.mp hq⟩

theorem holds_congr (h : Option.Rel (Owns w) r c)
    (hblock : ∀ g, r = some g → ∀ b, g.data = some b → w'.block b = w.block b) :
    Option.Rel (Owns w') r c := by
  cases h with
  | none => exact .none
  | some h => exact .some (h.congr (hblock _ rfl))

variable [DecidableEq ι]

/-- A change of one vector leaves the others as they are. -/
theorem Represents.edits {k l : ℕ} (hr : Represents w q) (hf : w.vec v = some f ∨ f.data = none)
    (he : Edits w w' v f r k l) (hc : Option.Rel (Owns w') r c) :
    Represents w' (Function.update q v c) := by
  have hother : ∀ u g b, u ≠ v → w.vec u = some g → g.data = some b →
      b < w.next ∧ f.data ≠ some b := by
    intro u g b hne hu hb
    obtain ⟨ys, -, howns⟩ := hr.owned hu
    refine ⟨Nat.lt_of_not_le fun hle => howns.data_ne hr.fresh hle hb, fun hfb => ?_⟩
    rcases hf with hv | hnone
    · exact hne (hr.apart u v g f b hu hv hb hfb)
    · rw [hnone] at hfb
      cases hfb
  have hcross : ∀ u g g' b, u ≠ v → w.vec u = some g → r = some g' → g.data = some b →
      g'.data ≠ some b := by
    intro u g g' b hne hu hg' hb hb'
    obtain ⟨hlt, hfb⟩ := hother u g b hne hu hb
    rcases he.data g' hg' b hb' with hold | hnew
    · exact hfb hold
    · omega
  refine ⟨fun u => ?_, ?_, he.fresh, Contents.finite_update hr.finite v c⟩
  · by_cases hu : u = v
    · subst hu
      rwa [he.vec, Function.update_self, Function.update_self]
    · rw [he.vec, Function.update_of_ne hu, Function.update_of_ne hu]
      refine holds_congr (hr.holds u) fun g hg b hb => ?_
      obtain ⟨hlt, hfb⟩ := hother u g b hu hg hb
      exact he.frame b hlt hfb
  · intro u₁ u₂ g₁ g₂ b h₁ h₂ hb₁ hb₂
    rw [he.vec] at h₁ h₂
    by_cases hu₁ : u₁ = v
    · by_cases hu₂ : u₂ = v
      · rw [hu₁, hu₂]
      · rw [hu₁, Function.update_self] at h₁
        rw [Function.update_of_ne hu₂] at h₂
        exact absurd hb₁ (hcross u₂ g₂ g₁ b hu₂ h₂ h₁ hb₂)
    · rw [Function.update_of_ne hu₁] at h₁
      by_cases hu₂ : u₂ = v
      · rw [hu₂, Function.update_self] at h₂
        exact absurd hb₂ (hcross u₁ g₁ g₂ b hu₁ h₁ h₂ hb₁)
      · rw [Function.update_of_ne hu₂] at h₂
        exact hr.apart u₁ u₂ g₁ g₂ b h₁ h₂ hb₁ hb₂

/-- The contents change, and as many elements are constructed and not destroyed as the vectors
hold more. -/
structure Steps (w w' : World ι T) (q q' : Contents ι T) : Prop where
  represents : Represents w' q'
  balance : w'.constructed + w.destroyed + q.total = w.constructed + w'.destroyed + q'.total

omit [DecidableEq ι] in
theorem Steps.trans (h : Steps w w' q q') (h' : Steps w' w'' q' q'') : Steps w w'' q q'' := by
  refine ⟨h'.represents, ?_⟩
  have hbalance := h.balance
  have hbalance' := h'.balance
  omega

theorem Represents.steps (hr : Represents w q) (hf : w.vec v = some f ∨ f.data = none)
    (he : Edits w w' v f r (Contents.count (q v)) (Contents.count c))
    (hc : Option.Rel (Owns w') r c) : Steps w w' q (Function.update q v c) := by
  refine ⟨hr.edits hf he hc, ?_⟩
  have hbalance := he.balance
  have htotal := Contents.total_update hr.finite v c
  omega

theorem Represents.becomes (hr : Represents w q) (hv : w.vec v = some f) (hq : q v = some xs)
    (h : Becomes w w' v f g xs ys) : Steps w w' q (Function.update q v (some ys)) :=
  hr.steps (.inl hv) (by rw [hq]; exact h.edits) (.some h.owns)

theorem Represents.kept (hr : Represents w q) (hv : w.vec v = some f) (hq : q v = some xs)
    (h : Becomes w w' v f g xs xs) : Steps w w' q q := by
  have hsteps := hr.becomes hv hq h
  rwa [← hq, Function.update_eq_self] at hsteps

omit [DecidableEq ι] in
theorem represents_empty : Represents (World.empty : World ι T) (fun _ => none) := by
  refine ⟨fun _ => .none, ?_, fun _ _ => rfl, by simp⟩
  intro u v f g b hu
  cases hu

end Representation

section Single
variable [DecidableEq ι] {v : ι} {xs : List T} {capacity : ℕ}

/-- Elements that move without exceptions, and the constructions that throw. -/
def numbers (throws : ℕ → Bool) : Element ℕ := ⟨true, 0, id, throws⟩

/-- A world with one vector. -/
def World.single (v : ι) (xs : List T) (capacity : ℕ) : World ι T where
  vec := Function.update (fun _ => none) v (some ⟨some 0, xs.length, capacity⟩)
  block := Function.update (fun _ => none) 0 (some (storage xs capacity))
  next := 1
  attempts := xs.length
  constructed := xs.length
  destroyed := 0

theorem represents_single (hle : xs.length ≤ capacity) :
    Represents (World.single v xs capacity) (Function.update (fun _ => none) v (some xs)) := by
  have hedits : Edits World.empty (World.single v xs capacity) v {}
      (some ⟨some 0, xs.length, capacity⟩) 0 xs.length := by
    refine ⟨rfl, fun b hb => absurd hb (Nat.not_lt_zero b), Nat.zero_le 1, fun b hb => ?_,
      fun _ _ b _ => .inr (Nat.zero_le b), ?_⟩
    · have hne : b ≠ 0 := Nat.ne_of_gt hb
      simp [World.single, hne]
    · change xs.length + 0 + 0 = 0 + 0 + xs.length
      omega
  refine represents_empty.edits (.inr rfl) hedits (.some ⟨rfl, hle, .inr ⟨0, rfl, ?_⟩⟩)
  simp [World.single]

end Single

end HftExercises.DynVector
