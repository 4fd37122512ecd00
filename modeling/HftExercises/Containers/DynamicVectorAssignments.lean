import HftExercises.Containers.DynamicVectorContents

/-! # Moves and assignments

A move hands the block over and leaves the source empty. A copy assignment moves from a copy,
which is made first, so that an exception leaves the target as it is.
-/
namespace HftExercises.DynVector
open Throwing
variable {ι T : Type} [DecidableEq ι] {w w' : World ι T} {q : Contents ι T}
variable {this o tmp u : ι} {f g : Vec} {xs ys : List T} {E : Element T} {n : ℕ}
variable {R : Thrown → World ι T → Prop}

/-- What a move makes of the contents. -/
def Contents.move (q : Contents ι T) (this o : ι) (ys : List T) : Contents ι T :=
  Function.update (Function.update q this (some ys)) o (some [])

def World.handOver (w : World ι T) (this o : ι) (g : Vec) : World ι T :=
  (w.setVec this (some g)).setVec o (some {})

theorem handOver_vec_of_ne (hthis : u ≠ this) (ho : u ≠ o) :
    (w.handOver this o g).vec u = w.vec u := by
  simp [World.handOver, World.setVec, hthis, ho]

theorem handOver_vec_this (hne : this ≠ o) : (w.handOver this o g).vec this = some g := by
  simp [World.handOver, World.setVec, hne]

theorem handOver_vec_source : (w.handOver this o g).vec o = some {} := by
  simp [World.handOver, World.setVec]

/-- The block goes to an object that has no elements. -/
theorem Represents.handOver (hr : Represents w q) (ho : w.vec o = some g) (hq : q o = some ys)
    (hne : this ≠ o) (hthis : Contents.count (q this) = 0) :
    Steps w (w.handOver this o g) q (q.move this o ys) := by
  obtain ⟨g', hg', howns⟩ := hr.owns hq
  obtain rfl := Option.some.inj (ho.symm.trans hg')
  -- a block belongs to the vector that it belonged to, or it is the one that is handed over
  have hfrom : ∀ u f b, (w.handOver this o g).vec u = some f → f.data = some b →
      u = this ∧ f = g ∨ u ≠ this ∧ u ≠ o ∧ w.vec u = some f := by
    intro u f b hu hb
    by_cases huo : u = o
    · rw [huo, handOver_vec_source] at hu
      obtain rfl := Option.some.inj hu
      cases hb
    · by_cases hut : u = this
      · rw [hut, handOver_vec_this hne] at hu
        exact .inl ⟨hut, (Option.some.inj hu).symm⟩
      · rw [handOver_vec_of_ne hut huo] at hu
        exact .inr ⟨hut, huo, hu⟩
  refine ⟨⟨fun u => ?_, ?_, hr.fresh, ?_⟩, ?_⟩
  · by_cases huo : u = o
    · rw [huo, handOver_vec_source, Contents.move, Function.update_self]
      exact .some owns_nil
    · by_cases hut : u = this
      · rw [hut, handOver_vec_this hne, Contents.move, Function.update_of_ne hne,
          Function.update_self]
        exact .some (howns.congr fun _ _ => rfl)
      · rw [handOver_vec_of_ne hut huo, Contents.move, Function.update_of_ne huo,
          Function.update_of_ne hut]
        exact holds_congr (hr.holds u) fun _ _ _ _ => rfl
  · intro u₁ u₂ f₁ f₂ b h₁ h₂ hb₁ hb₂
    rcases hfrom u₁ f₁ b h₁ hb₁ with ⟨rfl, rfl⟩ | ⟨-, ho₁, hu₁⟩
    · rcases hfrom u₂ f₂ b h₂ hb₂ with ⟨rfl, -⟩ | ⟨-, ho₂, hu₂⟩
      · rfl
      · exact absurd (hr.apart u₂ o f₂ f₁ b hu₂ ho hb₂ hb₁) ho₂
    · rcases hfrom u₂ f₂ b h₂ hb₂ with ⟨rfl, rfl⟩ | ⟨-, -, hu₂⟩
      · exact absurd (hr.apart u₁ o f₁ f₂ b hu₁ ho hb₁ hb₂) ho₁
      · exact hr.apart u₁ u₂ f₁ f₂ b hu₁ hu₂ hb₁ hb₂
  · exact Contents.finite_update (Contents.finite_update hr.finite _ _) _ _
  · have hfirst := Contents.total_update hr.finite this (some ys)
    have hsecond := Contents.total_update (Contents.finite_update hr.finite this (some ys)) o
      (some [])
    have hnil : Contents.count (some ([] : List T)) = 0 := rfl
    rw [Function.update_of_ne hne.symm, hq] at hsecond
    rw [Contents.move]
    change w.constructed + w.destroyed + _ = w.constructed + w.destroyed + _
    omega

theorem moveConstruct_meets (hr : Represents w q) (hthis : q this = none) (hq : q o = some ys) :
    Meets (moveConstruct this o) w
      (fun _ w' => Steps w w' q (q.move this o ys) ∧ ∃ g, w' = w.handOver this o g) R := by
  obtain ⟨g, hg, howns⟩ := hr.owns hq
  have hne : this ≠ o := by
    rintro rfl
    rw [hthis] at hq
    cases hq
  have ho : (w.setVec this (some g)).vec o = some g := by
    rw [← hg]
    exact Function.update_of_ne hne.symm ..
  refine meets_bind_ok (fields_eq hg) (meets_bind_ok (beginObject_eq (hr.gone hthis) g)
    (meets_of_ok (setFields_eq ho {}) ⟨?_, g, rfl⟩))
  exact hr.handOver hg hq hne (by rw [hthis]; rfl)

/-- The target gives up its own elements and its block first. -/
theorem moveAssign_meets (hr : Represents w q) (hthis : q this = some xs) (hq : q o = some ys)
    (hne : this ≠ o) :
    Meets (moveAssign this o) w
      (fun _ w' => Steps w w' q (q.move this o ys) ∧ w'.vec this = w.vec o ∧ w'.vec o = some {} ∧
        ∀ u, u ≠ this → u ≠ o → w'.vec u = w.vec u) R := by
  obtain ⟨f, hf, howns⟩ := hr.owns hthis
  obtain ⟨g, hg, -⟩ := hr.owns hq
  obtain ⟨w₁, hw₁⟩ : ∃ w₁ : World ι T, w₁ = (w.free f).count 0 0 xs.length := ⟨_, rfl⟩
  have hvec : w₁.vec = w.vec := by rw [hw₁]; exact free_vec
  have hf₁ : (w₁.setVec this (some g)).vec o = some g := by
    rw [← hg, ← hvec]
    exact Function.update_of_ne hne.symm ..
  have hbare : Steps w (w₁.setVec this (some {})) q (Function.update q this (some [])) := by
    refine hr.steps (.inl hf) ?_ (.some owns_nil)
    rw [hthis]
    refine edits_within howns hr.fresh ?_ ?_ (fun b hb => ?_) ?_ ?_
    · rw [← hvec]
      rfl
    · rintro g' hg' b hb
      obtain rfl := Option.some.inj hg'
      cases hb
    · rw [hw₁]
      simp [World.setVec, World.count, free_block, hb]
    · rw [hw₁]
      exact free_next
    · rw [hw₁]
      simp only [World.setVec, World.count, free_constructed, free_destroyed, Contents.count_some,
        List.length_nil]
      omega
  have hend : (w₁.setVec this (some {})).handOver this o g =
      (w₁.setVec this (some g)).setVec o (some {}) := by
    simp [World.handOver, World.setVec]
  rw [moveAssign, if_pos hne]
  refine meets_bind_ok (fields_eq hf) (meets_bind_ok (destroyAll_eq howns)
    (meets_bind_ok (deleteAll_eq howns _) ?_))
  rw [← hw₁]
  refine meets_bind_ok (fields_eq (by rw [hvec, hg])) (meets_bind_ok
    (setFields_eq (by rw [hvec, hf]) g) (meets_of_ok (setFields_eq hf₁ {}) ?_))
  have ho₁ : (w₁.setVec this (some {})).vec o = some g := by
    rw [← hg, ← hvec]
    exact Function.update_of_ne hne.symm ..
  have hq₁ : Function.update q this (some []) o = some ys := by
    rw [Function.update_of_ne hne.symm, hq]
  have hover := hbare.represents.handOver ho₁ hq₁ hne (by rw [Function.update_self]; rfl)
  rw [Contents.move, Function.update_idem] at hover
  rw [← hend]
  refine ⟨hbare.trans hover, ?_, handOver_vec_source, fun u hut huo => ?_⟩
  · rw [handOver_vec_this hne, hg]
  · rw [handOver_vec_of_ne hut huo, ← hvec]
    exact Function.update_of_ne hut ..

/-- A copy assignment from another vector. -/
theorem copyAssign_meets (hr : Represents w q) (hthis : q this = some xs) (hq : q o = some ys)
    (htmp : q tmp = none) (hne : this ≠ o) :
    Meets (copyAssign E this o tmp) w
      (fun _ w' => (∀ j < ys.length, E.throws (w.attempts + j) = false) ∧
        Steps w w' q (Function.update q this (some ys)) ∧
        (∃ g, w'.vec this = some g ∧ g.capacity = ys.length) ∧
        ∀ u, u ≠ this → w'.vec u = w.vec u)
      (fun e w' => e = .element ∧ ∃ j, FirstThrow E w ys.length j ∧ Leaks w w' tmp j) := by
  obtain ⟨g, hg, howns⟩ := hr.owns hq
  have htt : this ≠ tmp := by
    rintro rfl
    rw [hthis] at htmp
    cases htmp
  rw [copyAssign, if_pos hne]
  refine (copyConstruct_meets (hr.gone htmp) hg howns hr.fresh).bind ?_
  rintro - w₁ ⟨hsteady, g₁, hedits, howns₁, hcap⟩
  have hcopy : Steps w w₁ q (Function.update q tmp (some ys)) :=
    hr.steps (.inr rfl) (by rw [htmp]; exact hedits) (.some howns₁)
  have hthis₁ : Function.update q tmp (some ys) this = some xs := by
    rw [Function.update_of_ne htt, hthis]
  refine (moveAssign_meets hcopy.represents hthis₁ (Function.update_self ..) htt).bind ?_
  rintro - w₂ ⟨hmove, hvec, hempty, hkept⟩
  have htmp₂ : Contents.move (Function.update q tmp (some ys)) this tmp ys tmp = some [] :=
    Function.update_self ..
  obtain ⟨f₂, hf₂, howns₂⟩ := hmove.represents.owns htmp₂
  refine (destruct_meets hf₂ howns₂ hmove.represents.fresh).imp ?_ fun _ _ h => h
  rintro - w' hend
  have hdestroy := hmove.represents.steps (.inl hf₂) (c := none) (by rw [htmp₂]; exact hend) .none
  have hcontents : Function.update (Contents.move (Function.update q tmp (some ys)) this tmp ys)
      tmp none = Function.update q this (some ys) := by
    rw [Contents.move, Function.update_idem, Function.update_comm htt, Function.update_idem,
      ← htmp, Function.update_eq_self]
  rw [hcontents] at hdestroy
  refine ⟨hsteady, (hcopy.trans hmove).trans hdestroy, ⟨g₁, ?_, hcap⟩, fun u hu => ?_⟩
  · rw [hend.vec, Function.update_of_ne htt, hvec, hedits.vec, Function.update_self]
  · rw [hend.vec]
    by_cases hut : u = tmp
    · rw [hut, Function.update_self, hr.gone htmp]
    · rw [Function.update_of_ne hut, hkept u hu hut, hedits.vec, Function.update_of_ne hut]

end HftExercises.DynVector
