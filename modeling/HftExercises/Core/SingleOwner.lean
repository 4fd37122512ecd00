import Mathlib.Data.Finset.Card
import Mathlib.Data.Fintype.EquivFin
import Mathlib.Logic.Relation
import Mathlib.Order.WellFounded

/-! # Relations in which nothing has two owners

Going back from owner to owner ends at a root or comes round in a cycle, and never both.
-/
namespace HftExercises
open Relation
variable {N : Type*} {R : N → N → Prop} {s : Finset N}

/-- A finite set in which everything has an owner contains a cycle. -/
theorem exists_cycle_of_owners (hs : s.Nonempty) (howner : ∀ x ∈ s, ∃ y ∈ s, R y x) :
    ∃ x ∈ s, TransGen R x x := by
  by_contra hnone
  have hirrefl : ∀ x : s, ¬TransGen R x.1 x.1 := fun x hx => hnone ⟨x.1, x.2, hx⟩
  have : IsTrans s fun x y => TransGen R x.1 y.1 := ⟨fun _ _ _ => TransGen.trans⟩
  have : Std.Irrefl fun x y : s => TransGen R x.1 y.1 := ⟨hirrefl⟩
  have hwf : WellFounded fun x y : s => TransGen R x.1 y.1 :=
    Finite.wellFounded_of_trans_of_irrefl _
  obtain ⟨p, hp⟩ := hs
  obtain ⟨m, -, hm⟩ := hwf.has_min Set.univ ⟨⟨p, hp⟩, Set.mem_univ _⟩
  obtain ⟨y, hy, hym⟩ := howner m.1 m.2
  exact hm ⟨y, hy⟩ (Set.mem_univ _) (.single hym)

/-- Nothing that a root leads to lies below a cycle. -/
theorem no_cycle_below_root (hsingle : ∀ x y z, R x z → R y z → x = y) {r p x : N}
    (hroot : ∀ y, ¬R y r) (hp : ReflTransGen R r p) (hx : TransGen R x x)
    (hxp : ReflTransGen R x p) : False := by
  induction hp with
  | refl =>
    rcases hxp.cases_tail with rfl | ⟨y, -, hy⟩
    · obtain ⟨y, -, hy⟩ := TransGen.tail'_iff.mp hx
      exact hroot y hy
    · exact hroot y hy
  | @tail y z _ hyz ih =>
    -- the cycle reaches the only owner of the last object too
    rcases hxp.cases_tail with rfl | ⟨w, hw, hwz⟩
    · obtain ⟨w, hw, hwz⟩ := TransGen.tail'_iff.mp hx
      exact ih (hsingle w y _ hwz hyz ▸ hw)
    · exact ih (hsingle w y _ hwz hyz ▸ hw)

theorem rooted_iff_not_below_cycle (Root : N → Prop)
    (hsingle : ∀ x y z, R x z → R y z → x = y) (hroot : ∀ r, Root r → ∀ y, ¬R y r)
    (howner : ∀ x ∈ s, Root x ∨ ∃ y ∈ s, R y x) {p : N} (hp : p ∈ s) :
    (∃ r, Root r ∧ ReflTransGen R r p) ↔ ¬∃ x, TransGen R x x ∧ ReflTransGen R x p := by
  classical
  constructor
  · rintro ⟨r, hr, hpath⟩ ⟨x, hx, hxp⟩
    exact no_cycle_below_root hsingle (hroot r hr) hpath hx hxp
  · intro hcycle
    by_contra hrooted
    -- what leads here is not rooted either, so it has an owner that leads here
    have hnonempty : (s.filter fun x => ReflTransGen R x p).Nonempty :=
      ⟨p, Finset.mem_filter.mpr ⟨hp, .refl⟩⟩
    have hback : ∀ x ∈ s.filter (fun x => ReflTransGen R x p),
        ∃ y ∈ s.filter (fun x => ReflTransGen R x p), R y x := by
      intro x hx
      obtain ⟨hxs, hxp⟩ := Finset.mem_filter.mp hx
      rcases howner x hxs with hr | ⟨y, hys, hyx⟩
      · exact absurd ⟨x, hr, hxp⟩ hrooted
      · exact ⟨y, Finset.mem_filter.mpr ⟨hys, .head hyx hxp⟩, hyx⟩
    obtain ⟨x, hx, hxx⟩ := exists_cycle_of_owners hnonempty hback
    exact hcycle ⟨x, hxx, (Finset.mem_filter.mp hx).2⟩

end HftExercises
