import Mathlib.Data.Finset.Card
import Mathlib.Data.List.Nodup
import Mathlib.Logic.Relation

/-! # Depth-first search

The recursive search as a relation between the visiting orders before and after, so that
what a search with a stack still has to do can be stated of its stack. The depth of the
recursion is bounded by the number of vertices.
-/
namespace HftExercises.DepthFirst
variable {V : Type*} {adj : V → List V}

/-- Searching from the vertices of a list, one after the other, extends the first order to
the second one. -/
inductive Explores (adj : V → List V) : List V → List V → List V → Prop
  | nil (o : List V) : Explores adj o [] o
  | seen {o o' us : List V} {u : V} (hu : u ∈ o) (hrest : Explores adj o us o') :
      Explores adj o (u :: us) o'
  | visit {o o₁ o' us : List V} {u : V} (hu : u ∉ o)
      (hchildren : Explores adj (o ++ [u]) (adj u) o₁) (hrest : Explores adj o₁ us o') :
      Explores adj o (u :: us) o'

section Explores
variable {o o₁ o' us vs : List V} {u v : V}

/-- The search has one outcome. -/
theorem Explores.unique (h : Explores adj o us o₁) (h' : Explores adj o us o') : o₁ = o' := by
  induction h generalizing o' with
  | nil o =>
    cases h'
    rfl
  | seen hu _ ih =>
    cases h' with
    | seen _ hrest => exact ih hrest
    | visit hnot => exact absurd hu hnot
  | visit hu _ _ ihchildren ihrest =>
    cases h' with
    | seen hmem => exact absurd hmem hu
    | visit _ hchildren hrest =>
      obtain rfl := ihchildren hchildren
      exact ihrest hrest

theorem Explores.append (h : Explores adj o us o₁) (h' : Explores adj o₁ vs o') :
    Explores adj o (us ++ vs) o' := by
  induction h with
  | nil => exact h'
  | seen hu _ ih => exact .seen hu (ih h')
  | visit hu hchildren _ _ ih => exact .visit hu hchildren (ih h')

theorem Explores.subset (h : Explores adj o us o') : o ⊆ o' := by
  induction h with
  | nil => exact List.Subset.refl _
  | seen _ _ ih => exact ih
  | visit _ _ _ ihchildren ihrest =>
    exact List.Subset.trans (List.subset_append_left _ _) (List.Subset.trans ihchildren ihrest)

/-- Vertices that have been visited may be left out. -/
theorem Explores.filter (p : V → Bool) (h : Explores adj o (us ++ vs) o')
    (hp : ∀ u ∈ us, p u = false → u ∈ o) : Explores adj o (us.filter p ++ vs) o' := by
  induction us generalizing o with
  | nil => exact h
  | cons u us ih =>
    obtain ⟨hpu, hp⟩ := List.forall_mem_cons.mp hp
    cases h with
    | seen hu hrest =>
      have htail := ih hrest hp
      cases hkeep : p u with
      | true =>
        rw [List.filter_cons_of_pos hkeep]
        exact .seen hu htail
      | false => rwa [List.filter_cons_of_neg (by simp [hkeep])]
    | visit hu hchildren hrest =>
      have hkeep : p u = true := by
        by_contra hnot
        exact hu (hpu (by simpa using hnot))
      have hsub := List.Subset.trans (List.subset_append_left o [u]) hchildren.subset
      rw [List.filter_cons_of_pos hkeep]
      exact .visit hu hchildren (ih hrest fun x hx hpx => hsub (hp x hx hpx))

theorem Explores.nodup (h : Explores adj o us o') (ho : o.Nodup) : o'.Nodup := by
  induction h with
  | nil => exact ho
  | seen _ _ ih => exact ih ho
  | visit hu _ _ ihchildren ihrest =>
    refine ihrest (ihchildren ?_)
    exact List.nodup_append_comm.mp (List.nodup_cons.mpr ⟨hu, ho⟩)

/-- Every vertex that is asked for is visited. -/
theorem Explores.covers (h : Explores adj o us o') : us ⊆ o' := by
  induction h with
  | nil => exact List.nil_subset _
  | seen hu hrest ih => exact List.cons_subset.mpr ⟨hrest.subset hu, ih⟩
  | visit hu hchildren hrest _ ihrest =>
    refine List.cons_subset.mpr ⟨hrest.subset (hchildren.subset ?_), ihrest⟩
    exact List.mem_append_right _ List.mem_cons_self

/-- The neighbours of what is visited are visited. -/
theorem Explores.closed (h : Explores adj o us o') (hv : v ∈ o') : v ∈ o ∨ adj v ⊆ o' := by
  induction h with
  | nil => exact .inl hv
  | seen _ _ ih => exact ih hv
  | @visit o o₁ o' us u hu hchildren hrest ihchildren ihrest =>
    rcases ihrest hv with hv | hv
    · rcases ihchildren hv with hv | hv
      · rcases List.mem_append.mp hv with hv | hv
        · exact .inl hv
        · rw [List.mem_singleton.mp hv]
          exact .inr (List.Subset.trans hchildren.covers hrest.subset)
      · exact .inr (List.Subset.trans hv hrest.subset)
    · exact .inr hv

/-- Only what can be reached is visited. -/
theorem Explores.sound (h : Explores adj o us o') (hv : v ∈ o') :
    v ∈ o ∨ ∃ u ∈ us, Relation.ReflTransGen (fun a b => b ∈ adj a) u v := by
  induction h with
  | nil => exact .inl hv
  | seen _ _ ih =>
    exact (ih hv).imp_right fun ⟨w, hw, hpath⟩ => ⟨w, List.mem_cons_of_mem _ hw, hpath⟩
  | @visit o o₁ o' us u hu _ _ ihchildren ihrest =>
    rcases ihrest hv with hv | ⟨w, hw, hpath⟩
    · rcases ihchildren hv with hv | ⟨w, hw, hpath⟩
      · rcases List.mem_append.mp hv with hv | hv
        · exact .inl hv
        · exact .inr ⟨u, List.mem_cons_self, by rw [List.mem_singleton.mp hv]⟩
      · exact .inr ⟨u, List.mem_cons_self, .head hw hpath⟩
    · exact .inr ⟨w, List.mem_cons_of_mem _ hw, hpath⟩

theorem Explores.mem_iff (h : Explores adj [] [u] o') :
    v ∈ o' ↔ Relation.ReflTransGen (fun a b => b ∈ adj a) u v := by
  constructor
  · intro hv
    rcases h.sound hv with hv | ⟨w, hw, hpath⟩
    · exact absurd hv List.not_mem_nil
    · rwa [List.mem_singleton.mp hw] at hpath
  · intro hpath
    induction hpath with
    | refl => exact h.covers List.mem_cons_self
    | tail _ hstep ih => exact (h.closed ih).resolve_left List.not_mem_nil hstep

end Explores

section Recursion
variable [DecidableEq V]

/-- The recursive search from a vertex: it is passed over when it has been visited, and
otherwise visited before its neighbours are searched in their order. -/
def search (adj : V → List V) : ℕ → List V → V → List V
  | 0, o, _ => o
  | depth + 1, o, u => if u ∈ o then o else (adj u).foldl (search adj depth) (o ++ [u])

theorem unvisited_lt {S : Finset V} {o : List V} {u : V} (hS : u ∈ S) (hu : u ∉ o) :
    (S \ (o ++ [u]).toFinset).card < (S \ o.toFinset).card := by
  apply Finset.card_lt_card
  refine ⟨fun v hv => ?_, fun hsub => ?_⟩
  · simp only [Finset.mem_sdiff, List.mem_toFinset, List.mem_append, not_or] at hv ⊢
    exact ⟨hv.1, hv.2.1⟩
  · have hmem := hsub (Finset.mem_sdiff.mpr ⟨hS, by simpa using hu⟩)
    simp at hmem

theorem unvisited_mono {S : Finset V} {o o' : List V} (h : o ⊆ o') :
    (S \ o'.toFinset).card ≤ (S \ o.toFinset).card := by
  apply Finset.card_le_card
  intro v hv
  simp only [Finset.mem_sdiff, List.mem_toFinset] at hv ⊢
  exact ⟨hv.1, fun hmem => hv.2 (h hmem)⟩

/-- The depth suffices when it is at least the number of vertices not yet visited. -/
theorem search_explores {S : Finset V} (hS : ∀ u ∈ S, ∀ v ∈ adj u, v ∈ S) {depth : ℕ} {o : List V}
    {u : V} (hu : u ∈ S) (hdepth : (S \ o.toFinset).card ≤ depth) :
    Explores adj o [u] (search adj depth o u) := by
  induction depth generalizing o u with
  | zero =>
    have hempty : S \ o.toFinset = ∅ := Finset.card_eq_zero.mp (by omega)
    have hmem : u ∈ o := by simpa using Finset.sdiff_eq_empty_iff_subset.mp hempty hu
    exact .seen hmem (.nil o)
  | succ depth ih =>
    rw [search]
    split_ifs with hmem
    · exact .seen hmem (.nil o)
    · have hchildren : ∀ us o, (∀ v ∈ us, v ∈ S) → (S \ o.toFinset).card ≤ depth →
          Explores adj o us (us.foldl (search adj depth) o) := by
        intro us
        induction us with
        | nil => exact fun o _ _ => .nil o
        | cons v us ihus =>
          intro o hus ho
          obtain ⟨hv, hus⟩ := List.forall_mem_cons.mp hus
          have hfirst := ih hv ho
          have hrest := ihus _ hus ((unvisited_mono hfirst.subset).trans ho)
          exact hfirst.append hrest
      have hlt := unvisited_lt hu hmem
      exact .visit hmem (hchildren _ _ (hS u hu) (by omega)) (.nil _)

end Recursion
end HftExercises.DepthFirst
