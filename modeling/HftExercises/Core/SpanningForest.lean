import Mathlib.Combinatorics.SimpleGraph.Acyclic
import Mathlib.Data.Finset.Card

/-! # Growing a forest

A forest in a graph that touches known vertices only. An edge to a vertex that is not known keeps
it one, an edge between vertices that it joins already closes a cycle, and when it has every edge
the graph has no cycle.
-/
namespace HftExercises.SpanningForest
variable {V : Type*} {G F : SimpleGraph V} {known known' : V → Prop} {u v x y : V}

structure Forest (G F : SimpleGraph V) (known : V → Prop) : Prop where
  le : F ≤ G
  acyclic : F.IsAcyclic
  known : ∀ u v, F.Adj u v → known u

theorem forest_bot (G : SimpleGraph V) (known : V → Prop) : Forest G ⊥ known where
  le := bot_le
  acyclic := SimpleGraph.isAcyclic_bot
  known _ _ h := h.elim

theorem Forest.mono (h : Forest G F known) (hsub : ∀ v, known v → known' v) : Forest G F known' :=
  ⟨h.le, h.acyclic, fun u v hadj => hsub u (h.known u v hadj)⟩

theorem adj_sup_edge (hne : u ≠ v) :
    (F ⊔ SimpleGraph.edge u v).Adj x y ↔ F.Adj x y ∨ x = u ∧ y = v ∨ x = v ∧ y = u := by
  rw [SimpleGraph.sup_adj, SimpleGraph.edge_adj]
  refine or_congr_right ⟨And.left, fun h => ⟨h, ?_⟩⟩
  rcases h with ⟨rfl, rfl⟩ | ⟨rfl, rfl⟩
  · exact hne
  · exact hne.symm

theorem Forest.sup_edge_le (h : Forest G F known) (hadj : G.Adj u v) :
    F ⊔ SimpleGraph.edge u v ≤ G :=
  sup_le h.le (G.edge_le_iff.mpr (.inr hadj))

/-- A vertex that is not known stands alone. -/
theorem Forest.not_reachable (h : Forest G F known) (hne : u ≠ v) (hv : ¬known v) :
    ¬F.Reachable u v := by
  intro hreach
  rw [SimpleGraph.reachable_iff_reflTransGen] at hreach
  rcases hreach.cases_tail with heq | ⟨w, -, hadj⟩
  · exact hne heq.symm
  · exact hv (h.known v w hadj.symm)

/-- An edge to a new vertex. -/
theorem Forest.grow (h : Forest G F known) (hadj : G.Adj u v) (hu : known u) (hv : ¬known v) :
    Forest G (F ⊔ SimpleGraph.edge u v) fun w => known w ∨ w = v where
  le := h.sup_edge_le hadj
  acyclic := h.acyclic.sup_edge_of_not_reachable (h.not_reachable hadj.ne hv)
  known x y hxy := by
    rcases (adj_sup_edge hadj.ne).mp hxy with hxy | ⟨rfl, -⟩ | ⟨rfl, -⟩
    · exact .inl (h.known x y hxy)
    · exact .inl hu
    · exact .inr rfl

/-- An edge between vertices that the forest joins already. -/
theorem Forest.not_isAcyclic (h : Forest G F known) (hadj : G.Adj u v) (hnot : ¬F.Adj u v)
    (hreach : F.Reachable u v) : ¬G.IsAcyclic := by
  intro hacyclic
  have hsup := SimpleGraph.isAcyclic_sup_fromEdgeSet_iff.mp (hacyclic.anti (h.sup_edge_le hadj))
  exact (hsup.2 hreach).elim hadj.ne hnot

theorem Forest.isAcyclic (h : Forest G F known) (hall : ∀ u v, G.Adj u v → F.Adj u v) :
    G.IsAcyclic :=
  h.acyclic.anti hall

end HftExercises.SpanningForest

/-! ## Counting components

The components that meet a finite set of vertices, and what an edge does to their number:
an edge between two of them makes one less, any other edge leaves it as it is.
-/
namespace HftExercises.ForestCount
open scoped Classical

section Images
variable {V A B : Type*} {f : V → A} {g : V → B} {S : Finset V}

/-- Maps that identify the same elements have images of one size. -/
theorem card_image_congr (h : ∀ x ∈ S, ∀ y ∈ S, g x = g y ↔ f x = f y) :
    (S.image g).card = (S.image f).card := by
  induction S using Finset.induction with
  | empty => rfl
  | insert a S ha ih =>
    have hmem : g a ∈ S.image g ↔ f a ∈ S.image f := by
      simp only [Finset.mem_image]
      refine exists_congr fun x => and_congr_right fun hx => ?_
      exact h x (Finset.mem_insert_of_mem hx) a (Finset.mem_insert_self a S)
    have hcard := ih fun x hx y hy =>
      h x (Finset.mem_insert_of_mem hx) y (Finset.mem_insert_of_mem hy)
    rw [Finset.image_insert, Finset.image_insert]
    by_cases hold : f a ∈ S.image f
    · rw [Finset.insert_eq_of_mem hold, Finset.insert_eq_of_mem (hmem.mpr hold), hcard]
    · rw [Finset.card_insert_of_notMem hold, Finset.card_insert_of_notMem (hmem.not.mpr hold), hcard]

/-- A map that identifies two more values than another. -/
theorem card_image_merge {u v : V} (hu : u ∈ S) (hv : v ∈ S) (hne : f u ≠ f v)
    (h : ∀ x ∈ S, ∀ y ∈ S,
      g x = g y ↔ f x = f y ∨ f x = f u ∧ f v = f y ∨ f x = f v ∧ f u = f y) :
    (S.image g).card + 1 = (S.image f).card := by
  obtain ⟨T, hT⟩ : ∃ T, T = S.filter fun x => f x ≠ f v := ⟨_, rfl⟩
  have hrest : T.image f = (S.image f).erase (f v) := by
    ext a
    simp only [hT, Finset.mem_image, Finset.mem_filter, Finset.mem_erase]
    constructor
    · rintro ⟨x, ⟨hx, hxv⟩, rfl⟩
      exact ⟨hxv, x, hx, rfl⟩
    · rintro ⟨hav, x, hx, rfl⟩
      exact ⟨x, ⟨hx, hav⟩, rfl⟩
  have hsame : T.image g = S.image g := by
    ext b
    simp only [hT, Finset.mem_image, Finset.mem_filter]
    constructor
    · rintro ⟨x, ⟨hx, -⟩, rfl⟩
      exact ⟨x, hx, rfl⟩
    · rintro ⟨x, hx, rfl⟩
      by_cases hxv : f x = f v
      · exact ⟨u, ⟨hu, hne⟩, (h u hu x hx).mpr (.inr (.inl ⟨rfl, hxv.symm⟩))⟩
      · exact ⟨x, ⟨hx, hxv⟩, rfl⟩
  have hcard : (T.image g).card = (T.image f).card := by
    refine card_image_congr fun x hx y hy => ?_
    obtain ⟨hx, hxv⟩ := Finset.mem_filter.mp (hT ▸ hx)
    obtain ⟨hy, hyv⟩ := Finset.mem_filter.mp (hT ▸ hy)
    rw [h x hx y hy]
    exact or_iff_left fun hother => hother.elim (fun h => hyv h.2.symm) fun h => hxv h.1
  have hmem : f v ∈ S.image f := Finset.mem_image_of_mem f hv
  have herase := Finset.card_erase_add_one hmem
  rw [← hsame, hcard, hrest, herase]

end Images

variable {V : Type*} {G : SimpleGraph V} {S : Finset V} {u v x y : V}

/-- The number of components with a vertex of the set. -/
noncomputable def components (G : SimpleGraph V) (S : Finset V) : ℕ :=
  (S.image G.connectedComponentMk).card

theorem components_bot (S : Finset V) : components ⊥ S = S.card :=
  Finset.card_image_of_injective S fun _ _ h =>
    SimpleGraph.reachable_bot.mp (SimpleGraph.ConnectedComponent.eq.mp h)

theorem reachable_sup_edge (hne : u ≠ v) : (G ⊔ SimpleGraph.edge u v).Reachable x y ↔
    G.Reachable x y ∨ G.Reachable x u ∧ G.Reachable v y ∨ G.Reachable x v ∧ G.Reachable u y := by
  have hle : G ≤ G ⊔ SimpleGraph.edge u v := le_sup_left
  have hedge : (G ⊔ SimpleGraph.edge u v).Adj u v := by
    rw [SimpleGraph.sup_adj, SimpleGraph.edge_adj]
    exact .inr ⟨.inl ⟨rfl, rfl⟩, hne⟩
  constructor
  · intro h
    rw [SimpleGraph.reachable_iff_reflTransGen] at h
    induction h with
    | refl => exact .inl (SimpleGraph.Reachable.refl x)
    | tail _ hadj ih =>
      rw [SimpleGraph.sup_adj, SimpleGraph.edge_adj] at hadj
      rcases hadj with hold | ⟨⟨rfl, rfl⟩ | ⟨rfl, rfl⟩, -⟩
      · have hstep := hold.reachable
        exact ih.imp (fun h => h.trans hstep)
          (Or.imp (fun h => ⟨h.1, h.2.trans hstep⟩) fun h => ⟨h.1, h.2.trans hstep⟩)
      · rcases ih with h | ⟨h, -⟩ | ⟨h, -⟩
        · exact .inr (.inl ⟨h, SimpleGraph.Reachable.refl _⟩)
        · exact .inr (.inl ⟨h, SimpleGraph.Reachable.refl _⟩)
        · exact .inl h
      · rcases ih with h | ⟨h, -⟩ | ⟨h, -⟩
        · exact .inr (.inr ⟨h, SimpleGraph.Reachable.refl _⟩)
        · exact .inl h
        · exact .inr (.inr ⟨h, SimpleGraph.Reachable.refl _⟩)
  · rintro (h | ⟨hxu, hvy⟩ | ⟨hxv, huy⟩)
    · exact h.mono hle
    · exact ((hxu.mono hle).trans hedge.reachable).trans (hvy.mono hle)
    · exact ((hxv.mono hle).trans hedge.symm.reachable).trans (huy.mono hle)

theorem components_merge (hu : u ∈ S) (hv : v ∈ S) (hnot : ¬G.Reachable u v) :
    components (G ⊔ SimpleGraph.edge u v) S + 1 = components G S := by
  have hne : u ≠ v := fun heq => hnot (heq ▸ SimpleGraph.Reachable.refl u)
  refine card_image_merge hu hv (fun heq => hnot (SimpleGraph.ConnectedComponent.eq.mp heq)) ?_
  intro x _ y _
  simp only [SimpleGraph.ConnectedComponent.eq]
  exact reachable_sup_edge hne

theorem components_same (hne : u ≠ v) (huv : G.Reachable u v) :
    components (G ⊔ SimpleGraph.edge u v) S = components G S := by
  refine card_image_congr fun x _ y _ => ?_
  rw [SimpleGraph.ConnectedComponent.eq, SimpleGraph.ConnectedComponent.eq, reachable_sup_edge hne]
  refine or_iff_left_of_imp ?_
  rintro (⟨hxu, hvy⟩ | ⟨hxv, huy⟩)
  · exact (hxu.trans huv).trans hvy
  · exact (hxv.trans huv.symm).trans huy

/-- Lists that part the set into the components. -/
theorem length_of_partition {parts : List (List V)} (hnodup : parts.flatten.Nodup)
    (hcover : ∀ v, v ∈ parts.flatten ↔ v ∈ S)
    (hclass : ∀ c ∈ parts, ∃ m ∈ c, ∀ v, v ∈ c ↔ G.Reachable m v) :
    parts.length = components G S := by
  rcases S.eq_empty_or_nonempty with rfl | ⟨w, -⟩
  · have hnone : parts = [] := by
      refine List.eq_nil_iff_forall_not_mem.mpr fun c hc => ?_
      obtain ⟨m, hm, -⟩ := hclass c hc
      exact absurd ((hcover m).mp (List.mem_flatten.mpr ⟨c, hc, hm⟩)) (Finset.notMem_empty m)
    rw [hnone]
    rfl
  · have : Nonempty V := ⟨w⟩
    choose! rep hrep using hclass
    have hdistinct : (parts.map fun c => G.connectedComponentMk (rep c)).Nodup := by
      refine List.pairwise_map.mpr ((List.nodup_flatten.mp hnodup).2.imp_of_mem ?_)
      intro c d hc hd hdisjoint heq
      exact hdisjoint (((hrep c hc).2 _).mpr (SimpleGraph.ConnectedComponent.eq.mp heq)) (hrep d hd).1
    have himage : (parts.map fun c => G.connectedComponentMk (rep c)).toFinset =
        S.image G.connectedComponentMk := by
      ext C
      simp only [List.mem_toFinset, List.mem_map, Finset.mem_image]
      constructor
      · rintro ⟨c, hc, rfl⟩
        exact ⟨rep c, (hcover _).mp (List.mem_flatten.mpr ⟨c, hc, (hrep c hc).1⟩), rfl⟩
      · rintro ⟨v, hv, rfl⟩
        obtain ⟨c, hc, hvc⟩ := List.mem_flatten.mp ((hcover v).mpr hv)
        exact ⟨c, hc, SimpleGraph.ConnectedComponent.eq.mpr (((hrep c hc).2 v).mp hvc)⟩
    rw [components, ← himage, List.toFinset_card_of_nodup hdistinct, List.length_map]

end HftExercises.ForestCount
