import HftExercises.Algorithms.ConnectedComponents
import HftExercises.Algorithms.CycleSearch
import HftExercises.Core.SpanningForest

/-! # Edges, components and cycles

The counters of a graph and its two searches agree: a graph has no cycle exactly when its
edges and its components add up to its vertices.
-/
namespace HftExercises.Search
open ForestCount

namespace Graph
variable {vertices : ℕ} {edges edges' : List (ℤ × ℤ)} {u v : ℤ}

def allVertices (vertices : ℕ) : Finset ℤ := (Finset.range vertices).image fun n : ℕ => (n : ℤ)

theorem mem_allVertices : v ∈ allVertices vertices ↔ 0 ≤ v ∧ v < vertices := by
  rw [allVertices, Finset.mem_image]
  constructor
  · rintro ⟨n, hn, rfl⟩
    exact ⟨Int.natCast_nonneg n, Int.ofNat_lt.mpr (Finset.mem_range.mp hn)⟩
  · rintro ⟨h0, hlt⟩
    exact ⟨v.toNat, Finset.mem_range.mpr (by omega), Int.toNat_of_nonneg h0⟩

theorem card_allVertices (vertices : ℕ) : (allVertices vertices).card = vertices := by
  rw [allVertices, Finset.card_image_of_injective _ Nat.cast_injective, Finset.card_range]

/-- The components of the graph of an edge list. -/
noncomputable def componentCount (vertices : ℕ) (edges : List (ℤ × ℤ)) : ℕ :=
  components (simple vertices edges) (allVertices vertices)

/-- The edges and the components are at least as many as the vertices, and exactly as many
when there is no cycle. -/
structure Counted (vertices : ℕ) (edges : List (ℤ × ℤ)) : Prop where
  le : vertices ≤ (edgeSet vertices edges).card + componentCount vertices edges
  eq_iff : (edgeSet vertices edges).card + componentCount vertices edges = vertices ↔
    ¬Cyclic vertices edges

theorem simple_concat (hu : 0 ≤ u ∧ u < vertices) (hv : 0 ≤ v ∧ v < vertices) (hne : u ≠ v) :
    simple vertices (edges ++ [(u, v)]) = simple vertices edges ⊔ SimpleGraph.edge u v := by
  ext x y
  rw [SpanningForest.adj_sup_edge hne]
  change x ≠ y ∧ Joins vertices (edges ++ [(u, v)]) x y ↔ (x ≠ y ∧ Joins vertices edges x y) ∨ _
  rw [joins_concat hu hv, and_or_left]
  refine or_congr_right (and_iff_right_of_imp ?_)
  rintro (⟨rfl, rfl⟩ | ⟨rfl, rfl⟩)
  · exact hne
  · exact hne.symm

/-- An edge that changes nothing. -/
theorem Counted.congr (h : Counted vertices edges)
    (hjoins : ∀ x y, Joins vertices edges' x y ↔ Joins vertices edges x y) :
    Counted vertices edges' := by
  have hsimple : simple vertices edges' = simple vertices edges := by
    ext x y
    exact and_congr_right fun _ => hjoins x y
  have hedges : edgeSet vertices edges' = edgeSet vertices edges := by
    ext e
    induction e with
    | _ x y => rw [mem_edgeSet, mem_edgeSet, hjoins]
  have hcyclic : Cyclic vertices edges' ↔ Cyclic vertices edges := by
    rw [cyclic_iff, cyclic_iff, hsimple]
    exact or_congr_left (exists_congr fun u => hjoins u u)
  refine ⟨?_, ?_⟩
  · rw [hedges, componentCount, hsimple]
    exact h.le
  · rw [hedges, componentCount, hsimple, hcyclic]
    exact h.eq_iff

theorem counted_nil (vertices : ℕ) : Counted vertices [] := by
  have hnone : ∀ x y, ¬Joins vertices [] x y :=
    fun x y h => h.2.2.elim List.not_mem_nil List.not_mem_nil
  have hbot : simple vertices [] = ⊥ := by
    ext x y
    exact iff_of_false (fun h => hnone x y h.2) not_false
  have hcount : (edgeSet vertices []).card + componentCount vertices [] = vertices := by
    rw [componentCount, hbot, components_bot, card_allVertices]
    simp [edgeSet]
  refine ⟨hcount.ge, iff_of_true hcount ?_⟩
  rw [cyclic_iff, hbot, not_or, not_not]
  exact ⟨not_exists.mpr fun x => hnone x x, SimpleGraph.isAcyclic_bot⟩

section Valid
variable (hu : 0 ≤ u ∧ u < vertices) (hv : 0 ≤ v ∧ v < vertices)
include hu hv

theorem card_edgeSet_concat (hnew : ¬Joins vertices edges u v) :
    (edgeSet vertices (edges ++ [(u, v)])).card = (edgeSet vertices edges).card + 1 := by
  rw [edgeSet_concat hu hv, Finset.card_insert_of_notMem (mem_edgeSet.not.mpr hnew)]

theorem Counted.loop (h : Counted vertices edges) (hnew : ¬Joins vertices edges u v) (heq : u = v) :
    Counted vertices (edges ++ [(u, v)]) := by
  have hsimple : simple vertices (edges ++ [(u, v)]) = simple vertices edges := by
    ext x y
    refine and_congr_right fun hxy => ?_
    rw [joins_concat hu hv]
    refine or_iff_left ?_
    rintro (⟨rfl, rfl⟩ | ⟨rfl, rfl⟩)
    · exact hxy heq
    · exact hxy heq.symm
  have hcyclic : Cyclic vertices (edges ++ [(u, v)]) :=
    .inl ⟨u, (joins_concat hu hv).mpr (.inr (.inl ⟨rfl, heq⟩))⟩
  have hle := h.le
  rw [componentCount] at hle
  refine ⟨?_, iff_of_false ?_ (not_not.mpr hcyclic)⟩
  · rw [card_edgeSet_concat hu hv hnew, componentCount, hsimple]
    omega
  · rw [card_edgeSet_concat hu hv hnew, componentCount, hsimple]
    omega

/-- An edge inside a component closes a cycle. -/
theorem Counted.inside (h : Counted vertices edges) (hnew : ¬Joins vertices edges u v) (hne : u ≠ v)
    (hreach : (simple vertices edges).Reachable u v) : Counted vertices (edges ++ [(u, v)]) := by
  have hcyclic : Cyclic vertices (edges ++ [(u, v)]) := by
    rw [cyclic_iff, simple_concat hu hv hne, SimpleGraph.isAcyclic_sup_fromEdgeSet_iff]
    exact .inr fun hacyclic => (hacyclic.2 hreach).elim hne fun hadj => hnew hadj.2
  have hle := h.le
  rw [componentCount] at hle
  refine ⟨?_, iff_of_false ?_ (not_not.mpr hcyclic)⟩
  · rw [card_edgeSet_concat hu hv hnew, componentCount, simple_concat hu hv hne,
      components_same hne hreach]
    omega
  · rw [card_edgeSet_concat hu hv hnew, componentCount, simple_concat hu hv hne,
      components_same hne hreach]
    omega

/-- An edge between two components joins them and closes no cycle. -/
theorem Counted.between (h : Counted vertices edges) (hne : u ≠ v)
    (hnot : ¬(simple vertices edges).Reachable u v) : Counted vertices (edges ++ [(u, v)]) := by
  have hnew : ¬Joins vertices edges u v := by
    intro hjoins
    have hadj : (simple vertices edges).Adj u v := ⟨hne, hjoins⟩
    exact hnot hadj.reachable
  have hloops : ∀ w, Joins vertices (edges ++ [(u, v)]) w w ↔ Joins vertices edges w w := by
    intro w
    rw [joins_concat hu hv]
    refine or_iff_left ?_
    rintro (⟨rfl, rfl⟩ | ⟨rfl, rfl⟩)
    · exact hne rfl
    · exact hne rfl
  have hcyclic : Cyclic vertices (edges ++ [(u, v)]) ↔ Cyclic vertices edges := by
    rw [cyclic_iff, cyclic_iff, simple_concat hu hv hne, SimpleGraph.isAcyclic_sup_fromEdgeSet_iff,
      and_iff_left fun hreach => absurd hreach hnot]
    exact or_congr_left (exists_congr hloops)
  have hmerge := components_merge (mem_allVertices.mpr hu) (mem_allVertices.mpr hv) hnot
  have hsum : (edgeSet vertices (edges ++ [(u, v)])).card +
      componentCount vertices (edges ++ [(u, v)]) =
        (edgeSet vertices edges).card + componentCount vertices edges := by
    rw [card_edgeSet_concat hu hv hnew, componentCount, componentCount, simple_concat hu hv hne,
      ← hmerge]
    omega
  exact ⟨hsum ▸ h.le, by rw [hsum, hcyclic]; exact h.eq_iff⟩

end Valid

theorem Counted.concat (h : Counted vertices edges) (e : ℤ × ℤ) :
    Counted vertices (edges ++ [e]) := by
  obtain ⟨u, v⟩ := e
  by_cases hvalid : (0 ≤ u ∧ u < vertices) ∧ 0 ≤ v ∧ v < vertices
  · obtain ⟨hu, hv⟩ := hvalid
    by_cases hold : Joins vertices edges u v
    · refine h.congr fun x y => ?_
      rw [joins_concat hu hv]
      refine or_iff_left_of_imp ?_
      rintro (⟨rfl, rfl⟩ | ⟨rfl, rfl⟩)
      · exact hold
      · exact hold.symm
    · by_cases hne : u = v
      · exact h.loop hu hv hold hne
      · by_cases hreach : (simple vertices edges).Reachable u v
        · exact h.inside hu hv hold hne hreach
        · exact h.between hu hv hne hreach
  · exact h.congr fun x y => joins_concat_of_not_valid hvalid

theorem counted (vertices : ℕ) (edges : List (ℤ × ℤ)) : Counted vertices edges := by
  induction edges using List.reverseRecOn with
  | nil => exact counted_nil vertices
  | append_singleton edges e ih => exact ih.concat e

end Graph

/-- On every graph that `add_edge` has built, with vertices that are `int`s, the edges and the
components add up to at least the vertices, and to exactly the vertices when and only when
`has_cycle` finds none. -/
theorem hasCycle_iff_counts {vertices : ℕ} (hfew : vertices ≤ 2 ^ 31)
    (edges : List (Int32 × Int32)) :
    ∃ g b comps, Graph.ofEdges vertices edges = some g ∧ g.adj.length = vertices ∧
      (∀ fuel, vertices ≤ fuel →
        g.hasCycle fuel = some b ∧ g.connectedComponents fuel = some comps) ∧
      vertices ≤ g.edgeCount + comps.length ∧
      (b = false ↔ g.edgeCount + comps.length = vertices) := by
  obtain ⟨g, hbuild, hg⟩ := Graph.build_represents vertices (Graph.ints edges)
  obtain ⟨b, hb, hcyclic⟩ := Graph.decidesCycles_of_le hg (fun _ _ h => h.lt_int) hfew
  obtain ⟨comps, hcomps, hpartition⟩ := hg.isPartition hfew
  have hcount := Graph.counted vertices (Graph.ints edges)
  have hcover : ∀ v, v ∈ comps.flatten ↔ v ∈ Graph.allVertices vertices := by
    intro v
    rw [hpartition.cover, Graph.IsVertex, hg.length, Graph.mem_allVertices]
  have hlength : comps.length = Graph.componentCount vertices (Graph.ints edges) :=
    length_of_partition hpartition.nodup hcover hpartition.classes
  rw [hg.length] at hb hcomps
  refine ⟨g, b, comps, hbuild, hg.length, fun fuel hfuel => ⟨hb fuel hfuel, hcomps fuel hfuel⟩, ?_, ?_⟩
  · rw [Graph.build_edgeCount hbuild, hlength]
    exact hcount.le
  · rw [Graph.build_edgeCount hbuild, hlength, hcount.eq_iff, ← hcyclic, Bool.not_eq_true]

/-- A triangle beside a single edge: 4 edges and 2 components on 5 vertices. -/
theorem hasCycle_iff_counts_triangle :
    ∃ g b comps, Graph.ofEdges 5 [(0, 1), (1, 2), (2, 0), (3, 4)] = some g ∧
      g.hasCycle 5 = some b ∧ g.connectedComponents 5 = some comps ∧
      (b = false ↔ g.edgeCount + comps.length = 5) := by
  obtain ⟨g, b, comps, hg, -, hruns, -, hiff⟩ := @hasCycle_iff_counts 5 (by decide)
    [(0, 1), (1, 2), (2, 0), (3, 4)]
  exact ⟨g, b, comps, hg, (hruns 5 (Nat.le_refl 5)).1, (hruns 5 (Nat.le_refl 5)).2, hiff⟩

end HftExercises.Search
