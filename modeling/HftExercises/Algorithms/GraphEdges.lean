import HftExercises.Algorithms.GraphSearch
import Mathlib.Combinatorics.SimpleGraph.Basic
import Mathlib.Data.Sym.Sym2

/-! # The edges of a graph

What a graph that was built by calls of `add_edge` stands for: a simple graph on the vertices,
its loops apart, and the set of its undirected edges, which the edge count counts.
-/
namespace HftExercises.Search.Graph

def ints (edges : List (Int32 × Int32)) : List (ℤ × ℤ) := edges.map fun e => (e.1.toInt, e.2.toInt)

/-- A graph after calls of `add_edge`, some of which may have thrown. -/
def ofEdges (vertices : ℕ) (edges : List (Int32 × Int32)) : Option Graph :=
  build vertices (ints edges)

variable {g : Graph} {u v : ℤ} {vertices : ℕ} {edges : List (ℤ × ℤ)}

/-- A vertex with an edge is an `int`. -/
theorem Joins.lt_int {edges : List (Int32 × Int32)} (h : Joins vertices (ints edges) u v) :
    v < 2 ^ 31 := by
  rcases h.2.2 with he | he
  · obtain ⟨e, -, heq⟩ := List.mem_map.mp he
    cases heq
    exact e.2.toInt_lt
  · obtain ⟨e, -, heq⟩ := List.mem_map.mp he
    cases heq
    exact e.1.toInt_lt

/-- The graph without its loops. -/
def simple (vertices : ℕ) (edges : List (ℤ × ℤ)) : SimpleGraph ℤ where
  Adj u v := u ≠ v ∧ Joins vertices edges u v
  symm := ⟨fun _ _ h => ⟨h.1.symm, h.2.symm⟩⟩
  loopless := ⟨fun _ h => h.1 rfl⟩

/-- The distinct undirected edges of the calls that do not throw. -/
def edgeSet (vertices : ℕ) (edges : List (ℤ × ℤ)) : Finset (Sym2 ℤ) :=
  ((edges.filter fun e : ℤ × ℤ => (0 ≤ e.1 ∧ e.1 < vertices) ∧ 0 ≤ e.2 ∧ e.2 < vertices).map
    fun e => s(e.1, e.2)).toFinset

theorem mem_edgeSet : s(u, v) ∈ edgeSet vertices edges ↔ Joins vertices edges u v := by
  simp only [edgeSet, List.mem_toFinset, List.mem_map, List.mem_filter, decide_eq_true_eq]
  constructor
  · rintro ⟨⟨a, b⟩, ⟨he, ha, hb⟩, heq⟩
    rcases Sym2.eq_iff.mp heq with ⟨rfl, rfl⟩ | ⟨rfl, rfl⟩
    · exact ⟨ha, hb, .inl he⟩
    · exact ⟨hb, ha, .inr he⟩
  · rintro ⟨hu, hv, he | he⟩
    · exact ⟨(u, v), ⟨he, hu, hv⟩, rfl⟩
    · exact ⟨(v, u), ⟨he, hv, hu⟩, Sym2.eq_swap⟩

theorem edgeSet_concat (hu : 0 ≤ u ∧ u < vertices) (hv : 0 ≤ v ∧ v < vertices) :
    edgeSet vertices (edges ++ [(u, v)]) = insert s(u, v) (edgeSet vertices edges) := by
  ext e
  induction e with
  | _ x y =>
    rw [Finset.mem_insert, mem_edgeSet, mem_edgeSet, joins_concat hu hv, Sym2.eq_iff, or_comm]

theorem edgeSet_concat_of_not_valid (h : ¬((0 ≤ u ∧ u < vertices) ∧ 0 ≤ v ∧ v < vertices)) :
    edgeSet vertices (edges ++ [(u, v)]) = edgeSet vertices edges := by
  ext e
  induction e with
  | _ x y => rw [mem_edgeSet, mem_edgeSet, joins_concat_of_not_valid h]

theorem build_edgeCount (hg : build vertices edges = some g) :
    g.edgeCount = (edgeSet vertices edges).card := by
  induction edges using List.reverseRecOn generalizing g with
  | nil =>
    cases hg
    rfl
  | append_singleton edges e ih =>
    obtain ⟨g₀, hg₀, h⟩ := build_represents vertices edges
    obtain ⟨u, v⟩ := e
    have hcount := ih hg₀
    rw [build_concat, hg₀, Option.bind_some] at hg
    by_cases hvalid : g₀.IsVertex u ∧ g₀.IsVertex v
    · obtain ⟨g', hg', -, -, hedges⟩ := withEdge_of_valid hvalid.1 hvalid.2 h.symm
      obtain rfl := Option.some.inj (hg'.symm.trans hg)
      rw [IsVertex, IsVertex, h.length] at hvalid
      rw [hedges, hcount, edgeSet_concat hvalid.1 hvalid.2]
      simp only [h.mem, ← mem_edgeSet]
      split_ifs with hmem
      · rw [Finset.insert_eq_of_mem hmem]
      · rw [Finset.card_insert_of_notMem hmem]
    · rw [withEdge_of_not_valid hvalid] at hg
      obtain rfl := Option.some.inj hg
      rw [IsVertex, IsVertex, h.length] at hvalid
      rw [edgeSet_concat_of_not_valid hvalid, hcount]

end HftExercises.Search.Graph
