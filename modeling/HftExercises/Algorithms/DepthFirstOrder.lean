import HftExercises.Algorithms.GraphSearch
import Mathlib.Algebra.Order.Ring.Int
import Mathlib.Algebra.Ring.CharZero

/-! # The order of the search with a stack

The vertices are marked when they are popped, so one may be on the stack many times. What
is on the stack, searched recursively from the marks there are, ends in the order that the
recursive search from the start ends in.
-/
namespace HftExercises.Search
open DepthFirst

namespace Graph
variable {g : Graph} {u v : ℤ} {s : Walk} {final : List ℤ} {vertices : ℕ} {edges : List (ℤ × ℤ)}

def vertexSet (g : Graph) : Finset ℤ := (Finset.range g.adj.length).map Nat.castEmbedding

theorem mem_vertexSet : v ∈ g.vertexSet ↔ g.IsVertex v := by
  rw [vertexSet, Finset.mem_map]
  constructor
  · rintro ⟨n, hn, rfl⟩
    have hlt := Finset.mem_range.mp hn
    exact ⟨Int.natCast_nonneg n, Int.ofNat_lt.mpr hlt⟩
  · rintro ⟨h0, hlt⟩
    exact ⟨v.toNat, Finset.mem_range.mpr (by omega), Int.toNat_of_nonneg h0⟩

theorem card_vertexSet (g : Graph) : g.vertexSet.card = g.adj.length := by
  rw [vertexSet, Finset.card_map, Finset.card_range]

/-- A bound on the number of pops: the start, and every vertex once for each neighbour. -/
def pops (g : Graph) : ℕ := 1 + ∑ u ∈ g.vertexSet, (g.neighbours u).length

/-- The marks as the order tells them. -/
def marked (o : List ℤ) (v : ℤ) : Bool := decide (v ∈ o)

/-- The search between two rounds of the loop. -/
structure Searching (g : Graph) (final : List ℤ) (s : Walk) : Prop where
  length : s.seen.length = g.adj.length
  seen : ∀ v, g.IsVertex v → at? s.seen v = some (marked s.order v)
  stack : ∀ v ∈ s.stack, g.IsVertex v
  explores : Explores g.neighbours s.order s.stack final

def left (g : Graph) (s : Walk) : ℕ := Worklist.work g.vertexSet g.neighbours (marked s.order, s.stack)

/-- Pushing in reverse leaves the unseen neighbours on top in their order. -/
theorem pushUnseen_reverse {seen : List Bool} {o vs : List ℤ} (rest : List ℤ)
    (hseen : ∀ v ∈ vs, at? seen v = some (marked o v)) :
    vs.reverse.foldlM (pushUnseen seen) rest = some (vs.filter (fun v => !marked o v) ++ rest) := by
  induction vs with
  | nil => rfl
  | cons v vs ih =>
    obtain ⟨hv, hvs⟩ := List.forall_mem_cons.mp hseen
    rw [List.reverse_cons, List.foldlM_append, ih hvs]
    cases hm : marked o v with
    | true => simp [pushUnseen, hv, hm]
    | false => simp [pushUnseen, hv, hm]

theorem at?_seen_set (h : g.Searching final s) (hu : g.IsVertex u) (hv : g.IsVertex v) :
    at? (s.seen.set u.toNat true) v = some (marked (s.order ++ [u]) v) := by
  rw [IsVertex, ← h.length] at hu
  rw [at?_set true hu]
  by_cases hvu : v = u
  · rw [if_pos hvu, hvu]
    simp [marked]
  · rw [if_neg hvu, h.seen v hv]
    simp [marked, hvu]

/-- A vertex that is marked is dropped from the stack. -/
theorem Searching.skip {rest : List ℤ} (h : g.Searching final s) (hs : s.stack = u :: rest)
    (hu : u ∈ s.order) :
    g.visitTop s = some { s with stack := rest } ∧ g.Searching final { s with stack := rest } ∧
      g.left { s with stack := rest } < g.left s := by
  have hstack := h.stack
  have hexplores := h.explores
  rw [hs] at hstack hexplores
  obtain ⟨hvertex, hrest⟩ := List.forall_mem_cons.mp hstack
  have hmark : marked s.order u = true := decide_eq_true hu
  refine ⟨?_, ⟨h.length, h.seen, hrest, ?_⟩, ?_⟩
  · rw [visitTop, hs]
    simp [h.seen u hvertex, hmark]
  · cases hexplores with
    | seen _ hexplores => exact hexplores
    | visit hnot => exact absurd hu hnot
  · have hless := @Worklist.work_visit _ _ g.vertexSet g.neighbours
      (marked s.order, s.stack) (by simp [hs])
    rw [Worklist.visit, hs] at hless
    simpa [left, hs, mem_vertexSet.mpr hvertex, hmark] using hless

/-- A vertex that is not marked is visited, and its unseen neighbours come on top. -/
theorem Searching.visit {rest : List ℤ} (h : g.Searching final s) (hg : g.Represents vertices edges)
    (hs : s.stack = u :: rest) (hu : u ∉ s.order) :
    ∃ s', g.visitTop s = some s' ∧ g.Searching final s' ∧ g.left s' < g.left s := by
  have hstack := h.stack
  have hexplores := h.explores
  rw [hs] at hstack hexplores
  obtain ⟨hvertex, hrest⟩ := List.forall_mem_cons.mp hstack
  have hmark : marked s.order u = false := decide_eq_false hu
  have hneighbours : ∀ v ∈ g.neighbours u, g.IsVertex v := by
    intro v hv
    rw [IsVertex, hg.length]
    exact ((hg.mem u v).mp hv).2.1
  obtain ⟨set, hset⟩ := at?_isSome hvertex
  have hkeys : set.keys = g.neighbours u := (neighbours_of_at? hset).symm
  let fresh := (g.neighbours u).filter fun v => !marked (s.order ++ [u]) v
  have hpush : (g.neighbours u).reverse.foldlM (pushUnseen (s.seen.set u.toNat true)) rest =
      some (fresh ++ rest) :=
    pushUnseen_reverse rest fun v hv => at?_seen_set h hvertex (hneighbours v hv)
  refine ⟨⟨s.seen.set u.toNat true, s.order ++ [u], fresh ++ rest⟩, ?_, ⟨?_, ?_, ?_, ?_⟩, ?_⟩
  · rw [← hkeys] at hpush
    rw [visitTop, hs]
    simp only [h.seen u hvertex, hmark, hset, hpush, Option.bind_eq_bind, Option.bind_some,
      Bool.false_eq_true, if_false, Option.pure_def]
  · rw [List.length_set, h.length]
  · exact fun v hv => at?_seen_set h hvertex hv
  · intro v hv
    rcases List.mem_append.mp hv with hv | hv
    · exact hneighbours v (List.mem_of_mem_filter hv)
    · exact hrest v hv
  · cases hexplores with
    | seen hmem => exact absurd hmem hu
    | visit _ hchildren hexplores =>
      refine (hchildren.append hexplores).filter _ fun v _ hv => ?_
      have hmarked : marked (s.order ++ [u]) v = true := by simpa using hv
      exact of_decide_eq_true hmarked
  · -- fewer entries than if all neighbours were pushed
    have hless := @Worklist.work_visit _ _ g.vertexSet g.neighbours
      (marked s.order, s.stack) (by simp [hs])
    have hmarks : Function.update (marked s.order) u true = marked (s.order ++ [u]) := by
      funext v
      by_cases hvu : v = u
      · simp [hvu, marked]
      · simp [hvu, marked]
    have hfilter : fresh.length ≤ (g.neighbours u).length := List.length_filter_le _ _
    rw [Worklist.visit, hs] at hless
    simp only [mem_vertexSet.mpr hvertex, hmark, hmarks, not_true, if_false, Bool.false_eq_true,
      Worklist.work, List.length_append, List.length_reverse] at hless
    simp only [left, hs, Worklist.work, List.length_append]
    omega

theorem Searching.round (h : g.Searching final s) (hg : g.Represents vertices edges)
    (hs : (!s.stack.isEmpty) = true) :
    ∃ s', g.visitTop s = some s' ∧ g.Searching final s' ∧ g.left s' < g.left s := by
  cases hstack : s.stack with
  | nil => simp [hstack] at hs
  | cons u rest =>
    by_cases hu : u ∈ s.order
    · exact ⟨_, h.skip hstack hu⟩
    · exact h.visit hg hstack hu

theorem Represents.closed (hg : g.Represents vertices edges) :
    ∀ u ∈ g.vertexSet, ∀ v ∈ g.neighbours u, v ∈ g.vertexSet := by
  intro u _ v hv
  rw [mem_vertexSet, IsVertex, hg.length]
  exact ((hg.mem u v).mp hv).2.1

/-- The recursive search from a vertex has an order, which any sufficient depth gives. -/
theorem Represents.exists_order (hg : g.Represents vertices edges) (hu : g.IsVertex u) :
    ∃ order, Explores g.neighbours [] [u] order ∧
      ∀ depth, vertices ≤ depth → search g.neighbours depth [] u = order := by
  have hcard : ∀ depth, vertices ≤ depth → (g.vertexSet \ ([] : List ℤ).toFinset).card ≤ depth := by
    intro depth hdepth
    simpa [card_vertexSet, hg.length] using hdepth
  have hsearch : ∀ depth, vertices ≤ depth →
      Explores g.neighbours [] [u] (search g.neighbours depth [] u) := fun depth hdepth =>
    search_explores hg.closed (mem_vertexSet.mpr hu) (hcard depth hdepth)
  refine ⟨_, hsearch vertices (Nat.le_refl _), fun depth hdepth => ?_⟩
  exact (hsearch depth hdepth).unique (hsearch vertices (Nat.le_refl _))

theorem Represents.dfs_eq (hg : g.Represents vertices edges) (hu : g.IsVertex u)
    {order : List ℤ} (h : Explores g.neighbours [] [u] order) {fuel : ℕ} (hfuel : g.pops ≤ fuel) :
    g.dfs fuel u = some (.ok order) := by
  have hstart : g.Searching order ⟨List.replicate g.adj.length false, [], [u]⟩ := by
    refine ⟨List.length_replicate, fun v hv => ?_, by simpa using hu, h⟩
    rw [at?_replicate hv]
    simp [marked]
  have hleft : g.left ⟨List.replicate g.adj.length false, [], [u]⟩ = g.pops := by
    simp [left, pops, Worklist.work, marked]
  obtain ⟨s, hrun, hs, hempty⟩ := whileLoop_total (fun (_ : Unit) => g.visitTop)
    (g.Searching order) g.left
    (fun s hs hne => by
      obtain ⟨s', hvisit, hs', hless⟩ := hs.round hg hne
      exact ⟨s', fun _ => hvisit, hs', hless⟩)
    (hleft.le.trans hfuel) hstart
  have hdone : s.order = order := by
    have hexplores := hs.explores
    have hnil : s.stack = [] := by simpa using hempty
    rw [hnil] at hexplores
    exact (Explores.nil s.order).unique hexplores
  rw [dfs, checkVertex_eq, if_pos hu]
  change (whileLoop _ _ fuel _).map _ = _
  rw [hrun (), Option.map_some, hdone]

end Graph

/-- On every graph that `add_edge` builds and from every vertex, the search with the stack ends
with the order in which the recursive search visits: each vertex that the edges connect to the
start, once. -/
theorem dfs_recursive {vertices : ℕ} (edges : List (ℤ × ℤ)) {start : ℤ}
    (hstart : 0 ≤ start ∧ start < vertices) :
    ∃ g order, Graph.build vertices edges = some g ∧
      (∀ u v, v ∈ g.neighbours u ↔ Graph.Joins vertices edges u v) ∧
      (∀ u, (g.neighbours u).Pairwise (· < ·)) ∧
      (∀ fuel, g.pops ≤ fuel → g.dfs fuel start = some (.ok order)) ∧
      (∀ depth, vertices ≤ depth → search g.neighbours depth [] start = order) ∧
      order.Nodup ∧
      ∀ v, v ∈ order ↔ Relation.ReflTransGen (Graph.Joins vertices edges) start v := by
  obtain ⟨g, hbuild, hg⟩ := Graph.build_represents vertices edges
  have hvertex : g.IsVertex start := by
    rw [Graph.IsVertex, hg.length]
    exact hstart
  obtain ⟨order, hexplores, hsearch⟩ := hg.exists_order hvertex
  refine ⟨g, order, hbuild, hg.mem, g.neighbours_sorted,
    fun fuel hfuel => hg.dfs_eq hvertex hexplores hfuel, hsearch,
    hexplores.nodup List.nodup_nil, fun v => ?_⟩
  rw [hexplores.mem_iff]
  have hsame : (fun a b => b ∈ g.neighbours a) = Graph.Joins vertices edges := by
    funext a b
    exact propext (hg.mem a b)
  rw [hsame]

/-- A cycle with a tail: vertex `2` is pushed from `0` and from `1`. -/
theorem dfs_recursive_cycle :
    ∃ g order, Graph.build 5 [(0, 2), (0, 1), (1, 2), (2, 3)] = some g ∧
      (∀ fuel, g.pops ≤ fuel → g.dfs fuel 0 = some (.ok order)) ∧ order = [0, 1, 2, 3] := by
  obtain ⟨g, order, hbuild, -, -, hdfs, hsearch, -⟩ :=
    dfs_recursive [(0, 2), (0, 1), (1, 2), (2, 3)] (show (0 : ℤ) ≤ 0 ∧ (0 : ℤ) < (5 : ℕ) by decide)
  have hvisits : (Graph.build 5 [(0, 2), (0, 1), (1, 2), (2, 3)]).map
      (fun g => search g.neighbours 5 [] 0) = some [0, 1, 2, 3] := by decide
  rw [hbuild, Option.map_some, hsearch 5 (Nat.le_refl 5), Option.some.injEq] at hvisits
  exact ⟨g, order, hbuild, hdfs, hvisits⟩

end HftExercises.Search
