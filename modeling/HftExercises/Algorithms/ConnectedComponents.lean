import HftExercises.Algorithms.BreadthFirstSearch
import HftExercises.Core.ListFacts

/-! # Connected components

Every vertex that no earlier search has marked starts a search of its own, and is the smallest
vertex of its component. The vertex is cast to an `int`.
-/
namespace HftExercises.Search
open BreadthFirst

/-- `static_cast<int>(s)` -/
def castInt (s : ℕ) : ℤ := (Int32.ofNat s).toInt

theorem castInt_of_lt {s : ℕ} (h : s < 2 ^ 31) : castInt s = s := Int32.toInt_ofNat_of_lt h

theorem at?_natCast {A : Type} (l : List A) (s : ℕ) : at? l s = l[s]? :=
  if_neg (Int.not_lt.mpr (Int.natCast_nonneg s))

namespace Graph

/-- One round of `for (std::size_t s = 0; s < n; ++s)`. -/
def componentRound (g : Graph) (fuel : ℕ) (acc : List Bool × List (List ℤ)) (s : ℕ) :
    Option (List Bool × List (List ℤ)) := do
  let marked ← acc.1[s]?
  if marked then return acc
  else
    let w ← g.drainQueue fuel ⟨acc.1.set s true, [], [castInt s]⟩
    return (w.seen, acc.2 ++ [w.order])

def connectedComponents (g : Graph) (fuel : ℕ) : Option (List (List ℤ)) :=
  ((List.range g.adj.length).foldlM (g.componentRound fuel)
    (List.replicate g.adj.length false, [])).map Prod.snd

variable {g : Graph} {vertices s : ℕ} {edges : List (ℤ × ℤ)} {acc : List Bool × List (List ℤ)}

/-- The components of the vertices before `s`. -/
structure Collected (vertices : ℕ) (edges : List (ℤ × ℤ)) (s : ℕ)
    (acc : List Bool × List (List ℤ)) : Prop where
  labels : Labels vertices false (fun _ => true) acc.2.flatten acc.1
  nodup : acc.2.flatten.Nodup
  cover : ∀ v : ℤ, 0 ≤ v → v < s → v ∈ acc.2.flatten
  classes : ∀ c ∈ acc.2, ∃ m ∈ c, (0 ≤ m ∧ m < vertices ∧ m < s) ∧
    ∀ v, v ∈ c ↔ (simple vertices edges).Reachable m v
  ordered : acc.2.Pairwise fun c d => ∃ u ∈ c, ∀ v ∈ d, u < v

/-- What a collected vertex is joined with has been collected. -/
theorem Collected.closed (h : Collected vertices edges s acc) {u v : ℤ} (hv : v ∈ acc.2.flatten)
    (huv : (simple vertices edges).Reachable u v) : u ∈ acc.2.flatten := by
  obtain ⟨c, hc, hvc⟩ := List.mem_flatten.mp hv
  obtain ⟨m, -, -, hclass⟩ := h.classes c hc
  have hmu := ((hclass v).mp hvc).trans huv.symm
  exact List.mem_flatten.mpr ⟨c, hc, (hclass u).mpr hmu⟩

theorem Collected.round (h : Collected vertices edges s acc) (hg : g.Represents vertices edges)
    (hs : s < vertices) (hint : s < 2 ^ 31) :
    ∃ acc', (∀ fuel, vertices ≤ fuel → g.componentRound fuel acc s = some acc') ∧
      Collected vertices edges (s + 1) acc' := by
  have hvertex : (0 : ℤ) ≤ s ∧ (s : ℤ) < vertices := ⟨by omega, by omega⟩
  have hmark := h.labels.label s hvertex
  rw [at?_natCast] at hmark
  by_cases hmem : (s : ℤ) ∈ acc.2.flatten
  · rw [if_pos hmem] at hmark
    refine ⟨acc, fun fuel _ => by simp [componentRound, hmark], h.labels, h.nodup, fun v h0 hlt => ?_,
      fun c hc => ?_, h.ordered⟩
    · by_cases hvs : v = s
      · exact hvs ▸ hmem
      · exact h.cover v h0 (by omega)
    · obtain ⟨m, hm, hbound, hclass⟩ := h.classes c hc
      exact ⟨m, hm, by omega, hclass⟩
  · rw [if_neg hmem] at hmark
    have hold : ∀ v ∈ acc.2.flatten, ¬(simple vertices edges).Reachable s v :=
      fun v hv hreach => hmem (h.closed hv hreach)
    obtain ⟨seen, order, hrun, horder, hlabels⟩ := drainQueue_spec _ hg hvertex hold h.labels
    have hnodup := horder.nodup
    rw [List.append_nil] at hnodup
    refine ⟨(seen, acc.2 ++ [order]), fun fuel hfuel => ?_, ?_⟩
    · have hloop := hrun fuel hfuel
      rw [Int.toNat_natCast] at hloop
      simp [componentRound, hmark, castInt_of_lt hint, hloop]
    · have hflat : (acc.2 ++ [order]).flatten = acc.2.flatten ++ order := by simp
      constructor
      case labels =>
        rw [hflat]
        exact hlabels
      case nodup =>
        rw [hflat]
        refine List.nodup_append.mpr ⟨h.nodup, hnodup, ?_⟩
        rintro v hv w hw rfl
        exact hold v hv (horder.mem_iff.mp hw)
      case cover =>
        rw [hflat]
        intro v h0 hlt
        by_cases hvs : v = s
        · rw [hvs]
          exact List.mem_append_right _ (horder.mem_iff.mpr (SimpleGraph.Reachable.refl _))
        · exact List.mem_append_left _ (h.cover v h0 (by omega))
      case classes =>
        intro c hc
        rcases List.mem_append.mp hc with hc | hc
        · obtain ⟨m, hm, hbound, hclass⟩ := h.classes c hc
          exact ⟨m, hm, by omega, hclass⟩
        · rw [List.mem_singleton.mp hc]
          exact ⟨s, horder.mem_iff.mpr (SimpleGraph.Reachable.refl _), by omega,
            fun v => horder.mem_iff⟩
      case ordered =>
        refine List.pairwise_append.mpr ⟨h.ordered, List.pairwise_singleton _ _, fun c hc d hd => ?_⟩
        obtain ⟨m, hm, hbound, -⟩ := h.classes c hc
        refine ⟨m, hm, fun v hv => ?_⟩
        rw [List.mem_singleton.mp hd, horder.mem_iff] at hv
        -- the vertices before `s` belong to earlier components
        have hle : (s : ℤ) ≤ v := by
          by_contra hlt
          have hv0 := (isVertex_of_reachable hvertex hv).1
          exact hold v (h.cover v hv0 (by omega)) hv
        omega

theorem collected_spec (hg : g.Represents vertices edges) (hs : s ≤ vertices) (hint : s ≤ 2 ^ 31) :
    ∃ acc, (∀ fuel, vertices ≤ fuel → (List.range s).foldlM (g.componentRound fuel)
      (List.replicate vertices false, []) = some acc) ∧ Collected vertices edges s acc := by
  have hinit : Collected vertices edges 0 (List.replicate vertices false, []) :=
    ⟨labels_replicate _ _ _, List.nodup_nil, fun v h0 hlt => absurd hlt (Int.not_lt.mpr h0), by simp,
      List.Pairwise.nil⟩
  have hround : ∀ i acc, i < s → Collected vertices edges i acc →
      ∃ acc', (∀ fuel : { fuel // vertices ≤ fuel }, g.componentRound fuel acc i = some acc') ∧
        Collected vertices edges (i + 1) acc' := by
    intro i acc hi h
    obtain ⟨acc', hacc', h'⟩ := h.round hg (hi.trans_le hs) (hi.trans_le hint)
    exact ⟨acc', fun fuel => hacc' fuel fuel.2, h'⟩
  obtain ⟨acc, hacc, h⟩ := foldlM_range
    (fun fuel : { fuel // vertices ≤ fuel } => g.componentRound fuel) _ hround hinit
  exact ⟨acc, fun fuel hfuel => hacc ⟨fuel, hfuel⟩, h⟩

/-- The vertices grouped by what they are joined with, in the order of the smallest ones. -/
structure IsPartition (g : Graph) (G : SimpleGraph ℤ) (comps : List (List ℤ)) : Prop where
  nodup : comps.flatten.Nodup
  cover : ∀ v, v ∈ comps.flatten ↔ g.IsVertex v
  classes : ∀ c ∈ comps, ∃ m ∈ c, ∀ v, v ∈ c ↔ G.Reachable m v
  ordered : comps.Pairwise fun c d => ∃ u ∈ c, ∀ v ∈ d, u < v

theorem Represents.isPartition (hg : g.Represents vertices edges) (hint : vertices ≤ 2 ^ 31) :
    ∃ comps, (∀ fuel, g.adj.length ≤ fuel → g.connectedComponents fuel = some comps) ∧
      IsPartition g (simple vertices edges) comps := by
  obtain ⟨acc, hacc, h⟩ := collected_spec hg (Nat.le_refl vertices) hint
  refine ⟨acc.2, fun fuel hfuel => ?_, h.nodup, fun v => ?_, fun c hc => ?_, h.ordered⟩
  · rw [hg.length] at hfuel
    rw [connectedComponents, hg.length, hacc fuel hfuel]
    rfl
  · rw [IsVertex, hg.length]
    refine ⟨fun hv => ?_, fun hv => h.cover v hv.1 hv.2⟩
    obtain ⟨c, hc, hvc⟩ := List.mem_flatten.mp hv
    obtain ⟨m, -, hbound, hclass⟩ := h.classes c hc
    exact isVertex_of_reachable ⟨hbound.1, hbound.2.1⟩ ((hclass v).mp hvc)
  · obtain ⟨m, hm, -, hclass⟩ := h.classes c hc
    exact ⟨m, hm, hclass⟩

/-- A vertex that is cast to a negative `int` is not one of the vector. -/
theorem drainQueue_of_neg {q : Queued} {u : ℤ} {rest : List ℤ} (hq : q.queue = u :: rest)
    (hu : u < 0) (fuel : ℕ) : g.drainQueue fuel q = none := by
  have hguard : (!q.queue.isEmpty) = true := by rw [hq]; rfl
  have hvisit : g.visitFront q = none := by
    have hout : at? g.adj u = none := if_pos hu
    rw [visitFront, hq]
    simp [hout]
  cases fuel with
  | zero => exact if_pos hguard
  | succ fuel =>
    rw [drainQueue, whileLoop]
    simp only [hguard, if_true, hvisit, Option.bind_none]

/-- The first vertex that is no `int` begins a search of its own. -/
theorem connectedComponents_overflows (hg : g.Represents vertices edges)
    (hedges : ∀ u v, Joins vertices edges u v → v < s) (hs : s ≤ 2 ^ 31) (hmany : s < vertices)
    (hcast : castInt s < 0) : g.connectedComponents vertices = none := by
  obtain ⟨acc, hacc, h⟩ := collected_spec hg hmany.le hs
  have hrounds := hacc vertices (Nat.le_refl vertices)
  have hnew : (s : ℤ) ∉ acc.2.flatten := by
    intro hmem
    obtain ⟨c, hc, hvc⟩ := List.mem_flatten.mp hmem
    obtain ⟨m, -, hbound, hclass⟩ := h.classes c hc
    have hlt := mem_of_reachable (P := fun v : ℤ => v < s) ((hclass _).mp hvc) hbound.2.2
      fun u _ v hadj => hedges u v hadj.2
    exact lt_irrefl _ hlt
  have hmark := h.labels.label s ⟨by omega, by omega⟩
  rw [if_neg hnew, at?_natCast] at hmark
  have hloop := g.drainQueue_of_neg (q := ⟨acc.1.set s true, [], [castInt s]⟩) rfl hcast vertices
  have hround : g.componentRound vertices acc s = none := by simp [componentRound, hmark, hloop]
  obtain ⟨rest, hsplit⟩ := exists_range_split hmany
  rw [connectedComponents, hg.length, hsplit, List.foldlM_append, hrounds]
  simp [hround]

/-! ## Every graph -/

/-- Adjacency, edge count, searches and components are those of the edges. -/
structure Answers (g : Graph) (vertices : ℕ) (edges : List (ℤ × ℤ)) : Prop where
  symm : ∀ u v, v ∈ g.neighbours u → u ∈ g.neighbours v
  mem : ∀ u v, v ∈ g.neighbours u ↔ Joins vertices edges u v
  edgeCount : g.edgeCount = (edgeSet vertices edges).card
  searches : ∀ start : Int32, g.IsVertex start.toInt →
    ∃ order dist, SearchesFrom g (simple vertices edges) start.toInt order dist
  throws : ∀ start : Int32, ¬g.IsVertex start.toInt → ∀ fuel,
    g.bfs fuel start.toInt = some (.error "Graph: vertex out of range") ∧
      g.bfsDistance fuel start.toInt = some (.error "Graph: vertex out of range")
  components : ∃ comps, (∀ fuel, g.adj.length ≤ fuel → g.connectedComponents fuel = some comps) ∧
    IsPartition g (simple vertices edges) comps

theorem not_answers_of_lt (hmany : 2 ^ 31 < vertices) (edges : List (Int32 × Int32)) :
    ¬∃ g, ofEdges vertices edges = some g ∧ g.Answers vertices (ints edges) := by
  rintro ⟨g, hg, hanswers⟩
  obtain ⟨g', hbuild, hrepresents⟩ := build_represents vertices (ints edges)
  obtain rfl := Option.some.inj (hbuild.symm.trans hg)
  have hcast : castInt (2 ^ 31) < 0 := by decide
  have hnone := connectedComponents_overflows hrepresents (s := 2 ^ 31)
    (fun _ _ h => h.lt_int) (Nat.le_refl _) hmany hcast
  obtain ⟨comps, hcomps, -⟩ := hanswers.components
  rw [hcomps vertices hrepresents.length.le] at hnone
  cases hnone

end Graph

/-- The searches of a graph that `add_edge` has built return what they should, exactly when the
vertices are `int`s. -/
theorem graphSearch_iff (vertices : ℕ) (edges : List (Int32 × Int32)) :
    (∃ g, Graph.ofEdges vertices edges = some g ∧ g.Answers vertices (Graph.ints edges)) ↔
      vertices ≤ 2 ^ 31 := by
  constructor
  · intro h
    by_contra hmany
    exact Graph.not_answers_of_lt (Nat.lt_of_not_le hmany) edges h
  · intro hfew
    obtain ⟨g, hbuild, hg⟩ := Graph.build_represents vertices (Graph.ints edges)
    refine ⟨g, hbuild, fun u v => hg.symm, hg.mem, Graph.build_edgeCount hbuild,
      fun start hstart => ?_, fun start hstart fuel => ?_, hg.isPartition hfew⟩
    · exact hg.searchesFrom (fun _ _ h => h.lt_int) hstart start.toInt_lt
    · have hcheck := g.checkVertex_eq start.toInt
      rw [if_neg hstart] at hcheck
      exact ⟨by rw [Graph.bfs, hcheck], by rw [Graph.bfsDistance, hcheck]⟩

/-- One vertex more than there are `int`s for, and no edge. -/
theorem graphSearch_overflows : ¬∃ g, Graph.ofEdges (2 ^ 31 + 1) [] = some g ∧
    g.Answers (2 ^ 31 + 1) (Graph.ints []) :=
  Graph.not_answers_of_lt (Nat.lt_succ_self (2 ^ 31)) []

end HftExercises.Search
