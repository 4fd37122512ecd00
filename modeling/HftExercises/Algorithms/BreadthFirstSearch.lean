import HftExercises.Algorithms.GraphEdges
import HftExercises.Core.BreadthFirst
import Mathlib.Data.Int.Interval

/-! # The searches with a queue

A vertex is marked when it joins the queue: as seen, or with its distance. The marks are those
of the vertices that have left the queue and of those in it.
-/
namespace HftExercises.Search
open BreadthFirst

/-- The result of `int` arithmetic. -/
def int32 (x : ℤ) : Option ℤ := if -2 ^ 31 ≤ x ∧ x < 2 ^ 31 then some x else none

/-- `if (unmarked(marks[v])) { marks[v] = mark; q.push(v); }` -/
def pushUnmarked {A : Type} (unmarked : A → Bool) (mark : List A → Option A) (s : List A × List ℤ)
    (v : ℤ) : Option (List A × List ℤ) := do
  let m ← at? s.1 v
  if unmarked m then
    let a ← mark s.1
    return (s.1.set v.toNat a, s.2 ++ [v])
  else return s

/-- `if (!seen[v]) { seen[v] = 1; q.push(v); }` -/
def enqueueUnseen : List Bool × List ℤ → ℤ → Option (List Bool × List ℤ) :=
  pushUnmarked (fun seen => !seen) fun _ => some true

/-- `if (dist[v] == -1) { dist[v] = dist[u] + 1; q.push(v); }` -/
def enqueueFar (u : ℤ) : List ℤ × List ℤ → ℤ → Option (List ℤ × List ℤ) :=
  pushUnmarked (fun d => d == -1) fun dist => do
    let d ← at? dist u
    int32 (d + 1)

/-- The state of the loop of `bfs` and of `connected_components`. -/
structure Queued where
  seen : List Bool
  order : List ℤ
  queue : List ℤ

namespace Graph

def visitFront (g : Graph) (s : Queued) : Option Queued :=
  match s.queue with
  | [] => none
  | u :: rest => do
    let neighbours ← at? g.adj u
    let (seen, queue) ← neighbours.keys.foldlM enqueueUnseen (s.seen, rest)
    return ⟨seen, s.order ++ [u], queue⟩

/-- `while (!q.empty())` -/
def drainQueue (g : Graph) (fuel : ℕ) (s : Queued) : Option Queued :=
  whileLoop (fun s => !s.queue.isEmpty) g.visitFront fuel s

def bfs (g : Graph) (fuel : ℕ) (start : ℤ) : Option (Except String (List ℤ)) :=
  match g.checkVertex start with
  | .error e => some (.error e)
  | .ok () =>
    (g.drainQueue fuel ⟨(List.replicate g.adj.length false).set start.toNat true, [],
      [start]⟩).map fun s => .ok s.order

def measureFront (g : Graph) (s : List ℤ × List ℤ) : Option (List ℤ × List ℤ) :=
  match s.2 with
  | [] => none
  | u :: rest => do
    let neighbours ← at? g.adj u
    neighbours.keys.foldlM (enqueueFar u) (s.1, rest)

def bfsDistance (g : Graph) (fuel : ℕ) (start : ℤ) : Option (Except String (List ℤ)) :=
  match g.checkVertex start with
  | .error e => some (.error e)
  | .ok () =>
    (whileLoop (fun s => !s.2.isEmpty) g.measureFront fuel
      ((List.replicate g.adj.length (-1)).set start.toNat 0, [start])).map fun s => .ok s.1

end Graph

/-! ## Marks -/

section Marks
variable {A : Type} {n : ℕ} {blank : A} {label : ℤ → A} {known vs queue : List ℤ} {marks : List A}
  {unmarked : A → Bool} {mark : List A → Option A} {u v : ℤ}

/-- The known vertices have their labels, and the others are blank. -/
structure Labels (n : ℕ) (blank : A) (label : ℤ → A) (known : List ℤ) (marks : List A) : Prop where
  length : marks.length = n
  label : ∀ v : ℤ, 0 ≤ v ∧ v < n → at? marks v = some (if v ∈ known then label v else blank)

theorem labels_replicate (n : ℕ) (blank : A) (label : ℤ → A) :
    Labels n blank label [] (List.replicate n blank) where
  length := List.length_replicate
  label v hv := by
    rw [at?_replicate hv, if_neg List.not_mem_nil]

theorem Labels.set (h : Labels n blank label known marks) (hv : 0 ≤ v ∧ v < n) :
    Labels n blank label (known ++ [v]) (marks.set v.toNat (label v)) where
  length := by rw [List.length_set, h.length]
  label w hw := by
    rw [at?_set _ (h.length.symm ▸ hv)]
    by_cases hwv : w = v
    · simp [hwv]
    · simp [hwv, h.label w hw]

theorem Labels.congr (h : Labels n blank label known marks) (hsame : ∀ v, v ∈ known ↔ v ∈ vs) :
    Labels n blank label vs marks where
  length := h.length
  label v hv := by
    rw [h.label v hv]
    simp only [hsame]

/-- The vertices of a list that are not known yet are marked and join the queue. -/
theorem pushAll_spec (queue : List ℤ) (hblank : unmarked blank = true) (hlabel : ∀ v, unmarked (label v) = false)
    (h : Labels n blank label known marks) (hnodup : vs.Nodup) (hvs : ∀ v ∈ vs, 0 ≤ v ∧ v < n)
    (hmark : ∀ known' marks', known ⊆ known' → Labels n blank label known' marks' →
      ∀ v ∈ vs, v ∉ known → mark marks' = some (label v)) :
    ∃ marks', vs.foldlM (pushUnmarked unmarked mark) (marks, queue) =
        some (marks', queue ++ vs.filter (fun v => v ∉ known)) ∧
      Labels n blank label (known ++ vs.filter (fun v => v ∉ known)) marks' := by
  induction vs generalizing known marks queue with
  | nil => exact ⟨marks, by simp, by simpa using h⟩
  | cons v vs ih =>
    obtain ⟨hv, hnodup⟩ := List.nodup_cons.mp hnodup
    obtain ⟨hvertex, hvs⟩ := List.forall_mem_cons.mp hvs
    by_cases hknown : v ∈ known
    · have hskip : pushUnmarked unmarked mark (marks, queue) v = some (marks, queue) := by
        simp [pushUnmarked, h.label v hvertex, hknown, hlabel]
      obtain ⟨marks', hfold, hlabels⟩ := ih queue h hnodup hvs
        fun known' marks' hsub hl w hw => hmark known' marks' hsub hl w (List.mem_cons_of_mem v hw)
      rw [List.filter_cons_of_neg (by simpa using hknown)]
      exact ⟨marks', by rw [List.foldlM_cons, hskip]; exact hfold, hlabels⟩
    · have hlast := hmark known marks (List.Subset.refl known) h v List.mem_cons_self hknown
      have hpush : pushUnmarked unmarked mark (marks, queue) v =
          some (marks.set v.toNat (label v), queue ++ [v]) := by
        simp [pushUnmarked, h.label v hvertex, hknown, hblank, hlast]
      have hrest : vs.filter (fun w => w ∉ known ++ [v]) = vs.filter (fun w => w ∉ known) := by
        apply List.filter_congr
        intro w hw
        have hne : w ≠ v := fun heq => hv (heq ▸ hw)
        simp [hne]
      obtain ⟨marks', hfold, hlabels⟩ := ih (queue ++ [v]) (h.set hvertex) hnodup hvs
        fun known' marks' hsub hl w hw hnew => hmark known' marks'
          (List.Subset.trans (List.subset_append_left known [v]) hsub) hl w
          (List.mem_cons_of_mem v hw) fun hmem => hnew (List.mem_append_left _ hmem)
      rw [hrest, List.append_assoc] at hfold hlabels
      rw [List.filter_cons_of_pos (by simpa using hknown)]
      exact ⟨marks', by rw [List.foldlM_cons, hpush]; exact hfold, hlabels⟩

end Marks

/-! ## Rounds -/

theorem length_le_of_nodup {n : ℕ} {l : List ℤ} (hl : l.Nodup) (hin : ∀ v ∈ l, 0 ≤ v ∧ v < n) :
    l.length ≤ n := by
  have hsub : l.toFinset ⊆ Finset.Ico (0 : ℤ) n := fun v hv =>
    Finset.mem_Ico.mpr (hin v (List.mem_toFinset.mp hv))
  have hcard := Finset.card_le_card hsub
  rwa [List.toFinset_card_of_nodup hl, Int.card_Ico, Int.sub_zero, Int.toNat_natCast] at hcard

namespace Graph
variable {A : Type} {g : Graph} {vertices : ℕ} {edges : List (ℤ × ℤ)} {start u v : ℤ}
  {blank : A} {label : ℤ → A} {old done rest queue : List ℤ} {marks : List A}

/-- Only vertices can be reached from a vertex. -/
theorem isVertex_of_reachable (hstart : 0 ≤ start ∧ start < vertices)
    (h : (simple vertices edges).Reachable start v) : 0 ≤ v ∧ v < vertices := by
  apply mem_of_reachable (P := fun v : ℤ => 0 ≤ v ∧ v < vertices) h hstart
  intro u _ v hadj
  exact hadj.2.2.1

theorem length_le_of_layered (hstart : 0 ≤ start ∧ start < vertices)
    (h : Layered (simple vertices edges) start done queue) : (done ++ queue).length ≤ vertices :=
  length_le_of_nodup h.nodup fun v hv => isVertex_of_reachable hstart (h.reachable v hv)

/-- The neighbours of the front of the queue, of which the new ones join it. What an earlier
search marked is not among them. -/
theorem pushNeighbours_spec (unmarked : A → Bool) (mark : List A → Option A) (old : List ℤ)
    (hg : g.Represents vertices edges) (hstart : 0 ≤ start ∧ start < vertices)
    (h : Layered (simple vertices edges) start done (u :: rest))
    (hold : ∀ v ∈ old, ¬(simple vertices edges).Reachable start v)
    (hlabels : Labels vertices blank label (old ++ (done ++ u :: rest)) marks)
    (hblank : unmarked blank = true) (hlabel : ∀ v, unmarked (label v) = false)
    (hmark : ∀ known marks, u ∈ known → Labels vertices blank label known marks →
      ∀ v, (simple vertices edges).Adj u v → v ∉ done ++ u :: rest → mark marks = some (label v)) :
    ∃ s marks' fresh, at? g.adj u = some s ∧
      s.keys.foldlM (pushUnmarked unmarked mark) (marks, rest) = some (marks', rest ++ fresh) ∧
      Layered (simple vertices edges) start (done ++ [u]) (rest ++ fresh) ∧
      Labels vertices blank label (old ++ ((done ++ [u]) ++ (rest ++ fresh))) marks' := by
  have hureach := h.reachable u (List.mem_append_right done List.mem_cons_self)
  have hu := isVertex_of_reachable hstart hureach
  obtain ⟨s, hs⟩ := at?_isSome (hg.length.symm ▸ hu)
  have hkeys : ∀ v, v ∈ s.keys ↔ Joins vertices edges u v := by
    intro v
    rw [← neighbours_of_at? hs, hg.mem]
  have hadj : ∀ v, v ∈ s.keys → v ∉ old ++ (done ++ u :: rest) →
      (simple vertices edges).Adj u v ∧ v ∉ done ++ u :: rest := by
    intro v hv hnew
    have hout : v ∉ done ++ u :: rest := fun hmem => hnew (List.mem_append_right old hmem)
    refine ⟨⟨?_, (hkeys v).mp hv⟩, hout⟩
    rintro rfl
    exact hout (List.mem_append_right done List.mem_cons_self)
  obtain ⟨marks', hfold, hlabels'⟩ := pushAll_spec rest hblank hlabel hlabels
    (s.keys_sorted.imp fun hlt => hlt.ne) (fun v hv => ((hkeys v).mp hv).2.1)
    (fun known' marks' hsub hl v hv hnew => hmark known' marks'
      (hsub (List.mem_append_right old (List.mem_append_right done List.mem_cons_self))) hl v
      (hadj v hv hnew).1 (hadj v hv hnew).2)
  refine ⟨s, marks', _, hs, hfold, h.visit (s.keys_nodup.filter _) fun v => ?_,
    hlabels'.congr fun v => ?_⟩
  · simp only [List.mem_filter, decide_eq_true_eq]
    refine ⟨fun hv => hadj v hv.1 hv.2, fun hv => ⟨(hkeys v).mpr hv.1.2, fun hmem => ?_⟩⟩
    rcases List.mem_append.mp hmem with hmem | hmem
    · exact hold v hmem (hureach.trans hv.1.reachable)
    · exact hv.2 hmem
  · simp only [List.mem_append, List.mem_cons, List.not_mem_nil, or_false]
    tauto

/-! ## The order of the visits -/

/-- The loop of `bfs` between two rounds, next to what earlier searches have marked. -/
structure Visiting (vertices : ℕ) (edges : List (ℤ × ℤ)) (start : ℤ) (old : List ℤ) (k : ℕ)
    (s : Queued) : Prop where
  layered : Layered (simple vertices edges) start s.order s.queue
  labels : Labels vertices false (fun _ => true) (old ++ (s.order ++ s.queue)) s.seen
  rank : s.order.length + k = vertices

theorem Visiting.round {k : ℕ} {s : Queued} (h : Visiting vertices edges start old k s)
    (hg : g.Represents vertices edges) (hstart : 0 ≤ start ∧ start < vertices)
    (hold : ∀ v ∈ old, ¬(simple vertices edges).Reachable start v)
    (hs : (!s.queue.isEmpty) = true) :
    ∃ s' k', g.visitFront s = some s' ∧ Visiting vertices edges start old k' s' ∧ k' < k := by
  obtain ⟨seen, order, queue⟩ := s
  obtain ⟨hlayered, hlabels, hrank⟩ := h
  cases queue with
  | nil => cases hs
  | cons u rest =>
    obtain ⟨set, seen', fresh, hset, hfold, hnext, hlabels'⟩ := pushNeighbours_spec
      (fun seen => !seen) (fun _ => some true) old hg hstart hlayered hold hlabels rfl
      (fun _ => rfl) (fun _ _ _ _ _ _ _ => rfl)
    have hlen := length_le_of_layered hstart hlayered
    simp only [List.length_append, List.length_cons] at hlen hrank
    refine ⟨⟨seen', order ++ [u], rest ++ fresh⟩, k - 1, ?_, ⟨hnext, hlabels', ?_⟩, by omega⟩
    · simp only [visitFront, hset, enqueueUnseen, Option.bind_eq_bind, Option.bind_some, hfold,
        Option.pure_def]
    · simp only [List.length_append, List.length_singleton]
      omega

theorem drainQueue_spec {seen : List Bool} (old : List ℤ) (hg : g.Represents vertices edges)
    (hstart : 0 ≤ start ∧ start < vertices)
    (hold : ∀ v ∈ old, ¬(simple vertices edges).Reachable start v)
    (hseen : Labels vertices false (fun _ => true) old seen) :
    ∃ seen' order, (∀ fuel, vertices ≤ fuel →
        g.drainQueue fuel ⟨seen.set start.toNat true, [], [start]⟩ = some ⟨seen', order, []⟩) ∧
      Layered (simple vertices edges) start order [] ∧
      Labels vertices false (fun _ => true) (old ++ order) seen' := by
  have hinit : Visiting vertices edges start old vertices
      ⟨seen.set start.toNat true, [], [start]⟩ :=
    ⟨layered_start _ start, hseen.set hstart, Nat.zero_add vertices⟩
  obtain ⟨⟨seen', order, queue⟩, _, hrun, ⟨hlayered, hlabels, -⟩, hempty⟩ :=
    whileLoop_ranked (Visiting vertices edges start old)
      (fun _ _ h hs => h.round hg hstart hold hs) hinit
  obtain rfl : queue = [] := by simpa using hempty
  exact ⟨seen', order, hrun, hlayered, by simpa using hlabels⟩

/-! ## The distances -/

/-- The loop of `bfs_distance` between two rounds. -/
def Measuring (vertices : ℕ) (edges : List (ℤ × ℤ)) (start : ℤ) (k : ℕ) (s : List ℤ × List ℤ) :
    Prop :=
  ∃ done, Layered (simple vertices edges) start done s.2 ∧
    Labels vertices (-1) (fun v => ((simple vertices edges).dist start v : ℤ)) (done ++ s.2) s.1 ∧
    done.length + k = vertices

theorem int32_eq_some {x : ℤ} (h0 : 0 ≤ x) (h : x < 2 ^ 31) : int32 x = some x :=
  if_pos ⟨by omega, h⟩

/-- A shortest path is as long as an `int` can be, at most. -/
theorem dist_lt_int (hint : ∀ u v, Joins vertices edges u v → v < 2 ^ 31)
    (hstart : 0 ≤ start ∧ start < 2 ^ 31) (h : (simple vertices edges).Reachable start v) :
    (simple vertices edges).dist start v < 2 ^ 31 := by
  have hclosed : ∀ u v, (simple vertices edges).Adj u v → v ∈ Finset.Ico (0 : ℤ) (2 ^ 31) :=
    fun u v hadj => Finset.mem_Ico.mpr ⟨hadj.2.2.1.1, hint u v hadj.2⟩
  have hlt := dist_lt_card (Finset.mem_Ico.mpr hstart) hclosed h
  rwa [Int.card_Ico] at hlt

theorem Measuring.round {k : ℕ} {s : List ℤ × List ℤ} (h : Measuring vertices edges start k s)
    (hg : g.Represents vertices edges) (hstart : 0 ≤ start ∧ start < vertices)
    (hint : ∀ u v, Joins vertices edges u v → v < 2 ^ 31) (hlt : start < 2 ^ 31)
    (hs : (!s.2.isEmpty) = true) :
    ∃ s' k', g.measureFront s = some s' ∧ Measuring vertices edges start k' s' ∧ k' < k := by
  obtain ⟨dist, queue⟩ := s
  obtain ⟨done, hlayered, hlabels, hrank⟩ := h
  cases queue with
  | nil => cases hs
  | cons u rest =>
    have hureach := hlayered.reachable u (List.mem_append_right done List.mem_cons_self)
    have hu := isVertex_of_reachable hstart hureach
    have hmark : ∀ known dist, u ∈ known →
        Labels vertices (-1) (fun v => ((simple vertices edges).dist start v : ℤ)) known dist →
        ∀ v, (simple vertices edges).Adj u v → v ∉ done ++ u :: rest →
        ((at? dist u).bind fun d => int32 (d + 1)) =
          some ((simple vertices edges).dist start v : ℤ) := by
      intro known dist hknown hl v hadj hv
      have hdist := hlayered.dist_eq hadj hv
      have hbound := dist_lt_int hint ⟨hstart.1, hlt⟩ (hureach.trans hadj.reachable)
      rw [hl.label u hu, if_pos hknown, Option.bind_some, hdist, Nat.cast_add_one]
      exact int32_eq_some (by omega) (by omega)
    have hnonneg : ∀ v, ((simple vertices edges).dist start v == (-1 : ℤ)) = false := by
      intro v
      simp only [beq_eq_false_iff_ne, ne_eq]
      omega
    obtain ⟨set, dist', fresh, hset, hfold, hnext, hlabels'⟩ := pushNeighbours_spec
      (fun d => d == -1) _ [] hg hstart hlayered (by simp) hlabels rfl hnonneg hmark
    have hlen := length_le_of_layered hstart hlayered
    simp only [List.length_append, List.length_cons] at hlen hrank
    refine ⟨(dist', rest ++ fresh), k - 1, ?_, ⟨done ++ [u], hnext, hlabels', ?_⟩, by omega⟩
    · simp only [measureFront, hset, Option.bind_eq_bind, Option.bind_some]
      exact hfold
    · simp only [List.length_append, List.length_singleton]
      omega

/-! ## The searches from a start -/

/-- What the searches from a vertex return. -/
structure SearchesFrom (g : Graph) (G : SimpleGraph ℤ) (start : ℤ) (order dist : List ℤ) : Prop where
  bfs : ∀ fuel, g.adj.length ≤ fuel → g.bfs fuel start = some (.ok order)
  nodup : order.Nodup
  mem : ∀ v, v ∈ order ↔ G.Reachable start v
  sorted : order.Pairwise fun u v => G.dist start u ≤ G.dist start v
  bfsDistance : ∀ fuel, g.adj.length ≤ fuel → g.bfsDistance fuel start = some (.ok dist)
  length : dist.length = g.adj.length
  reached : ∀ v, G.Reachable start v → at? dist v = some (G.dist start v : ℤ)
  unreached : ∀ v, g.IsVertex v → ¬G.Reachable start v → at? dist v = some (-1)

theorem Represents.searchesFrom (hg : g.Represents vertices edges)
    (hint : ∀ u v, Joins vertices edges u v → v < 2 ^ 31) (hstart : g.IsVertex start)
    (hlt : start < 2 ^ 31) :
    ∃ order dist, SearchesFrom g (simple vertices edges) start order dist := by
  have hcheck : g.checkVertex start = .ok () := by rw [checkVertex_eq, if_pos hstart]
  rw [IsVertex, hg.length] at hstart
  obtain ⟨seen, order, hrun, horder, -⟩ := drainQueue_spec [] hg hstart (by simp)
    (labels_replicate vertices false fun _ => true)
  have hinit : Measuring vertices edges start vertices
      ((List.replicate vertices (-1)).set start.toNat 0, [start]) := by
    refine ⟨[], layered_start _ start, ?_, Nat.zero_add vertices⟩
    have hset := (labels_replicate vertices (-1)
      fun v => ((simple vertices edges).dist start v : ℤ)).set hstart
    simpa using hset
  obtain ⟨⟨dist, queue⟩, _, hmeasure, ⟨done, hdone, hlabels, -⟩, hempty⟩ :=
    whileLoop_ranked (Measuring vertices edges start)
      (fun _ _ h hs => h.round hg hstart hint hlt hs) hinit
  obtain rfl : queue = [] := by simpa using hempty
  rw [List.append_nil] at hlabels
  refine ⟨order, dist, ?_, ?_, fun v => horder.mem_iff, ?_, ?_, hlabels.length.trans hg.length.symm,
    fun v hv => ?_, fun v hvertex hv => ?_⟩
  · intro fuel hfuel
    rw [bfs, hcheck, hg.length]
    change (g.drainQueue fuel _).map _ = _
    rw [hrun fuel (hg.length ▸ hfuel), Option.map_some]
  · simpa using horder.nodup
  · simpa using horder.sorted
  · intro fuel hfuel
    rw [bfsDistance, hcheck, hg.length]
    change (whileLoop _ _ fuel _).map _ = _
    rw [hmeasure fuel (hg.length ▸ hfuel), Option.map_some]
  · rw [hlabels.label v (isVertex_of_reachable hstart hv), if_pos (hdone.mem_iff.mpr hv)]
  · rw [IsVertex, hg.length] at hvertex
    rw [hlabels.label v hvertex, if_neg fun hmem => hv (hdone.mem_iff.mp hmem)]

end Graph
end HftExercises.Search
