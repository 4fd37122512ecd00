import Mathlib.Combinatorics.SimpleGraph.Metric

/-! # Breadth-first search

The vertices that have left the queue and then those in it, in the order of their discovery. The
distances from the start never fall along it, and those in the queue are at most one apart, so
what is discovered next is one step further than the vertex it is discovered from.
-/
namespace HftExercises.BreadthFirst
variable {V : Type*} {G : SimpleGraph V} {start u v : V} {done queue rest fresh : List V}

section Distances

/-- The last step of a shortest path. -/
theorem exists_adj_dist (h : G.Reachable start v) (hne : start ≠ v) :
    ∃ w, G.Adj w v ∧ G.Reachable start w ∧ G.dist start w + 1 = G.dist start v := by
  obtain ⟨p, hp⟩ := h.exists_walk_length_eq_dist
  have hnil : ¬p.Nil := fun hnil => hne hnil.eq
  have hadj := p.adj_penultimate hnil
  have hshort := SimpleGraph.dist_le p.dropLast
  have hlen : p.dropLast.length + 1 = p.length := p.length_dropLast_add_one hnil
  have hstep := (p.dropLast.reachable).dist_triangle_left v
  rw [SimpleGraph.dist_eq_one_iff_adj.mpr hadj] at hstep
  exact ⟨p.penultimate, hadj, p.dropLast.reachable, by omega⟩

theorem dist_le_succ (h : G.Reachable start u) (hadj : G.Adj u v) :
    G.dist start v ≤ G.dist start u + 1 := by
  have htriangle := h.dist_triangle_left v
  rwa [SimpleGraph.dist_eq_one_iff_adj.mpr hadj] at htriangle

/-- A set with the start and the neighbours of what it has has all that can be reached. -/
theorem mem_of_reachable {P : V → Prop} (h : G.Reachable start v) (hstart : P start)
    (hclosed : ∀ u, P u → ∀ v, G.Adj u v → P v) : P v := by
  rw [SimpleGraph.reachable_iff_reflTransGen] at h
  induction h with
  | refl => exact hstart
  | tail _ hadj ih => exact hclosed _ ih _ hadj

/-- A shortest path has no vertex twice. -/
theorem dist_lt_card {S : Finset V} (hstart : start ∈ S) (hS : ∀ u v, G.Adj u v → v ∈ S)
    (h : G.Reachable start v) : G.dist start v < S.card := by
  classical
  obtain ⟨p, hpath, hlen⟩ := h.exists_path_of_dist
  have hsub : p.support.toFinset ⊆ S := by
    intro w hw
    have hreach := (p.takeUntil w (List.mem_toFinset.mp hw)).reachable
    exact mem_of_reachable (P := (· ∈ S)) hreach hstart fun u _ v => hS u v
  have hcard := Finset.card_le_card hsub
  rw [List.toFinset_card_of_nodup hpath.support_nodup, p.length_support] at hcard
  omega

end Distances

/-- The search between two rounds. -/
structure Layered (G : SimpleGraph V) (start : V) (done queue : List V) : Prop where
  start_mem : start ∈ done ++ queue
  nodup : (done ++ queue).Nodup
  reachable : ∀ v ∈ done ++ queue, G.Reachable start v
  closed : ∀ u ∈ done, ∀ v, G.Adj u v → v ∈ done ++ queue
  sorted : (done ++ queue).Pairwise fun u v => G.dist start u ≤ G.dist start v
  level : ∀ u ∈ queue, ∀ v ∈ queue, G.dist start v ≤ G.dist start u + 1

theorem layered_start (G : SimpleGraph V) (start : V) : Layered G start [] [start] where
  start_mem := List.mem_singleton_self start
  nodup := List.nodup_singleton start
  reachable v hv := by rw [List.mem_singleton.mp hv]
  closed u hu := absurd hu List.not_mem_nil
  sorted := List.pairwise_singleton _ _
  level u hu v hv := by
    rw [List.mem_singleton.mp hu, List.mem_singleton.mp hv]
    exact Nat.le_succ _

/-- What is nearer to the start than the front of the queue has left it. -/
theorem Layered.mem_done (h : Layered G start done (u :: rest)) (hv : G.Reachable start v)
    (hlt : G.dist start v < G.dist start u) : v ∈ done := by
  have hout : ∀ w ∈ done ++ u :: rest, G.dist start w < G.dist start u → w ∈ done := by
    intro w hw hnear
    rcases List.mem_append.mp hw with hw | hw
    · exact hw
    · rcases List.mem_cons.mp hw with rfl | hw
      · exact absurd hnear (Nat.lt_irrefl _)
      · have hsorted := (List.pairwise_append.mp h.sorted).2.1
        exact absurd hnear (Nat.not_lt_of_le (List.rel_of_pairwise_cons hsorted hw))
  induction hdist : G.dist start v generalizing v with
  | zero =>
    obtain rfl := hv.dist_eq_zero_iff.mp hdist
    exact hout _ h.start_mem hlt
  | succ n ih =>
    have hne : start ≠ v := by
      rintro rfl
      rw [SimpleGraph.dist_self] at hdist
      cases hdist
    obtain ⟨w, hadj, hw, hprev⟩ := exists_adj_dist hv hne
    have hwdone := ih hw (by omega) (by omega)
    exact hout v (h.closed w hwdone v hadj) hlt

theorem Layered.dist_eq (h : Layered G start done (u :: rest)) (hadj : G.Adj u v)
    (hv : v ∉ done ++ u :: rest) : G.dist start v = G.dist start u + 1 := by
  have hu := h.reachable u (List.mem_append_right done List.mem_cons_self)
  have hne : start ≠ v := fun heq => hv (heq ▸ h.start_mem)
  obtain ⟨w, hwv, hw, hprev⟩ := exists_adj_dist (hu.trans hadj.reachable) hne
  have hle := dist_le_succ hu hadj
  by_contra hdist
  -- the vertex before it would have left the queue with all of its neighbours discovered
  exact hv (h.closed w (h.mem_done hw (by omega)) v hwv)

/-- One round: the front of the queue is visited and its new neighbours join the queue. -/
theorem Layered.visit (h : Layered G start done (u :: rest)) (hnodup : fresh.Nodup)
    (hfresh : ∀ v, v ∈ fresh ↔ G.Adj u v ∧ v ∉ done ++ u :: rest) :
    Layered G start (done ++ [u]) (rest ++ fresh) := by
  have hlist : (done ++ [u]) ++ (rest ++ fresh) = (done ++ u :: rest) ++ fresh := by simp
  have hu := h.reachable u (List.mem_append_right done List.mem_cons_self)
  have hdist : ∀ v ∈ fresh, G.dist start v = G.dist start u + 1 := by
    intro v hv
    obtain ⟨hadj, hnew⟩ := (hfresh v).mp hv
    exact h.dist_eq hadj hnew
  have hnear : ∀ v ∈ done ++ u :: rest, G.dist start v ≤ G.dist start u + 1 := by
    intro v hv
    rcases List.mem_append.mp hv with hv | hv
    · exact ((List.pairwise_append.mp h.sorted).2.2 v hv u List.mem_cons_self).trans (Nat.le_succ _)
    · exact h.level u List.mem_cons_self v hv
  have hsorted := (List.pairwise_append.mp h.sorted).2.1
  constructor
  case start_mem =>
    rw [hlist]
    exact List.mem_append_left _ h.start_mem
  case nodup =>
    rw [hlist]
    refine List.nodup_append.mpr ⟨h.nodup, hnodup, ?_⟩
    rintro v hv w hw rfl
    exact ((hfresh v).mp hw).2 hv
  case reachable =>
    rw [hlist]
    intro v hv
    rcases List.mem_append.mp hv with hv | hv
    · exact h.reachable v hv
    · exact hu.trans ((hfresh v).mp hv).1.reachable
  case closed =>
    rw [hlist]
    intro w hw v hadj
    rcases List.mem_append.mp hw with hw | hw
    · exact List.mem_append_left _ (h.closed w hw v hadj)
    · rw [List.mem_singleton.mp hw] at hadj
      by_cases hv : v ∈ done ++ u :: rest
      · exact List.mem_append_left _ hv
      · exact List.mem_append_right _ ((hfresh v).mpr ⟨hadj, hv⟩)
  case sorted =>
    rw [hlist]
    refine List.pairwise_append.mpr ⟨h.sorted, ?_, fun v hv w hw => ?_⟩
    · apply List.pairwise_of_forall_mem_list
      intro v hv w hw
      rw [hdist v hv, hdist w hw]
    · exact (hnear v hv).trans_eq (hdist w hw).symm
  case level =>
    intro w hw v hv
    have hfar : G.dist start u ≤ G.dist start w := by
      rcases List.mem_append.mp hw with hw | hw
      · exact List.rel_of_pairwise_cons hsorted hw
      · exact (Nat.le_succ _).trans_eq (hdist w hw).symm
    have hbound : G.dist start v ≤ G.dist start u + 1 := by
      rcases List.mem_append.mp hv with hv | hv
      · exact hnear v (List.mem_append_right done (List.mem_cons_of_mem u hv))
      · exact (hdist v hv).le
    exact hbound.trans (Nat.succ_le_succ hfar)

/-- With an empty queue exactly what can be reached has been visited. -/
theorem Layered.mem_iff (h : Layered G start done []) : v ∈ done ↔ G.Reachable start v := by
  have hall := h.reachable
  have hstart := h.start_mem
  have hclosed := h.closed
  rw [List.append_nil] at hall hstart hclosed
  exact ⟨hall v, fun hv => mem_of_reachable hv hstart hclosed⟩

end HftExercises.BreadthFirst
