import HftExercises.Algorithms.ConnectedComponents
import HftExercises.Core.SpanningForest

/-! # The search for a cycle

A vertex is marked when it is pushed, with the vertex it was pushed from as its parent. The pushes
grow a forest. A marked neighbour that is not the parent is joined to the vertex by the forest
already, and a vertex that meets none has only edges of the forest.
-/
namespace HftExercises.Search
open SpanningForest

/-- The state of the loop of `has_cycle`: the top of the stack is the head, and its vertices come
with their parents. `found` is `return true`. -/
structure Hunt where
  seen : List Bool
  stack : List (ℤ × ℤ)
  found : Bool

/-- One round of `for (const int v : adj_[u])`. -/
def meetNeighbour (u parent : ℤ) (s : Hunt) (v : ℤ) : Option Hunt :=
  if s.found then some s
  else do
    let marked ← at? s.seen v
    if !marked then return { s with seen := s.seen.set v.toNat true, stack := (v, u) :: s.stack }
    else if v ≠ parent then return { s with found := true }
    else return s

namespace Graph

def huntTop (g : Graph) (s : Hunt) : Option Hunt :=
  match s.stack with
  | [] => none
  | (u, parent) :: rest => do
    let neighbours ← at? g.adj u
    neighbours.keys.foldlM (meetNeighbour u parent) { s with stack := rest }

/-- One round of `for (std::size_t s = 0; s < n; ++s)`. -/
def huntRound (g : Graph) (fuel : ℕ) (h : Hunt) (s : ℕ) : Option Hunt :=
  if h.found then some h
  else do
    let marked ← h.seen[s]?
    if marked then return h
    else
      whileLoop (fun h => !h.found && !h.stack.isEmpty) g.huntTop fuel
        { h with seen := h.seen.set s true, stack := [(castInt s, -1)] }

def hasCycle (g : Graph) (fuel : ℕ) : Option Bool :=
  ((List.range g.adj.length).foldlM (g.huntRound fuel)
    ⟨List.replicate g.adj.length false, [], false⟩).map Hunt.found

/-! ## Cycles -/

variable {g : Graph} {vertices : ℕ} {edges : List (ℤ × ℤ)}

/-- A loop, or a cycle through different vertices. -/
def Cyclic (vertices : ℕ) (edges : List (ℤ × ℤ)) : Prop :=
  (∃ u, Joins vertices edges u u) ∨
    ∃ (v : ℤ) (c : (simple vertices edges).Walk v v), c.IsCycle ∧ 3 ≤ c.length

theorem cyclic_iff : Cyclic vertices edges ↔
    (∃ u, Joins vertices edges u u) ∨ ¬(simple vertices edges).IsAcyclic := by
  refine or_congr_right ⟨?_, fun h => ?_⟩
  · rintro ⟨v, c, hc, -⟩ h
    exact h c hc
  · simp only [SimpleGraph.IsAcyclic, not_forall, not_not] at h
    obtain ⟨v, c, hc⟩ := h
    exact ⟨v, c, hc, hc.three_le_length⟩

/-! ## The forest of the pushes -/

variable {root u v parent : ℤ} {F : SimpleGraph ℤ} {done met vs : List ℤ} {stack : List (ℤ × ℤ)}

/-- What has been marked: the vertices that have been explored and those on the stack. -/
def known (done : List ℤ) (stack : List (ℤ × ℤ)) : List ℤ := done ++ stack.map Prod.fst

/-- Every edge of an explored vertex is one of the forest. A vertex on the stack has the edge to
its parent only, but for the vertex `u` that is being explored, which has met some neighbours. -/
structure Hunting (vertices : ℕ) (edges : List (ℤ × ℤ)) (root u : ℤ) (F : SimpleGraph ℤ)
    (met done : List ℤ) (stack : List (ℤ × ℤ)) : Prop where
  forest : Forest (simple vertices edges) F (· ∈ known done stack)
  nodup : (known done stack).Nodup
  vertex : ∀ v ∈ known done stack, (0 ≤ v ∧ v < vertices) ∧ v < 2 ^ 31
  explored : ∀ w ∈ done, ¬Joins vertices edges w w ∧
    ∀ v, (simple vertices edges).Adj w v → F.Adj w v
  parent : ∀ e ∈ stack, e.2 = -1 ∨ F.Adj e.1 e.2
  leaf : ∀ e ∈ stack, ∀ v, F.Adj e.1 v → v = e.2 ∨ e.1 = u ∧ v ∈ met
  joined : ∀ e ∈ stack, F.Reachable root e.1
  met : ∀ v ∈ met, F.Adj u v

theorem mem_known_cons {e : ℤ × ℤ} : v ∈ known done (e :: stack) ↔ v = e.1 ∨ v ∈ known done stack := by
  simp only [known, List.mem_append, List.map_cons, List.mem_cons]
  tauto

theorem mem_known_of_mem {e : ℤ × ℤ} (he : e ∈ stack) : e.1 ∈ known done stack :=
  List.mem_append_right done (List.mem_map_of_mem he)

theorem known_push {w : ℤ} : (known done ((u, parent) :: (v, w) :: stack)).Perm
    (v :: known done ((u, parent) :: stack)) :=
  ((List.Perm.swap v u _).append_left done).trans List.perm_middle

/-- Between two rounds no vertex is being explored. -/
theorem Hunting.turn (h : Hunting vertices edges root u F [] done stack) (w : ℤ) :
    Hunting vertices edges root w F [] done stack :=
  { h with
    leaf := fun e he v hv => (h.leaf e he v hv).imp_right fun hv => absurd hv.2 List.not_mem_nil
    met := fun _ hv => absurd hv List.not_mem_nil }

theorem Hunting.length_le (h : Hunting vertices edges root u F met done stack) :
    (known done stack).length ≤ vertices :=
  length_le_of_nodup h.nodup fun v hv => (h.vertex v hv).1

/-- A new neighbour is pushed. -/
theorem Hunting.push (h : Hunting vertices edges root u F met done ((u, parent) :: stack))
    (hv : Joins vertices edges u v) (hlt : v < 2 ^ 31) (hnew : v ∉ known done ((u, parent) :: stack)) :
    Hunting vertices edges root u (F ⊔ SimpleGraph.edge u v) (met ++ [v]) done
      ((u, parent) :: (v, u) :: stack) := by
  have hu : u ∈ known done ((u, parent) :: stack) := mem_known_cons.mpr (.inl rfl)
  have hne : u ≠ v := fun heq => hnew (heq ▸ hu)
  have hadj : ∀ x y, (F ⊔ SimpleGraph.edge u v).Adj x y ↔
      F.Adj x y ∨ x = u ∧ y = v ∨ x = v ∧ y = u := fun x y => adj_sup_edge hne
  have hmono : ∀ x y, F.Adj x y → (F ⊔ SimpleGraph.edge u v).Adj x y := fun x y hxy =>
    (hadj x y).mpr (.inl hxy)
  have hstack : ∀ e ∈ (u, parent) :: (v, u) :: stack, e = (v, u) ∨ e ∈ (u, parent) :: stack := by
    intro e he
    simp only [List.mem_cons] at he ⊢
    tauto
  constructor
  case forest =>
    refine (h.forest.grow ⟨hne, hv⟩ hu hnew).mono fun w hw => known_push.mem_iff.mpr ?_
    exact List.mem_cons.mpr hw.symm
  case nodup => exact known_push.nodup_iff.mpr (List.nodup_cons.mpr ⟨hnew, h.nodup⟩)
  case vertex =>
    intro w hw
    rcases List.mem_cons.mp (known_push.mem_iff.mp hw) with rfl | hw
    · exact ⟨hv.2.1, hlt⟩
    · exact h.vertex w hw
  case explored =>
    intro w hw
    obtain ⟨hloop, hedges⟩ := h.explored w hw
    exact ⟨hloop, fun x hx => hmono w x (hedges x hx)⟩
  case parent =>
    intro e he
    rcases hstack e he with rfl | he
    · exact .inr ((hadj v u).mpr (.inr (.inr ⟨rfl, rfl⟩)))
    · exact (h.parent e he).imp_right (hmono _ _)
  case leaf =>
    intro e he x hx
    rcases hstack e he with rfl | he
    · rcases (hadj v x).mp hx with hx | ⟨heq, -⟩ | ⟨-, hx⟩
      · exact absurd (h.forest.known v x hx) hnew
      · exact absurd heq hne.symm
      · exact .inl hx
    · rcases (hadj e.1 x).mp hx with hx | ⟨heq, rfl⟩ | ⟨heq, -⟩
      · exact (h.leaf e he x hx).imp_right fun hx => ⟨hx.1, List.mem_append_left _ hx.2⟩
      · exact .inr ⟨heq, List.mem_append_right _ (List.mem_singleton_self _)⟩
      · exact absurd (heq ▸ mem_known_of_mem he) hnew
  case joined =>
    intro e he
    have hreach : ∀ e ∈ (u, parent) :: stack, (F ⊔ SimpleGraph.edge u v).Reachable root e.1 :=
      fun e he => (h.joined e he).mono le_sup_left
    rcases hstack e he with rfl | he
    · exact (hreach _ List.mem_cons_self).trans ((hadj u v).mpr (.inr (.inl ⟨rfl, rfl⟩))).reachable
    · exact hreach e he
  case met =>
    intro w hw
    rcases List.mem_append.mp hw with hw | hw
    · exact hmono u w (h.met w hw)
    · rw [List.mem_singleton.mp hw]
      exact (hadj u v).mpr (.inr (.inl ⟨rfl, rfl⟩))

/-- A marked neighbour closes a cycle, unless it is the parent. -/
theorem Hunting.closes (h : Hunting vertices edges root u F met done ((u, parent) :: stack))
    (hv : Joins vertices edges u v) (hold : v ∈ known done ((u, parent) :: stack))
    (hparent : v ≠ parent) (hmet : v ∉ met) : Cyclic vertices edges := by
  by_cases huv : u = v
  · subst huv
    exact .inl ⟨u, hv⟩
  · have hadj : (simple vertices edges).Adj u v := ⟨huv, hv⟩
    have hnot : ¬F.Adj u v := by
      intro hF
      rcases h.leaf _ List.mem_cons_self v hF with heq | ⟨-, hmem⟩
      · exact hparent heq
      · exact hmet hmem
    have hstack : v ∈ ((u, parent) :: stack).map Prod.fst := by
      rcases List.mem_append.mp hold with hdone | hstack
      · exact absurd ((h.explored v hdone).2 u hadj.symm).symm hnot
      · exact hstack
    obtain ⟨e, he, rfl⟩ := List.mem_map.mp hstack
    have hu := h.joined _ List.mem_cons_self
    have hreach := hu.symm.trans (h.joined e he)
    exact cyclic_iff.mpr (.inr (h.forest.not_isAcyclic hadj hnot hreach))

/-- The edge to the parent is one of the forest. -/
theorem Hunting.back (h : Hunting vertices edges root u F met done ((u, parent) :: stack))
    (hv : Joins vertices edges u parent) :
    Hunting vertices edges root u F (met ++ [parent]) done ((u, parent) :: stack) := by
  have hadj : F.Adj u parent := by
    rcases h.parent _ List.mem_cons_self with heq | hadj
    · have hparent := hv.2.1.1
      change parent = -1 at heq
      omega
    · exact hadj
  refine { h with leaf := fun e he x hx => ?_, met := fun w hw => ?_ }
  · exact (h.leaf e he x hx).imp_right fun hx => ⟨hx.1, List.mem_append_left _ hx.2⟩
  · rcases List.mem_append.mp hw with hw | hw
    · exact h.met w hw
    · rw [List.mem_singleton.mp hw]
      exact hadj

theorem known_pop : known (done ++ [u]) stack = known done ((u, parent) :: stack) := by
  simp [known]

/-- A vertex that has met all of its neighbours is explored. -/
theorem Hunting.pop (h : Hunting vertices edges root u F met done ((u, parent) :: stack))
    (hall : ∀ v, Joins vertices edges u v → v ∈ met) :
    Hunting vertices edges root u F [] (done ++ [u]) stack := by
  have hknown : known (done ++ [u]) stack = known done ((u, parent) :: stack) := known_pop
  have hnotin : u ∉ stack.map Prod.fst := by
    have hnodup := (List.nodup_append.mp h.nodup).2.1
    exact (List.nodup_cons.mp hnodup).1
  constructor
  case forest =>
    rw [hknown]
    exact h.forest
  case nodup =>
    rw [hknown]
    exact h.nodup
  case vertex =>
    rw [hknown]
    exact h.vertex
  case explored =>
    intro w hw
    rcases List.mem_append.mp hw with hw | hw
    · exact h.explored w hw
    · rw [List.mem_singleton.mp hw]
      exact ⟨fun hloop => (h.met u (hall u hloop)).ne rfl, fun v hv => h.met v (hall v hv.2)⟩
  case parent => exact fun e he => h.parent e (List.mem_cons_of_mem _ he)
  case leaf =>
    intro e he v hv
    refine (h.leaf e (List.mem_cons_of_mem _ he) v hv).imp_right fun hu => ?_
    exact absurd (hu.1 ▸ List.mem_map_of_mem he) hnotin
  case joined => exact fun e he => h.joined e (List.mem_cons_of_mem _ he)
  case met => exact fun v hv => absurd hv List.not_mem_nil

/-! ## Exploring a vertex -/

/-- The marks are those of the known vertices. -/
abbrev Marked (vertices : ℕ) (vs : List ℤ) (seen : List Bool) : Prop :=
  Labels vertices false (fun _ => true) vs seen

theorem foldlM_found {s : Hunt} (hs : s.found = true) :
    vs.foldlM (meetNeighbour u parent) s = some s := by
  induction vs with
  | nil => rfl
  | cons v vs ih =>
    have hskip : meetNeighbour u parent s v = some s := if_pos hs
    rw [List.foldlM_cons, hskip]
    exact ih

/-- A cycle has been found, or all neighbours have been met. -/
theorem meetAll_spec {seen : List Bool}
    (h : Hunting vertices edges root u F met done ((u, parent) :: stack))
    (hseen : Marked vertices (known done ((u, parent) :: stack)) seen)
    (hvs : ∀ v ∈ vs, Joins vertices edges u v ∧ v < 2 ^ 31) (hnodup : (met ++ vs).Nodup) :
    ∃ s, vs.foldlM (meetNeighbour u parent) ⟨seen, stack, false⟩ = some s ∧
      (s.found = true ∧ Cyclic vertices edges ∨ s.found = false ∧ ∃ F,
        Hunting vertices edges root u F (met ++ vs) done ((u, parent) :: s.stack) ∧
        Marked vertices (known done ((u, parent) :: s.stack)) s.seen ∧ stack ⊆ s.stack) := by
  induction vs generalizing met F stack seen with
  | nil => exact ⟨_, rfl, .inr ⟨rfl, F, by simpa using h, hseen, List.Subset.refl stack⟩⟩
  | cons v vs ih =>
    obtain ⟨⟨hv, hlt⟩, hrest⟩ := List.forall_mem_cons.mp hvs
    have hmet : v ∉ met := fun hmem =>
      (List.nodup_append.mp hnodup).2.2 v hmem v List.mem_cons_self rfl
    have happend : met ++ v :: vs = (met ++ [v]) ++ vs := by simp
    have hmark := hseen.label v hv.2.1
    rw [happend] at hnodup ⊢
    by_cases hold : v ∈ known done ((u, parent) :: stack)
    · rw [if_pos hold] at hmark
      by_cases hparent : parent = v
      · subst hparent
        have hstep : meetNeighbour u parent ⟨seen, stack, false⟩ parent =
            some ⟨seen, stack, false⟩ := by
          simp [meetNeighbour, hmark]
        rw [List.foldlM_cons, hstep]
        exact ih (h.back hv) hseen hrest hnodup
      · have hother : v ≠ parent := fun heq => hparent heq.symm
        have hstep : meetNeighbour u parent ⟨seen, stack, false⟩ v = some ⟨seen, stack, true⟩ := by
          simp [meetNeighbour, hmark, hother]
        refine ⟨⟨seen, stack, true⟩, ?_, .inl ⟨rfl, h.closes hv hold hother hmet⟩⟩
        rw [List.foldlM_cons, hstep]
        exact foldlM_found rfl
    · rw [if_neg hold] at hmark
      have hstep : meetNeighbour u parent ⟨seen, stack, false⟩ v =
          some ⟨seen.set v.toNat true, (v, u) :: stack, false⟩ := by
        simp [meetNeighbour, hmark]
      have hseen' : Marked vertices (known done ((u, parent) :: (v, u) :: stack))
          (seen.set v.toNat true) := by
        apply (hseen.set hv.2.1).congr
        intro w
        exact (List.perm_append_singleton v _).mem_iff.trans known_push.mem_iff.symm
      obtain ⟨s, hs, hend⟩ := ih (h.push hv hlt hold) hseen' hrest hnodup
      refine ⟨s, ?_, hend.imp_right ?_⟩
      · rw [List.foldlM_cons, hstep]
        exact hs
      · rintro ⟨hfound, F, hhunt, hmarked, hsub⟩
        exact ⟨hfound, F, hhunt, hmarked, List.Subset.trans (List.subset_cons_self _ _) hsub⟩

/-- The loop of `has_cycle` between two rounds. -/
def HuntingOn (vertices : ℕ) (edges : List (ℤ × ℤ)) (root : ℤ) (old : List ℤ) (k : ℕ) (s : Hunt) :
    Prop :=
  s.found = true ∧ Cyclic vertices edges ∨ s.found = false ∧ ∃ u F done,
    Hunting vertices edges root u F [] done s.stack ∧ Marked vertices (known done s.stack) s.seen ∧
      (∀ v, v ∈ old ∨ v = root → v ∈ known done s.stack) ∧ done.length + k = vertices

theorem HuntingOn.round {old : List ℤ} {k : ℕ} {s : Hunt}
    (h : HuntingOn vertices edges root old k s) (hg : g.Represents vertices edges)
    (hedges : ∀ u v, Joins vertices edges u v → v < 2 ^ 31)
    (hs : (!s.found && !s.stack.isEmpty) = true) :
    ∃ s' k', g.huntTop s = some s' ∧ HuntingOn vertices edges root old k' s' ∧ k' < k := by
  obtain ⟨seen, stack, found⟩ := s
  rcases h with ⟨hfound, -⟩ | ⟨hfound, w, F, done, hhunt, hseen, hold, hrank⟩
  · change found = true at hfound
    subst hfound
    cases hs
  · change found = false at hfound
    subst hfound
    cases stack with
    | nil => simp at hs
    | cons e rest =>
      obtain ⟨u, parent⟩ := e
      have hu := (hhunt.vertex u (mem_known_cons.mpr (.inl rfl))).1
      obtain ⟨set, hset⟩ := at?_isSome (hg.length.symm ▸ hu)
      have hkeys : ∀ v, v ∈ set.keys ↔ Joins vertices edges u v := by
        intro v
        rw [← neighbours_of_at? hset, hg.mem]
      obtain ⟨s', hs', hend⟩ := meetAll_spec (hhunt.turn u) hseen
        (fun v hv => ⟨(hkeys v).mp hv, hedges u v ((hkeys v).mp hv)⟩)
        (set.keys_sorted.imp fun hlt => hlt.ne)
      have hlen := hhunt.length_le
      simp only [known, List.map_cons, List.length_append, List.length_cons] at hlen
      refine ⟨s', k - 1, ?_, hend.imp_right ?_, by omega⟩
      · simp only [huntTop, hset, Option.bind_eq_bind, Option.bind_some]
        exact hs'
      · rintro ⟨hfound, F, hnext, hmarked, hsub⟩
        rw [List.nil_append] at hnext
        refine ⟨hfound, u, F, done ++ [u], hnext.pop fun v hv => (hkeys v).mpr hv, ?_, fun v hv => ?_,
          ?_⟩
        · rw [known_pop]
          exact hmarked
        · rw [known_pop]
          rcases List.mem_append.mp (hold v hv) with hmem | hmem
          · exact List.mem_append_left _ hmem
          · exact List.mem_append_right _ (List.map_subset _ (List.cons_subset_cons _ hsub) hmem)
        · rw [List.length_append, List.length_singleton]
          omega

/-! ## All components -/

variable {s : ℕ} {t : Hunt}

/-- The state before the search from vertex `s`. -/
def HuntedBefore (vertices : ℕ) (edges : List (ℤ × ℤ)) (s : ℕ) (t : Hunt) : Prop :=
  t.found = true ∧ Cyclic vertices edges ∨ t.found = false ∧ ∃ root u F done,
    Hunting vertices edges root u F [] done [] ∧ Marked vertices done t.seen ∧
      ∀ v : ℤ, 0 ≤ v → v < s → v ∈ done

theorem known_nil (done : List ℤ) : known done [] = done := List.append_nil done

theorem Hunting.start (h : Hunting vertices edges root u F [] done [])
    (hv : (0 ≤ v ∧ v < vertices) ∧ v < 2 ^ 31) (hnew : v ∉ done) :
    Hunting vertices edges v u F [] done [(v, -1)] := by
  have hold : ∀ w, w ∈ known done [] → w ∈ known done [(v, -1)] := fun w hw =>
    mem_known_cons.mpr (.inr hw)
  rw [← known_nil done] at hnew
  constructor
  case forest => exact h.forest.mono hold
  case nodup =>
    have hperm : (known done [(v, -1)]).Perm (v :: known done []) := List.perm_middle
    exact hperm.nodup_iff.mpr (List.nodup_cons.mpr ⟨hnew, h.nodup⟩)
  case vertex =>
    intro w hw
    rcases mem_known_cons.mp hw with rfl | hw
    · exact hv
    · exact h.vertex w hw
  case explored => exact h.explored
  case parent =>
    intro e he
    rw [List.mem_singleton.mp he]
    exact .inl rfl
  case leaf =>
    intro e he x hx
    rw [List.mem_singleton.mp he] at hx
    exact absurd (h.forest.known v x hx) hnew
  case joined =>
    intro e he
    rw [List.mem_singleton.mp he]
  case met => exact fun w hw => absurd hw List.not_mem_nil

theorem HuntedBefore.round (h : HuntedBefore vertices edges s t) (hg : g.Represents vertices edges)
    (hedges : ∀ u v, Joins vertices edges u v → v < 2 ^ 31) (hs : s < vertices) (hint : s < 2 ^ 31) :
    ∃ t', (∀ fuel, vertices ≤ fuel → g.huntRound fuel t s = some t') ∧
      HuntedBefore vertices edges (s + 1) t' := by
  rcases h with ⟨hfound, hcyclic⟩ | ⟨hfound, root, u, F, done, hhunt, hseen, hcover⟩
  · exact ⟨t, fun fuel _ => if_pos hfound, .inl ⟨hfound, hcyclic⟩⟩
  · have hvertex : (0 : ℤ) ≤ s ∧ (s : ℤ) < vertices := ⟨by omega, by omega⟩
    have hmark := hseen.label s hvertex
    rw [at?_natCast] at hmark
    by_cases hdone : (s : ℤ) ∈ done
    · rw [if_pos hdone] at hmark
      refine ⟨t, fun fuel _ => by simp [huntRound, hfound, hmark], .inr ⟨hfound, root, u, F, done,
        hhunt, hseen, fun v h0 hlt => ?_⟩⟩
      by_cases hvs : v = s
      · exact hvs ▸ hdone
      · exact hcover v h0 (by omega)
    · rw [if_neg hdone] at hmark
      have hlen := hhunt.length_le
      rw [known_nil] at hlen
      have hinit : HuntingOn vertices edges s done (vertices - done.length)
          ⟨t.seen.set s true, [((s : ℤ), -1)], false⟩ := by
        refine .inr ⟨rfl, u, F, done, hhunt.start ⟨hvertex, by omega⟩ hdone, ?_, fun v hv => ?_,
          by omega⟩
        · have hset := hseen.set hvertex
          rw [Int.toNat_natCast] at hset
          exact hset
        · rw [mem_known_cons, known_nil]
          exact hv.symm
      obtain ⟨t', l, hrun, hlast, hstop⟩ := whileLoop_ranked (HuntingOn vertices edges s done)
        (fun _ _ h hs => h.round hg hedges hs) hinit
      refine ⟨t', fun fuel hfuel => ?_, hlast.imp_right ?_⟩
      · simp [huntRound, hfound, hmark, castInt_of_lt hint, hrun fuel (by omega)]
      · rintro ⟨hnot, u, F, done', hhunt', hseen', hold, -⟩
        have hempty : t'.stack = [] := by simpa [hnot] using hstop
        rw [hempty] at hhunt'
        rw [hempty, known_nil] at hseen'
        refine ⟨hnot, s, u, F, done', hhunt', hseen', fun v h0 hlt => ?_⟩
        rw [← known_nil done', ← hempty]
        by_cases hvs : v = s
        · exact hold v (.inr hvs)
        · exact hold v (.inl (hcover v h0 (by omega)))

theorem huntedBefore_spec (hg : g.Represents vertices edges)
    (hedges : ∀ u v, Joins vertices edges u v → v < 2 ^ 31) (hs : s ≤ vertices) (hint : s ≤ 2 ^ 31) :
    ∃ t, (∀ fuel, vertices ≤ fuel → (List.range s).foldlM (g.huntRound fuel)
      ⟨List.replicate vertices false, [], false⟩ = some t) ∧ HuntedBefore vertices edges s t := by
  have hempty : Hunting vertices edges 0 0 ⊥ [] [] [] :=
    ⟨forest_bot _ _, List.nodup_nil, by simp [known], by simp, by simp, by simp, by simp, by simp⟩
  have hinit : HuntedBefore vertices edges 0 ⟨List.replicate vertices false, [], false⟩ :=
    .inr ⟨rfl, 0, 0, ⊥, [], hempty, labels_replicate _ _ _,
      fun v h0 hlt => absurd hlt (Int.not_lt.mpr h0)⟩
  have hround : ∀ i t, i < s → HuntedBefore vertices edges i t →
      ∃ t', (∀ fuel : { fuel // vertices ≤ fuel }, g.huntRound fuel t i = some t') ∧
        HuntedBefore vertices edges (i + 1) t' := by
    intro i t hi h
    obtain ⟨t', ht', h'⟩ := h.round hg hedges (hi.trans_le hs) (hi.trans_le hint)
    exact ⟨t', fun fuel => ht' fuel fuel.2, h'⟩
  obtain ⟨t, ht, h⟩ := foldlM_range
    (fun fuel : { fuel // vertices ≤ fuel } => g.huntRound fuel) _ hround hinit
  exact ⟨t, fun fuel hfuel => ht ⟨fuel, hfuel⟩, h⟩

/-- Once every vertex with an edge has been explored, the answer is right. -/
theorem HuntedBefore.found_iff (h : HuntedBefore vertices edges s t)
    (hedges : ∀ u v, Joins vertices edges u v → v < s) : t.found = true ↔ Cyclic vertices edges := by
  rcases h with ⟨hfound, hcyclic⟩ | ⟨hfound, root, u, F, done, hhunt, -, hcover⟩
  · exact iff_of_true hfound hcyclic
  · have hdone : ∀ u v, Joins vertices edges u v → u ∈ done := fun u v huv =>
      hcover u huv.1.1 (hedges v u huv.symm)
    have hacyclic := hhunt.forest.isAcyclic fun u v huv =>
      (hhunt.explored u (hdone u v huv.2)).2 v huv
    refine iff_of_false (by simp [hfound]) fun hcyclic => ?_
    rcases cyclic_iff.mp hcyclic with ⟨u, hu⟩ | hnot
    · exact (hhunt.explored u (hdone u u hu)).1 hu
    · exact hnot hacyclic

/-- A graph for which `has_cycle` returns what it should. -/
def DecidesCycles (g : Graph) (vertices : ℕ) (edges : List (ℤ × ℤ)) : Prop :=
  ∃ b, (∀ fuel, g.adj.length ≤ fuel → g.hasCycle fuel = some b) ∧
    (b = true ↔ Cyclic vertices edges)

theorem decidesCycles_of_le (hg : g.Represents vertices edges)
    (hedges : ∀ u v, Joins vertices edges u v → v < 2 ^ 31) (hfew : vertices ≤ 2 ^ 31) :
    g.DecidesCycles vertices edges := by
  obtain ⟨t, ht, h⟩ := huntedBefore_spec hg hedges (Nat.le_refl vertices) hfew
  refine ⟨t.found, fun fuel hfuel => ?_, h.found_iff fun u v huv => huv.2.1.2⟩
  rw [hg.length] at hfuel
  rw [hasCycle, hg.length, ht fuel hfuel]
  rfl

theorem foldlM_huntRound_found {fuel : ℕ} {l : List ℕ} (ht : t.found = true) :
    l.foldlM (g.huntRound fuel) t = some t := by
  induction l with
  | nil => rfl
  | cons s l ih =>
    have hskip : g.huntRound fuel t s = some t := if_pos ht
    rw [List.foldlM_cons, hskip]
    exact ih

/-- The search from the first vertex that is no `int` reads outside of the vector. -/
theorem huntRound_overflows {fuel : ℕ} (hmark : t.seen[s]? = some false) (ht : t.found = false)
    (hcast : castInt s < 0) : g.huntRound fuel t s = none := by
  have hout : at? g.adj (castInt s) = none := if_pos hcast
  have hvisit : g.huntTop ⟨t.seen.set s true, [(castInt s, -1)], false⟩ = none := by
    simp [huntTop, hout]
  have hloop : whileLoop (fun h => !h.found && !h.stack.isEmpty) g.huntTop fuel
      ⟨t.seen.set s true, [(castInt s, -1)], false⟩ = none := by
    cases fuel with
    | zero => rfl
    | succ fuel =>
      rw [whileLoop, hvisit]
      rfl
  simp [huntRound, ht, hmark, hloop]

/-- With more vertices than there are `int`s only a cycle is answered. -/
theorem decidesCycles_iff_cyclic (hg : g.Represents vertices edges) (hs : s = 2 ^ 31)
    (hedges : ∀ u v, Joins vertices edges u v → v < s) (hmany : s < vertices)
    (hcast : castInt s < 0) : g.DecidesCycles vertices edges ↔ Cyclic vertices edges := by
  have hint : ∀ u v, Joins vertices edges u v → v < 2 ^ 31 := by
    intro u v huv
    have hlt := hedges u v huv
    omega
  obtain ⟨t, ht, h⟩ := huntedBefore_spec hg hint hmany.le hs.le
  obtain ⟨rest, hsplit⟩ := exists_range_split hmany
  have hrun : ∀ fuel, vertices ≤ fuel → g.hasCycle fuel =
      ((s :: rest).foldlM (g.huntRound fuel) t).map Hunt.found := by
    intro fuel hfuel
    rw [hasCycle, hg.length, hsplit, List.foldlM_append, ht fuel hfuel]
    rfl
  constructor
  · rintro ⟨b, hb, -⟩
    by_contra hnot
    rcases h with ⟨-, hcyclic⟩ | ⟨hfound, root, u, F, done, hhunt, hseen, -⟩
    · exact hnot hcyclic
    · have hnew : (s : ℤ) ∉ done := by
        intro hmem
        have hlt := (hhunt.vertex s (by rwa [known_nil])).2
        omega
      have hmark := hseen.label s ⟨by omega, by omega⟩
      rw [if_neg hnew, at?_natCast] at hmark
      have hnone := hrun vertices (Nat.le_refl vertices)
      rw [hb vertices hg.length.le, List.foldlM_cons, huntRound_overflows hmark hfound hcast] at hnone
      cases hnone
  · intro hcyclic
    have hfound := (h.found_iff hedges).mpr hcyclic
    refine ⟨true, fun fuel hfuel => ?_, iff_of_true rfl hcyclic⟩
    rw [hg.length] at hfuel
    rw [hrun fuel hfuel, foldlM_huntRound_found hfound, Option.map_some, hfound]

theorem decidesCycles_iff (vertices : ℕ) (edges : List (Int32 × Int32)) :
    ∃ g, ofEdges vertices edges = some g ∧ (g.DecidesCycles vertices (ints edges) ↔
      vertices ≤ 2 ^ 31 ∨ Cyclic vertices (ints edges)) := by
  obtain ⟨g, hbuild, hg⟩ := build_represents vertices (ints edges)
  refine ⟨g, hbuild, ?_⟩
  by_cases hfew : vertices ≤ 2 ^ 31
  · exact iff_of_true (decidesCycles_of_le hg (fun _ _ h => h.lt_int) hfew) (.inl hfew)
  · have hcast : castInt (2 ^ 31) < 0 := by decide
    rw [decidesCycles_iff_cyclic hg rfl (fun _ _ h => h.lt_int) (Nat.lt_of_not_le hfew) hcast]
    exact ⟨.inr, fun h => h.resolve_left hfew⟩

end Graph

/-- On every graph that `add_edge` has built the search returns whether there is a loop or a cycle,
exactly when the vertices are `int`s or there is one. -/
theorem hasCycle_iff (vertices : ℕ) (edges : List (Int32 × Int32)) :
    (∃ g, Graph.ofEdges vertices edges = some g ∧
      g.DecidesCycles vertices (Graph.ints edges)) ↔
      vertices ≤ 2 ^ 31 ∨ Graph.Cyclic vertices (Graph.ints edges) := by
  obtain ⟨g, hbuild, hiff⟩ := Graph.decidesCycles_iff vertices edges
  rw [← hiff]
  constructor
  · rintro ⟨g', hg', h⟩
    obtain rfl := Option.some.inj (hbuild.symm.trans hg')
    exact h
  · exact fun h => ⟨g, hbuild, h⟩

/-- One vertex more than there are `int`s for, and no edge. -/
theorem hasCycle_overflows : ¬∃ g, Graph.ofEdges (2 ^ 31 + 1) [] = some g ∧
    g.DecidesCycles (2 ^ 31 + 1) (Graph.ints []) := by
  obtain ⟨g, hbuild, hiff⟩ := Graph.decidesCycles_iff (2 ^ 31 + 1) []
  rintro ⟨g', hg', h⟩
  obtain rfl := Option.some.inj (hbuild.symm.trans hg')
  rcases hiff.mp h with hle | ⟨u, -, -, he⟩ | ⟨v, c, hc, -⟩
  · exact absurd hle (Nat.not_succ_le_self (2 ^ 31))
  · exact he.elim List.not_mem_nil List.not_mem_nil
  · have hadj := c.adj_snd hc.not_nil
    exact hadj.2.2.2.elim List.not_mem_nil List.not_mem_nil

end HftExercises.Search
