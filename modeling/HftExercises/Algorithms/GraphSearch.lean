import HftExercises.Core.DepthFirst
import HftExercises.Core.OrdMap
import HftExercises.Core.Worklist

/-! # Graph search

Vertices are `int`s, and a set of neighbours is iterated in ascending order. An index
outside of a vector is `none`.
-/
namespace HftExercises.Search

/-- `std::set<int>` -/
abbrev IntSet := OrdMap (fun a b : ℤ => a < b) Unit

/-- `insert(v)`, with `.second`. -/
def IntSet.insert (s : IntSet) (v : ℤ) : IntSet × Bool :=
  if (s.find? v).isSome then (s, false) else (s.set v (), true)

/-- A vector at an `int`. -/
def at? {A : Type} (l : List A) (i : ℤ) : Option A := if i < 0 then none else l[i.toNat]?

structure Graph where
  adj : List IntSet
  edgeCount : ℕ

namespace Graph

def create (vertices : ℕ) : Graph := ⟨List.replicate vertices .empty, 0⟩

def checkVertex (g : Graph) (v : ℤ) : Except String Unit :=
  if v < 0 ∨ g.adj.length ≤ v.toNat then .error "Graph: vertex out of range" else .ok ()

/-- Both vertices have been checked. -/
def addChecked (g : Graph) (u v : ℤ) : Option Graph := do
  let s ← at? g.adj u
  if u = v then
    return if (s.insert v).2 then ⟨g.adj.set u.toNat (s.insert v).1, g.edgeCount + 1⟩ else g
  else if (s.insert v).2 then
    let adj := g.adj.set u.toNat (s.insert v).1
    let t ← at? adj v
    return ⟨adj.set v.toNat (t.insert u).1, g.edgeCount + 1⟩
  else
    return g

def addEdge (g : Graph) (u v : ℤ) : Except String (Option Graph) := do
  g.checkVertex u
  g.checkVertex v
  return g.addChecked u v

/-- The state of the loop of `dfs`; the top of the stack is the head. -/
structure Walk where
  seen : List Bool
  order : List ℤ
  stack : List ℤ

def pushUnseen (seen : List Bool) (stack : List ℤ) (v : ℤ) : Option (List ℤ) :=
  (at? seen v).map fun marked => if marked then stack else v :: stack

def visitTop (g : Graph) (s : Walk) : Option Walk :=
  match s.stack with
  | [] => none
  | u :: rest => do
    let marked ← at? s.seen u
    if marked then return { s with stack := rest }
    else
      let seen := s.seen.set u.toNat true
      let neighbours ← at? g.adj u
      let stack ← neighbours.keys.reverse.foldlM (pushUnseen seen) rest
      return ⟨seen, s.order ++ [u], stack⟩

def dfs (g : Graph) (fuel : ℕ) (start : ℤ) : Option (Except String (List ℤ)) :=
  match g.checkVertex start with
  | .error e => some (.error e)
  | .ok () =>
    (whileLoop (fun s => !s.stack.isEmpty) g.visitTop fuel
      ⟨List.replicate g.adj.length false, [], [start]⟩).map fun s => .ok s.order

/-- The neighbours of a vertex in ascending order. -/
def neighbours (g : Graph) (u : ℤ) : List ℤ := ((at? g.adj u).map OrdMap.keys).getD []

def IsVertex (g : Graph) (v : ℤ) : Prop := 0 ≤ v ∧ v < g.adj.length

instance (g : Graph) (v : ℤ) : Decidable (g.IsVertex v) := inferInstanceAs (Decidable (_ ∧ _))

/-- The graph after an `add_edge` that may throw. -/
def withEdge (g : Graph) (e : ℤ × ℤ) : Option Graph :=
  match g.addEdge e.1 e.2 with
  | .ok g' => g'
  | .error _ => some g

def build (vertices : ℕ) (edges : List (ℤ × ℤ)) : Option Graph :=
  edges.foldlM withEdge (create vertices)

end Graph

/-! ## Sets and vectors -/

theorem IntSet.mem_keys {s : IntSet} {v : ℤ} : v ∈ s.keys ↔ (s.find? v).isSome = true := by
  rw [Option.isSome_iff_exists]
  simp [OrdMap.keys, OrdMap.find?_eq_some_iff]

theorem IntSet.insert_fst (s : IntSet) (v w : ℤ) :
    w ∈ (s.insert v).1.keys ↔ w = v ∨ w ∈ s.keys := by
  rw [IntSet.insert]
  split_ifs with h
  · have hv : v ∈ s.keys := IntSet.mem_keys.mpr h
    exact ⟨.inr, fun hw => hw.elim (fun heq => heq ▸ hv) id⟩
  · rw [IntSet.mem_keys, IntSet.mem_keys, OrdMap.find?_set]
    split_ifs with hw <;> simp [hw]

theorem IntSet.insert_snd (s : IntSet) (v : ℤ) : (s.insert v).2 = true ↔ v ∉ s.keys := by
  rw [IntSet.insert, IntSet.mem_keys]
  split_ifs with h <;> simp [h]

section At
variable {A : Type} {l : List A} {i j : ℤ}

theorem at?_isSome (h : 0 ≤ i ∧ i < l.length) : ∃ a, at? l i = some a := by
  have hi : i.toNat < l.length := by omega
  exact ⟨l[i.toNat], by rw [at?, if_neg (by omega), List.getElem?_eq_getElem hi]⟩

theorem at?_set (a : A) (h : 0 ≤ i ∧ i < l.length) :
    at? (l.set i.toNat a) j = if j = i then some a else at? l j := by
  have hi : i.toNat < l.length := by omega
  by_cases hj : j < 0
  · rw [at?, if_pos hj, if_neg (by omega), at?, if_pos hj]
  · rw [at?, if_neg hj, at?, if_neg hj, List.getElem?_set]
    have hiff : i.toNat = j.toNat ↔ j = i := by omega
    simp only [hiff, hi, if_true]

theorem at?_replicate {n : ℕ} {a : A} (h : 0 ≤ i ∧ i < n) :
    at? (List.replicate n a) i = some a := by
  rw [at?, if_neg (by omega), List.getElem?_replicate, if_pos (by omega)]

end At

/-! ## Undirected graphs -/

namespace Graph
variable {g : Graph} {u v w : ℤ} {edges : List (ℤ × ℤ)} {vertices : ℕ}

theorem checkVertex_eq (g : Graph) (v : ℤ) :
    g.checkVertex v = if g.IsVertex v then .ok () else .error "Graph: vertex out of range" := by
  rw [checkVertex]
  by_cases h : g.IsVertex v
  · rw [if_pos h, if_neg (by rw [IsVertex] at h; omega)]
  · rw [if_neg h, if_pos (by rw [IsVertex] at h; omega)]

theorem neighbours_sorted (g : Graph) (u : ℤ) : (g.neighbours u).Pairwise (· < ·) := by
  rw [neighbours]
  cases at? g.adj u with
  | none => exact List.Pairwise.nil
  | some s => exact s.keys_sorted

theorem neighbours_of_at? {s : IntSet} (h : at? g.adj u = some s) : g.neighbours u = s.keys := by
  rw [neighbours, h]
  rfl

/-- What an edge list makes of the vertices. -/
def Joins (vertices : ℕ) (edges : List (ℤ × ℤ)) (u v : ℤ) : Prop :=
  (0 ≤ u ∧ u < vertices) ∧ (0 ≤ v ∧ v < vertices) ∧ ((u, v) ∈ edges ∨ (v, u) ∈ edges)

theorem Joins.symm (h : Joins vertices edges u v) : Joins vertices edges v u :=
  ⟨h.2.1, h.1, h.2.2.symm⟩

/-- The adjacency sets are those of the edges. -/
structure Represents (g : Graph) (vertices : ℕ) (edges : List (ℤ × ℤ)) : Prop where
  length : g.adj.length = vertices
  mem : ∀ u v, v ∈ g.neighbours u ↔ Joins vertices edges u v

section Concat
variable {x y : ℤ}

theorem joins_concat (hu : 0 ≤ u ∧ u < vertices) (hv : 0 ≤ v ∧ v < vertices) :
    Joins vertices (edges ++ [(u, v)]) x y ↔
      Joins vertices edges x y ∨ x = u ∧ y = v ∨ x = v ∧ y = u := by
  simp only [Joins, List.mem_append, List.mem_singleton, Prod.mk.injEq]
  constructor
  · tauto
  · rintro (hold | ⟨rfl, rfl⟩ | ⟨rfl, rfl⟩)
    · tauto
    · exact ⟨hu, hv, .inl (.inr ⟨rfl, rfl⟩)⟩
    · exact ⟨hv, hu, .inr (.inr ⟨rfl, rfl⟩)⟩

theorem joins_concat_of_not_valid (h : ¬((0 ≤ u ∧ u < vertices) ∧ 0 ≤ v ∧ v < vertices)) :
    Joins vertices (edges ++ [(u, v)]) x y ↔ Joins vertices edges x y := by
  simp only [Joins, List.mem_append, List.mem_singleton, Prod.mk.injEq]
  constructor
  · rintro ⟨hx, hy, (he | ⟨rfl, rfl⟩) | he | ⟨rfl, rfl⟩⟩
    · exact ⟨hx, hy, .inl he⟩
    · exact absurd ⟨hx, hy⟩ h
    · exact ⟨hx, hy, .inr he⟩
    · exact absurd ⟨hy, hx⟩ h
  · tauto

end Concat

/-- One set of the graph is exchanged for one with another neighbour. -/
theorem neighbours_insert (hu : g.IsVertex u) {s : IntSet} (hs : at? g.adj u = some s) (n : ℕ)
    (x y : ℤ) : y ∈ (⟨g.adj.set u.toNat (s.insert v).1, n⟩ : Graph).neighbours x ↔
      y ∈ g.neighbours x ∨ x = u ∧ y = v := by
  rw [neighbours, at?_set _ hu]
  by_cases hx : x = u
  · rw [if_pos hx, hx, neighbours_of_at? hs]
    change y ∈ (s.insert v).1.keys ↔ _
    rw [IntSet.insert_fst]
    tauto
  · rw [if_neg hx]
    simp [neighbours, hx]

theorem addEdge_of_valid (hu : g.IsVertex u) (hv : g.IsVertex v) :
    g.addEdge u v = .ok (g.addChecked u v) := by
  rw [addEdge, checkVertex_eq, checkVertex_eq, if_pos hu, if_pos hv]
  rfl

/-- `add_edge` throws before it writes. -/
theorem withEdge_of_not_valid (h : ¬(g.IsVertex u ∧ g.IsVertex v)) : g.withEdge (u, v) = some g := by
  have hthrow : g.addEdge u v = .error "Graph: vertex out of range" := by
    rw [addEdge, checkVertex_eq, checkVertex_eq]
    by_cases hu : g.IsVertex u
    · rw [if_pos hu, if_neg fun hv => h ⟨hu, hv⟩]
      rfl
    · rw [if_neg hu]
      rfl
  rw [withEdge, hthrow]

section Valid
variable {s t : IntSet}

theorem withEdge_old (hu : g.IsVertex u) (hv : g.IsVertex v) (hs : at? g.adj u = some s)
    (hold : (s.insert v).2 = false) : g.withEdge (u, v) = some g := by
  rw [withEdge, addEdge_of_valid hu hv, addChecked, hs]
  by_cases huv : u = v <;> simp [huv, hold]

theorem withEdge_loop (hu : g.IsVertex u) (hs : at? g.adj u = some s)
    (hnew : (s.insert u).2 = true) :
    g.withEdge (u, u) = some ⟨g.adj.set u.toNat (s.insert u).1, g.edgeCount + 1⟩ := by
  rw [withEdge, addEdge_of_valid hu hu, addChecked, hs]
  simp [hnew]

theorem withEdge_new (hu : g.IsVertex u) (hv : g.IsVertex v) (huv : u ≠ v)
    (hs : at? g.adj u = some s) (hnew : (s.insert v).2 = true)
    (ht : at? (g.adj.set u.toNat (s.insert v).1) v = some t) :
    g.withEdge (u, v) = some
      ⟨(g.adj.set u.toNat (s.insert v).1).set v.toNat (t.insert u).1, g.edgeCount + 1⟩ := by
  rw [withEdge, addEdge_of_valid hu hv, addChecked, hs]
  simp [huv, hnew, ht]

end Valid

/-- What a valid edge changes: both neighbours, and the count when it is new. -/
theorem withEdge_of_valid (hu : g.IsVertex u) (hv : g.IsVertex v)
    (hsymm : v ∈ g.neighbours u → u ∈ g.neighbours v) :
    ∃ g', g.withEdge (u, v) = some g' ∧ g'.adj.length = g.adj.length ∧
      (∀ x y, y ∈ g'.neighbours x ↔ y ∈ g.neighbours x ∨ x = u ∧ y = v ∨ x = v ∧ y = u) ∧
      g'.edgeCount = if v ∈ g.neighbours u then g.edgeCount else g.edgeCount + 1 := by
  obtain ⟨s, hs⟩ := at?_isSome hu
  have hnew : (s.insert v).2 = true ↔ v ∉ g.neighbours u := by
    rw [neighbours_of_at? hs]
    exact s.insert_snd v
  by_cases hthere : v ∈ g.neighbours u
  · have hold : (s.insert v).2 = false := Bool.eq_false_iff.mpr fun h => hnew.mp h hthere
    refine ⟨g, withEdge_old hu hv hs hold, rfl, fun x y => ⟨.inl, ?_⟩, (if_pos hthere).symm⟩
    rintro (hy | ⟨rfl, rfl⟩ | ⟨rfl, rfl⟩)
    · exact hy
    · exact hthere
    · exact hsymm hthere
  · rw [if_neg hthere]
    by_cases huv : u = v
    · subst huv
      refine ⟨_, withEdge_loop hu hs (hnew.mpr hthere), by simp, fun x y => ?_, rfl⟩
      rw [neighbours_insert hu hs, or_self]
    · have hv' : (⟨g.adj.set u.toNat (s.insert v).1, 0⟩ : Graph).IsVertex v := by
        rw [IsVertex, List.length_set]
        exact hv
      obtain ⟨t, ht⟩ := at?_isSome hv'
      refine ⟨_, withEdge_new hu hv huv hs (hnew.mpr hthere) ht, by simp, fun x y => ?_, rfl⟩
      rw [neighbours_insert hv' ht, neighbours_insert hu hs, or_assoc]

theorem Represents.symm (h : g.Represents vertices edges) (hv : v ∈ g.neighbours u) :
    u ∈ g.neighbours v :=
  (h.mem v u).mpr ((h.mem u v).mp hv).symm

theorem Represents.withEdge (h : g.Represents vertices edges) (e : ℤ × ℤ) :
    ∃ g', g.withEdge e = some g' ∧ g'.Represents vertices (edges ++ [e]) := by
  obtain ⟨u, v⟩ := e
  by_cases hvalid : g.IsVertex u ∧ g.IsVertex v
  · obtain ⟨hu, hv⟩ := hvalid
    obtain ⟨g', hg', hlen, hmem, -⟩ := withEdge_of_valid hu hv h.symm
    rw [IsVertex, h.length] at hu hv
    refine ⟨g', hg', hlen.trans h.length, fun x y => ?_⟩
    rw [hmem, h.mem, joins_concat hu hv]
  · refine ⟨g, withEdge_of_not_valid hvalid, h.length, fun x y => ?_⟩
    rw [IsVertex, IsVertex, h.length] at hvalid
    rw [h.mem, joins_concat_of_not_valid hvalid]

theorem build_concat (vertices : ℕ) (edges : List (ℤ × ℤ)) (e : ℤ × ℤ) :
    build vertices (edges ++ [e]) = (build vertices edges).bind (withEdge · e) := by
  rw [build, List.foldlM_append]
  simp [build]

theorem build_represents (vertices : ℕ) (edges : List (ℤ × ℤ)) :
    ∃ g, build vertices edges = some g ∧ g.Represents vertices edges := by
  induction edges using List.reverseRecOn with
  | nil =>
    refine ⟨create vertices, rfl, List.length_replicate, fun u v => ?_⟩
    refine iff_of_false ?_ fun h => h.2.2.elim List.not_mem_nil List.not_mem_nil
    rw [neighbours, create, at?, List.getElem?_replicate]
    split_ifs <;> simp [OrdMap.keys, OrdMap.empty]
  | append_singleton edges e ih =>
    obtain ⟨g, hg, h⟩ := ih
    obtain ⟨g', hg', h'⟩ := h.withEdge e
    exact ⟨g', by rw [build_concat, hg, Option.bind_some, hg'], h'⟩

end Graph

end HftExercises.Search
