import HftExercises.Concurrency.LockFreeStack
import HftExercises.Core.Stock

/-! # Where the nodes of the stack are

Every node is in the list, parked behind a cell, or in the hands of one thread,
and a node that was published is never linked anew. So the link a pop has read is
still there when its exchange succeeds, whatever happened to the list meanwhile.
-/
namespace HftExercises.LockFreeStack
open Pool (Linked)
variable {α T : Type*}

/-- A node that no push has in hand any more: nobody writes its link again. -/
def Published (s : System α T) (n : ℕ) : Prop :=
  n < s.fresh ∧ ∀ t, (s.control t).pushing? ≠ some n

/-- What a thread knows about the nodes and cells it is busy with. -/
def Control.Sound (s : System α T) : Control α → Prop
  | .pushLink node value _ => s.value node = some value
  | .pushCas node value cur => s.value node = some value ∧ s.next node = cur
  | .popNext cur => Published s cur
  | .popCas cur next => Published s cur ∧ s.next cur = next
  | .retireLink node value cell _ => s.value node = some value ∧ s.cellNode cell = some node
  | .retireCas node value cell r =>
    s.value node = some value ∧ s.cellNode cell = some node ∧ s.cellNext cell = r
  | _ => True

/-- `live` is the list from the head, `cells` the retired list and `parked` the nodes
behind its cells. -/
structure Shape (s : System α T) (live parked cells : List ℕ) : Prop where
  chain : Linked s.next s.head live
  nodeStock : Stock (live ++ parked) (fun t => (s.control t).node?) s.fresh
  cellChain : Linked s.cellNext s.retired cells
  cellStock : Stock cells (fun t => (s.control t).cell?) s.freshCell
  parks : cells.map s.cellNode = parked.map some
  allocated : ∀ n, n < s.fresh ↔ ∃ value, s.value n = some value
  sound : ∀ t, (s.control t).Sound s

theorem shape_init : Shape (System.init : System α T) [] [] [] where
  chain := rfl
  nodeStock := Stock.init
  cellChain := rfl
  cellStock := Stock.init
  parks := rfl
  allocated := by simp [System.init]
  sound := fun _ => trivial

theorem Control.node?_of_pushing? {c : Control α} {n : ℕ} (h : c.pushing? = some n) :
    c.node? = some n := by
  cases c with
  | pushLink node value cur => exact h
  | pushCas node value cur => exact h
  | _ => cases h

section Frame
variable {s s' : System α T} {n : ℕ} {c : Control α} {t : T} {live parked cells : List ℕ}

theorem Published.mono (h : Published s n) (hfresh : s.fresh ≤ s'.fresh)
    (hpush : ∀ t, (s'.control t).pushing? = some n → (s.control t).pushing? = some n) :
    Published s' n :=
  ⟨lt_of_lt_of_le h.1 hfresh, fun t ht => h.2 t (hpush t ht)⟩

/-- Nothing a thread knows changes under it. -/
theorem Control.Sound.frame (h : c.Sound s)
    (hvalue : ∀ n value, s.value n = some value → s'.value n = some value)
    (hown : ∀ n, c.pushing? = some n → s'.next n = s.next n)
    (hpub : ∀ n, Published s n → Published s' n ∧ s'.next n = s.next n)
    (hcell : ∀ k, c.cell? = some k → s'.cellNode k = s.cellNode k ∧ s'.cellNext k = s.cellNext k) :
    c.Sound s' := by
  cases c with
  | idle => trivial
  | pushLink node value cur => exact hvalue _ _ h
  | pushCas node value cur => exact ⟨hvalue _ _ h.1, (hown _ rfl).trans h.2⟩
  | popNext cur => exact (hpub cur h).1
  | popCas cur next => exact ⟨(hpub cur h.1).1, (hpub cur h.1).2.trans h.2⟩
  | popTake node => trivial
  | retireLink node value cell r => exact ⟨hvalue _ _ h.1, (hcell _ rfl).1.trans h.2⟩
  | retireCas node value cell r =>
    exact ⟨hvalue _ _ h.1, (hcell _ rfl).1.trans h.2.1, (hcell _ rfl).2.trans h.2.2⟩

theorem Shape.published_of_mem (h : Shape s live parked cells) (hn : n ∈ live) :
    Published s n := by
  have hmem : n ∈ live ++ parked := List.mem_append_left _ hn
  refine ⟨h.nodeStock.lt_of_mem hmem, ?_⟩
  intro u hu
  exact h.nodeStock.apart u n (Control.node?_of_pushing? hu) hmem

theorem Shape.head_mem (h : Shape s live parked cells) (hhead : s.head = some n) :
    n ∈ live := by
  have hchain := h.chain
  rw [hhead] at hchain
  obtain ⟨rest, rfl, _⟩ := hchain.pop
  exact List.mem_cons_self

/-- Nobody reads a node that does not exist. -/
theorem Shape.no_fault (h : Shape s live parked cells) {node : ℕ}
    (ht : s.control t = .popNext node ∨ s.control t = .popTake node) : s.value node ≠ none := by
  have hlt : node < s.fresh := by
    rcases ht with ht | ht
    · have hlocal := h.sound t
      rw [ht] at hlocal
      exact hlocal.1
    · exact h.nodeStock.lt_of_hand (t := t) (by rw [ht]; rfl)
  obtain ⟨value, hvalue⟩ := (h.allocated node).mp hlt
  rw [hvalue]
  exact nofun

end Frame

section Steps
variable [DecidableEq T] {s s' : System α T} {t : T} {c : Control α}
variable {live parked cells : List ℕ}

/-- A thread that takes no new node keeps the others published. -/
theorem Published.update {n : ℕ} (h : Published s n)
    (hcontrol : s'.control = Function.update s.control t c) (hfresh : s'.fresh = s.fresh)
    (hc : c.pushing? = none ∨ c.pushing? = (s.control t).pushing?) : Published s' n := by
  refine h.mono hfresh.ge ?_
  rw [hcontrol]
  intro u hu
  rcases update_cases (fun c : Control α => c.pushing? = some n) hu with ⟨rfl, hnew⟩ | ⟨_, hold⟩
  · rcases hc with hc | hc
    · rw [hc] at hnew
      cases hnew
    · rwa [hc] at hnew
  · exact hold

/-- What the others know survives a step that keeps what they look at. -/
theorem Shape.sound_update (h : Shape s live parked cells)
    (hcontrol : s'.control = Function.update s.control t c) (hc : c.Sound s')
    (hvalue : ∀ n value, s.value n = some value → s'.value n = some value)
    (hown : ∀ u n, u ≠ t → (s.control u).pushing? = some n → s'.next n = s.next n)
    (hpub : ∀ n, Published s n → Published s' n ∧ s'.next n = s.next n)
    (hcell : ∀ u k, u ≠ t → (s.control u).cell? = some k →
      s'.cellNode k = s.cellNode k ∧ s'.cellNext k = s.cellNext k) (u : T) :
    (s'.control u).Sound s' := by
  rw [hcontrol]
  by_cases hut : u = t
  · rw [hut, Function.update_self]
    exact hc
  · rw [Function.update_of_ne hut]
    exact (h.sound u).frame hvalue (fun n hn => hown u n hut hn) hpub (fun k hk => hcell u k hut hk)

theorem Shape.nodes_setControl (h : Shape s live parked cells)
    (hc : c.node? = (s.control t).node?) :
    Stock (live ++ parked) (fun u => (Function.update s.control t c u).node?) s.fresh := by
  rw [comp_update_eq Control.node?, hc, Function.update_eq_self]
  exact h.nodeStock

theorem Shape.cells_setControl (h : Shape s live parked cells)
    (hc : c.cell? = (s.control t).cell?) :
    Stock cells (fun u => (Function.update s.control t c u).cell?) s.freshCell := by
  rw [comp_update_eq Control.cell?, hc, Function.update_eq_self]
  exact h.cellStock

/-- A thread moves on with the same node and cell in hand. -/
theorem Shape.setControl (h : Shape s live parked cells) (hnode : c.node? = (s.control t).node?)
    (hcell : c.cell? = (s.control t).cell?)
    (hpush : c.pushing? = none ∨ c.pushing? = (s.control t).pushing?)
    (hc : c.Sound (s.setControl t c)) : Shape (s.setControl t c) live parked cells where
  chain := h.chain
  nodeStock := h.nodes_setControl hnode
  cellChain := h.cellChain
  cellStock := h.cells_setControl hcell
  parks := h.parks
  allocated := h.allocated
  sound := h.sound_update rfl hc (fun _ _ => id) (fun _ _ _ _ => rfl)
    (fun _ hn => ⟨hn.update rfl rfl hpush, rfl⟩) fun _ _ _ _ => ⟨rfl, rfl⟩

/-- The new node is nobody's yet, so nothing anybody looks at changes. -/
theorem Shape.startPush (h : Shape s live parked cells) (ht : s.control t = .idle) (value : α) :
    Shape (s.startPush t value) live parked cells := by
  have hold : ∀ {n : ℕ}, n < s.fresh → n ≠ s.fresh := fun hlt => Nat.ne_of_lt hlt
  refine ⟨?_, ?_, h.cellChain, h.cells_setControl (by rw [ht]; rfl), h.parks, ?_, ?_⟩
  · refine h.chain.update ?_ none
    exact fun hmem => hold (h.nodeStock.lt_of_mem (List.mem_append_left _ hmem)) rfl
  · change Stock _ (fun u => (Function.update s.control t _ u).node?) (s.fresh + 1)
    rw [comp_update_eq Control.node?]
    exact h.nodeStock.alloc (by rw [ht]; rfl)
  · intro n
    change n < s.fresh + 1 ↔ ∃ v, Function.update s.value s.fresh (some value) n = some v
    by_cases hn : n = s.fresh
    · rw [hn, Function.update_self]
      exact ⟨fun _ => ⟨value, rfl⟩, fun _ => Nat.lt_succ_self _⟩
    · rw [Function.update_of_ne hn, ← h.allocated n]
      omega
  · refine h.sound_update rfl ?_ ?_ ?_ ?_ fun _ _ _ _ => ⟨rfl, rfl⟩
    · exact Function.update_self _ _ _
    · intro n v hn
      change Function.update s.value s.fresh (some value) n = some v
      rwa [Function.update_of_ne (hold ((h.allocated n).mpr ⟨v, hn⟩))]
    · intro u n _ hn
      have hlt : n < s.fresh := h.nodeStock.lt_of_hand (Control.node?_of_pushing? hn)
      exact Function.update_of_ne (hold hlt) _ _
    · intro n hn
      refine ⟨hn.mono (Nat.le_succ _) ?_, Function.update_of_ne (hold hn.1) _ _⟩
      intro u hu
      rcases update_cases (fun c : Control α => c.pushing? = some n) hu with ⟨_, hnew⟩ | ⟨_, hsame⟩
      · exact absurd (Option.some.inj hnew).symm (hold hn.1)
      · exact hsame

theorem Shape.link (h : Shape s live parked cells) {node : ℕ} {value : α} {cur : Option ℕ}
    (ht : s.control t = .pushLink node value cur) :
    Shape { s.setControl t (.pushCas node value cur) with next := Function.update s.next node cur }
      live parked cells := by
  have hhand : (s.control t).node? = some node := by rw [ht]; rfl
  have hpushing : (s.control t).pushing? = some node := by rw [ht]; rfl
  have hvalue := h.sound t
  rw [ht] at hvalue
  refine ⟨?_, h.nodes_setControl (by rw [ht]; rfl), h.cellChain, h.cells_setControl (by rw [ht]; rfl),
    h.parks, h.allocated, ?_⟩
  · refine h.chain.update ?_ cur
    exact fun hmem => h.nodeStock.apart t node hhand (List.mem_append_left _ hmem)
  · refine h.sound_update rfl ?_ (fun _ _ => id) ?_ ?_ fun _ _ _ _ => ⟨rfl, rfl⟩
    · exact ⟨hvalue, Function.update_self _ _ _⟩
    · intro u n hut hn
      have hne : n ≠ node := by
        rintro rfl
        exact hut (h.nodeStock.unique u t n (Control.node?_of_pushing? hn) hhand)
      exact Function.update_of_ne hne _ _
    · intro n hn
      -- the node being linked is not published, so this is another one
      have hne : n ≠ node := fun he => hn.2 t (he ▸ hpushing)
      exact ⟨hn.update rfl rfl (Or.inr hpushing.symm), Function.update_of_ne hne _ _⟩

theorem Shape.push (h : Shape s live parked cells) {node : ℕ} {value : α}
    (ht : s.control t = .pushCas node value s.head) :
    Shape { s.setControl t .idle with head := some node } (node :: live) parked cells := by
  have hlocal := h.sound t
  rw [ht] at hlocal
  refine ⟨⟨rfl, ?_⟩, ?_, h.cellChain, h.cells_setControl (by rw [ht]; rfl), h.parks, h.allocated, ?_⟩
  · change Linked s.next (s.next node) live
    rw [hlocal.2]
    exact h.chain
  · change Stock _ (fun u => (Function.update s.control t .idle u).node?) s.fresh
    rw [comp_update_eq Control.node?]
    exact h.nodeStock.put (by rw [ht]; rfl)
  · exact h.sound_update rfl trivial (fun _ _ => id) (fun _ _ _ _ => rfl)
      (fun _ hn => ⟨hn.update rfl rfl (Or.inl rfl), rfl⟩) fun _ _ _ _ => ⟨rfl, rfl⟩

/-- The link that was read is still the link of the head. -/
theorem Shape.claim (h : Shape s live parked cells) {cur : ℕ} {next : Option ℕ}
    (ht : s.control t = .popCas cur next) (hhead : s.head = some cur) :
    ∃ rest, live = cur :: rest ∧
      Shape { s.setControl t (.popTake cur) with head := next } rest parked cells := by
  have hlocal := h.sound t
  rw [ht] at hlocal
  have hchain := h.chain
  rw [hhead] at hchain
  obtain ⟨rest, rfl, hrest⟩ := hchain.pop
  rw [hlocal.2] at hrest
  refine ⟨rest, rfl, hrest, ?_, h.cellChain, h.cells_setControl (by rw [ht]; rfl), h.parks,
    h.allocated, ?_⟩
  · change Stock _ (fun u => (Function.update s.control t (.popTake cur) u).node?) s.fresh
    rw [comp_update_eq Control.node?]
    exact h.nodeStock.take (by rw [ht]; rfl)
  · exact h.sound_update rfl trivial (fun _ _ => id) (fun _ _ _ _ => rfl)
      (fun _ hn => ⟨hn.update rfl rfl (Or.inl rfl), rfl⟩) fun _ _ _ _ => ⟨rfl, rfl⟩

theorem Shape.startRetire (h : Shape s live parked cells) {node : ℕ} {value : α}
    (ht : s.control t = .popTake node) (hvalue : s.value node = some value) :
    Shape (s.startRetire t node value) live parked cells := by
  have hnew : s.freshCell ∉ cells :=
    fun hmem => absurd (h.cellStock.lt_of_mem hmem) (Nat.lt_irrefl _)
  refine ⟨h.chain, h.nodes_setControl (by rw [ht]; rfl), h.cellChain.update hnew none, ?_, ?_,
    h.allocated, ?_⟩
  · change Stock _ (fun u => (Function.update s.control t _ u).cell?) (s.freshCell + 1)
    rw [comp_update_eq Control.cell?]
    exact h.cellStock.alloc (by rw [ht]; rfl)
  · rw [← h.parks]
    refine List.map_congr_left ?_
    intro k hk
    have hne : k ≠ s.freshCell := fun he => hnew (he ▸ hk)
    exact Function.update_of_ne hne _ _
  · refine h.sound_update rfl ?_ (fun _ _ => id) (fun _ _ _ _ => rfl) ?_ ?_
    · exact ⟨hvalue, Function.update_self _ _ _⟩
    · exact fun _ hn => ⟨hn.update rfl rfl (Or.inl rfl), rfl⟩
    · intro u k _ hk
      have hne : k ≠ s.freshCell := Nat.ne_of_lt (h.cellStock.lt_of_hand hk)
      exact ⟨Function.update_of_ne hne _ _, Function.update_of_ne hne _ _⟩

theorem Shape.linkCell (h : Shape s live parked cells) {node cell : ℕ} {value : α} {r : Option ℕ}
    (ht : s.control t = .retireLink node value cell r) :
    Shape { s.setControl t (.retireCas node value cell r) with
      cellNext := Function.update s.cellNext cell r } live parked cells := by
  have hhand : (s.control t).cell? = some cell := by rw [ht]; rfl
  have hlocal := h.sound t
  rw [ht] at hlocal
  refine ⟨h.chain, h.nodes_setControl (by rw [ht]; rfl),
    h.cellChain.update (h.cellStock.apart t cell hhand) r, h.cells_setControl (by rw [ht]; rfl),
    h.parks, h.allocated, ?_⟩
  refine h.sound_update rfl ?_ (fun _ _ => id) (fun _ _ _ _ => rfl) ?_ ?_
  · exact ⟨hlocal.1, hlocal.2, Function.update_self _ _ _⟩
  · exact fun _ hn => ⟨hn.update rfl rfl (Or.inl rfl), rfl⟩
  · intro u k hut hk
    have hne : k ≠ cell := by
      rintro rfl
      exact hut (h.cellStock.unique u t k hk hhand)
    exact ⟨rfl, Function.update_of_ne hne _ _⟩

theorem Shape.retire (h : Shape s live parked cells) {node cell : ℕ} {value : α}
    (ht : s.control t = .retireCas node value cell s.retired) :
    Shape { s.setControl t .idle with retired := some cell } live (node :: parked)
      (cell :: cells) := by
  have hlocal := h.sound t
  rw [ht] at hlocal
  obtain ⟨_, hnode, hlink⟩ := hlocal
  refine ⟨h.chain, ?_, ⟨rfl, ?_⟩, ?_, ?_, h.allocated, ?_⟩
  · change Stock _ (fun u => (Function.update s.control t .idle u).node?) s.fresh
    rw [comp_update_eq Control.node?]
    exact (h.nodeStock.put (by rw [ht]; rfl)).perm List.perm_middle.symm
  · change Linked s.cellNext (s.cellNext cell) cells
    rw [hlink]
    exact h.cellChain
  · change Stock _ (fun u => (Function.update s.control t .idle u).cell?) s.freshCell
    rw [comp_update_eq Control.cell?]
    exact h.cellStock.put (by rw [ht]; rfl)
  · rw [List.map_cons, List.map_cons, ← h.parks, ← hnode]
    rfl
  · exact h.sound_update rfl trivial (fun _ _ => id) (fun _ _ _ _ => rfl)
      (fun _ hn => ⟨hn.update rfl rfl (Or.inl rfl), rfl⟩) fun _ _ _ _ => ⟨rfl, rfl⟩

/-- The value of a node never changes. -/
theorem Shape.value_step {a : Action α T} {r : StepResult α} (h : Shape s live parked cells)
    (hs : StepSpec s a r s') {n : ℕ} {value : α} (hn : s.value n = some value) :
    s'.value n = some value := by
  cases hs with
  | @startPush t v hthread ha ht =>
    have hne : n ≠ s.fresh := Nat.ne_of_lt ((h.allocated n).mpr ⟨value, hn⟩)
    change Function.update s.value s.fresh (some v) n = some value
    rwa [Function.update_of_ne hne]
  | _ => exact hn

end Steps

end HftExercises.LockFreeStack
