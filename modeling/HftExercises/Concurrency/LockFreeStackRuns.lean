import HftExercises.Concurrency.LockFreeStackHistory

/-! # Runs of the lock-free stack

In every interleaving the stack is the abstract one, each value comes out at most
once, and a pop that finds the stack empty leaves its output alone. When all
threads are done, the destructor deletes every node and every cell once.
-/
namespace HftExercises.LockFreeStack
open Pool (Linked)
variable {α T : Type*}

section Destructor
variable {s : System α T}

theorem deleteOnce_eq_some {deleted : List ℕ} {n : ℕ} (hn : n ∉ deleted) :
    deleteOnce deleted true n = some (n :: deleted) := by
  simp [deleteOnce, hn]

/-- The first loop deletes what is in the list. -/
theorem deleteNode_loop {live deleted cells : List ℕ} {cursor : Option ℕ} {fuel : ℕ}
    (hlink : Linked s.next cursor live) (hnodup : (live ++ deleted).Nodup)
    (hvalue : ∀ n ∈ live, (s.value n).isSome = true) (hfuel : live.length ≤ fuel) :
    whileLoop (fun d => d.cursor.isSome) s.deleteNode fuel ⟨deleted, cells, cursor⟩ =
      some ⟨live.reverse ++ deleted, cells, none⟩ := by
  induction live generalizing deleted cursor fuel with
  | nil =>
    cases hlink
    exact whileLoop_stop rfl fuel
  | cons n rest ih =>
    obtain ⟨rfl, hrest⟩ := hlink
    obtain ⟨fuel, rfl⟩ : ∃ k, fuel = k + 1 := ⟨fuel - 1, by simp at hfuel; omega⟩
    obtain ⟨hnew, hnodup'⟩ := List.nodup_cons.mp hnodup
    have hn : n ∉ deleted := fun hmem => hnew (List.mem_append_right _ hmem)
    have hdelete : s.deleteNode ⟨deleted, cells, some n⟩ = some ⟨n :: deleted, cells, s.next n⟩ := by
      simp only [System.deleteNode]
      rw [hvalue n List.mem_cons_self, deleteOnce_eq_some hn]
      rfl
    have hagain : (rest ++ n :: deleted).Nodup := List.nodup_middle.mpr hnodup
    have hnext := ih hrest hagain (fun m hm => hvalue m (List.mem_cons_of_mem n hm))
      (Nat.le_of_succ_le_succ hfuel)
    rw [whileLoop_next rfl, hdelete, Option.bind_some, hnext, List.reverse_cons, List.append_assoc]
    rfl

/-- The second loop deletes the retired cells and the nodes behind them. -/
theorem deleteCell_loop {cells parked nodes deleted : List ℕ} {cursor : Option ℕ} {fuel : ℕ}
    (hlink : Linked s.cellNext cursor cells) (hparks : cells.map s.cellNode = parked.map some)
    (hnodes : (parked ++ nodes).Nodup) (hcells : (cells ++ deleted).Nodup)
    (hvalue : ∀ n ∈ parked, (s.value n).isSome = true) (hfuel : cells.length ≤ fuel) :
    whileLoop (fun d => d.cursor.isSome) s.deleteCell fuel ⟨nodes, deleted, cursor⟩ =
      some ⟨parked.reverse ++ nodes, cells.reverse ++ deleted, none⟩ := by
  induction cells generalizing parked nodes deleted cursor fuel with
  | nil =>
    cases hlink
    cases parked with
    | nil => exact whileLoop_stop rfl fuel
    | cons n parked => cases hparks
  | cons c rest ih =>
    obtain ⟨rfl, hrest⟩ := hlink
    obtain ⟨fuel, rfl⟩ : ∃ k, fuel = k + 1 := ⟨fuel - 1, by simp at hfuel; omega⟩
    cases parked with
    | nil => cases hparks
    | cons n parked =>
      obtain ⟨hnode, hparks'⟩ := List.cons.inj hparks
      have hn : n ∉ nodes := fun hmem => (List.nodup_cons.mp hnodes).1 (List.mem_append_right _ hmem)
      have hc : c ∉ deleted := fun hmem => (List.nodup_cons.mp hcells).1 (List.mem_append_right _ hmem)
      have hdelete : s.deleteCell ⟨nodes, deleted, some c⟩ =
          some ⟨n :: nodes, c :: deleted, s.cellNext c⟩ := by
        simp only [System.deleteCell]
        rw [hnode]
        simp only
        rw [hvalue n List.mem_cons_self, deleteOnce_eq_some hn, deleteOnce_eq_some hc]
        rfl
      have hnext := ih hrest hparks' (List.nodup_middle.mpr hnodes) (List.nodup_middle.mpr hcells)
        (fun m hm => hvalue m (List.mem_cons_of_mem n hm)) (Nat.le_of_succ_le_succ hfuel)
      rw [whileLoop_next rfl, hdelete, Option.bind_some, hnext, List.reverse_cons, List.reverse_cons,
        List.append_assoc, List.append_assoc]
      rfl

/-- With all threads done, every node and every cell is deleted exactly once. -/
theorem Shape.destroy {live parked cells : List ℕ} (h : Shape s live parked cells)
    (hidle : ∀ t, s.control t = .idle) :
    ∃ d, s.destroy = some d ∧ d.nodes.Perm (List.range s.fresh) ∧
      d.cells.Perm (List.range s.freshCell) := by
  have hnodes : (live ++ parked).Perm (List.range s.fresh) :=
    h.nodeStock.perm_range fun t => by rw [hidle t]; rfl
  have hcells : cells.Perm (List.range s.freshCell) :=
    h.cellStock.perm_range fun t => by rw [hidle t]; rfl
  have hvalue : ∀ n ∈ live ++ parked, (s.value n).isSome = true := by
    intro n hn
    obtain ⟨value, hvalue⟩ := (h.allocated n).mp (h.nodeStock.lt_of_mem hn)
    rw [hvalue]
    rfl
  have hlen : live.length + parked.length = s.fresh := by
    rw [← List.length_append, hnodes.length_eq, List.length_range]
  have hcellLen : cells.length = s.freshCell := by
    rw [hcells.length_eq, List.length_range]
  have hnodup := h.nodeStock.nodup
  have hrest : (parked ++ live.reverse).Nodup :=
    (((List.reverse_perm live).append_left parked).trans List.perm_append_comm).nodup_iff.mpr hnodup
  have hfirst : whileLoop (fun d => d.cursor.isSome) s.deleteNode s.fresh ⟨[], [], s.head⟩ =
      some ⟨live.reverse ++ [], [], none⟩ :=
    deleteNode_loop h.chain (by simpa using (List.nodup_append.mp hnodup).1)
      (fun n hn => hvalue n (List.mem_append_left _ hn)) (by omega)
  have hsecond : whileLoop (fun d => d.cursor.isSome) s.deleteCell s.freshCell
      ⟨live.reverse, [], s.retired⟩ =
      some ⟨parked.reverse ++ live.reverse, cells.reverse ++ [], none⟩ :=
    deleteCell_loop h.cellChain h.parks hrest (by simpa using h.cellStock.nodup)
      (fun n hn => hvalue n (List.mem_append_right _ hn)) (by omega)
  rw [List.append_nil] at hfirst hsecond
  refine ⟨⟨parked.reverse ++ live.reverse, cells.reverse, none⟩, ?_, ?_, ?_⟩
  · rw [System.destroy, hfirst, Option.bind_some]
    exact hsecond
  · exact (((List.reverse_perm parked).append (List.reverse_perm live)).trans
      List.perm_append_comm).trans hnodes
  · exact (List.reverse_perm cells).trans hcells

end Destructor

section Steps
variable {s s' : System α T} {a : Action α T} {r : StepResult α} {t : T}
variable {es : List (StepEvent α T)} {live parked cells : List ℕ}

theorem LoopHead.empty_handed (h : LoopHead s a t) :
    (s.control t).node? = none ∧ (s.control t).cell? = none ∧ (s.control t).popping? = none := by
  rcases h with ⟨ht, _⟩ | ⟨⟨cur, next, ht⟩, _⟩
  · rw [ht]
    exact ⟨rfl, rfl, rfl⟩
  · rw [ht]
    exact ⟨rfl, rfl, rfl⟩

variable [DecidableEq T]

/-- The places and the record move together. -/
theorem step_inv (hshape : Shape s live parked cells) (h : History es s live parked)
    (hs : StepSpec s a r s') :
    ∃ live' parked' cells', Shape s' live' parked' cells' ∧
      History (es ++ [⟨s, a, r⟩]) s' live' parked' := by
  have hvalue : ∀ n value, s.value n = some value → s'.value n = some value :=
    fun _ _ hn => hshape.value_step hs hn
  cases hs with
  | startPush hthread ha ht =>
    exact ⟨live, parked, cells, hshape.startPush ht _,
      h.quiet hshape (Or.inl rfl) hvalue (popping_setControl (by rw [ht]; rfl))⟩
  | empty hthread ht hhead =>
    obtain ⟨hnode, hcell, hpop⟩ := ht.empty_handed
    exact ⟨live, parked, cells, hshape.setControl hnode.symm hcell.symm (Or.inl rfl) trivial,
      h.quiet hshape (Or.inr rfl) hvalue (popping_setControl hpop.symm)⟩
  | load hthread ht hhead =>
    obtain ⟨hnode, hcell, hpop⟩ := ht.empty_handed
    have hpub := hshape.published_of_mem (hshape.head_mem hhead)
    exact ⟨live, parked, cells, hshape.setControl hnode.symm hcell.symm (Or.inl rfl)
      (hpub.update rfl rfl (Or.inl rfl)), h.quiet hshape (Or.inl rfl) hvalue
      (popping_setControl hpop.symm)⟩
  | link hthread ha ht =>
    exact ⟨live, parked, cells, hshape.link ht,
      h.quiet hshape (Or.inl rfl) hvalue (popping_setControl (by rw [ht]; rfl))⟩
  | @retry t node value cur hthread ha ht =>
    have hlocal := hshape.sound t
    rw [ht] at hlocal
    exact ⟨live, parked, cells, hshape.setControl (by rw [ht]; rfl) (by rw [ht]; rfl)
      (Or.inr (by rw [ht]; rfl)) hlocal.1,
      h.quiet hshape (Or.inl rfl) hvalue (popping_setControl (by rw [ht]; rfl))⟩
  | push hthread ha ht => exact ⟨_, parked, cells, hshape.push ht, h.push hshape ht⟩
  | @readNext t cur hthread ha ht =>
    have hpub : Published s cur := by
      have hlocal := hshape.sound t
      rwa [ht] at hlocal
    exact ⟨live, parked, cells, hshape.setControl (by rw [ht]; rfl) (by rw [ht]; rfl) (Or.inl rfl)
      ⟨hpub.update rfl rfl (Or.inl rfl), rfl⟩,
      h.quiet hshape (Or.inl rfl) hvalue (popping_setControl (by rw [ht]; rfl))⟩
  | fault hthread ha ht hnone => exact absurd hnone (hshape.no_fault ht)
  | claim hthread ha ht hhead =>
    obtain ⟨rest, hlive, hshape'⟩ := hshape.claim ht hhead
    exact ⟨rest, parked, cells, hshape', h.claim hshape ht hlive⟩
  | startRetire hthread ha ht hnode =>
    exact ⟨live, parked, cells, hshape.startRetire ht hnode,
      h.quiet hshape (Or.inl rfl) hvalue (popping_setControl (by rw [ht]; rfl))⟩
  | linkCell hthread ha ht =>
    exact ⟨live, parked, cells, hshape.linkCell ht,
      h.quiet hshape (Or.inl rfl) hvalue (popping_setControl (by rw [ht]; rfl))⟩
  | @retryCell t node value cell r hthread ha ht =>
    have hlocal := hshape.sound t
    rw [ht] at hlocal
    exact ⟨live, parked, cells, hshape.setControl (by rw [ht]; rfl) (by rw [ht]; rfl) (Or.inl rfl)
      ⟨hlocal.1, hlocal.2.1⟩,
      h.quiet hshape (Or.inl rfl) hvalue (popping_setControl (by rw [ht]; rfl))⟩
  | retire hthread ha ht => exact ⟨live, _, _, hshape.retire ht, h.retire hshape ht⟩

end Steps

section Output
variable [DecidableEq T] {s s' : System α T} {a : Action α T} {r : StepResult α} {t : T}
variable {es : List (StepEvent α T)}

/-- The steps of the call that a thread is in, newest first. -/
def stepsOf (t : T) (es : List (StepEvent α T)) : List (StepEvent α T) :=
  callSteps Action.thread Action.starts t es

/-- A pop that has claimed nothing has not written its output. -/
def OutputKept (es : List (StepEvent α T)) (s : System α T) : Prop :=
  ∀ t, (s.control t).searching = true → ∀ e ∈ stepsOf t es, e.before.out t = s.out t

theorem step_other (hs : StepSpec s a r s') (hne : t ≠ a.thread) :
    s'.control t = s.control t ∧ s'.out t = s.out t := by
  cases hs with
  | startRetire hthread ha ht hvalue =>
    subst hthread
    exact ⟨Function.update_of_ne hne _ _, Function.update_of_ne hne _ _⟩
  | fault hthread ha ht hvalue => exact ⟨rfl, rfl⟩
  | claim hthread ha ht hhead =>
    subst hthread
    exact ⟨Function.update_of_ne hne _ _, rfl⟩
  | _ =>
    rename_i hthread _ _
    subst hthread
    exact ⟨Function.update_of_ne hne _ _, rfl⟩

/-- A step of a pop that has claimed nothing: the first of its call, or one more. -/
def StepsOn (s : System α T) (a : Action α T) : Prop :=
  a.starts = true ∨ (a.starts = false ∧ (s.control a.thread).searching = true)

omit [DecidableEq T] in
theorem LoopHead.stepsOn (h : LoopHead s a a.thread) : StepsOn s a := by
  rcases h with ⟨_, ha⟩ | ⟨⟨cur, next, ht⟩, ha⟩
  · exact Or.inl ha
  · exact Or.inr ⟨ha, by rw [ht]; rfl⟩

theorem searching_step (hs : StepSpec s a r s') (h : (s'.control a.thread).searching = true) :
    StepsOn s a ∧ s'.out a.thread = s.out a.thread := by
  have hmove : ∀ {c : Control α}, (Function.update s.control a.thread c a.thread).searching = true →
      c.searching = true := by
    intro c hc
    rwa [Function.update_self] at hc
  cases hs with
  | load hthread ht hhead =>
    subst hthread
    exact ⟨ht.stepsOn, rfl⟩
  | readNext hthread ha ht =>
    subst hthread
    exact ⟨Or.inr ⟨ha, by rw [ht]; rfl⟩, rfl⟩
  | fault hthread ha ht hvalue => exact ⟨Or.inr ⟨ha, h⟩, rfl⟩
  | claim hthread ha ht hhead =>
    subst hthread
    cases hmove h
  | startRetire hthread ha ht hvalue =>
    subst hthread
    cases hmove h
  | _ =>
    rename_i hthread _ _
    subst hthread
    cases hmove h

theorem empty_step (hs : StepSpec s a .empty s') :
    s.head = none ∧ StepsOn s a ∧ s'.out = s.out := by
  cases hs with
  | empty hthread ht hhead =>
    subst hthread
    exact ⟨hhead, ht.stepsOn, rfl⟩

/-- Since the call began its output has been the same. -/
theorem OutputKept.call (h : OutputKept es s) (hs : StepsOn s a) :
    ∀ e ∈ stepsOf a.thread (es ++ [⟨s, a, r⟩]), e.before.out a.thread = s.out a.thread := by
  intro e he
  rcases hs with ha | ⟨ha, hsearch⟩
  · have hsteps : stepsOf a.thread (es ++ [⟨s, a, r⟩]) = [⟨s, a, r⟩] := callSteps_append_start rfl ha
    rw [hsteps] at he
    rw [List.mem_singleton.mp he]
  · have hsteps : stepsOf a.thread (es ++ [⟨s, a, r⟩]) = ⟨s, a, r⟩ :: stepsOf a.thread es :=
      callSteps_append_next rfl ha
    rw [hsteps] at he
    rcases List.mem_cons.mp he with rfl | he
    · rfl
    · exact h a.thread hsearch e he

theorem OutputKept.step (h : OutputKept es s) (hs : StepSpec s a r s') :
    OutputKept (es ++ [⟨s, a, r⟩]) s' := by
  intro t ht e he
  by_cases hta : t = a.thread
  · subst hta
    obtain ⟨hon, hout⟩ := searching_step hs ht
    rw [hout]
    exact h.call hon e he
  · obtain ⟨hcontrol, hout⟩ := step_other hs hta
    have hsteps : stepsOf t (es ++ [⟨s, a, r⟩]) = stepsOf t es := callSteps_append_other (Ne.symm hta)
    rw [hcontrol] at ht
    rw [hsteps] at he
    rw [hout]
    exact h t ht e he

end Output

section Runs
variable [DecidableEq T] {s : System α T} {actions : List (Action α T)}
variable {es l r : List (StepEvent α T)} {e : StepEvent α T}

theorem exec_inv (h : exec System.step System.init actions = some (es, s)) :
    ∃ live parked cells, Shape s live parked cells ∧ History es s live parked := by
  refine exec_invariant (fun es s => ∃ live parked cells, Shape s live parked cells ∧
    History es s live parked) ?_ ⟨[], [], [], shape_init, history_init⟩ h
  rintro es s a r s' ⟨live, parked, cells, hshape, hist⟩ hstep
  exact step_inv hshape hist (System.step_spec hstep)

theorem exec_outputKept (h : exec System.step System.init actions = some (es, s)) :
    OutputKept es s :=
  exec_invariant OutputKept (fun _ _ _ _ _ hinv hstep => hinv.step (System.step_spec hstep))
    (fun _ ht => by cases ht) h

/-- A pop that returns false found the stack empty, and its output as it was when
the call began. -/
theorem empty_finds_nothing (h : exec System.step System.init actions = some (es, s))
    (hes : es = l ++ e :: r) (hr : e.result = .empty) :
    replay l = [] ∧ ∃ s', e.before.step e.call = some (.empty, s') ∧
      ∀ e' ∈ stepsOf e.call.thread (l ++ [e]),
        e'.before.out e.call.thread = s'.out e.call.thread := by
  obtain ⟨⟨is, hrun⟩, s', hstep⟩ := exec_events h l e r hes
  obtain ⟨live, parked, cells, hshape, hist⟩ := exec_inv hrun
  rw [hr] at hstep
  obtain ⟨hhead, hon, hout⟩ := empty_step (System.step_spec hstep)
  refine ⟨?_, s', hstep, ?_⟩
  · have hchain := hshape.chain
    rw [hhead] at hchain
    cases live with
    | nil => exact List.map_eq_nil_iff.mp hist.stack.symm
    | cons n rest => cases hchain.1
  · rw [hout]
    exact (exec_outputKept hrun).call hon

/-- A pop claims the node whose value is on top of the abstract stack. -/
theorem claims_top (h : exec System.step System.init actions = some (es, s))
    (hes : es = l ++ e :: r) {n : ℕ} (hr : e.result = .claimed n) :
    (replay l).head? = e.before.value n := by
  obtain ⟨⟨is, hrun⟩, s', hstep⟩ := exec_events h l e r hes
  obtain ⟨live, parked, cells, hshape, hist⟩ := exec_inv hrun
  have hs := System.step_spec hstep
  rw [hr] at hs
  have hhead : e.before.head = some n := by
    cases hs with
    | claim hthread ha ht hhead => exact hhead
  have hchain := hshape.chain
  rw [hhead] at hchain
  obtain ⟨rest, rfl, _⟩ := hchain.pop
  have hstack := hist.stack
  cases hreplay : replay l with
  | nil =>
    rw [hreplay] at hstack
    cases hstack
  | cons value stack =>
    rw [hreplay] at hstack
    exact (List.cons.inj hstack).1.symm

/-- What the stack guarantees after a run, with `live` the list from the head and
`parked` the nodes on the retired list. -/
structure StackSafe (es : List (StepEvent α T)) (s : System α T) (live parked : List ℕ) :
    Prop where
  /-- The list is finite and without a cycle, and it is the abstract stack. -/
  list : Linked s.next s.head live ∧ live.Nodup
  stack : live.map s.value = (replay es).map some
  top : ∀ l e r n, es = l ++ e :: r → e.result = .claimed n → (replay l).head? = e.before.value n
  /-- Each pushed node is in the list or was claimed, and only once. -/
  pushedOnce : ((pushes es).map Prod.fst).Nodup
  pushed : ((pushes es).map Prod.fst).Perm (live ++ claimed es)
  /-- What was claimed is on its way in the hands of one pop, or was returned. -/
  claims : ∀ n, n ∈ claimed es ↔
    n ∈ (returns es).map Prod.fst ∨ ∃ t, (s.control t).popping? = some n
  oneHand : ∀ t n, (s.control t).popping? = some n →
    n ∉ (returns es).map Prod.fst ∧ ∀ u, (s.control u).popping? = some n → u = t
  /-- Each value is returned at most once, and was pushed. -/
  returnedOnce : ((returns es).map Prod.fst).Nodup
  returned : ∀ p ∈ returns es, p ∈ pushes es
  quiescent : (∀ t, s.control t = .idle) →
    ((pushes es).map Prod.fst).Perm (live ++ (returns es).map Prod.fst)
  empty : ∀ l e r, es = l ++ e :: r → e.result = .empty →
    replay l = [] ∧ ∃ s', e.before.step e.call = some (.empty, s') ∧
      ∀ e' ∈ stepsOf e.call.thread (l ++ [e]),
        e'.before.out e.call.thread = s'.out e.call.thread
  /-- The retired list holds the returned nodes, once each, and none that is live. -/
  retired : ∃ cells, Linked s.cellNext s.retired cells ∧ cells.map s.cellNode = parked.map some
  parkedOnce : parked.Nodup ∧ parked.Perm ((returns es).map Prod.fst)
  apart : ∀ n ∈ claimed es, n ∉ live
  safe : ∀ e ∈ es, e.result ≠ .fault
  destroyed : (∀ t, s.control t = .idle) → ∃ d, s.destroy = some d ∧
    d.nodes.Perm (List.range s.fresh) ∧ d.cells.Perm (List.range s.freshCell)

omit [DecidableEq T] in
theorem History.returned_pushed {live parked : List ℕ} (h : History es s live parked) {p : ℕ × α}
    (hp : p ∈ returns es) : p ∈ pushes es := by
  have hparked : p.1 ∈ parked.reverse := by
    rw [← h.returned]
    exact List.mem_map_of_mem hp
  have hclaimed : p.1 ∈ claimed es := (h.claims p.1).mpr (Or.inl (List.mem_reverse.mp hparked))
  have hpushed : p.1 ∈ (pushes es).map Prod.fst :=
    h.pushed.mem_iff.mpr (List.mem_append_right _ hclaimed)
  obtain ⟨q, hq, hqp⟩ := List.mem_map.mp hpushed
  have hvalue : q.2 = p.2 := by
    have hold := h.pushValue q hq
    rw [hqp, h.returnValue p hp] at hold
    exact (Option.some.inj hold).symm
  rwa [Prod.ext hqp hvalue] at hq

omit [DecidableEq T] in
theorem History.pushes_nodup {live parked cells : List ℕ} (h : History es s live parked)
    (hshape : Shape s live parked cells) : ((pushes es).map Prod.fst).Nodup := by
  refine h.pushed.nodup_iff.mpr (List.nodup_append.mpr
    ⟨(List.nodup_append.mp hshape.nodeStock.nodup).1, h.once, ?_⟩)
  rintro n hn m hm rfl
  exact h.claimed_notMem hshape hm hn

/-- After every run of any number of threads the stack is the abstract one, and
every node is where it should be. -/
theorem lockFreeStack_safe (h : exec System.step System.init actions = some (es, s)) :
    ∃ live parked, StackSafe es s live parked := by
  obtain ⟨live, parked, cells, hshape, hist⟩ := exec_inv h
  obtain ⟨hlive, hparked, _⟩ := List.nodup_append.mp hshape.nodeStock.nodup
  have hreturned : ∀ n, n ∈ (returns es).map Prod.fst ↔ n ∈ parked := by
    intro n
    rw [hist.returned, List.mem_reverse]
  have hclaims : ∀ n, n ∈ claimed es ↔
      n ∈ (returns es).map Prod.fst ∨ ∃ t, (s.control t).popping? = some n := by
    intro n
    rw [hist.claims n, hreturned n]
  have honce : ((returns es).map Prod.fst).Nodup := by
    rw [hist.returned]
    exact List.nodup_reverse.mpr hparked
  refine ⟨live, parked, ⟨hshape.chain, hlive⟩, hist.stack, fun l e r n hes hr => claims_top h hes hr,
    hist.pushes_nodup hshape, hist.pushed, hclaims, ?_, honce, fun p hp => hist.returned_pushed hp,
    ?_, fun l e r hes hr => empty_finds_nothing h hes hr, ⟨cells, hshape.cellChain, hshape.parks⟩,
    ⟨hparked, ?_⟩, fun n hn => hist.claimed_notMem hshape hn, hist.safe, hshape.destroy⟩
  · intro t n ht
    have hhand := Control.node?_of_popping? ht
    refine ⟨?_, fun u hu => hshape.nodeStock.unique u t n (Control.node?_of_popping? hu) hhand⟩
    rw [hreturned n]
    exact fun hn => hshape.nodeStock.apart t n hhand (List.mem_append_right _ hn)
  · intro hidle
    refine hist.pushed.trans (List.Perm.append_left live ?_)
    refine (List.perm_ext_iff_of_nodup hist.once honce).mpr ?_
    intro n
    rw [hclaims n]
    refine or_iff_left ?_
    rintro ⟨t, ht⟩
    rw [hidle t] at ht
    cases ht
  · rw [hist.returned]
    exact (List.reverse_perm parked).symm

end Runs

/-- Two pops read the same head; the node that one of them claims is pushed over by
another node before the other pop tries its exchange. -/
def staleRead : List (Action ℕ Bool) :=
  [.push true 7, .proceed true false, .proceed true false, .tryPop true, .proceed true false,
    .tryPop false, .proceed false false, .proceed false false, .proceed false false,
    .proceed false false, .proceed false false, .push false 8, .proceed false false,
    .proceed false false, .proceed true false, .proceed true false, .proceed true false,
    .proceed true false, .proceed true false, .proceed true false, .tryPop true]

theorem lockFreeStack_safe_staleRead :
    ∃ es s, exec System.step System.init staleRead = some (es, s) ∧
      pushes es = [(0, 7), (1, 8)] ∧ returns es = [(0, 7), (1, 8)] ∧ s.out true = some 8 ∧
      ∃ live parked, StackSafe es s live parked := by
  have hrun : exec System.step System.init staleRead = some (_, _) := rfl
  exact ⟨_, _, hrun, rfl, rfl, rfl, lockFreeStack_safe hrun⟩

end HftExercises.LockFreeStack
