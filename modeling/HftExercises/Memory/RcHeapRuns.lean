import HftExercises.Core.GuardRegistry
import HftExercises.Memory.RcHeapHandles

/-! # Runs of handles, guards and collections

The heap with the `RcRooted` guards, driven by any sequence of calls. A guard
names its node in `roots_`, which the collector honours and the counts do not:
the nodes of the guards stay in the heap as long as no drop takes the count of
one of them to zero and no cascade breaks the registry.
-/
namespace HftExercises.Rc
variable {N : Type*} [DecidableEq N]

structure System (N : Type*) where
  heap : RcHeap N
  guards : List (Option N)

inductive Action (N : Type*) where
  /-- a node with a payload of `width` empty handles -/
  | make (n : N) (width : ℕ)
  /-- `RcPtr(const RcPtr&)`, outside or at the end of a payload -/
  | copy (src : Place N) (dst : Option N)
  | move (src : Place N) (dst : Option N)
  | copyAssign (dst src : Place N)
  | moveAssign (dst src : Place N)
  | reset (p : Place N)
  /-- `~RcPtr()` -/
  | destroy (p : Place N)
  | root (src : Place N)
  /-- `RcRooted(RcRooted&&)` -/
  | moveGuard (src : ℕ)
  | assignGuard (dst src : ℕ)
  | destroyGuard (i : ℕ)
  | lock (i : ℕ)
  | collect
  deriving DecidableEq, Repr

inductive Result (N : Type*) where
  | done
  | handle (v : Option N)
  | freed (n : ℕ)
  deriving DecidableEq, Repr

/-- The handle whose old node an action drops. -/
def Action.dropped : Action N → Option (Place N)
  | .copyAssign dst src | .moveAssign dst src => if dst = src then none else some dst
  | .reset p | .destroy p => some p
  | _ => none

/-- The first entry that names the node is overwritten with the last one. -/
def unroot (roots : List N) (n : N) : List N :=
  if n ∈ roots then (roots.set (roots.idxOf n) (roots.getLastD n)).dropLast else roots

theorem count_unroot {roots : List N} {n : N} (hn : n ∈ roots) (x : N) :
    (unroot roots n).count x + [n].count x = roots.count x :=
  Guards.count_unregister hn x

namespace System

def init : System N where
  heap :=
    { nodes := []
      live := ∅
      roots := []
      sweeping := false
      strong := fun _ => 0
      marked := fun _ => false
      payload := fun _ => []
      outside := []
      destroyed := []
      stale := [] }
  guards := []

/-- `release()` of a guard. -/
def releaseGuard (s : System N) (i : ℕ) : Option (System N) :=
  s.guards[i]?.map fun v =>
    match v with
    | none => s
    | some n =>
      { heap := { s.heap with roots := unroot s.heap.roots n }
        guards := s.guards.set i none }

/-- `none` is a call that the program cannot make: there is no such handle or guard, it is
in a payload that is gone, or the address of a new node is in use. -/
def step (trace : N → List (Option N) → List N) (s : System N) :
    Action N → Option (Result N × System N)
  | .make n width =>
    if n ∈ s.heap.live ∧ n ∉ s.heap.destroyed then none
    else some (.handle (some n), { s with heap := s.heap.make n width })
  | .copy src dst =>
    (s.heap.handleAt src).bind fun v =>
      ((s.heap.bump v).construct dst v).map fun h => (.handle v, { s with heap := h })
  | .move src dst =>
    (s.heap.handleAt src).bind fun v =>
      ((s.heap.setHandle src none).construct dst v).map fun h => (.handle v, { s with heap := h })
  | .copyAssign dst src =>
    if dst = src then (s.heap.handleAt dst).map fun _ => (.done, s)
    else
      -- `o` is read when the old node has been dropped
      (s.heap.dropAt dst).bind fun h => (h.handleAt src).map fun v =>
        (.done, { s with heap := (h.bump v).setHandle dst v })
  | .moveAssign dst src =>
    if dst = src then (s.heap.handleAt dst).map fun _ => (.done, s)
    else
      (s.heap.dropAt dst).bind fun h => (h.handleAt src).map fun v =>
        (.done, { s with heap := (h.setHandle src none).setHandle dst v })
  | .reset p => (s.heap.dropAt p).map fun h => (.done, { s with heap := h })
  | .destroy p => (s.heap.dropAt p).map fun h => (.done, { s with heap := h.removeHandle p })
  | .root src =>
    (s.heap.handleAt src).map fun v =>
      (.done, { heap := { s.heap with roots := s.heap.roots ++ v.toList }
                guards := s.guards ++ [v] })
  | .moveGuard src =>
    s.guards[src]?.map fun v => (.done, { s with guards := s.guards.set src none ++ [v] })
  | .assignGuard dst src =>
    if dst = src then s.guards[dst]?.map fun _ => (.done, s)
    else
      (s.releaseGuard dst).bind fun s => s.guards[src]?.map fun v =>
        (.done, { s with guards := (s.guards.set src none).set dst v })
  | .destroyGuard i =>
    (s.releaseGuard i).map fun s => (.done, { s with guards := s.guards.eraseIdx i })
  | .lock i =>
    s.guards[i]?.bind fun v =>
      ((s.heap.bump v).construct none v).map fun h => (.handle v, { s with heap := h })
  | .collect =>
    (s.heap.collectCycles trace).map fun r => (.freed r.1, { s with heap := r.2 })

/-- What every call keeps, as long as the drops are harmless. -/
structure Invariant (s : System N) : Prop where
  sound : s.heap.Sound []
  rooted : ∀ n, s.heap.roots.count n = s.guards.count (some n)
  pinned : ∀ n, some n ∈ s.guards → n ∈ s.heap.live

/-- The drop that the action makes takes no guarded node, nor the node that holds the
handle, and its cascade keeps the registry whole. -/
def Harmless (s : System N) (a : Action N) : Prop :=
  ∀ p, a.dropped = some p → s.heap.Harmless s.guards p

instance (s : System N) (a : Action N) : Decidable (s.Harmless a) :=
  inferInstanceAs (Decidable (∀ p ∈ a.dropped, s.heap.Harmless s.guards p))

theorem init_invariant : (init : System N).Invariant where
  sound :=
    ⟨⟨[], rfl, List.nodup_nil, rfl⟩, rfl, nofun, nofun, nofun, nofun, nofun, nofun⟩
  rooted _ := rfl
  pinned := nofun

section Steps
variable {s s' : System N} {trace : N → List (Option N) → List N}

/-- The heap changes, its roots and its guarded nodes stay. -/
theorem Invariant.setHeap (hi : s.Invariant) {h : RcHeap N} (hs : h.Sound [])
    (hroots : h.roots = s.heap.roots) (hlive : ∀ n ∈ s.heap.live, some n ∈ s.guards → n ∈ h.live) :
    Invariant { s with heap := h } where
  sound := hs
  rooted n := by
    rw [hroots]
    exact hi.rooted n
  pinned n hn := hlive n (hi.pinned n hn) hn

theorem releaseGuard_invariant (hi : s.Invariant) {i : ℕ} (hs : s.releaseGuard i = some s') :
    s'.Invariant ∧ s'.guards[i]? = some none := by
  obtain ⟨v, hv, hs'⟩ := Option.map_eq_some_iff.mp hs
  cases v with
  | none =>
    cases hs'
    exact ⟨hi, hv⟩
  | some n =>
    cases hs'
    have hmem : some n ∈ s.guards := List.mem_of_getElem? hv
    have hroot : n ∈ s.heap.roots := by
      rw [← List.count_pos_iff, hi.rooted n]
      exact List.count_pos_iff.mpr hmem
    have hi' : i < s.guards.length := (List.getElem?_eq_some_iff.mp hv).1
    refine ⟨⟨hi.sound.setRoots _, fun x => ?_, fun x hx => ?_⟩, ?_⟩
    · have hunroot := count_unroot hroot x
      have hset := count_set hv none (some x)
      have hempty := RcHeap.count_empty x
      have hsome : [some n].count (some x) = [n].count x := by simp [List.count_cons]
      have hrooted := hi.rooted x
      simp only
      omega
    · exact hi.pinned x ((List.mem_or_eq_of_mem_set hx).resolve_right nofun)
    · simp [hi']

/-- A new handle to a live node, or an empty one. -/
theorem Invariant.construct (hi : s.Invariant) {v dst : Option N} {h : RcHeap N}
    (hv : ∀ n, v = some n → n ∈ s.heap.live) (hh : (s.heap.bump v).construct dst v = some h) :
    Invariant { s with heap := h } := by
  obtain ⟨hlive, hroots⟩ := RcHeap.construct_frame hh
  refine hi.setHeap ((hi.sound.bump hv).construct hh) ?_ fun n hn _ => ?_
  · rw [hroots, RcHeap.bump_roots]
  · rwa [hlive, RcHeap.bump_live]

theorem Invariant.move (hi : s.Invariant) {src : Place N} {v dst : Option N} {h : RcHeap N}
    (hv : s.heap.handleAt src = some v)
    (hh : (s.heap.setHandle src none).construct dst v = some h) :
    Invariant { s with heap := h } := by
  obtain ⟨hlive, hroots⟩ := RcHeap.construct_frame hh
  refine hi.setHeap ((hi.sound.take hv).construct hh) ?_ fun n hn _ => ?_
  · rw [hroots, RcHeap.setHandle_roots]
  · rwa [hlive, RcHeap.setHandle_live]

theorem Invariant.copyAssign (hi : s.Invariant) {dst src : Place N} {v : Option N} {h : RcHeap N}
    (hok : s.heap.Harmless s.guards dst) (hdrop : s.heap.dropAt dst = some h)
    (hv : h.handleAt src = some v) :
    Invariant { s with heap := (h.bump v).setHandle dst v } := by
  obtain ⟨hs, hdst, hroots, hlive⟩ := hi.sound.dropAt hok hdrop
  have hbump : (h.bump v).Sound [v] := hs.bump fun n hn => hs.live_of_handleAt (hn ▸ hv)
  refine hi.setHeap (hbump.put (by rwa [RcHeap.bump_handleAt])) ?_ fun n hn hg => ?_
  · rw [RcHeap.setHandle_roots, RcHeap.bump_roots, hroots]
  · rw [RcHeap.setHandle_live, RcHeap.bump_live]
    exact hlive n hn hg

theorem Invariant.moveAssign (hi : s.Invariant) {dst src : Place N} {v : Option N} {h : RcHeap N}
    (hne : dst ≠ src) (hok : s.heap.Harmless s.guards dst) (hdrop : s.heap.dropAt dst = some h)
    (hv : h.handleAt src = some v) :
    Invariant { s with heap := (h.setHandle src none).setHandle dst v } := by
  obtain ⟨hs, hdst, hroots, hlive⟩ := hi.sound.dropAt hok hdrop
  have hput := (hs.take hv).put (by rwa [RcHeap.handleAt_setHandle_ne hne])
  refine hi.setHeap hput ?_ fun n hn hg => ?_
  · rw [RcHeap.setHandle_roots, RcHeap.setHandle_roots, hroots]
  · rw [RcHeap.setHandle_live, RcHeap.setHandle_live]
    exact hlive n hn hg

theorem Invariant.root (hi : s.Invariant) {src : Place N} {v : Option N}
    (hv : s.heap.handleAt src = some v) :
    Invariant { heap := { s.heap with roots := s.heap.roots ++ v.toList }
                guards := s.guards ++ [v] } where
  sound := hi.sound.setRoots _
  rooted n := by
    have hone : v.toList.count n = [v].count (some n) := by
      cases v with
      | none => simp
      | some m => simp [List.count_cons]
    simp only [List.count_append, hi.rooted n, hone]
  pinned n hn := by
    rcases List.mem_append.mp hn with hn | hn
    · exact hi.pinned n hn
    · exact hi.sound.live_of_handleAt (List.mem_singleton.mp hn ▸ hv)

/-- The guards are rearranged. -/
theorem Invariant.setGuards (hi : s.Invariant) {guards : List (Option N)}
    (hcount : ∀ n : N, guards.count (some n) = s.guards.count (some n)) :
    Invariant { s with guards := guards } where
  sound := hi.sound
  rooted n := (hi.rooted n).trans (hcount n).symm
  pinned n hn := hi.pinned n (by
    rw [← List.count_pos_iff, ← hcount n]
    exact List.count_pos_iff.mpr hn)

theorem Invariant.collect (hi : s.Invariant) (htrace : ∀ n l, (trace n l).Perm l.reduceOption)
    {freed : ℕ} {h : RcHeap N} (hh : s.heap.collectCycles trace = some (freed, h)) :
    Invariant { s with heap := h } := by
  obtain ⟨hs, hroots, hkeep⟩ := hi.sound.collect htrace hh
  have hpin : ∀ n, some n ∈ s.guards → n ∈ h.live := by
    intro n hn
    refine hkeep n (hi.pinned n hn) ?_
    rw [← List.count_pos_iff, hi.rooted n]
    exact List.count_pos_iff.mpr hn
  refine ⟨hs, fun n => ?_, hpin⟩
  by_cases hn : n ∈ h.live
  · rw [hroots, List.count_filter (by simpa using hn)]
    exact hi.rooted n
  · rw [hroots, List.count_eq_zero.mpr (by simp [hn])]
    exact (List.count_eq_zero.mpr fun hg => hn (hpin n hg)).symm

theorem step_invariant (htrace : ∀ n l, (trace n l).Perm l.reduceOption) (hi : s.Invariant)
    {a : Action N} {o : Result N} (hok : s.Harmless a) (hstep : s.step trace a = some (o, s')) :
    s'.Invariant := by
  cases a with
  | make n width =>
    simp only [step] at hstep
    split_ifs at hstep with hused
    cases hstep
    have hn : n ∉ s.heap.live := fun hn => hused ⟨hn, fun hd => hi.sound.destroyed n hd hn⟩
    exact hi.setHeap (hi.sound.make hn width) rfl fun x hx _ => Finset.mem_insert_of_mem hx
  | copy src dst =>
    obtain ⟨v, hv, hrest⟩ := Option.bind_eq_some_iff.mp hstep
    obtain ⟨h, hh, hs⟩ := Option.map_eq_some_iff.mp hrest
    cases hs
    exact hi.construct (fun n hn => hi.sound.live_of_handleAt (hn ▸ hv)) hh
  | move src dst =>
    obtain ⟨v, hv, hrest⟩ := Option.bind_eq_some_iff.mp hstep
    obtain ⟨h, hh, hs⟩ := Option.map_eq_some_iff.mp hrest
    cases hs
    exact hi.move hv hh
  | copyAssign dst src =>
    simp only [step] at hstep
    split_ifs at hstep with hself
    · obtain ⟨_, _, hs⟩ := Option.map_eq_some_iff.mp hstep
      cases hs
      exact hi
    · obtain ⟨h, hdrop, hrest⟩ := Option.bind_eq_some_iff.mp hstep
      obtain ⟨v, hv, hs⟩ := Option.map_eq_some_iff.mp hrest
      cases hs
      exact hi.copyAssign (hok dst (if_neg hself)) hdrop hv
  | moveAssign dst src =>
    simp only [step] at hstep
    split_ifs at hstep with hself
    · obtain ⟨_, _, hs⟩ := Option.map_eq_some_iff.mp hstep
      cases hs
      exact hi
    · obtain ⟨h, hdrop, hrest⟩ := Option.bind_eq_some_iff.mp hstep
      obtain ⟨v, hv, hs⟩ := Option.map_eq_some_iff.mp hrest
      cases hs
      exact hi.moveAssign hself (hok dst (if_neg hself)) hdrop hv
  | reset p =>
    obtain ⟨h, hdrop, hs⟩ := Option.map_eq_some_iff.mp hstep
    cases hs
    obtain ⟨hs, -, hroots, hlive⟩ := hi.sound.dropAt (hok p rfl) hdrop
    exact hi.setHeap hs hroots hlive
  | destroy p =>
    obtain ⟨h, hdrop, hs⟩ := Option.map_eq_some_iff.mp hstep
    cases hs
    obtain ⟨hs, hp, hroots, hlive⟩ := hi.sound.dropAt (hok p rfl) hdrop
    exact hi.setHeap (hs.remove hp) (by rw [RcHeap.removeHandle_roots, hroots])
      fun n hn hg => by
        rw [RcHeap.removeHandle_live]
        exact hlive n hn hg
  | root src =>
    obtain ⟨v, hv, hs⟩ := Option.map_eq_some_iff.mp hstep
    cases hs
    exact hi.root hv
  | moveGuard src =>
    obtain ⟨v, hv, hs⟩ := Option.map_eq_some_iff.mp hstep
    cases hs
    refine hi.setGuards fun n => ?_
    have hset := count_set hv none (some n)
    have hempty := RcHeap.count_empty n
    rw [List.count_append]
    omega
  | assignGuard dst src =>
    simp only [step] at hstep
    split_ifs at hstep with hself
    · obtain ⟨_, _, hs⟩ := Option.map_eq_some_iff.mp hstep
      cases hs
      exact hi
    · obtain ⟨s₁, hrel, hrest⟩ := Option.bind_eq_some_iff.mp hstep
      obtain ⟨v, hv, hs⟩ := Option.map_eq_some_iff.mp hrest
      cases hs
      obtain ⟨hi₁, hdst⟩ := releaseGuard_invariant hi hrel
      refine hi₁.setGuards fun n => ?_
      have hdst' : (s₁.guards.set src none)[dst]? = some none := by
        rw [List.getElem?_set_ne (Ne.symm hself)]
        exact hdst
      have hfirst := count_set hv none (some n)
      have hsecond := count_set hdst' v (some n)
      omega
  | destroyGuard i =>
    obtain ⟨s₁, hrel, hs⟩ := Option.map_eq_some_iff.mp hstep
    cases hs
    obtain ⟨hi₁, hnull⟩ := releaseGuard_invariant hi hrel
    refine hi₁.setGuards fun n => ?_
    have herase := count_eraseIdx hnull (some n)
    have hempty := RcHeap.count_empty n
    omega
  | lock i =>
    obtain ⟨v, hv, hrest⟩ := Option.bind_eq_some_iff.mp hstep
    obtain ⟨h, hh, hs⟩ := Option.map_eq_some_iff.mp hrest
    cases hs
    exact hi.construct (fun n hn => hi.pinned n (hn ▸ List.mem_of_getElem? hv)) hh
  | collect =>
    obtain ⟨⟨freed, h⟩, hh, hs⟩ := Option.map_eq_some_iff.mp hstep
    cases hs
    exact hi.collect htrace hh

end Steps

/-- The node of every guard is in the heap. -/
def Pinned (s : System N) : Prop :=
  ∀ n, some n ∈ s.guards → n ∈ s.heap.live ∧ some n ∈ s.heap.nodes ∧ n ∉ s.heap.destroyed

theorem Invariant.all_pinned {s : System N} (hi : s.Invariant) : s.Pinned := by
  intro n hn
  have hlive := hi.pinned n hn
  obtain ⟨ids, hnodes, -, hids⟩ := hi.sound.registered
  refine ⟨hlive, ?_, fun hd => hi.sound.destroyed n hd hlive⟩
  rw [hnodes]
  exact List.mem_map_of_mem (by rwa [← List.mem_toFinset, hids])

theorem exec_step_invariant {trace : N → List (Option N) → List N}
    (htrace : ∀ n l, (trace n l).Perm l.reduceOption) {actions : List (Action N)}
    {es : List (Event (System N) (Action N) (Result N))} {t : System N}
    (hrun : exec (step trace) init actions = some (es, t))
    (hok : ∀ e ∈ es, e.before.Harmless e.call) :
    (∀ e ∈ es, e.before.Invariant) ∧ t.Invariant := by
  refine exec_invariant (fun es t => (∀ e ∈ es, e.before.Harmless e.call) →
    (∀ e ∈ es, e.before.Invariant) ∧ t.Invariant) ?_ (fun _ => ⟨nofun, init_invariant⟩) hrun hok
  intro es s a o s' ih hstep hok
  rw [List.forall_mem_append, List.forall_mem_singleton] at hok
  obtain ⟨hbefore, hs⟩ := ih hok.1
  refine ⟨?_, step_invariant htrace hs hok.2 hstep⟩
  rw [List.forall_mem_append, List.forall_mem_singleton]
  exact ⟨hbefore, hs⟩

/-- A lock of a guard that is not empty answers with the node of the guard. -/
theorem step_lock {trace : N → List (Option N) → List N} {s s' : System N} {o : Result N} {i : ℕ}
    {v : Option N} (hstep : s.step trace (.lock i) = some (o, s')) (hv : s.guards[i]? = some v) :
    o = .handle v := by
  simp only [step, hv, Option.bind_some] at hstep
  obtain ⟨h, _, hs⟩ := Option.map_eq_some_iff.mp hstep
  cases hs
  rfl

/-- Along every run whose drops are harmless the guards pin their nodes, and `lock` answers
with a handle to a node that is there. -/
theorem guards_pin {trace : N → List (Option N) → List N}
    (htrace : ∀ n l, (trace n l).Perm l.reduceOption) {actions : List (Action N)}
    {es : List (Event (System N) (Action N) (Result N))} {t : System N}
    (hrun : exec (step trace) init actions = some (es, t))
    (hok : ∀ e ∈ es, e.before.Harmless e.call) :
    (∀ e ∈ es, e.before.Pinned) ∧ t.Pinned ∧
      ∀ e ∈ es, ∀ i n, e.call = .lock i → e.before.guards[i]? = some (some n) →
        e.result = .handle (some n) ∧ n ∈ e.before.heap.live ∧ n ∉ e.before.heap.destroyed := by
  obtain ⟨hbefore, ht⟩ := exec_step_invariant htrace hrun hok
  refine ⟨fun e he => (hbefore e he).all_pinned, ht.all_pinned, fun e he i n hcall hg => ?_⟩
  obtain ⟨_, _, u, -, -, hstep⟩ := exec_mem hrun he
  rw [hcall] at hstep
  obtain ⟨hlive, -, hkept⟩ := (hbefore e he).all_pinned n (List.mem_of_getElem? hg)
  exact ⟨step_lock hstep hg, hlive, hkept⟩

/-- A rooted cycle that has lost its handles outside survives a collection. -/
def rootedCycle : List (Action ℕ) :=
  [.make 0 1, .make 1 1, .copyAssign (.inside 0 0) (.outside 1),
    .copyAssign (.inside 1 0) (.outside 0), .root (.outside 0), .destroy (.outside 0),
    .destroy (.outside 0), .collect, .lock 0]

theorem guards_pin_rootedCycle :
    ∃ es t, exec (step fun _ l => l.reduceOption) init rootedCycle = some (es, t) ∧
      (∀ e ∈ es, e.before.Harmless e.call) ∧ (∀ e ∈ es, e.before.Pinned) ∧ t.Pinned ∧
      ∀ e ∈ es, ∀ i n, e.call = .lock i → e.before.guards[i]? = some (some n) →
        e.result = .handle (some n) ∧ n ∈ e.before.heap.live ∧ n ∉ e.before.heap.destroyed := by
  have hrun : exec (step fun _ l => l.reduceOption) init rootedCycle = some (_, _) := rfl
  have hok : ∀ e ∈ (Option.get (exec (step fun _ l => l.reduceOption) init rootedCycle) rfl).1,
      e.before.Harmless e.call := by decide
  exact ⟨_, _, hrun, hok, guards_pin (fun _ l => List.Perm.refl l.reduceOption) hrun hok⟩

/-- The last handle of a rooted node is dropped: the guard does not count. -/
theorem guard_outlives_node :
    ((exec (step fun _ l => l.reduceOption) init
        [.make 0 0, .root (.outside 0), .reset (.outside 0), .lock 0]).map fun r =>
      (r.2.guards, r.2.heap.live, r.2.heap.destroyed, r.2.heap.outside)) =
      some ([some 0], ∅, [0], [none, some 0]) := by
  decide

end System
end HftExercises.Rc
