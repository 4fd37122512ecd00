import HftExercises.Memory.RcHeapRegistry
import Mathlib.Logic.Function.Iterate

/-! # What the cycle collector frees

The seeds are found by comparing counts with edges, the marks follow the edges,
the sweep moves the unmarked nodes out and their destructors, with the cascade
suppressed, retire the edges they held.
-/
namespace HftExercises.Rc
variable {N : Type*} [DecidableEq N]

theorem count_reduceOption (l : List (Option N)) (n : N) :
    l.reduceOption.count n = l.count (some n) := by
  induction l with
  | nil => rfl
  | cons e l ih =>
    cases e with
    | none => simp [ih]
    | some x => simp [List.count_cons, ih]

omit [DecidableEq N] in
theorem mapM_id_map_some (ids : List N) : (ids.map some).mapM id = some ids := by
  induction ids with
  | nil => rfl
  | cons n ids ih => simp [List.mapM_cons, ih]

theorem count_flatMap {ids : List N} (hnodup : ids.Nodup) (payload : N → List (Option N)) (n : N) :
    (ids.flatMap payload).count (some n) = ∑ x ∈ ids.toFinset, (payload x).count (some n) := by
  induction ids with
  | nil => rfl
  | cons y ids ih =>
    obtain ⟨hy, hids⟩ := List.nodup_cons.mp hnodup
    rw [List.flatMap_cons, List.count_append, ih hids, List.toFinset_cons,
      Finset.sum_insert (by simpa using hy)]

/-- Counting up along a list of edges. -/
theorem foldl_increment (live : Finset N) (es : List N) (c : N → ℕ) (m : N) :
    es.foldl (fun c m => if m ∈ live then Function.update c m (c m + 1) else c) c m =
      c m + if m ∈ live then es.count m else 0 := by
  induction es generalizing c with
  | nil => simp
  | cons e es ih =>
    rw [List.foldl_cons, ih]
    by_cases he : e ∈ live
    · by_cases hme : m = e
      · subst hme
        simp [he]
        omega
      · simp [he, hme, Ne.symm hme]
    · by_cases hme : m = e
      · subst hme
        simp [he]
      · simp [he, Ne.symm hme]

theorem decrement_iterate {k c : ℕ} (h : k ≤ c) : decrement^[k] c = c - k := by
  induction k with
  | zero => rfl
  | succ k ih =>
    have hpos : c - k ≠ 0 := by omega
    rw [Function.iterate_succ_apply', ih (by omega), decrement, if_neg hpos]
    omega

namespace RcHeap

/-! ## Seeds -/

theorem countInternal_eq {trace : N → List (Option N) → List N}
    (htrace : ∀ n l, (trace n l).Perm l.reduceOption) (h : RcHeap N) (ids : List N) {m : N}
    (hm : m ∈ h.live) :
    h.countInternal trace ids m = (ids.flatMap h.payload).count (some m) := by
  suffices hgen : ∀ c : N → ℕ, ids.foldl (fun internal n => (h.edges trace n).foldl
      (fun internal m => if m ∈ h.live then Function.update internal m (internal m + 1)
        else internal) internal) c m = c m + (ids.flatMap h.payload).count (some m) by
    exact (hgen fun _ => 0).trans (Nat.zero_add _)
  induction ids with
  | nil => simp
  | cons n ids ih =>
    intro c
    have hedges : (h.edges trace n).count m = (h.payload n).count (some m) := by
      rw [edges, (htrace n (h.payload n)).count_eq, count_reduceOption]
    rw [List.foldl_cons, ih, foldl_increment, if_pos hm, hedges, List.flatMap_cons,
      List.count_append]
    omega

/-- A live node that `roots_` names, or with more handles than payload edges into it. -/
def Seed (h : RcHeap N) (n : N) : Prop :=
  n ∈ h.live ∧ (n ∈ h.roots ∨ h.incoming n < h.strong n)

/-- A path of payload edges between live nodes joins the node to a seed. -/
def Reached (h : RcHeap N) (n : N) : Prop :=
  ∃ s, h.Seed s ∧ Relation.ReflTransGen (fun a b => some b ∈ h.payload a ∧ b ∈ h.live) s n

theorem Reached.mem_live {h : RcHeap N} {n : N} (hr : h.Reached n) : n ∈ h.live := by
  obtain ⟨s, hs, hpath⟩ := hr
  cases hpath with
  | refl => exact hs.1
  | tail _ hlast => exact hlast.2

theorem reachable_iff_reached {trace : N → List (Option N) → List N}
    (htrace : ∀ n l, (trace n l).Perm l.reduceOption) (h : RcHeap N) {ids : List N}
    (hnodup : ids.Nodup) (hids : ids.toFinset = h.live) (n : N) :
    Worklist.Reachable h.live (h.edges trace) (h.seeds trace ids).reverse n ↔ h.Reached n := by
  have hedge : ∀ a b, b ∈ h.edges trace a ↔ some b ∈ h.payload a := by
    intro a b
    rw [edges, (htrace a (h.payload a)).mem_iff, List.reduceOption_mem_iff]
  have hseed : ∀ s ∈ h.live, s ∈ (h.seeds trace ids).reverse ↔
      s ∈ h.roots ∨ h.incoming s < h.strong s := by
    intro s hs
    have hmem : s ∈ ids := by rwa [← List.mem_toFinset, hids]
    have hin : h.countInternal trace ids s = h.incoming s := by
      rw [countInternal_eq htrace h ids hs, incoming, ← hids, count_flatMap hnodup]
    simp [seeds, hin, hmem, or_comm]
  simp only [Worklist.Reachable, Reached, Seed, hedge]
  constructor
  · rintro ⟨s, hs, hl, hpath⟩
    exact ⟨s, ⟨hl, (hseed s hl).mp hs⟩, hpath⟩
  · rintro ⟨s, ⟨hl, hs⟩, hpath⟩
    exact ⟨s, (hseed s hl).mpr hs, hl, hpath⟩

/-! ## Sweep -/

theorem sweepNext_marked {s : Sweep N} {A B : List (Option N)} {n : N}
    (hnodes : s.heap.nodes = A ++ some n :: B) (hit : s.it = A.length)
    (hm : s.heap.marked n = true) :
    sweepNext s = some ⟨{ s.heap with marked := Function.update s.heap.marked n false },
      s.it + 1, s.trash⟩ := by
  simp [sweepNext, hnodes, hit, hm]

theorem sweepNext_unmarked {s : Sweep N} {A B : List (Option N)} {n : N}
    (hnodes : s.heap.nodes = A ++ some n :: B) (hit : s.it = A.length)
    (hm : s.heap.marked n = false) :
    sweepNext s = some ⟨{ s.heap with live := s.heap.live.erase n, nodes := A ++ B },
      s.it, s.trash ++ [n]⟩ := by
  have hset : s.heap.nodes.set s.it none = A ++ none :: B := by simp [hnodes, hit]
  have hslot : slotAt s.heap.nodes s.it = some n := by simp [hnodes, hit]
  have herase := erase_null delete
    (h := { s.heap with live := s.heap.live.erase n, nodes := A ++ none :: B }) rfl
  rw [sweepNext, hslot, Option.bind_some, hm, hset, hit]
  simp [herase]

/-- The marked nodes stay in their order and lose the mark, the others move to `trash`. -/
theorem sweep_run (todo kept trash : List N) {h : RcHeap N} {fuel : ℕ}
    (hnodes : h.nodes = (kept ++ todo).map some) (hnodup : todo.Nodup)
    (hfuel : todo.length ≤ fuel) :
    whileLoop (fun s => decide (s.it < s.heap.nodes.length)) sweepNext fuel
        ⟨h, kept.length, trash⟩ =
      some ⟨{ h with
        nodes := (kept ++ todo.filter h.marked).map some
        live := h.live \ (todo.filter (!h.marked ·)).toFinset
        marked := fun n => if n ∈ todo then false else h.marked n },
        (kept ++ todo.filter h.marked).length, trash ++ todo.filter (!h.marked ·)⟩ := by
  induction todo generalizing kept h trash fuel with
  | nil =>
    have hkept : kept.map some = h.nodes := by simpa using hnodes.symm
    rw [whileLoop_stop (by simp [hnodes])]
    simp [hkept]
  | cons n todo ih =>
    obtain ⟨hn, hnodup⟩ := List.nodup_cons.mp hnodup
    cases fuel with
    | zero => simp at hfuel
    | succ fuel =>
      have hsplit : h.nodes = kept.map some ++ some n :: todo.map some := by simp [hnodes]
      have hfuel' : todo.length ≤ fuel := by simpa using hfuel
      rw [whileLoop_next (by simp [hnodes])]
      cases hm : h.marked n with
      | true =>
        have hne : ∀ x ∈ todo, x ≠ n := fun x hx heq => hn (heq ▸ hx)
        have hmarks : ∀ x ∈ todo, Function.update h.marked n false x = h.marked x :=
          fun x hx => Function.update_of_ne (hne x hx) _ _
        have hfilter : todo.filter (Function.update h.marked n false) = todo.filter h.marked :=
          List.filter_congr hmarks
        have hfilter' : todo.filter (fun x => !Function.update h.marked n false x) =
            todo.filter (fun x => !h.marked x) :=
          List.filter_congr fun x hx => by rw [hmarks x hx]
        have hreset : (fun x => if x ∈ todo then false else Function.update h.marked n false x) =
            fun x => if x ∈ n :: todo then false else h.marked x := by
          funext x
          by_cases hx : x = n
          · simp [hx]
          · simp [hx]
        have hlen : kept.length + 1 = (kept ++ [n]).length := by simp
        rw [sweepNext_marked hsplit (by simp) hm, Option.bind_some]
        simp only [hlen]
        rw [ih _ _ (by simp [hnodes]) hnodup hfuel']
        simp only [hfilter, hfilter', hreset]
        simp [hm]
      | false =>
        have hreset : (fun x => if x ∈ todo then false else h.marked x) =
            fun x => if x ∈ n :: todo then false else h.marked x := by
          funext x
          by_cases hx : x = n
          · simp [hx, hm]
          · simp [hx]
        have hlive : h.live.erase n \ (todo.filter (!h.marked ·)).toFinset =
            h.live \ ((n :: todo).filter (!h.marked ·)).toFinset := by
          ext x
          by_cases hx : x = n
          · simp [hx, hm]
          · simp [hx]
        rw [sweepNext_unmarked hsplit (by simp) hm, Option.bind_some,
          ih _ _ (by simp) hnodup hfuel']
        simp only [hreset, hlive]
        simp [hm]

theorem sweep_eq {h : RcHeap N} {ids : List N} (hnodes : h.nodes = ids.map some)
    (hnodup : ids.Nodup) :
    sweep h = some ⟨{ h with
      nodes := (ids.filter h.marked).map some
      live := h.live \ (ids.filter (!h.marked ·)).toFinset
      marked := fun n => if n ∈ ids then false else h.marked n },
      (ids.filter h.marked).length, ids.filter (!h.marked ·)⟩ := by
  have hfuel : ids.length ≤ h.nodes.length := by simp [hnodes]
  exact sweep_run ids [] [] (by simpa using hnodes) hnodup hfuel

/-! ## Destruction with the cascade suppressed -/

/-- While sweeping, the handles of a payload only take their edges off the counts. -/
theorem dropAll_sweeping (del : RcHeap N → N → Option (RcHeap N)) {h : RcHeap N}
    (hs : h.sweeping = true) (l : List (Option N)) :
    dropAll del h l = some { h with
      strong := fun n => decrement^[l.count (some n)] (h.strong n)
      stale := h.stale ++ l.reduceOption.filter (· ∈ h.destroyed) } := by
  induction l generalizing h with
  | nil => simp [dropAll]
  | cons p l ih =>
    cases p with
    | none =>
      rw [dropAll, drop, Option.bind_some, ih hs]
      simp
    | some x =>
      have hdrop : drop del h (some x) = some (h.retire x) := by simp [drop, hs]
      rw [dropAll, hdrop, Option.bind_some, ih (show (h.retire x).sweeping = true from hs)]
      have hstrong : (fun n => decrement^[l.count (some n)] ((h.retire x).strong n)) =
          fun n => decrement^[(some x :: l).count (some n)] (h.strong n) := by
        funext n
        by_cases hn : n = x
        · simp [hn, retire]
        · simp [hn, retire, Ne.symm hn]
      by_cases hx : x ∈ h.destroyed
      · simp only [hstrong]
        simp [retire, hx]
      · simp only [hstrong]
        simp [retire, hx]

theorem delete_sweeping {h : RcHeap N} (hs : h.sweeping = true) (x : N) :
    delete h x = some { h with
      strong := fun n => decrement^[(h.payload x).count (some n)] (h.strong n)
      stale := h.stale ++ (h.payload x).reduceOption.filter (· ∈ h.destroyed)
      destroyed := h.destroyed ++ [x] } := by
  simp [delete, deleteNode, dropAll_sweeping _ hs]

/-- The drops of `trash.clear()` that go to a node destroyed before, in their order. -/
def staleDrops (payload : N → List (Option N)) : List N → List N → List N
  | _, [] => []
  | gone, x :: trash =>
    (payload x).reduceOption.filter (· ∈ gone) ++ staleDrops payload (gone ++ [x]) trash

theorem clear_sweeping (trash : List N) {h : RcHeap N} (hs : h.sweeping = true) :
    clear h trash = some { h with
      strong := fun n => decrement^[(trash.flatMap h.payload).count (some n)] (h.strong n)
      stale := h.stale ++ staleDrops h.payload h.destroyed trash
      destroyed := h.destroyed ++ trash } := by
  induction trash generalizing h with
  | nil => simp [clear, staleDrops]
  | cons x trash ih =>
    rw [clear, delete_sweeping hs, Option.bind_some, ih (by exact hs)]
    simp [staleDrops, ← Function.iterate_add_apply, Nat.add_comm]

theorem staleDrops_eq_nil_iff (payload : N → List (Option N)) (gone trash : List N) :
    staleDrops payload gone trash = [] ↔
      ∀ l x r, trash = l ++ x :: r → ∀ y, some y ∈ payload x → y ∉ gone ++ l := by
  induction trash generalizing gone with
  | nil => simp [staleDrops]
  | cons x trash ih =>
    have hhead : (payload x).reduceOption.filter (· ∈ gone) = [] ↔
        ∀ y, some y ∈ payload x → y ∉ gone := by
      simp [List.filter_eq_nil_iff, List.reduceOption_mem_iff]
    rw [staleDrops, List.append_eq_nil_iff, hhead, ih]
    constructor
    · rintro ⟨hx, htrash⟩ l z r heq
      cases l with
      | nil =>
        cases heq
        simpa using hx
      | cons w l =>
        cases heq
        simpa using htrash l z r rfl
    · intro hall
      refine ⟨by simpa using hall [] x trash rfl, ?_⟩
      intro l z r heq
      simpa using hall (x :: l) z r (by rw [heq]; rfl)

/-! ## The whole collection -/

/-- The heap when the registered nodes that `keep` refuses have been destroyed. -/
def collected (h : RcHeap N) (ids : List N) (keep : N → Bool) : RcHeap N :=
  { h with
    nodes := (ids.filter keep).map some
    live := h.live \ (ids.filter (!keep ·)).toFinset
    marked := fun n => if n ∈ ids then false else h.marked n
    strong := fun n =>
      decrement^[((ids.filter (!keep ·)).flatMap h.payload).count (some n)] (h.strong n)
    stale := h.stale ++ staleDrops h.payload h.destroyed (ids.filter (!keep ·))
    destroyed := h.destroyed ++ ids.filter (!keep ·)
    roots := h.roots.filter (· ∈ h.live \ (ids.filter (!keep ·)).toFinset) }

/-- The collector ends, and refuses exactly the nodes that no seed reaches. -/
theorem collectCycles_eq {trace : N → List (Option N) → List N}
    (htrace : ∀ n l, (trace n l).Perm l.reduceOption) {h : RcHeap N} (hc : h.Consistent) :
    ∃ (ids : List N) (keep : N → Bool), h.nodes = ids.map some ∧ ids.Nodup ∧
      ids.toFinset = h.live ∧ (∀ n ∈ h.live, keep n = true ↔ h.Reached n) ∧
      h.collectCycles trace = some ((ids.filter (!keep ·)).length, h.collected ids keep) := by
  obtain ⟨ids, hnodes, hnodup, hids⟩ := hc.registered
  obtain ⟨keep, hmark, hkeep, hoff⟩ := Worklist.visitAll_spec (h.edges trace)
    (h.seeds trace ids).reverse hc.unmarked le_rfl
  refine ⟨ids, keep, hnodes, hnodup, hids, fun n hn => ?_, ?_⟩
  · rw [hkeep n hn, reachable_iff_reached htrace h hnodup hids]
  · have hmap : h.nodes.mapM id = some ids := by rw [hnodes, mapM_id_map_some]
    have hreset : (fun n => if n ∈ ids then false else keep n) =
        fun n => if n ∈ ids then false else h.marked n := by
      funext n
      by_cases hn : n ∈ ids
      · simp [hn]
      · have hdead : n ∉ h.live := by rwa [← hids, List.mem_toFinset]
        simp [hn, hoff n hdead]
    have hsweep := sweep_eq (h := { h with sweeping := true, marked := keep }) hnodes hnodup
    -- the five stages in turn, each from where the one before it stopped
    refine Option.bind_eq_some_iff.mpr ⟨ids, hmap, ?_⟩
    refine Option.bind_eq_some_iff.mpr ⟨(keep, []), hmark, ?_⟩
    refine Option.bind_eq_some_iff.mpr ⟨_, hsweep, ?_⟩
    refine Option.bind_eq_some_iff.mpr ⟨_, clear_sweeping _ rfl, ?_⟩
    simp only [hreset]
    simp [collected, hc.idle]

section Collected
variable {h : RcHeap N} {ids : List N} {keep : N → Bool}

theorem mem_collected_live (hids : ids.toFinset = h.live) {n : N} :
    n ∈ (h.collected ids keep).live ↔ n ∈ h.live ∧ keep n = true := by
  simp only [collected, ← hids, Finset.mem_sdiff, List.mem_toFinset, List.mem_filter]
  cases keep n with
  | false => simp
  | true => simp

theorem mem_collected_iff_reached (hids : ids.toFinset = h.live)
    (hkeep : ∀ n ∈ h.live, keep n = true ↔ h.Reached n) (n : N) :
    n ∈ (h.collected ids keep).live ↔ h.Reached n := by
  rw [mem_collected_live hids]
  exact ⟨fun hn => (hkeep n hn.1).mp hn.2, fun hr => ⟨hr.mem_live, (hkeep n hr.mem_live).mpr hr⟩⟩

/-- What a survivor's count loses is what the destroyed payloads held. -/
theorem collected_counted (hc : h.Consistent) (hnodup : ids.Nodup) (hids : ids.toFinset = h.live)
    {n : N} (hn : n ∈ (h.collected ids keep).live) :
    (h.collected ids keep).strong n = (h.collected ids keep).handles n := by
  have hlive : n ∈ h.live := ((mem_collected_live hids).mp hn).1
  have hsub : (ids.filter (!keep ·)).toFinset ⊆ h.live := by
    intro x hx
    rw [← hids]
    exact List.mem_toFinset.mpr (List.mem_of_mem_filter (List.mem_toFinset.mp hx))
  have htrash := count_flatMap (hnodup.filter (!keep ·)) h.payload n
  have hsplit := Finset.sum_sdiff hsub (f := fun x => (h.payload x).count (some n))
  have hcount := hc.counted n hlive
  simp only [handles, incoming] at hcount
  simp only [collected, handles, incoming, htrash]
  rw [decrement_iterate (by omega)]
  omega

theorem collected_consistent (hc : h.Consistent) (hnodup : ids.Nodup)
    (hids : ids.toFinset = h.live) : (h.collected ids keep).Consistent where
  registered := by
    refine ⟨ids.filter keep, rfl, hnodup.filter _, ?_⟩
    ext n
    rw [mem_collected_live hids, List.mem_toFinset, List.mem_filter, ← hids, List.mem_toFinset]
  idle := hc.idle
  unmarked n hn := by
    have hmem : n ∈ ids := by
      rw [← List.mem_toFinset, hids]
      exact ((mem_collected_live hids).mp hn).1
    simp [collected, hmem]
  counted _ hn := collected_counted hc hnodup hids hn

end Collected

/-- The collector ends on every graph and keeps exactly what the seeds reach. -/
theorem collectCycles_keeps_reached {trace : N → List (Option N) → List N}
    (htrace : ∀ n l, (trace n l).Perm l.reduceOption) {h : RcHeap N} (hc : h.Consistent) :
    ∃ freed h', h.collectCycles trace = some (freed, h') ∧
      (∀ n, n ∈ h'.live ↔ h.Reached n) ∧
      h'.nodes = h.nodes.filter (fun e => e.any (· ∈ h'.live)) ∧
      freed = (h.live \ h'.live).card ∧
      (∀ n ∈ h'.live, h'.marked n = false) ∧
      h'.payload = h.payload ∧ h'.outside = h.outside ∧
      (∀ n ∈ h'.live, h'.strong n = h'.handles n) ∧
      h'.roots = h.roots.filter (· ∈ h'.live) := by
  obtain ⟨ids, keep, hnodes, hnodup, hids, hkeep, heq⟩ := collectCycles_eq htrace hc
  have hc' : (h.collected ids keep).Consistent := collected_consistent hc hnodup hids
  refine ⟨_, _, heq, mem_collected_iff_reached hids hkeep, ?_, ?_, hc'.unmarked, rfl, rfl,
    hc'.counted, rfl⟩
  · have hfilter : ids.filter keep = ids.filter (· ∈ (h.collected ids keep).live) := by
      refine List.filter_congr fun n hn => ?_
      have hlive : n ∈ h.live := by rwa [← hids, List.mem_toFinset]
      have hmem : n ∈ (h.collected ids keep).live ↔ keep n = true := by
        simp [mem_collected_live hids, hlive]
      simp [hmem]
    rw [hnodes, List.filter_map]
    exact congrArg (List.map some) hfilter
  · have htrash : h.live \ (h.collected ids keep).live = (ids.filter (!keep ·)).toFinset := by
      ext n
      rw [Finset.mem_sdiff, mem_collected_live hids, List.mem_toFinset, List.mem_filter, ← hids,
        List.mem_toFinset]
      cases keep n with
      | false => simp
      | true => simp
    rw [htrash, List.toFinset_card_of_nodup (hnodup.filter _)]

/-- A two-node cycle that nothing outside holds, and a node with an edge to itself that
is held. -/
def island : RcHeap ℕ where
  nodes := [some 0, some 1, some 2]
  live := {0, 1, 2}
  roots := []
  sweeping := false
  strong := fun n => if n = 2 then 2 else 1
  marked := fun _ => false
  payload := fun n => if n = 0 then [some 1] else if n = 1 then [some 0] else [some 2]
  outside := [some 2]
  destroyed := []
  stale := []

theorem island_consistent : island.Consistent where
  registered := ⟨[0, 1, 2], rfl, by decide, rfl⟩
  idle := rfl
  unmarked _ _ := rfl
  counted := by decide

theorem collectCycles_keeps_reached_island :
    island.Consistent ∧ ∃ freed h',
      island.collectCycles (fun _ l => l.reduceOption) = some (freed, h') ∧
      (∀ n, n ∈ h'.live ↔ island.Reached n) ∧
      h'.nodes = island.nodes.filter (fun e => e.any (· ∈ h'.live)) ∧
      freed = (island.live \ h'.live).card ∧
      (∀ n ∈ h'.live, h'.marked n = false) ∧
      h'.payload = island.payload ∧ h'.outside = island.outside ∧
      (∀ n ∈ h'.live, h'.strong n = h'.handles n) ∧
      h'.roots = island.roots.filter (· ∈ h'.live) :=
  ⟨island_consistent,
    collectCycles_keeps_reached (fun _ l => List.Perm.refl l.reduceOption) island_consistent⟩

/-! ## Counts of nodes that are gone -/

/-- `trash.clear()` touches no destroyed node if and only if no node to be freed holds a
handle to one destroyed before, or to one to be freed that stands before it in `nodes_`. -/
theorem collectCycles_stale_iff {trace : N → List (Option N) → List N}
    (htrace : ∀ n l, (trace n l).Perm l.reduceOption) {h : RcHeap N} (hc : h.Consistent) :
    (∃ freed h', h.collectCycles trace = some (freed, h') ∧ h'.stale = h.stale) ↔
      ∀ l b r, h.nodes = l ++ some b :: r → ¬ h.Reached b →
        ∀ a, some a ∈ h.payload b → a ∉ h.destroyed ∧ (some a ∈ l → h.Reached a) := by
  obtain ⟨ids, keep, hnodes, hnodup, hids, hkeep, heq⟩ := collectCycles_eq htrace hc
  have hlive : ∀ n ∈ ids, n ∈ h.live := fun n hn => by rwa [← hids, List.mem_toFinset]
  have hstale : (∃ freed h', h.collectCycles trace = some (freed, h') ∧ h'.stale = h.stale) ↔
      staleDrops h.payload h.destroyed (ids.filter (!keep ·)) = [] := by
    rw [heq]
    constructor
    · rintro ⟨freed, h', hsome, hsame⟩
      cases hsome
      simpa [collected] using hsame
    · intro hnil
      exact ⟨_, _, rfl, by simp [collected, hnil]⟩
  rw [hstale, staleDrops_eq_nil_iff]
  constructor
  · intro hall l b r hsplit hb a ha
    obtain ⟨l', rest, rfl, rfl, hrest⟩ := List.map_eq_append_iff.mp (hnodes.symm.trans hsplit)
    obtain ⟨b', r', rfl, hb', rfl⟩ := List.map_eq_cons_iff.mp hrest
    obtain rfl : b' = b := Option.some.inj hb'
    have hkb : keep b' = false := by
      rw [← Bool.not_eq_true, hkeep b' (hlive b' (by simp))]
      exact hb
    have hgone := hall (l'.filter (!keep ·)) b' (r'.filter (!keep ·))
      (by simp [hkb]) a ha
    rw [List.mem_append, not_or] at hgone
    refine ⟨hgone.1, fun hal => ?_⟩
    have hal' : a ∈ l' := by simpa using hal
    by_contra hra
    have hka : keep a = false := by
      rw [← Bool.not_eq_true, hkeep a (hlive a (by simp [hal']))]
      exact hra
    exact hgone.2 (List.mem_filter.mpr ⟨hal', by simp [hka]⟩)
  · intro hall l b r hsplit a ha
    obtain ⟨l', rest, rfl, rfl, hrest⟩ := List.filter_eq_append_iff.mp hsplit
    obtain ⟨skip, r', rfl, hskip, hkb, rfl⟩ := List.filter_eq_cons_iff.mp hrest
    have hb : ¬ h.Reached b := by
      rw [← hkeep b (hlive b (by simp))]
      simpa using hkb
    have hnodes' : h.nodes = (l' ++ skip).map some ++ some b :: r'.map some := by simp [hnodes]
    obtain ⟨hgone, hreach⟩ := hall _ b _ hnodes' hb a ha
    rw [List.mem_append, not_or]
    refine ⟨hgone, fun hal => ?_⟩
    obtain ⟨hal', hka⟩ := List.mem_filter.mp hal
    have hra : h.Reached a := hreach (by simp [hal'])
    rw [← hkeep a (hlive a (by simp [hal']))] at hra
    simp [hra] at hka

theorem collectCycles_stale_iff_island :
    island.Consistent ∧ ((∃ freed h', island.collectCycles (fun _ l => l.reduceOption) =
        some (freed, h') ∧ h'.stale = island.stale) ↔
      ∀ l b r, island.nodes = l ++ some b :: r → ¬ island.Reached b →
        ∀ a, some a ∈ island.payload b → a ∉ island.destroyed ∧ (some a ∈ l → island.Reached a)) :=
  ⟨island_consistent,
    collectCycles_stale_iff (fun _ l => List.Perm.refl l.reduceOption) island_consistent⟩

theorem island_closed : island.Closed where
  outside n hn := by
    obtain rfl : n = 2 := by simpa [island] using hn
    decide
  payload := by
    have hall : ∀ y ∈ island.live, ∀ p ∈ island.payload y, ∀ n ∈ p, n ∈ island.live := by decide
    exact fun y hy n hn => hall y hy (some n) hn n rfl
  destroyed := nofun

/-- The second node of the cycle takes its edge off the count of the first, which is gone. -/
theorem collectCycles_touches_destroyed :
    island.Consistent ∧ island.Closed ∧ island.stale = [] ∧
      (island.collectCycles fun _ l => l.reduceOption).map
        (fun result => (result.1, result.2.destroyed, result.2.stale)) = some (2, [0, 1], [0]) :=
  ⟨island_consistent, island_closed, rfl, by decide⟩

end RcHeap
end HftExercises.Rc
