import HftExercises.Memory.RcHeapCascade

/-! # Dropping one handle

A handle is dropped where it is, outside the heap or in the payload of a live
node, and it still names its node while the cascade runs. The registry comes out
right if and only if `replay` does not stop.
-/
namespace HftExercises.Rc
open Cascade (Moment deaths die releaseAll Balanced Dies)
variable {N : Type*} [DecidableEq N]

/-- Where an `RcPtr` is. -/
inductive Place (N : Type*) where
  | outside (i : ℕ)
  | inside (n : N) (i : ℕ)
  deriving DecidableEq, Repr

def Place.owner : Place N → Option N
  | .outside _ => none
  | .inside n _ => some n

omit [DecidableEq N] in
theorem count_set [BEq N] {l : List N} {i : ℕ} {w : N} (h : l[i]? = some w) (v a : N) :
    (l.set i v).count a + [w].count a = l.count a + [v].count a := by
  obtain ⟨hi, rfl⟩ := List.getElem?_eq_some_iff.mp h
  have hset : l.set i v = l.take i ++ v :: l.drop (i + 1) := by
    rw [List.set_eq_take_append_cons_drop, if_pos hi]
  have hcount : l.count a = (l.take i ++ l[i] :: l.drop (i + 1)).count a := by simp
  rw [hset, hcount]
  simp only [List.count_append, List.count_cons, List.count_nil]
  omega

omit [DecidableEq N] in
theorem count_eraseIdx [BEq N] {l : List N} {i : ℕ} {w : N} (h : l[i]? = some w) (a : N) :
    (l.eraseIdx i).count a + [w].count a = l.count a := by
  obtain ⟨hi, rfl⟩ := List.getElem?_eq_some_iff.mp h
  have hcount : l.count a = (l.take i ++ l[i] :: l.drop (i + 1)).count a := by simp
  rw [hcount, List.eraseIdx_eq_take_drop_succ]
  simp only [List.count_append, List.count_cons, List.count_nil]
  omega

namespace RcHeap

/-- An empty handle names nobody. -/
theorem count_empty (n : N) : [(none : Option N)].count (some n) = 0 := by
  simp

/-- The handle at a place; a payload is there from the making of its node to its
destruction. -/
def handleAt (h : RcHeap N) : Place N → Option (Option N)
  | .outside i => h.outside[i]?
  | .inside n i => if n ∈ h.live ∧ n ∉ h.destroyed then (h.payload n)[i]? else none

def setHandle (h : RcHeap N) (p : Place N) (v : Option N) : RcHeap N :=
  match p with
  | .outside i => { h with outside := h.outside.set i v }
  | .inside n i => { h with payload := Function.update h.payload n ((h.payload n).set i v) }

/-- `drop()` on the handle at a place. It ends with writing the handle, so the node that
holds the handle must not have been destroyed. -/
def dropAt (h : RcHeap N) (p : Place N) : Option (RcHeap N) :=
  (h.handleAt p).bind fun v => (h.release v).bind fun h' =>
    if p.owner.any (· ∈ h'.destroyed) then none else some (h'.setHandle p none)

/-- The moments and the counts of the cascade that dropping the handle starts. -/
def cascade (h : RcHeap N) (p : Place N) : (N → ℕ) × List (Moment N) :=
  releaseAll (die (h.setHandle p none).payload (h.nodes.length + 1)) h.strong
    (h.handleAt p).toList

section SetHandle
variable {h : RcHeap N} {p : Place N} {w : Option N}

@[simp] theorem setHandle_live (v : Option N) : (h.setHandle p v).live = h.live := by
  cases p <;> rfl

@[simp] theorem setHandle_nodes (v : Option N) : (h.setHandle p v).nodes = h.nodes := by
  cases p <;> rfl

@[simp] theorem setHandle_destroyed (v : Option N) :
    (h.setHandle p v).destroyed = h.destroyed := by
  cases p <;> rfl

@[simp] theorem setHandle_strong (v : Option N) : (h.setHandle p v).strong = h.strong := by
  cases p <;> rfl

@[simp] theorem setHandle_sweeping (v : Option N) : (h.setHandle p v).sweeping = h.sweeping := by
  cases p <;> rfl

@[simp] theorem setHandle_marked (v : Option N) : (h.setHandle p v).marked = h.marked := by
  cases p <;> rfl

@[simp] theorem setHandle_roots (v : Option N) : (h.setHandle p v).roots = h.roots := by
  cases p <;> rfl

/-- One live payload changes. -/
theorem incoming_update {x : N} (hx : x ∈ h.live) (l : List (Option N)) (n : N) :
    incoming { h with payload := Function.update h.payload x l } n + (h.payload x).count (some n) =
      h.incoming n + l.count (some n) := by
  have hold := Finset.add_sum_erase h.live (fun y => (h.payload y).count (some n)) hx
  have hnew := Finset.add_sum_erase h.live
    (fun y => (Function.update h.payload x l y).count (some n)) hx
  have hrest : ∑ y ∈ h.live.erase x, (Function.update h.payload x l y).count (some n) =
      ∑ y ∈ h.live.erase x, (h.payload y).count (some n) :=
    Finset.sum_congr rfl fun y hy => by rw [Function.update_of_ne (Finset.ne_of_mem_erase hy)]
  simp only [Function.update_self] at hnew
  simp only [incoming]
  omega

theorem handles_setHandle (hp : h.handleAt p = some w) (v : Option N) (n : N) :
    (h.setHandle p v).handles n + [w].count (some n) = h.handles n + [v].count (some n) := by
  cases p with
  | outside i =>
    have hcount := count_set (show h.outside[i]? = some w from hp) v (some n)
    simp only [handles, incoming, setHandle]
    omega
  | inside y i =>
    simp only [handleAt] at hp
    split_ifs at hp with hy
    have hcount := count_set hp v (some n)
    have hnew := incoming_update hy.1 ((h.payload y).set i v) n
    simp only [handles, setHandle]
    omega

theorem mem_setHandle_outside {v e : Option N} (he : e ∈ (h.setHandle p v).outside) :
    e ∈ h.outside ∨ e = v := by
  cases p with
  | outside i => exact List.mem_or_eq_of_mem_set he
  | inside y i => exact .inl he

theorem mem_setHandle_payload {v e : Option N} {x : N} (he : e ∈ (h.setHandle p v).payload x) :
    e ∈ h.payload x ∨ e = v := by
  cases p with
  | outside i => exact .inl he
  | inside y i =>
    by_cases hx : x = y
    · subst hx
      simp only [setHandle, Function.update_self] at he
      exact List.mem_or_eq_of_mem_set he
    · simp only [setHandle, Function.update_of_ne hx] at he
      exact .inl he

theorem handleAt_setHandle_self (hp : h.handleAt p = some w) (v : Option N) :
    (h.setHandle p v).handleAt p = some v := by
  cases p with
  | outside i =>
    have hi : i < h.outside.length := (List.getElem?_eq_some_iff.mp hp).1
    simp [setHandle, handleAt, hi]
  | inside y i =>
    simp only [handleAt] at hp
    split_ifs at hp with hy
    have hi : i < (h.payload y).length := (List.getElem?_eq_some_iff.mp hp).1
    simp [setHandle, handleAt, hy, hi]

theorem handleAt_setHandle_ne {q : Place N} (hne : p ≠ q) (v : Option N) :
    (h.setHandle q v).handleAt p = h.handleAt p := by
  cases p with
  | outside i =>
    cases q with
    | outside j => exact List.getElem?_set_ne fun hij => hne (by rw [hij])
    | inside y j => rfl
  | inside x i =>
    cases q with
    | outside j => rfl
    | inside y j =>
      by_cases hxy : x = y
      · subst hxy
        have hij : j ≠ i := fun hij => hne (by rw [hij])
        simp [handleAt, setHandle, List.getElem?_set_ne hij]
      · simp [handleAt, setHandle, Function.update_of_ne hxy]

end SetHandle
/-! ## From one consistent heap to the next -/

section Drop
variable {h h' : RcHeap N} {p : Place N} {m : N}

theorem Closed.live_of_handleAt (hcl : h.Closed) (hp : h.handleAt p = some (some m)) :
    m ∈ h.live := by
  cases p with
  | outside i => exact hcl.outside m (List.mem_of_getElem? hp)
  | inside y i =>
    simp only [handleAt] at hp
    split_ifs at hp with hy
    exact hcl.payload y hy.1 m (List.mem_of_getElem? hp)

theorem owner_live {v : Option N} {n : N} (hp : h.handleAt p = some v) (hn : p.owner = some n) :
    n ∈ h.live := by
  cases p with
  | outside i => cases hn
  | inside y i =>
    cases hn
    simp only [handleAt] at hp
    split_ifs at hp with hy
    exact hy.1

theorem setHandle_payload_of_ne_owner {n : N} (hn : p.owner ≠ some n) (v : Option N) :
    (h.setHandle p v).payload n = h.payload n := by
  cases p with
  | outside i => rfl
  | inside y i => exact Function.update_of_ne (fun heq => hn (congrArg some heq.symm)) _ _

omit [DecidableEq N] in
theorem eq_map_some_of_holes {slots : List (Option N)} (hz : holes slots = 0) :
    slots = slots.reduceOption.map some := by
  induction slots with
  | nil => rfl
  | cons e slots ih =>
    cases e with
    | none => simp at hz
    | some x =>
      rw [List.reduceOption_cons_of_some, List.map_cons, ← ih (by simpa using hz)]

omit [DecidableEq N] in
theorem holes_map_some (ids : List N) : holes (ids.map some) = 0 := by
  induction ids with
  | nil => rfl
  | cons x ids ih => rw [List.map_cons, holes_some, ih]

theorem Consistent.holes_eq (hc : h.Consistent) : holes h.nodes = 0 := by
  obtain ⟨ids, hnodes, -, -⟩ := hc.registered
  rw [hnodes, holes_map_some]

/-- The handle that is dropped waits, all the others stay where they are. -/
theorem steady_of_handleAt (hc : h.Consistent) (hcl : h.Closed)
    (hp : h.handleAt p = some (some m)) :
    Steady (h.setHandle p none).outside (h.setHandle p none).payload h [some m] := by
  obtain ⟨ids, hnodes, hnodup, hids⟩ := hc.registered
  have hslots : h.nodes.reduceOption = ids := by simp [hnodes, List.reduceOption]
  refine ⟨⟨fun n hn => ?_, fun n hn => ?_, fun y hy n hn => ?_, fun n hn => ?_⟩, ?_, ?_, hc.idle,
    hcl.destroyed⟩
  · have hcount := handles_setHandle hp none n
    rw [count_empty, Nat.add_zero] at hcount
    rw [hc.counted n hn, ← hcount, handles, incoming, setHandle_live]
  · exact hcl.outside n ((mem_setHandle_outside hn).resolve_right nofun)
  · exact hcl.payload y hy n ((mem_setHandle_payload hn).resolve_right nofun)
  · obtain rfl : n = m := by simpa using hn
    exact hcl.live_of_handleAt hp
  · rw [hslots]
    exact hnodup
  · rw [hslots]
    exact hids

theorem cascade_eq (hp : h.handleAt p = some (some m)) :
    h.cascade p = releaseAll (die (h.setHandle p none).payload (h.nodes.length + 1))
      h.strong [some m] := by
  rw [cascade, hp]
  rfl

theorem Steady.live_card_le {out : List (Option N)} {hold : N → List (Option N)}
    {ps : List (Option N)} (hs : Steady out hold h ps) : h.live.card ≤ h.nodes.length + 1 := by
  rw [← hs.owned_eq]
  exact (List.reduceOption_length_le h.nodes).trans (Nat.le_succ _)

/-- The drop of a handle whose own node survives follows the counts or diverges. -/
theorem release_tracks (hc : h.Consistent) (hcl : h.Closed) (hp : h.handleAt p = some (some m))
    (howner : ∀ n ∈ deaths (h.cascade p).2, p.owner ≠ some n) :
    ∃ h', h.release (some m) = some h' ∧
      Tracks (h.setHandle p none).outside (h.setHandle p none).payload h h' (h.cascade p) [] := by
  have hs := steady_of_handleAt hc hcl hp
  have hb : h.owned ≤ h.nodes.length + 1 := hs.owned_eq ▸ hs.live_card_le
  rw [cascade_eq hp] at howner ⊢
  obtain ⟨h', hdrop, ht⟩ := dropAll_tracks _ h [some m] [] hs hb
    fun x hx => (setHandle_payload_of_ne_owner (howner x hx) none).symm
  refine ⟨h', ?_, ht⟩
  rw [release, ← hdrop, dropAll]
  exact (Option.bind_fun_some _).symm

/-- Where the code follows the counts the heap is consistent again. -/
theorem Follows.dropAt (hc : h.Consistent) (hcl : h.Closed) (hp : h.handleAt p = some (some m))
    (howner : ∀ n ∈ deaths (h.cascade p).2, p.owner ≠ some n)
    (hrel : h.release (some m) = some h') (hf : Follows h h' (h.cascade p))
    (hs : Steady (h.setHandle p none).outside (h.setHandle p none).payload h' []) :
    h.dropAt p = some (h'.setHandle p none) ∧ (h'.setHandle p none).Consistent ∧
      (h'.setHandle p none).Closed := by
  have hlive : h'.live = h.live \ (deaths (h.cascade p).2).toFinset := by rw [hf.rest]
  have hdestroyed : h'.destroyed = h.destroyed ++ deaths (h.cascade p).2 := by rw [hf.rest]
  have hmarked : h'.marked = h.marked := by rw [hf.rest]
  have hout : (h'.setHandle p none).outside = (h.setHandle p none).outside := by
    rw [hf.rest]
    cases p <;> rfl
  have hhold : (h'.setHandle p none).payload = (h.setHandle p none).payload := by
    rw [hf.rest]
    cases p <;> rfl
  refine ⟨?_, ⟨⟨h'.nodes.reduceOption, ?_, hs.nodup, ?_⟩, ?_, fun n hn => ?_, fun n hn => ?_⟩, ?_⟩
  · have hkept : p.owner.any (· ∈ h'.destroyed) = false := by
      cases hown : p.owner with
      | none => rfl
      | some n =>
        have hgone : n ∉ h'.destroyed := by
          rw [hdestroyed, List.mem_append, not_or]
          exact ⟨fun hn => hcl.destroyed n hn (owner_live hp hown), fun hn => howner n hn hown⟩
        simpa using hgone
    rw [RcHeap.dropAt, hp, Option.bind_some, hrel, Option.bind_some, hkept]
    rfl
  · rw [setHandle_nodes]
    exact eq_map_some_of_holes (hf.holes.trans hc.holes_eq)
  · rw [setHandle_live]
    exact hs.registered
  · rw [setHandle_sweeping]
    exact hs.idle
  · rw [setHandle_live, hlive] at hn
    rw [setHandle_marked, hmarked]
    exact hc.unmarked n (Finset.sdiff_subset hn)
  · rw [setHandle_live] at hn
    rw [setHandle_strong, hs.ledger.counted n hn, handles, incoming, hout, hhold, setHandle_live,
      List.count_nil, Nat.add_zero]
  · refine ⟨fun n hn => ?_, fun y hy n hn => ?_, fun n hn => ?_⟩
    · rw [setHandle_live]
      exact hs.ledger.outside n (hout ▸ hn)
    · rw [setHandle_live] at hy ⊢
      exact hs.ledger.held y hy n (hhold ▸ hn)
    · rw [setHandle_live]
      exact hs.gone n (setHandle_destroyed (h := h') (p := p) none ▸ hn)

/-- The handle itself has not moved. -/
theorem Follows.handleAt {v : Option N} (hf : Follows h h' (h.cascade p))
    (hgone : ∀ n ∈ h'.destroyed, n ∉ h'.live) (hp : h.handleAt p = some v)
    (howner : ∀ n ∈ deaths (h.cascade p).2, p.owner ≠ some n) : h'.handleAt p = some v := by
  cases p with
  | outside i =>
    rw [hf.rest]
    exact hp
  | inside y i =>
    have hlive : y ∈ h'.live := by
      rw [hf.rest, Finset.mem_sdiff, List.mem_toFinset]
      exact ⟨owner_live hp rfl, fun hdead => howner y hdead rfl⟩
    have hpayload : h'.payload = h.payload := by rw [hf.rest]
    simp only [RcHeap.handleAt] at hp ⊢
    split_ifs at hp with hy
    rw [if_pos ⟨hlive, fun hdead => hgone y hdead hlive⟩, hpayload]
    exact hp

/-! ## Acyclic graphs -/

/-- No node leads back to itself along the handles of live payloads. -/
def Acyclic (h : RcHeap N) : Prop :=
  ∀ n, ¬ Relation.TransGen (fun a b => a ∈ h.live ∧ some b ∈ h.payload a) n n

/-- The count of `n` reaches zero through the drop of the handle to `m` at `p`. -/
def LosesLast (h : RcHeap N) (p : Place N) (m n : N) : Prop :=
  Dies (h.setHandle p none).outside (h.setHandle p none).payload h.live m n

theorem mem_deaths_cascade (hc : h.Consistent) (hcl : h.Closed)
    (hp : h.handleAt p = some (some m)) (hm : h.strong m = 1) (n : N) :
    n ∈ deaths (h.cascade p).2 ↔ h.LosesLast p m n := by
  have hs := steady_of_handleAt hc hcl hp
  have hfuel := hs.live_card_le
  rw [cascade_eq hp]
  exact ⟨Cascade.dies_of_mem_deaths hfuel hs.ledger,
    Cascade.mem_deaths_of_dies hfuel hs.ledger hm⟩

theorem deaths_nodup (hc : h.Consistent) (hcl : h.Closed) (hp : h.handleAt p = some (some m)) :
    (deaths (h.cascade p).2).Nodup := by
  have hs := steady_of_handleAt hc hcl hp
  rw [cascade_eq hp]
  exact (Cascade.Balanced.settled hs.live_card_le
    (show Balanced _ _ _ _ ([some m] ++ []) from hs.ledger)).nodup

/-- A payload whose handle is dropped is not reached by the cascade. -/
theorem Acyclic.owner_survives (hacyclic : h.Acyclic) (hc : h.Consistent) (hcl : h.Closed)
    (hp : h.handleAt p = some (some m)) {n : N} (hn : h.LosesLast p m n) : p.owner ≠ some n := by
  intro hown
  have hs := steady_of_handleAt hc hcl hp
  obtain ⟨-, hpath⟩ := hs.ledger.dies_path (hcl.live_of_handleAt hp) hn
  have hpath' : Relation.ReflTransGen (fun a b => a ∈ h.live ∧ some b ∈ h.payload a) m n :=
    Relation.ReflTransGen.mono
      (fun a b hab => ⟨hab.1, (mem_setHandle_payload hab.2).resolve_right nofun⟩) _ _ hpath
  cases p with
  | outside i => cases hown
  | inside y i =>
    cases hown
    simp only [handleAt] at hp
    split_ifs at hp with hy
    exact hacyclic n (.head' ⟨hy.1, List.mem_of_getElem? hp⟩ hpath')

/-- The cascade of an acyclic graph destroys the right nodes and leaves the registry whole
if and only if every erasure resumes at a null entry. -/
theorem dropAt_exact_iff (hc : h.Consistent) (hcl : h.Closed) (hacyclic : h.Acyclic)
    (hp : h.handleAt p = some (some m)) (hm : h.strong m = 1) :
    (∃ h', h.dropAt p = some h' ∧
        (∃ dead, h'.destroyed = h.destroyed ++ dead ∧ dead.Nodup ∧
          ∀ n, n ∈ dead ↔ h.LosesLast p m n) ∧
        (∀ n, n ∈ h'.live ↔ n ∈ h.live ∧ ¬ h.LosesLast p m n) ∧
        none ∉ h'.nodes ∧ h'.nodes.Nodup ∧ ∀ n, some n ∈ h'.nodes ↔ n ∈ h'.live) ↔
      (replay (h.nodes, []) (h.cascade p).2).isSome := by
  have hdead := mem_deaths_cascade hc hcl hp hm
  have howner : ∀ n ∈ deaths (h.cascade p).2, p.owner ≠ some n :=
    fun n hn => hacyclic.owner_survives hc hcl hp ((hdead n).mp hn)
  obtain ⟨h', hrel, ⟨hf, hs⟩ | hdiv⟩ := release_tracks hc hcl hp howner
  · obtain ⟨hdrop, hc', -⟩ := hf.dropAt hc hcl hp howner hrel hs
    obtain ⟨ids, hnodes, hnodup, hids⟩ := hc'.registered
    refine iff_of_true ⟨_, hdrop, ⟨deaths (h.cascade p).2, ?_, deaths_nodup hc hcl hp, hdead⟩,
      fun n => ?_, ?_, ?_, fun n => ?_⟩ (by rw [hf.slots]; rfl)
    · rw [setHandle_destroyed, hf.rest]
    · rw [setHandle_live, hf.rest, Finset.mem_sdiff, List.mem_toFinset, hdead]
    · rw [hnodes]
      simp
    · rw [hnodes]
      exact hnodup.map (Option.some_injective N)
    · rw [hnodes, ← hids, List.mem_toFinset]
      simp
  · refine iff_of_false ?_ (by rw [hdiv.slots]; simp)
    rintro ⟨h'', hdrop, -, -, hnull, -⟩
    have hsame : h''.nodes = h'.nodes := by
      rw [dropAt, hp, Option.bind_some, hrel, Option.bind_some] at hdrop
      split_ifs at hdrop
      cases hdrop
      exact setHandle_nodes none
    have hgap := hdiv.holes
    have hzero : holes h'.nodes = 0 := by
      rw [← hsame, holes, List.countP_eq_zero]
      intro e he
      cases e with
      | none => exact absurd he hnull
      | some x => simp
    omega

end Drop
/-! ## A chain with an unrelated node behind it -/

/-- Node 0 holds node 1; node 2 has a handle of its own. -/
def chain : RcHeap ℕ where
  nodes := [some 0, some 1, some 2]
  live := {0, 1, 2}
  roots := []
  sweeping := false
  strong := fun _ => 1
  marked := fun _ => false
  payload := fun n => if n = 0 then [some 1] else []
  outside := [some 0, some 2]
  destroyed := []
  stale := []

theorem chain_edge {a b : ℕ} (h : some b ∈ chain.payload a) : a = 0 ∧ b = 1 := by
  by_cases ha : a = 0
  · subst ha
    exact ⟨rfl, by simpa [chain] using h⟩
  · simp [chain, ha] at h

theorem chain_consistent : chain.Consistent where
  registered := ⟨[0, 1, 2], rfl, by decide, rfl⟩
  idle := rfl
  unmarked _ _ := rfl
  counted := by decide

theorem chain_closed : chain.Closed where
  outside n hn := by
    have hmem : n = 0 ∨ n = 2 := by simpa [chain] using hn
    rcases hmem with rfl | rfl <;> decide
  payload y hy n hn := by
    rw [(chain_edge hn).2]
    decide
  destroyed := nofun

theorem chain_acyclic : chain.Acyclic := by
  have hlt : ∀ a b, Relation.TransGen (fun a b => a ∈ chain.live ∧ some b ∈ chain.payload a) a b →
      a < b := by
    intro a b hab
    induction hab with
    | single hedge =>
      obtain ⟨rfl, rfl⟩ := chain_edge hedge.2
      decide
    | tail _ hedge ih =>
      obtain ⟨rfl, rfl⟩ := chain_edge hedge.2
      exact absurd ih (Nat.not_lt_zero _)
  exact fun n hn => absurd (hlt n n hn) (lt_irrefl n)

theorem dropAt_exact_iff_chain :
    (∃ h', chain.dropAt (.outside 0) = some h' ∧
        (∃ dead, h'.destroyed = chain.destroyed ++ dead ∧ dead.Nodup ∧
          ∀ n, n ∈ dead ↔ chain.LosesLast (.outside 0) 0 n) ∧
        (∀ n, n ∈ h'.live ↔ n ∈ chain.live ∧ ¬ chain.LosesLast (.outside 0) 0 n) ∧
        none ∉ h'.nodes ∧ h'.nodes.Nodup ∧ ∀ n, some n ∈ h'.nodes ↔ n ∈ h'.live) ↔
      (replay (chain.nodes, []) (chain.cascade (.outside 0)).2).isSome :=
  dropAt_exact_iff chain_consistent chain_closed chain_acyclic rfl rfl

/-- The erasure of node 0 resumes at the slot that node 2 has moved to: a node with a
handle is destroyed, and only a null entry is left. -/
theorem dropAt_destroys_held :
    chain.Consistent ∧ chain.Closed ∧ chain.Acyclic ∧
      chain.handleAt (.outside 0) = some (some 0) ∧ chain.strong 0 = 1 ∧
      (chain.dropAt (.outside 0)).map (fun h => (h.nodes, h.destroyed)) =
        some ([none], [1, 0, 2]) ∧
      (chain.dropAt (.outside 0)).map (fun h => (h.live, h.outside)) =
        some ({2}, [none, some 2]) :=
  ⟨chain_consistent, chain_closed, chain_acyclic, rfl, rfl, by decide, by decide⟩

end RcHeap
end HftExercises.Rc
