import HftExercises.Memory.RcHeapRuns

/-! # Assigning a handle

`operator=` drops the old node first and reads the right-hand side afterwards. What the
drop leaves is described for every cascade, also for one that breaks the registry: the
nodes in the slots are those that have not been destroyed, and every count is the number
of handles that are left.
-/
namespace HftExercises.Rc
open Cascade (deaths releaseAll_keep)
variable {N : Type*} [DecidableEq N]

namespace RcHeap

theorem count_single (n : N) : [some n].count (some n) = 1 := by
  simp

/-- The nodes that the slots own. -/
def slots (h : RcHeap N) : List N := h.nodes.reduceOption

/-- In the middle of the cascade that the drop of the handle at `p` in `h₀` starts: the
destructors of `opened` are running, and the handles `ps` are still to be dropped. -/
structure Tally (h₀ : RcHeap N) (p : Place N) (opened : List N) (ps : List (Option N))
    (h : RcHeap N) : Prop where
  payload : h.payload = h₀.payload
  outside : h.outside = h₀.outside
  idle : h.sweeping = false
  nodup : h.slots.Nodup
  live : ∀ y ∈ h.slots, y ∈ h.live
  sub : h.live ⊆ h₀.live
  gone : ∀ y ∈ h.slots, y ∉ h.destroyed
  unowned : ∀ y ∈ opened, y ∉ h.slots
  cover : ∀ y ∈ h₀.live, y ∈ h.slots ∨ y ∈ h.destroyed ∨ y ∈ opened
  counted : ∀ n ∈ h₀.live, h.strong n = (h₀.setHandle p none).outside.count (some n) +
    ps.count (some n) +
      ∑ y ∈ h.slots.toFinset, ((h₀.setHandle p none).payload y).count (some n)
  positive : ∀ y ∈ h.slots, h.strong y = 0 → h₀.strong y = 0

section Cascade
variable {h₀ : RcHeap N} {p : Place N}

/-- No destruction is undone, no node comes back to life, and where the node that holds the
handle at `p` is not destroyed `P` before leads to `Q` after. -/
structure Passes (p : Place N) (h h' : RcHeap N) (P Q : Prop) : Prop where
  grows : h.destroyed ⊆ h'.destroyed
  shrinks : h'.live ⊆ h.live
  leads : (∀ n, p.owner = some n → n ∉ h'.destroyed) → P → Q

omit [DecidableEq N] in
/-- A step that destroys nothing. -/
theorem Passes.still {h h' : RcHeap N} {P Q : Prop} (hd : h'.destroyed = h.destroyed)
    (hl : h'.live ⊆ h.live) (hpq : P → Q) : Passes p h h' P Q :=
  ⟨hd ▸ List.Subset.refl _, hl, fun _ => hpq⟩

omit [DecidableEq N] in
theorem Passes.trans {h h₁ h' : RcHeap N} {P Q R : Prop} (h₁₂ : Passes p h h₁ P Q)
    (h₂₃ : Passes p h₁ h' Q R) : Passes p h h' P R :=
  ⟨List.Subset.trans h₁₂.grows h₂₃.grows, Finset.Subset.trans h₂₃.shrinks h₁₂.shrinks,
    fun hown hp => h₂₃.leads hown (h₁₂.leads (fun n hn hd => hown n hn (h₂₃.grows hd)) hp)⟩

omit [DecidableEq N] in
theorem Passes.after {h h₁ h' : RcHeap N} {P Q R : Prop} (h₂₃ : Passes p h₁ h' Q R)
    (hd : h₁.destroyed = h.destroyed) (hl : h₁.live ⊆ h.live) (hpq : P → Q) :
    Passes p h h' P R :=
  (Passes.still hd hl hpq).trans h₂₃

/-- What a deletion of a node does whose slot has been given up: it drops the handles of its
payload. -/
def Deletion (h₀ : RcHeap N) (p : Place N) (delete : RcHeap N → N → Option (RcHeap N)) : Prop :=
  ∀ h x h' opened ps, delete h x = some h' →
    Passes p h h' (Tally h₀ p (x :: opened) ((h₀.setHandle p none).payload x ++ ps) h)
      (Tally h₀ p opened ps h')

variable {opened : List N} {ps : List (Option N)} {h h' : RcHeap N}

omit [DecidableEq N] in
theorem slots_split {A B : List (Option N)} {x : N} (hn : h.nodes = A ++ some x :: B) :
    h.slots.Perm (x :: (A ++ B).reduceOption) := by
  rw [slots, hn, List.reduceOption_append, List.reduceOption_append, List.reduceOption_cons_of_some]
  exact List.perm_middle

/-- A slot gives up its node. -/
theorem Tally.take {x : N} {nodes : List (Option N)} (ht : Tally h₀ p opened ps h)
    (hperm : h.slots.Perm (x :: nodes.reduceOption)) :
    Tally h₀ p (x :: opened) ((h₀.setHandle p none).payload x ++ ps)
      { h with nodes := nodes } := by
  have hnodup := hperm.nodup_iff.mp ht.nodup
  obtain ⟨hx, hrest⟩ := List.nodup_cons.mp hnodup
  have hmem : ∀ y, y ∈ h.slots ↔ y = x ∨ y ∈ nodes.reduceOption := by
    intro y
    rw [hperm.mem_iff, List.mem_cons]
  refine ⟨ht.payload, ht.outside, ht.idle, hrest, ?_, ht.sub, ?_, ?_, ?_, ?_, ?_⟩
  · exact fun y hy => ht.live y ((hmem y).mpr (.inr hy))
  · exact fun y hy => ht.gone y ((hmem y).mpr (.inr hy))
  · intro y hy hslot
    rcases List.mem_cons.mp hy with rfl | hy
    · exact hx hslot
    · exact ht.unowned y hy ((hmem y).mpr (.inr hslot))
  · intro y hy
    rcases ht.cover y hy with hs | hd | ho
    · rcases (hmem y).mp hs with rfl | hs
      · exact .inr (.inr List.mem_cons_self)
      · exact .inl hs
    · exact .inr (.inl hd)
    · exact .inr (.inr (List.mem_cons_of_mem x ho))
  · intro n hn
    have hset : h.slots.toFinset = insert x nodes.reduceOption.toFinset := by
      rw [List.toFinset_eq_of_perm _ _ hperm, List.toFinset_cons]
    have hcount := ht.counted n hn
    rw [hset, Finset.sum_insert (by simpa using hx)] at hcount
    rw [List.count_append]
    change h.strong n = _ + _ + ∑ y ∈ nodes.reduceOption.toFinset, _
    omega
  · exact fun y hy => ht.positive y ((hmem y).mpr (.inr hy))

theorem Tally.nodes_congr {nodes : List (Option N)} (ht : Tally h₀ p opened ps h)
    (hnodes : nodes.reduceOption = h.slots) : Tally h₀ p opened ps { h with nodes := nodes } := by
  obtain ⟨h1, h2, h3, h4, h5, h6, h7, h8, h9, h10, h11⟩ := ht
  rw [← hnodes] at h4 h5 h7 h8 h9 h10 h11
  exact ⟨h1, h2, h3, h4, h5, h6, h7, h8, h9, h10, h11⟩

/-- One handle is dropped, and nothing else happens. -/
theorem Tally.retire {x : N} {ps' : List (Option N)} (ht : Tally h₀ p opened ps h)
    (hperm : ps.Perm (some x :: ps')) (hx : x ∈ h.slots → h.strong x ≠ 1) :
    Tally h₀ p opened ps' (h.retire x) := by
  refine { ht with counted := fun n hn => ?_, positive := fun y hy hz => ?_ }
  · have hcount := ht.counted n hn
    rw [hperm.count_eq] at hcount
    by_cases hxn : x = n
    · subst hxn
      rw [List.count_cons_self] at hcount
      have hpos : h.strong x ≠ 0 := by omega
      simp only [RcHeap.retire, Function.update_self, decrement, if_neg hpos]
      change h.strong x - 1 = _ + _ + ∑ y ∈ h.slots.toFinset, _
      omega
    · rw [List.count_cons_of_ne (by simpa using hxn)] at hcount
      simp only [RcHeap.retire, Function.update_of_ne (Ne.symm hxn)]
      exact hcount
  · by_cases hxy : y = x
    · subst hxy
      have hcount := ht.counted y (ht.sub (ht.live y hy))
      rw [hperm.count_eq, List.count_cons_self] at hcount
      have hone := hx hy
      simp only [RcHeap.retire, Function.update_self, decrement] at hz
      split_ifs at hz
      omega
    · simp only [RcHeap.retire, Function.update_of_ne hxy] at hz
      exact ht.positive y hy hz

/-- A node leaves the live set once no slot owns it. -/
theorem Tally.erase_live {x : N} (ht : Tally h₀ p opened ps h) (hx : x ∉ h.slots) :
    Tally h₀ p opened ps { h with live := h.live.erase x } :=
  { ht with
    live := fun y hy => Finset.mem_erase.mpr ⟨fun heq => hx (heq ▸ hy), ht.live y hy⟩
    sub := Finset.Subset.trans (Finset.erase_subset x h.live) ht.sub }

section Erase
variable {delete : RcHeap N → N → Option (RcHeap N)} (hd : Deletion h₀ p delete)
include hd

theorem moveAssign_passes {j : ℕ} (hm : moveAssign delete h j = some h') :
    Passes p h h' (Tally h₀ p opened ps h) (Tally h₀ p opened ps h') := by
  rcases Nat.lt_or_ge j h.nodes.length with hj | hj
  · obtain ⟨A, e, B, hsplit, rfl⟩ := exists_split hj
    rw [moveAssign, hsplit, slotAt_append] at hm
    cases e with
    | none =>
      cases hm
      refine .still rfl (Finset.Subset.refl _) fun ht => ht.nodes_congr ?_
      rw [(takeOver_null A B).2, slots, hsplit]
    | some x =>
      refine (hd _ x h' opened ps hm).after rfl (Finset.Subset.refl _) fun ht => ht.take ?_
      rw [(takeOver_owner A B x).2]
      exact slots_split hsplit
  · rw [moveAssign_behind delete hj] at hm
    cases hm
    exact .still rfl (Finset.Subset.refl _) id

theorem shiftLeft_passes {moves j : ℕ} (hm : shiftLeft delete moves j h = some h') :
    Passes p h h' (Tally h₀ p opened ps h) (Tally h₀ p opened ps h') := by
  induction moves generalizing j h with
  | zero =>
    cases hm
    exact .still rfl (Finset.Subset.refl _) id
  | succ moves ih =>
    obtain ⟨h₁, hmove, hrest⟩ := Option.bind_eq_some_iff.mp hm
    exact (moveAssign_passes hd hmove).trans (ih hrest)

theorem popBack_passes (hm : popBack delete h = some h') :
    Passes p h h' (Tally h₀ p opened ps h) (Tally h₀ p opened ps h') := by
  obtain ⟨e, hlast, hdel⟩ := Option.bind_eq_some_iff.mp hm
  obtain ⟨A, hA⟩ := List.getLast?_eq_some_iff.mp hlast
  rw [hA, List.dropLast_concat] at hdel
  cases e with
  | none =>
    cases hdel
    refine .still rfl (Finset.Subset.refl _) fun ht => ht.nodes_congr ?_
    rw [slots, hA, List.reduceOption_append]
    simp
  | some x =>
    refine (hd _ x h' opened ps hdel).after rfl (Finset.Subset.refl _) fun ht => ht.take ?_
    have hperm := slots_split (h := h) (A := A) (B := []) hA
    rwa [List.append_nil] at hperm

/-- The erasure of a node deletes it, and whatever else the shift runs over. -/
theorem erase_passes {A B : List (Option N)} {x : N} (hn : h.nodes = A ++ some x :: B)
    (hm : erase delete h A.length = some h') :
    Passes p h h' (Tally h₀ p (x :: opened) ((h₀.setHandle p none).payload x ++ ps)
      { h with nodes := A ++ B }) (Tally h₀ p opened ps h') := by
  cases B with
  | nil =>
    rw [erase_last delete hn] at hm
    refine (hd _ x h' opened ps hm).after rfl (Finset.Subset.refl _) fun ht => ?_
    rwa [List.append_nil] at ht
  | cons s B =>
    rw [erase_owner delete hn] at hm
    obtain ⟨h₁, hdel, hrest⟩ := Option.bind_eq_some_iff.mp hm
    obtain ⟨h₂, hshift, hpop⟩ := Option.bind_eq_some_iff.mp hrest
    refine ((hd _ x h₁ opened ps hdel).trans
      ((shiftLeft_passes hd hshift).trans (popBack_passes hd hpop))).after rfl
        (Finset.Subset.refl _) fun ht => ht.nodes_congr ?_
    simp only [slots, List.reduceOption_append]
    cases s <;> simp

/-- The drop of the last handle. -/
theorem destroyNow_passes {x : N} (hm : destroyNow delete (h.retire x) x = some h') :
    Passes p h h' (Tally h₀ p opened (some x :: ps) h) (Tally h₀ p opened ps h') := by
  unfold destroyNow at hm
  split_ifs at hm with hlive hnode
  · obtain ⟨A, B, hn, hA⟩ := List.eq_append_cons_of_mem (show some x ∈ h.nodes from hnode)
    have hidx : (h.retire x).nodes.idxOf (some x) = A.length :=
      (congrArg (List.idxOf (some x)) hn).trans (idxOf_split hA)
    rw [hidx] at hm
    refine (erase_passes hd (h := { h.retire x with live := (h.retire x).live.erase x }) hn
      hm).after rfl (Finset.erase_subset x h.live) fun ht => ?_
    have htake := ht.take (slots_split hn)
    have hfree := htake.unowned x List.mem_cons_self
    exact (htake.retire List.perm_middle fun hx => absurd hx hfree).erase_live hfree
  · cases hm
    have hfree : x ∉ h.slots := fun hslot => hnode (List.reduceOption_mem_iff.mp hslot)
    exact .still rfl (Finset.erase_subset x h.live) fun ht =>
      (ht.retire (.refl _) fun hx => absurd hx hfree).erase_live hfree
  · cases hm
    exact .still rfl (Finset.Subset.refl _) fun ht =>
      ht.retire (.refl _) fun hx => absurd (ht.live x hx) hlive

end Erase

section Drop
variable {delete : RcHeap N → N → Option (RcHeap N)}

theorem Tally.skip (ht : Tally h₀ p opened (none :: ps) h) : Tally h₀ p opened ps h :=
  { ht with counted := fun n hn => by simpa using ht.counted n hn }

theorem drop_passes (hd : Deletion h₀ p delete) {v : Option N} (hm : drop delete h v = some h') :
    Passes p h h' (Tally h₀ p opened (v :: ps) h) (Tally h₀ p opened ps h') := by
  cases v with
  | none =>
    cases hm
    exact .still rfl (Finset.Subset.refl _) Tally.skip
  | some x =>
    rw [drop] at hm
    split_ifs at hm with hz
    · exact destroyNow_passes hd hm
    · cases hm
      refine .still rfl (Finset.Subset.refl _) fun ht => ht.retire (.refl _) fun _ hone => ?_
      exact hz ⟨by simp [RcHeap.retire, decrement, hone], ht.idle⟩

theorem dropAll_passes (hd : Deletion h₀ p delete) {l : List (Option N)}
    (hm : dropAll delete h l = some h') :
    Passes p h h' (Tally h₀ p opened (l ++ ps) h) (Tally h₀ p opened ps h') := by
  induction l generalizing h with
  | nil =>
    cases hm
    exact .still rfl (Finset.Subset.refl _) id
  | cons v l ih =>
    obtain ⟨h₁, hdrop, hrest⟩ := Option.bind_eq_some_iff.mp hm
    exact (drop_passes hd hdrop).trans (ih hrest)

/-- Whatever its nested deletions run into. -/
theorem deleteNode_deletion (fuel : ℕ) : Deletion h₀ p (deleteNode fuel) := by
  induction fuel with
  | zero => exact fun _ _ _ _ _ hm => nomatch hm
  | succ fuel ih =>
    intro h x h' opened ps hm
    obtain ⟨h₁, hall, rfl⟩ := Option.map_eq_some_iff.mp hm
    have hgrow : ∀ ps, Passes p h h₁ (Tally h₀ p (x :: opened) (h.payload x ++ ps) h)
      (Tally h₀ p (x :: opened) ps h₁) := fun ps => dropAll_passes ih hall
    refine ⟨List.subset_append_of_subset_left [x] (hgrow []).grows, (hgrow []).shrinks,
      fun hown ht => ?_⟩
    -- the node that holds the handle at `p` is another one
    have hne : p.owner ≠ some x := fun hp => hown x hp (by simp)
    rw [setHandle_payload_of_ne_owner hne, ← ht.payload] at ht
    have ht₁ := (hgrow ps).leads (fun n hn hd => hown n hn (List.mem_append_left _ hd)) ht
    refine { ht₁ with gone := fun y hy hdead => ?_, unowned := ?_, cover := fun y hy => ?_ }
    · rcases List.mem_append.mp hdead with hdead | hdead
      · exact ht₁.gone y hy hdead
      · rw [List.mem_singleton.mp hdead] at hy
        exact ht₁.unowned x List.mem_cons_self hy
    · exact fun y hy => ht₁.unowned y (List.mem_cons_of_mem x hy)
    · rcases ht₁.cover y hy with hs | hdead | ho
      · exact .inl hs
      · exact .inr (.inl (List.mem_append_left _ hdead))
      · rcases List.mem_cons.mp ho with rfl | ho
        · exact .inr (.inl (by simp))
        · exact .inr (.inr ho)

end Drop
end Cascade

/-! ## After the drop -/

/-- The heap without the payloads that are gone. -/
def existing (h : RcHeap N) : RcHeap N := { h with live := h.live.filter (· ∉ h.destroyed) }

theorem existing_setHandle (h : RcHeap N) (p : Place N) (v : Option N) :
    (h.setHandle p v).existing = h.existing.setHandle p v := by
  cases p <;> rfl

theorem existing_handleAt (h : RcHeap N) (p : Place N) :
    h.existing.handleAt p = h.handleAt p := by
  cases p with
  | outside i => rfl
  | inside n i => simp [existing, handleAt]

@[simp] theorem existing_handles_bump (h : RcHeap N) (v : Option N) (n : N) :
    (h.bump v).existing.handles n = h.existing.handles n := by
  cases v <;> rfl

/-- The nodes whose last handle goes with the one at `p`. -/
def Doomed (h : RcHeap N) (p : Place N) (n : N) : Prop :=
  ∃ m, h.handleAt p = some (some m) ∧ h.strong m = 1 ∧ h.LosesLast p m n

section Dropped
variable {h h₁ h₂ : RcHeap N} {p q : Place N} {v w : Option N}

theorem Sound.tally (hs : h.Sound []) (hp : h.handleAt p = some w) : Tally h p [] [w] h := by
  obtain ⟨ids, hnodes, hnodup, hids⟩ := hs.registered
  have hslots : h.slots = ids := by simp [slots, hnodes, List.reduceOption]
  have hmem : ∀ y, y ∈ h.slots ↔ y ∈ h.live := fun y => by
    rw [hslots, ← hids, List.mem_toFinset]
  have hset : h.slots.toFinset = h.live := by rw [hslots, hids]
  refine ⟨rfl, rfl, hs.idle, hslots ▸ hnodup, fun y hy => (hmem y).mp hy, subset_rfl, ?_, nofun,
    fun y hy => .inl ((hmem y).mpr hy), fun n hn => ?_, fun _ _ => id⟩
  · exact fun y hy hd => hs.destroyed y hd ((hmem y).mp hy)
  · have hcount := hs.counted n hn
    have htaken := handles_setHandle hp none n
    have hempty := count_empty n
    rw [List.count_nil] at hcount
    rw [handles, incoming, setHandle_live, ← hset] at htaken
    omega

/-- What `drop` comes to when it ends. -/
theorem Sound.dropAt_tally (hs : h.Sound []) (hp : h.handleAt p = some w)
    (hd : h.dropAt p = some h₁) : ∃ h₂, h₁ = h₂.setHandle p none ∧ Tally h p [] [] h₂ ∧
      ∀ n, p.owner = some n → n ∉ h₂.destroyed := by
  rw [RcHeap.dropAt, hp, Option.bind_some] at hd
  obtain ⟨h₂, hrel, hend⟩ := Option.bind_eq_some_iff.mp hd
  split_ifs at hend with hown
  have howner : ∀ n, p.owner = some n → n ∉ h₂.destroyed := by
    intro n hn hdead
    exact hown (by simp [hn, hdead])
  exact ⟨h₂, (Option.some.inj hend).symm,
    (drop_passes (deleteNode_deletion _) hrel).leads howner (hs.tally hp), howner⟩

theorem Tally.mem_slots (ht : Tally h p [] [] h₂) {y : N} (hy : y ∈ h.live)
    (hd : y ∉ h₂.destroyed) : y ∈ h₂.slots :=
  ((ht.cover y hy).resolve_right fun h => h.elim hd List.not_mem_nil)

/-- A handle stays where it is, unless its payload is gone. -/
theorem Tally.handleAt (ht : Tally h p [] [] h₂) (hq : h.handleAt q = some v)
    (hown : ∀ n, q.owner = some n → n ∉ h₂.destroyed) : h₂.handleAt q = some v := by
  cases q with
  | outside i => rwa [RcHeap.handleAt, ht.outside]
  | inside n i =>
    have hn := hown n rfl
    have hlive := ht.live n (ht.mem_slots (owner_live hq rfl) hn)
    simp only [RcHeap.handleAt] at hq ⊢
    split_ifs at hq
    rwa [if_pos ⟨hlive, hn⟩, ht.payload]

/-- No slot is left with a node that has had a handle, but has none. -/
theorem Tally.unheld_destroyed (ht : Tally h p [] [] h₂) {n : N} (hn : n ∈ h.live)
    (hpos : h.strong n ≠ 0) (hout : some n ∉ (h.setHandle p none).outside)
    (hin : ∀ y ∈ h.live, some n ∈ (h.setHandle p none).payload y → y ∈ h₂.destroyed) :
    n ∈ h₂.destroyed := by
  by_contra hd
  have hunheld : ∑ y ∈ h₂.slots.toFinset,
      ((h.setHandle p none).payload y).count (some n) = 0 := by
    refine Finset.sum_eq_zero fun y hy => List.count_eq_zero.mpr fun hmem => ?_
    have hslot := List.mem_toFinset.mp hy
    exact ht.gone y hslot (hin y (ht.sub (ht.live y hslot)) hmem)
  have hcount := ht.counted n hn
  rw [List.count_eq_zero.mpr hout, List.count_nil, hunheld] at hcount
  exact hpos (ht.positive n (ht.mem_slots hn hd) hcount)

theorem Sound.last_handle (hs : h.Sound []) {m : N} (hp : h.handleAt p = some (some m))
    (hm : h.strong m = 1) : some m ∉ (h.setHandle p none).outside ∧
      ∀ y ∈ h.live, some m ∉ (h.setHandle p none).payload y := by
  have hcount := hs.counted m (hs.live_of_handleAt hp)
  have htaken := handles_setHandle hp none m
  have hempty := count_empty m
  have hone := count_single m
  rw [List.count_nil] at hcount
  have hzero : (h.setHandle p none).handles m = 0 := by omega
  rw [handles, Nat.add_eq_zero_iff, incoming, setHandle_live, Finset.sum_eq_zero_iff] at hzero
  exact ⟨List.count_eq_zero.mp hzero.1, fun y hy => List.count_eq_zero.mp (hzero.2 y hy)⟩

/-- The nodes that lose their last handle are gone, whatever else the shifts have deleted. -/
theorem Tally.doomed_destroyed (ht : Tally h p [] [] h₂) (hs : h.Sound []) {n : N}
    (hn : h.Doomed p n) : n ∈ h₂.destroyed := by
  obtain ⟨m, hp, hm, hn⟩ := hn
  obtain ⟨hc, hcl⟩ := sound_nil_iff.mp hs
  have hpath : ∀ n, h.LosesLast p m n → n ∈ h.live := fun n hn =>
    ((steady_of_handleAt hc hcl hp).ledger.dies_path (hcl.live_of_handleAt hp) hn).1
  -- induction on why the node dies
  induction hn with
  | first =>
    obtain ⟨hout, hin⟩ := hs.last_handle hp hm
    exact ht.unheld_destroyed (hcl.live_of_handleAt hp) (by omega) hout
      fun y hy hmem => absurd hmem (hin y hy)
  | @next n y hout hy hn hall _ ih =>
    have hlive := hpath n (.next hout hy hn hall)
    refine ht.unheld_destroyed hlive ?_ hout ih
    have hmem : some n ∈ h.payload y := (mem_setHandle_payload hn).resolve_right nofun
    have hle := Finset.single_le_sum (f := fun y => (h.payload y).count (some n))
      (fun _ _ => Nat.zero_le _) (hpath y hy)
    have hpos := List.count_pos_iff.mpr hmem
    have hcount := hs.counted n hlive
    rw [handles, incoming] at hcount
    omega

theorem Sound.handle_counted (hs : h.Sound []) {m : N} (hp : h.handleAt p = some (some m)) :
    0 < h.strong m := by
  have hcount := hs.counted m (hs.live_of_handleAt hp)
  have htaken := handles_setHandle hp none m
  have hempty := count_empty m
  have hone := count_single m
  omega

/-- When the cascade leaves the registry whole and takes neither payload, the drop ends, and
only the nodes that lose their last handle are gone. -/
theorem Sound.dropAt_spares (hs : h.Sound []) (hp : h.handleAt p = some w)
    (hwhole : (replay (h.nodes, []) (h.cascade p).2).isSome)
    (hown : ∀ n, h.Doomed p n → p.owner ≠ some n) :
    ∃ h₁, h.dropAt p = some h₁ ∧ h₁.Sound [] ∧
      ∀ n ∈ h.live, n ∈ h₁.destroyed → h.Doomed p n := by
  obtain ⟨hc, hcl⟩ := sound_nil_iff.mp hs
  cases w with
  | none =>
    have hkept : p.owner.any (· ∈ h.destroyed) = false := by
      cases hown : p.owner with
      | none => rfl
      | some n => simpa using fun hd => hs.destroyed n hd (owner_live hp hown)
    have hdrop : h.dropAt p = some (h.setHandle p none) := by
      rw [RcHeap.dropAt, hp, Option.bind_some, release, drop, Option.bind_some, hkept]
      rfl
    refine ⟨_, hdrop, (hs.take hp).skip, fun n hn hd => absurd hn ?_⟩
    exact hs.destroyed n (by rwa [setHandle_destroyed] at hd)
  | some m =>
    have hdeaths : ∀ n ∈ deaths (h.cascade p).2, h.Doomed p n := by
      intro n hn
      by_cases hm : h.strong m = 1
      · exact ⟨m, hp, hm, (mem_deaths_cascade hc hcl hp hm n).mp hn⟩
      · have hpos := hs.handle_counted hp
        rw [cascade_eq hp, releaseAll_keep (by omega)] at hn
        exact absurd hn List.not_mem_nil
    obtain ⟨h₂, hrel, ⟨hf, hst⟩ | hdiv⟩ :=
      release_tracks hc hcl hp fun n hn => hown n (hdeaths n hn)
    · obtain ⟨hdrop, hc', hcl'⟩ :=
        hf.dropAt hc hcl hp (fun n hn => hown n (hdeaths n hn)) hrel hst
      refine ⟨_, hdrop, sound_nil_iff.mpr ⟨hc', hcl'⟩, fun n hn hd => hdeaths n ?_⟩
      rw [setHandle_destroyed, hf.rest] at hd
      exact (List.mem_append.mp hd).resolve_left fun hd => hcl.destroyed n hd hn
    · rw [hdiv.slots] at hwhole
      cases hwhole

end Dropped

/-- The drop of the handle at `dst` ends and destroys neither the node that holds the handle
at `src` nor the node `v` that this one names. -/
def Spared (h : RcHeap N) (dst src : Place N) (v : Option N) : Prop :=
  ∃ h₁, h.dropAt dst = some h₁ ∧ (∀ n, src.owner = some n → n ∉ h₁.destroyed) ∧
    ∀ n, v = some n → n ∉ h₁.destroyed

/-- Neither of the two handles is held by a node that dies with the drop of the first. -/
def Apart (h : RcHeap N) (dst src : Place N) : Prop :=
  ∀ n, h.Doomed dst n → dst.owner ≠ some n ∧ src.owner ≠ some n

/-- The handle at `p` names the node `v`, which is there and whose count is right. -/
structure Assigned (h : RcHeap N) (p : Place N) (v : Option N) : Prop where
  designates : h.handleAt p = some v
  kept : ∀ n, v = some n → n ∉ h.destroyed
  counted : ∀ n, v = some n → h.strong n = h.existing.handles n

section Assign
variable {h h₁ : RcHeap N} {dst src : Place N} {v w : Option N}

theorem Spared.apart (hs : h.Sound []) (hdst : h.handleAt dst = some w)
    (hsp : h.Spared dst src v) : h.Apart dst src := by
  obtain ⟨h₁, hdrop, hsrc, -⟩ := hsp
  obtain ⟨h₂, rfl, ht, hown⟩ := hs.dropAt_tally hdst hdrop
  rw [setHandle_destroyed] at hsrc
  intro n hn
  have hd := ht.doomed_destroyed hs hn
  exact ⟨fun hp => hown n hp hd, fun hq => hsrc n hq hd⟩

theorem Apart.spared (hs : h.Sound []) (hne : dst ≠ src) (hdst : h.handleAt dst = some w)
    (hsrc : h.handleAt src = some v) (hwhole : (replay (h.nodes, []) (h.cascade dst).2).isSome)
    (hap : h.Apart dst src) : h.Spared dst src v := by
  obtain ⟨h₁, hdrop, hs₁, hdead⟩ := hs.dropAt_spares hdst hwhole fun n hn => (hap n hn).1
  have hkept : ∀ n, src.owner = some n → n ∉ h₁.destroyed := fun n hn hd =>
    (hap n (hdead n (owner_live hsrc hn) hd)).2 hn
  refine ⟨h₁, hdrop, hkept, fun n hn hd => hs₁.destroyed n hd ?_⟩
  obtain ⟨h₂, rfl, ht, hown⟩ := hs.dropAt_tally hdst hdrop
  rw [setHandle_destroyed] at hkept
  refine hs₁.live_of_handleAt (p := src) ?_
  rw [handleAt_setHandle_ne (Ne.symm hne), ht.handleAt hsrc hkept, hn]

/-- What a handle can be assigned to in `h`. -/
structure Assignable (h : RcHeap N) (dst : Place N) (v : Option N) : Prop where
  empty : h.handleAt dst = some none
  kept : ∀ n, v = some n → n ∉ h.destroyed
  counted : ∀ n, v = some n → h.strong n = h.existing.handles n

theorem Assignable.copied (ha : h.Assignable dst v) :
    ((h.bump v).setHandle dst v).Assigned dst v := by
  have hempty : (h.bump v).handleAt dst = some none := by rw [bump_handleAt, ha.empty]
  refine ⟨handleAt_setHandle_self hempty v, fun n hn => ?_, fun n hn => ?_⟩
  · subst hn
    rw [setHandle_destroyed]
    exact ha.kept n rfl
  · subst hn
    have hput := handles_setHandle ((existing_handleAt _ _).trans hempty) (some n) n
    have hnone := count_empty n
    have hone := count_single n
    have hcount := ha.counted n rfl
    rw [existing_handles_bump] at hput
    rw [setHandle_strong, existing_setHandle]
    simp only [bump, Function.update_self] at hput ⊢
    omega

theorem Assignable.moved (ha : h.Assignable dst v) (hne : dst ≠ src)
    (hsrc : h.handleAt src = some v) : ((h.setHandle src none).setHandle dst v).Assigned dst v := by
  have hempty : (h.setHandle src none).handleAt dst = some none := by
    rw [handleAt_setHandle_ne hne, ha.empty]
  refine ⟨handleAt_setHandle_self hempty v, fun n hn => ?_, fun n hn => ?_⟩
  · rw [setHandle_destroyed, setHandle_destroyed]
    exact ha.kept n hn
  · have htake := handles_setHandle ((existing_handleAt _ _).trans hsrc) none n
    have hput := handles_setHandle ((existing_handleAt _ _).trans hempty) v n
    have hcount := ha.counted n hn
    rw [← existing_setHandle] at htake hput
    rw [setHandle_strong, setHandle_strong]
    omega

end Assign
end RcHeap

namespace System
variable {s : System N} {trace : N → List (Option N) → List N} {dst src : Place N}
  {v w : Option N} {a : Action N}

/-- The call returns, and the handle at `p` has been assigned the node `v`. -/
def Assigns (trace : N → List (Option N) → List N) (s : System N) (a : Action N) (p : Place N)
    (v : Option N) : Prop :=
  ∃ o s', s.step trace a = some (o, s') ∧ s'.heap.Assigned p v

/-- What an assignment between two handles does, by copy or by move. -/
theorem step_assign (ha : a = .copyAssign dst src ∨ a = .moveAssign dst src) (hne : dst ≠ src) :
    s.step trace a = (s.heap.dropAt dst).bind fun h => (h.handleAt src).map fun v =>
      (.done, { s with heap := if a = .copyAssign dst src then (h.bump v).setHandle dst v
        else (h.setHandle src none).setHandle dst v }) := by
  rcases ha with rfl | rfl <;> simp [step, hne]

theorem Assigns.spared (ha : a = .copyAssign dst src ∨ a = .moveAssign dst src)
    (hne : dst ≠ src) (hsrc : s.heap.handleAt src = some v) (h : s.Assigns trace a dst v) :
    s.heap.Spared dst src v := by
  obtain ⟨o, s', hstep, hass⟩ := h
  rw [step_assign ha hne] at hstep
  obtain ⟨h₁, hdrop, hread⟩ := Option.bind_eq_some_iff.mp hstep
  obtain ⟨v', hv', hs'⟩ := Option.map_eq_some_iff.mp hread
  cases hs'
  refine ⟨h₁, hdrop, fun n hn hd => ?_, fun n hn hd => hass.kept n hn ?_⟩
  · cases src with
    | outside i => cases hn
    | inside m i =>
      cases hn
      simp [RcHeap.handleAt, hd] at hv'
  · simp only
    split_ifs
    · rw [RcHeap.setHandle_destroyed]
      cases v' <;> exact hd
    · rwa [RcHeap.setHandle_destroyed, RcHeap.setHandle_destroyed]

end System
end HftExercises.Rc
