import HftExercises.Algorithms.BinarySearchTreeHeap

/-! # Edits of a tree in the heap

What an operation on one slot does to the tree under it, and that it leaves the rest of the
heap alone. The change of a child is a change of the tree that it belongs to.
-/
namespace HftExercises.Bst
open SearchTree (inorder leftmost dropLeftmost)

variable {ι : Type} {h h' h₂ : Heap ι} {p : Option ℕ} {s c : Slot ι} {x : ℕ × Int32}
variable {t t' t₂ l l' r r' u u' : Shape} {a fuel : ℕ} {k key : Int32}

/-- The node that the slot is in. -/
def Slot.node : Slot ι → Option ℕ
  | .root _ => none
  | .left a => some a
  | .right a => some a

/-- The slot is in use and the tree under it does not contain its node. -/
structure Holds (h : Heap ι) (s : Slot ι) (t : Shape) : Prop where
  rep : Rep h (h.slot s) t
  live : h.live s = true
  nodup : (addrs t).Nodup
  outside : ∀ a ∈ s.node, a ∉ addrs t

theorem lt_fresh_of_live (hlive : h.live s = true) : ∀ a ∈ s.node, a < h.fresh := by
  cases s with
  | root t => nofun
  | left b =>
    rintro a ⟨⟩
    exact Heap.lt_fresh hlive
  | right b =>
    rintro a ⟨⟩
    exact Heap.lt_fresh hlive

theorem live_congr (hsize : h'.size = h.size) (hkeys : ∀ a ∈ s.node, h'.key a = h.key a) :
    h'.live s = h.live s := by
  cases s with
  | root t => simp [Heap.live, hsize]
  | left a => simp [Heap.live, hkeys a rfl]
  | right a => simp [Heap.live, hkeys a rfl]

theorem load_of_live (hlive : h.live s = true) : h.load s = some (h.slot s) := if_pos hlive

theorem Holds.left (hs : Holds h s (.node x l r)) : Holds h (.left x.1) l := by
  obtain ⟨⟨hl, hx⟩, -, -⟩ := nodup_addrs_node.mp hs.nodup
  obtain ⟨-, hkey, hrep, -⟩ := hs.rep
  refine ⟨hrep, by rw [Heap.live, hkey]; rfl, hl, ?_⟩
  rintro a ⟨⟩
  exact hx

theorem Holds.right (hs : Holds h s (.node x l r)) : Holds h (.right x.1) r := by
  obtain ⟨-, ⟨hr, hx⟩, -⟩ := nodup_addrs_node.mp hs.nodup
  obtain ⟨-, hkey, -, hrep⟩ := hs.rep
  refine ⟨hrep, by rw [Heap.live, hkey]; rfl, hr, ?_⟩
  rintro a ⟨⟩
  exact hx

/-- An old node that is not in the tree. -/
def Apart (h : Heap ι) (t : Shape) (a : ℕ) : Prop := a ∉ addrs t ∧ a < h.fresh

/-- The slot holds another tree, made of nodes of the old one and new nodes, and nothing
else has changed. -/
structure Becomes (h : Heap ι) (s : Slot ι) (t : Shape) (h' : Heap ι) (t' : Shape) : Prop where
  holds : Holds h' s t'
  nodes : ∀ a ∈ addrs t', a ∈ addrs t ∨ h.fresh ≤ a
  keys : ∀ a, Apart h t a → h'.key a = h.key a
  slots : ∀ c, c ≠ s → (∀ a ∈ c.node, Apart h t a) → h'.slot c = h.slot c
  size : h'.size = h.size
  fresh : h.fresh ≤ h'.fresh

theorem Holds.becomes_self (hs : Holds h s t) : Becomes h s t h t :=
  ⟨hs, fun _ ha => .inl ha, fun _ _ => rfl, fun _ _ _ => rfl, rfl, le_rfl⟩

theorem Becomes.live_eq (hb : Becomes h s t h' t') (hc : ∀ a ∈ c.node, Apart h t a) :
    h'.live c = h.live c :=
  live_congr hb.size fun a ha => hb.keys a (hc a ha)

theorem Becomes.sameNode (hb : Becomes h s t h' t') (ha : Apart h t a) (hs : a ∉ s.node) :
    SameNode h h' a := by
  refine ⟨hb.keys a ha, hb.slots _ ?_ ?_, hb.slots _ ?_ ?_⟩
  · rintro rfl
    exact hs rfl
  · rintro b ⟨⟩
    exact ha
  · rintro rfl
    exact hs rfl
  · rintro b ⟨⟩
    exact ha

theorem Becomes.apart (hb : Becomes h s t h' t') (ha : Apart h t a) : Apart h' t' a := by
  refine ⟨fun hmem => ?_, ha.2.trans_le hb.fresh⟩
  rcases hb.nodes a hmem with hold | hnew
  · exact ha.1 hold
  · exact absurd ha.2 (not_lt.mpr hnew)

theorem Becomes.trans (hb : Becomes h s t h' t') (hb₂ : Becomes h' s t' h₂ t₂) :
    Becomes h s t h₂ t₂ where
  holds := hb₂.holds
  nodes a ha := by
    rcases hb₂.nodes a ha with ha | ha
    · exact hb.nodes a ha
    · exact .inr (hb.fresh.trans ha)
  keys a ha := (hb₂.keys a (hb.apart ha)).trans (hb.keys a ha)
  slots c hne hc := (hb₂.slots c hne fun a ha => hb.apart (hc a ha)).trans (hb.slots c hne hc)
  size := hb₂.size.trans hb.size
  fresh := hb.fresh.trans hb₂.fresh

/-- A change below the tree is a change of the tree, once the slot is seen to hold it. -/
theorem Becomes.lift (hb : Becomes h c u h' u') (hs : Holds h s t) (hu : addrs u ⊆ addrs t)
    (hc : c.node = some a) (ha : a ∈ addrs t) (hrep : Rep h' (h'.slot s) t')
    (ht' : (addrs t').Nodup) (hmem : ∀ a ∈ addrs t', a ∈ addrs u' ∨ a ∈ addrs t) :
    Becomes h s t h' t' := by
  have hapart : ∀ b, Apart h t b → Apart h u b := fun b hb => ⟨fun hbu => hb.1 (hu hbu), hb.2⟩
  have hslot : ∀ b ∈ s.node, Apart h t b :=
    fun b hb => ⟨hs.outside b hb, lt_fresh_of_live hs.live b hb⟩
  have hnodes : ∀ b ∈ addrs t', b ∈ addrs t ∨ h.fresh ≤ b := by
    intro b hbt
    rcases hmem b hbt with hbt | hbt
    · exact (hb.nodes b hbt).imp_left fun hbu => hu hbu
    · exact .inl hbt
  refine ⟨⟨hrep, ?_, ht', fun b hbs hbt => ?_⟩, hnodes, fun b hbt => hb.keys b (hapart b hbt), ?_,
    hb.size, hb.fresh⟩
  · rw [hb.live_eq fun b hbs => hapart b (hslot b hbs), hs.live]
  · rcases hnodes b hbt with hold | hnew
    · exact (hslot b hbs).1 hold
    · exact absurd (hslot b hbs).2 (not_lt.mpr hnew)
  · intro c' hne hc'
    refine hb.slots c' ?_ fun b hbc => hapart b (hc' b hbc)
    rintro rfl
    exact (hc' a hc).1 ha

/-- A change of one child leaves the node, its slot and its other child. -/
theorem Becomes.sibling {d : Slot ι} {w : Shape} (hb : Becomes h c u h' u') (hc : c.node = some x.1)
    (hd : d.node = some x.1) (hdc : d ≠ c) (hs : Holds h s t) (hx : x.1 ∈ addrs t)
    (hu : addrs u ⊆ addrs t) (hxu : x.1 ∉ addrs u) (hw : Holds h d w)
    (huw : ∀ a ∈ addrs u, a ∉ addrs w) :
    h'.slot s = h.slot s ∧ h'.key x.1 = h.key x.1 ∧ Rep h' (h'.slot d) w ∧
      x.1 ∉ addrs u' ∧ ∀ a ∈ addrs u', a ∉ addrs w := by
  have hroot : Apart h u x.1 := ⟨hxu, hs.rep.lt_fresh hx⟩
  have hother : ∀ a ∈ addrs w, Apart h u a := fun a ha => ⟨fun hau => huw a hau ha, hw.rep.lt_fresh ha⟩
  have hslot : h'.slot s = h.slot s := by
    refine hb.slots s ?_ fun a ha => ⟨fun hau => hs.outside a ha (hu hau), lt_fresh_of_live hs.live a ha⟩
    rintro rfl
    exact hs.outside x.1 hc hx
  have hchild : h'.slot d = h.slot d := by
    refine hb.slots d hdc fun a ha => ?_
    rw [hd] at ha
    cases ha
    exact hroot
  refine ⟨hslot, hb.keys _ hroot, ?_, (hb.apart hroot).1, fun a ha haw => (hb.apart (hother a haw)).1 ha⟩
  rw [hchild]
  refine hw.rep.congr fun a ha => hb.sameNode (hother a ha) fun hac => ?_
  rw [hc] at hac
  cases hac
  exact hw.outside x.1 hd ha

theorem Holds.becomes_left (hs : Holds h s (.node x l r)) (hb : Becomes h (.left x.1) l h' l') :
    Becomes h s (.node x l r) h' (.node x l' r) := by
  obtain ⟨⟨-, hxl⟩, ⟨hr, hxr⟩, hlr⟩ := nodup_addrs_node.mp hs.nodup
  obtain ⟨hroot, hkey, -, -⟩ := hs.rep
  have hx : x.1 ∈ addrs (.node x l r) := mem_addrs_node.mpr (.inl rfl)
  have hsub : addrs l ⊆ addrs (.node x l r) := fun a ha => mem_addrs_node.mpr (.inr (.inl ha))
  obtain ⟨hslot, hkey', hrep, hxl', hlr'⟩ := hb.sibling (d := .right x.1) rfl rfl nofun hs hx
    hsub hxl hs.right hlr
  refine hb.lift hs hsub rfl hx ?_ ?_ ?_
  · rw [Rep, hslot, hkey']
    exact ⟨hroot, hkey, hb.holds.rep, hrep⟩
  · exact nodup_addrs_node.mpr ⟨⟨hb.holds.nodup, hxl'⟩, ⟨hr, hxr⟩, hlr'⟩
  · intro a ha
    rw [mem_addrs_node] at ha ⊢
    tauto

theorem Holds.becomes_right (hs : Holds h s (.node x l r)) (hb : Becomes h (.right x.1) r h' r') :
    Becomes h s (.node x l r) h' (.node x l r') := by
  obtain ⟨⟨hl, hxl⟩, ⟨-, hxr⟩, hlr⟩ := nodup_addrs_node.mp hs.nodup
  obtain ⟨hroot, hkey, -, -⟩ := hs.rep
  have hx : x.1 ∈ addrs (.node x l r) := mem_addrs_node.mpr (.inl rfl)
  have hsub : addrs r ⊆ addrs (.node x l r) := fun a ha => mem_addrs_node.mpr (.inr (.inr ha))
  have hrl : ∀ a ∈ addrs r, a ∉ addrs l := fun a har hal => hlr a hal har
  obtain ⟨hslot, hkey', hrep, hxr', hrl'⟩ := hb.sibling (d := .left x.1) rfl rfl nofun hs hx
    hsub hxr hs.left hrl
  refine hb.lift hs hsub rfl hx ?_ ?_ ?_
  · rw [Rep, hslot, hkey']
    exact ⟨hroot, hkey, hrep, hb.holds.rep⟩
  · exact nodup_addrs_node.mpr ⟨⟨hl, hxl⟩, ⟨hb.holds.nodup, hxr'⟩, fun a hal har => hrl' a har hal⟩
  · intro a ha
    rw [mem_addrs_node] at ha ⊢
    tauto

/-! ## Inserting -/

section Insert
variable [DecidableEq ι]

theorem store_of_live (hlive : h.live s = true) : h.store s p = some (h.link s p) := if_pos hlive

/-- Allocation leaves the old slots alone. -/
theorem newNode_old (hs : ∀ a ∈ s.node, a < h.fresh) (k : Int32) :
    (h.newNode k).slot s = h.slot s ∧ (h.newNode k).live s = h.live s := by
  refine ⟨?_, live_congr rfl fun a ha => Function.update_of_ne (hs a ha).ne _ _⟩
  cases s with
  | root t => simp
  | left a => simp [(hs a rfl).ne]
  | right a => simp [(hs a rfl).ne]

/-- A new node in an empty slot. -/
theorem Holds.becomes_leaf (hs : Holds h s .nil) (key : Int32) :
    ∃ h', (h.newNode key).store s h.fresh = some h' ∧
      Becomes h s .nil h' (.node (h.fresh, key) .nil .nil) := by
  have hlt := lt_fresh_of_live hs.live
  have hlive : (h.newNode key).live s = true := (newNode_old hlt key).2.trans hs.live
  have hne : ∀ c : Slot ι, c.node = some h.fresh → c ≠ s := by
    rintro c hc rfl
    exact lt_irrefl _ (hlt _ hc)
  refine ⟨_, store_of_live hlive, ⟨?_, hlive, ?_, ?_⟩, ?_, ?_, ?_, rfl, Nat.le_succ _⟩
  · simp [Rep, Function.update_of_ne (hne (.left h.fresh) rfl),
      Function.update_of_ne (hne (.right h.fresh) rfl)]
  · simp [addrs]
  · intro a ha hmem
    obtain rfl : a = h.fresh := by simpa [addrs] using hmem
    exact lt_irrefl _ (hlt _ ha)
  · intro a ha
    obtain rfl : a = h.fresh := by simpa [addrs] using ha
    exact .inr le_rfl
  · intro a ha
    simp [ha.2.ne]
  · intro c hc hnode
    rw [Heap.link_slot, Function.update_of_ne hc, (newNode_old (fun a ha => (hnode a ha).2) key).1]

theorem insertNode_spec (hs : Holds h s t) (hfuel : t.numNodes < fuel) (key : Int32) :
    ∃ h' t', Heap.insertNode fuel h s key = some (!SearchTree.search key (values t), h') ∧
      Becomes h s t h' t' ∧ values t' = SearchTree.insert key (values t) := by
  induction t generalizing h s fuel with
  | nil =>
    obtain ⟨fuel, rfl⟩ := Nat.exists_eq_add_one.mpr hfuel
    obtain ⟨h', hstore, hb⟩ := hs.becomes_leaf key
    have hnull : h.slot s = none := hs.rep
    refine ⟨h', _, ?_, hb, rfl⟩
    rw [Heap.insertNode, load_of_live hs.live, hnull]
    simp [hstore, SearchTree.search]
  | node x l r ihl ihr =>
    obtain ⟨fuel, rfl, hlfuel, hrfuel⟩ := exists_fuel hfuel
    obtain ⟨hroot, hkey, -, -⟩ := hs.rep
    simp only [Heap.insertNode, load_of_live hs.live, hroot, hkey, Option.bind_eq_bind,
      Option.bind_some, Option.pure_def, values_node, SearchTree.search, SearchTree.insert]
    split_ifs with heq hlt
    · exact ⟨h, _, rfl, hs.becomes_self, rfl⟩
    · obtain ⟨h', l', hcall, hb, hl'⟩ := ihl hs.left hlfuel
      exact ⟨h', _, hcall, hs.becomes_left hb, by rw [values_node, hl']⟩
    · obtain ⟨h', r', hcall, hb, hr'⟩ := ihr hs.right hrfuel
      exact ⟨h', _, hcall, hs.becomes_right hb, by rw [values_node, hr']⟩

end Insert

/-! ## Erasing -/

theorem delete_of_key (hkey : h.key a = some k) :
    ∃ h', h.delete a = some h' ∧ h'.key = Function.update h.key a none ∧ h'.slot = h.slot ∧
      h'.size = h.size ∧ h'.fresh = h.fresh := by
  have hsome : (h.key a).isSome := by rw [hkey]; rfl
  exact ⟨_, dif_pos hsome, rfl, rfl, rfl, rfl⟩

/-- The key of the root is overwritten. -/
theorem Holds.becomes_rekey (hs : Holds h s (.node x l r)) (k : Int32) :
    ∃ h', h.setKey x.1 k = some h' ∧ h'.slot = h.slot ∧
      Becomes h s (.node x l r) h' (.node (x.1, k) l r) := by
  obtain ⟨hroot, hkey, hl, hr⟩ := hs.rep
  obtain ⟨⟨-, hxl⟩, ⟨-, hxr⟩, -⟩ := nodup_addrs_node.mp hs.nodup
  have hx : x.1 ∈ addrs (.node x l r) := mem_addrs_node.mpr (.inl rfl)
  have hsame : addrs (.node (x.1, k) l r) = addrs (.node x l r) := by simp [addrs]
  have hsome : (h.key x.1).isSome := by rw [hkey]; rfl
  have hkept : ∀ a, a ≠ x.1 → (h.rekey x.1 (some k) hsome).key a = h.key a :=
    fun a ha => Function.update_of_ne ha _ _
  have hchild : ∀ {p u}, x.1 ∉ addrs u → Rep h p u → Rep (h.rekey x.1 (some k) hsome) p u := by
    refine fun hxu hrep => hrep.congr fun a ha => ⟨hkept a ?_, rfl, rfl⟩
    rintro rfl
    exact hxu ha
  have hlive : (h.rekey x.1 (some k) hsome).live s = h.live s := by
    refine live_congr rfl fun a ha => hkept a ?_
    rintro rfl
    exact hs.outside _ ha hx
  refine ⟨_, dif_pos hsome, rfl, ⟨⟨hroot, Function.update_self .., hchild hxl hl, hchild hxr hr⟩,
    hlive.trans hs.live, hsame ▸ hs.nodup, hsame ▸ hs.outside⟩, fun a ha => .inl (hsame ▸ ha),
    fun a ha => hkept a ?_, fun _ _ _ => rfl, rfl, le_rfl⟩
  rintro rfl
  exact ha.1 hx

/-- The slot that holds the leftmost node of the tree under `s`. -/
def leftmostSlot : Slot ι → ℕ × Int32 → Shape → Slot ι
  | s, _, .nil => s
  | _, x, .node y l _ => leftmostSlot (.left x.1) y l

/-- The slot that `erase_node` writes when the successor has this parent. -/
def spliceSlot (a parent : ℕ) : Slot ι := if parent = a then .right a else .left parent

/-- The loop ends at the leftmost node, with the parent that has its slot. -/
theorem successor_eq {b : ℕ} (hrep : Rep h (some b) (.node x l r)) (ha : a ≠ x.1)
    (hal : a ∉ addrs l) (hfuel : l.numNodes < fuel) (parent : ℕ) :
    ∃ parent', h.successor fuel parent b = some (parent', (leftmost x l).1) ∧
      (spliceSlot a parent' : Slot ι) = leftmostSlot (spliceSlot a parent) x l := by
  induction l generalizing parent b x r fuel with
  | nil =>
    obtain ⟨fuel, rfl⟩ := Nat.exists_eq_add_one.mpr hfuel
    obtain ⟨⟨⟩, hkey, hl, -⟩ := hrep
    rw [Rep] at hl
    refine ⟨parent, ?_, rfl⟩
    rw [Heap.successor, load_left hkey, hl]
    rfl
  | node y l m ihl _ =>
    obtain ⟨fuel, rfl, hlfuel, hrfuel⟩ := exists_fuel hfuel
    obtain ⟨⟨⟩, hkey, hl, -⟩ := hrep
    rw [mem_addrs_node, not_or, not_or] at hal
    have hnext : Rep h (some y.1) (.node y l m) := hl.1 ▸ hl
    obtain ⟨parent', hloop, hslot⟩ := ihl hnext hal.1 hal.2.1 hlfuel x.1
    refine ⟨parent', ?_, ?_⟩
    · rw [Heap.successor, load_left hkey, hl.1]
      exact hloop
    · rw [hslot, spliceSlot, if_neg ha.symm, leftmostSlot]

section Erase
variable [DecidableEq ι]

/-- A node goes and its only child takes its place. -/
theorem Holds.becomes_child (hs : Holds h s (.node x l r)) (hu : u = l ∨ u = r) (hp : Rep h p u) :
    ∃ h₁ h₂, h.store s p = some h₁ ∧ h₁.delete x.1 = some h₂ ∧ Becomes h s (.node x l r) h₂ u := by
  obtain ⟨⟨hl, hxl⟩, ⟨hr, hxr⟩, -⟩ := nodup_addrs_node.mp hs.nodup
  have hnodup : (addrs u).Nodup := by rcases hu with rfl | rfl <;> assumption
  have hxu : x.1 ∉ addrs u := by rcases hu with rfl | rfl <;> assumption
  have hsub : addrs u ⊆ addrs (.node x l r) := by
    intro a ha
    rw [mem_addrs_node]
    rcases hu with rfl | rfl
    · exact .inr (.inl ha)
    · exact .inr (.inr ha)
  have hx : x.1 ∈ addrs (.node x l r) := mem_addrs_node.mpr (.inl rfl)
  have hkey : (h.link s p).key x.1 = some x.2 := hs.rep.2.1
  obtain ⟨h₂, hdelete, hkeys, hslots, hsize, hfresh⟩ := delete_of_key hkey
  have hkept : ∀ a, a ≠ x.1 → h₂.key a = h.key a := by
    intro a ha
    rw [hkeys, Function.update_of_ne ha]
    rfl
  have hother : ∀ c, c ≠ s → h₂.slot c = h.slot c := by
    intro c hc
    rw [hslots, Heap.link_slot, Function.update_of_ne hc]
  have hlive : h₂.live s = h.live s := by
    refine live_congr hsize fun a ha => hkept a ?_
    rintro rfl
    exact hs.outside _ ha hx
  refine ⟨_, h₂, store_of_live hs.live, hdelete, ⟨?_, hlive.trans hs.live, hnodup, ?_⟩,
    fun a ha => .inl (hsub ha), fun a ha => hkept a ?_, fun c hc _ => hother c hc, hsize, hfresh.ge⟩
  · rw [hslots, Heap.link_slot, Function.update_self]
    refine hp.congr fun a ha => ⟨hkept a ?_, hother _ ?_, hother _ ?_⟩
    · rintro rfl
      exact hxu ha
    · rintro rfl
      exact hs.outside a rfl (hsub ha)
    · rintro rfl
      exact hs.outside a rfl (hsub ha)
  · exact fun a ha hau => hs.outside a ha (hsub hau)
  · rintro rfl
    exact ha.1 hx

/-- The leftmost node goes and its right child takes its place. -/
theorem Holds.becomes_dropLeftmost (hs : Holds h s (.node x l r)) :
    ∃ h₁ h₂, h.store (leftmostSlot s x l) (h.slot (.right (leftmost x l).1)) = some h₁ ∧
      h₁.delete (leftmost x l).1 = some h₂ ∧
      Becomes h s (.node x l r) h₂ (dropLeftmost x l r) := by
  induction l generalizing s x r with
  | nil => exact hs.becomes_child (.inr rfl) hs.rep.2.2.2
  | node y l m ihl _ =>
    obtain ⟨h₁, h₂, hstore, hdelete, hb⟩ := ihl hs.left
    exact ⟨h₁, h₂, hstore, hdelete, hs.becomes_left hb⟩

theorem unlink_spec (hs : Holds h s (.node x l r)) :
    ∃ v h₁ h₂ t', h.unlink s x.1 = some (v, h₁) ∧ h₁.delete v = some h₂ ∧
      Becomes h s (.node x l r) h₂ t' ∧ values t' = SearchTree.join (values l) (values r) := by
  obtain ⟨-, hkey, hl, hr⟩ := id hs.rep
  cases l with
  | nil =>
    rw [Rep] at hl
    cases r with
    | nil =>
      rw [Rep] at hr
      obtain ⟨h₁, h₂, hstore, hdelete, hb⟩ := hs.becomes_child (p := none) (.inl rfl) rfl
      refine ⟨x.1, h₁, h₂, _, ?_, hdelete, hb, rfl⟩
      simp [Heap.unlink, load_left hkey, load_right hkey, hl, hr, hstore]
    | node z m r =>
      obtain ⟨h₁, h₂, hstore, hdelete, hb⟩ := hs.becomes_child (.inr rfl) hr
      refine ⟨x.1, h₁, h₂, _, ?_, hdelete, hb, rfl⟩
      rw [hr.1] at hstore
      simp [Heap.unlink, load_left hkey, load_right hkey, hl, hr.1, hstore]
  | node y l₁ l₂ =>
    cases r with
    | nil =>
      rw [Rep] at hr
      obtain ⟨h₁, h₂, hstore, hdelete, hb⟩ := hs.becomes_child (.inl rfl) hl
      refine ⟨x.1, h₁, h₂, _, ?_, hdelete, hb, rfl⟩
      rw [hl.1] at hstore
      simp [Heap.unlink, load_left hkey, load_right hkey, hl.1, hr, hstore]
    | node z m r =>
      obtain ⟨-, ⟨-, hxr⟩, -⟩ := nodup_addrs_node.mp hs.nodup
      have hne : x.1 ≠ z.1 := fun heq => hxr (mem_addrs_node.mpr (.inl heq))
      have hxm : x.1 ∉ addrs m := fun hm => hxr (mem_addrs_node.mpr (.inr (.inl hm)))
      have hright : Rep h (some z.1) (.node z m r) := hr.1 ▸ hr
      have hfuel : m.numNodes < h.fresh + 1 := by
        have hle := hs.right.rep.numNodes_le hs.right.nodup
        rw [BinaryTree.numNodes] at hle
        omega
      have hsucc := SearchTree.leftmost_mem z m r
      obtain ⟨parent, hloop, hslot⟩ := successor_eq hright hne hxm hfuel x.1
      rw [spliceSlot, spliceSlot, if_pos rfl] at hslot
      obtain ⟨h₀, hset, -, hb₀⟩ := hs.becomes_rekey (leftmost z m).2
      have hr₀ := hb₀.holds.right
      obtain ⟨h₁, h₂, hstore, hdelete, hb⟩ := hr₀.becomes_dropLeftmost
      refine ⟨(leftmost z m).1, h₁, h₂, _, ?_, hdelete, hb₀.trans (hb₀.holds.becomes_right hb), ?_⟩
      · simp only [Heap.unlink, load_left hkey, load_right hkey, hl.1, hr.1, Option.bind_eq_bind,
          Option.bind_some, hloop, hr.key_eq hsucc, hset, load_right (hr₀.rep.key_eq hsucc), hslot]
        rw [hstore]
        rfl
      · change BinaryTree.node (leftmost z m).2 _ (values (dropLeftmost z m r)) =
          .node (leftmost z.2 (values m)) _ (dropLeftmost z.2 (values m) (values r))
        simp only [values, SearchTree.map_leftmost Prod.snd, SearchTree.map_dropLeftmost Prod.snd]

theorem eraseNode_spec (hs : Holds h s t) (hfuel : t.numNodes < fuel) (key : Int32) :
    ∃ h' t', Heap.eraseNode fuel h s key = some (SearchTree.search key (values t), h') ∧
      Becomes h s t h' t' ∧ values t' = SearchTree.erase key (values t) := by
  induction t generalizing h s fuel with
  | nil =>
    obtain ⟨fuel, rfl⟩ := Nat.exists_eq_add_one.mpr hfuel
    have hnull : h.slot s = none := hs.rep
    refine ⟨h, _, ?_, hs.becomes_self, rfl⟩
    rw [Heap.eraseNode, load_of_live hs.live, hnull]
    rfl
  | node x l r ihl ihr =>
    obtain ⟨fuel, rfl, hlfuel, hrfuel⟩ := exists_fuel hfuel
    obtain ⟨hroot, hkey, -, -⟩ := hs.rep
    simp only [Heap.eraseNode, load_of_live hs.live, hroot, hkey, Option.bind_eq_bind,
      Option.bind_some, Option.pure_def, values_node, SearchTree.search, SearchTree.erase]
    rcases lt_trichotomy key x.2 with hlt | heq | hgt
    · rw [if_pos hlt, if_neg hlt.ne, if_pos hlt, if_pos hlt]
      obtain ⟨h', l', hcall, hb, hl'⟩ := ihl hs.left hlfuel
      exact ⟨h', _, hcall, hs.becomes_left hb, by rw [values_node, hl']⟩
    · obtain ⟨v, h₁, h₂, t', hunlink, hdelete, hb, ht'⟩ := unlink_spec hs
      refine ⟨h₂, t', ?_, hb, by rw [ht', if_neg heq.not_lt, if_neg heq.not_gt]⟩
      simp [heq, hunlink, hdelete]
    · rw [if_neg hgt.not_gt, if_pos hgt, if_neg hgt.ne', if_neg hgt.not_gt, if_neg hgt.not_gt,
        if_pos hgt]
      obtain ⟨h', r', hcall, hb, hr'⟩ := ihr hs.right hrfuel
      exact ⟨h', _, hcall, hs.becomes_right hb, by rw [values_node, hr']⟩

end Erase
end HftExercises.Bst
