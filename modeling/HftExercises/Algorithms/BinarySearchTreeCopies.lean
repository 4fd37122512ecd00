import HftExercises.Algorithms.BinarySearchTreeEdits

/-! # Copies of a tree in the heap

A copy is made of new nodes only and changes no old one. Destroying a tree leaves the nodes
of the others.
-/
namespace HftExercises.Bst

variable {ι : Type} {h h' h₂ : Heap ι} {p q : Option ℕ} {s c : Slot ι} {x : ℕ × Int32}
variable {t t' l r : Shape} {a b fuel : ℕ} {k key : Int32}

/-- Nothing has happened to the old nodes and to the tree objects. -/
structure Grows (h h' : Heap ι) : Prop where
  keys : ∀ a < h.fresh, h'.key a = h.key a
  slots : ∀ c, (∀ a ∈ c.node, a < h.fresh) → h'.slot c = h.slot c
  size : h'.size = h.size
  fresh : h.fresh ≤ h'.fresh

theorem Grows.refl (h : Heap ι) : Grows h h :=
  ⟨fun _ _ => rfl, fun _ _ => rfl, rfl, le_rfl⟩

theorem Grows.trans (hg : Grows h h') (hg₂ : Grows h' h₂) : Grows h h₂ where
  keys a ha := (hg₂.keys a (ha.trans_le hg.fresh)).trans (hg.keys a ha)
  slots c hc := (hg₂.slots c fun a ha => (hc a ha).trans_le hg.fresh).trans (hg.slots c hc)
  size := hg₂.size.trans hg.size
  fresh := hg.fresh.trans hg₂.fresh

theorem Grows.sameNode (hg : Grows h h') (ha : a < h.fresh) : SameNode h h' a := by
  refine ⟨hg.keys a ha, hg.slots _ ?_, hg.slots _ ?_⟩
  · rintro b ⟨⟩
    exact ha
  · rintro b ⟨⟩
    exact ha

theorem Rep.grows (hrep : Rep h p t) (hg : Grows h h') : Rep h' p t :=
  hrep.congr fun _ ha => hg.sameNode (hrep.lt_fresh ha)

theorem Grows.load (hg : Grows h h') (hc : ∀ a ∈ c.node, a < h.fresh) : h'.load c = h.load c := by
  rw [Heap.load, Heap.load, hg.slots c hc, live_congr hg.size fun a ha => hg.keys a (hc a ha)]

section Copies
variable [DecidableEq ι]

theorem grows_newNode (h : Heap ι) (k : Int32) : Grows h (h.newNode k) where
  keys _ ha := Function.update_of_ne ha.ne _ _
  slots _ hc := (newNode_old hc k).1
  size := rfl
  fresh := Nat.le_succ _

/-- A link of a new node is written. -/
theorem Grows.link (hg : Grows h h') (hc : c.node = some a) (ha : h.fresh ≤ a) :
    Grows h (h'.link c q) where
  keys := hg.keys
  slots d hd := by
    rw [Heap.link_slot, Function.update_of_ne, hg.slots d hd]
    rintro rfl
    exact absurd (hd a hc) (not_lt.mpr ha)
  size := hg.size
  fresh := hg.fresh

theorem Rep.link (hrep : Rep h p t) (hc : c.node = some a) (ha : a ∉ addrs t) :
    Rep (h.link c q) p t := by
  have hne : ∀ b ∈ addrs t, ∀ d : Slot ι, d.node = some b → d ≠ c := by
    rintro b hb d hd rfl
    rw [hc] at hd
    cases hd
    exact ha hb
  refine hrep.congr fun b hb => ⟨rfl, ?_, ?_⟩
  · exact Function.update_of_ne (hne b hb _ rfl) _ _
  · exact Function.update_of_ne (hne b hb _ rfl) _ _

theorem clone_spec (hrep : Rep h p t) (hfuel : t.numNodes < fuel) :
    ∃ q h' t', Heap.clone fuel h p = some (q, h') ∧ Grows h h' ∧ Rep h' q t' ∧
      values t' = values t ∧ (addrs t').Nodup ∧ ∀ a ∈ addrs t', h.fresh ≤ a := by
  induction t generalizing h p fuel with
  | nil =>
    obtain ⟨fuel, rfl⟩ := Nat.exists_eq_add_one.mpr hfuel
    rw [Rep] at hrep
    subst hrep
    exact ⟨none, h, .nil, rfl, .refl h, rfl, rfl, List.nodup_nil, by simp⟩
  | node x l r ihl ihr =>
    obtain ⟨fuel, rfl, hlfuel, hrfuel⟩ := exists_fuel hfuel
    obtain ⟨rfl, hkey, hl, hr⟩ := hrep
    have hx : x.1 < h.fresh := Heap.lt_fresh (by rw [hkey]; rfl)
    have hold : ∀ c : Slot ι, c.node = some x.1 → ∀ a ∈ c.node, a < h.fresh := by
      intro c hc a ha
      rw [hc] at ha
      cases ha
      exact hx
    -- the new node, then the copies of its children, each linked to it
    have hg₀ := grows_newNode h x.2
    obtain ⟨ql, h₁, l', hleft, hg₁, hl', hvl, hnl, hfl⟩ :=
      ihl (hl.grows hg₀) hlfuel
    rw [Heap.newNode_fresh] at hfl
    have hkey₁ : h₁.key h.fresh = some x.2 := by
      rw [hg₁.keys _ (Nat.lt_succ_self _), Heap.newNode_key, Function.update_self]
    have hg₁' : Grows h (h₁.link (.left h.fresh) ql) := (hg₀.trans hg₁).link rfl le_rfl
    obtain ⟨qr, h₂, r', hright, hg₂, hr', hvr, hnr, hfr⟩ :=
      ihr (hr.grows hg₁') hrfuel
    have hlt : h.fresh < h₁.fresh := (Nat.lt_succ_self _).trans_le hg₁.fresh
    have hkey₂ : h₂.key h.fresh = some x.2 := (hg₂.keys _ hlt).trans hkey₁
    have hnotl : h.fresh ∉ addrs l' := fun hmem => absurd (hfl _ hmem) (Nat.not_succ_le_self _)
    have hnotr : h.fresh ∉ addrs r' := fun hmem => absurd (hfr _ hmem) (not_le.mpr hlt)
    refine ⟨some h.fresh, h₂.link (.right h.fresh) qr, .node (h.fresh, x.2) l' r', ?_,
      (hg₁'.trans hg₂).link rfl le_rfl, ?_, by rw [values_node, hvl, hvr, values_node], ?_, ?_⟩
    · have hload₀ := (hg₀.load (hold (.left x.1) rfl)).trans (load_left hkey)
      have hload₁ := (hg₁'.load (hold (.right x.1) rfl)).trans (load_right hkey)
      have hstore₁ : h₁.store (.left h.fresh) ql = some (h₁.link (.left h.fresh) ql) :=
        store_of_live (by rw [Heap.live, hkey₁]; rfl)
      have hstore₂ : h₂.store (.right h.fresh) qr = some (h₂.link (.right h.fresh) qr) :=
        store_of_live (by rw [Heap.live, hkey₂]; rfl)
      simp only [Heap.clone, hkey, Option.bind_eq_bind, Option.bind_some, hload₀, hleft, hstore₁,
        hload₁, hright, hstore₂, Option.pure_def]
    · have hll : (h₂.link (.right h.fresh) qr).slot (.left h.fresh) = ql := by
        have hne : (.left h.fresh : Slot ι) ≠ .right h.fresh := by rintro ⟨⟩
        rw [Heap.link_slot, Function.update_of_ne hne, hg₂.slots _ ?_, Heap.link_slot,
          Function.update_self]
        rintro a ⟨⟩
        exact hlt
      have hrr : (h₂.link (.right h.fresh) qr).slot (.right h.fresh) = qr := by
        rw [Heap.link_slot, Function.update_self]
      refine ⟨rfl, hkey₂, ?_, ?_⟩
      · rw [hll]
        exact ((hl'.link rfl hnotl).grows hg₂).link rfl hnotl
      · rw [hrr]
        exact hr'.link rfl hnotr
    · refine nodup_addrs_node.mpr ⟨⟨hnl, hnotl⟩, ⟨hnr, hnotr⟩, fun a hal har => ?_⟩
      exact absurd (hl'.lt_fresh hal) (not_lt.mpr (hfr a har))
    · intro a ha
      rcases mem_addrs_node.mp ha with rfl | ha | ha
      · exact le_rfl
      · exact (Nat.le_succ _).trans (hfl a ha)
      · exact hlt.le.trans (hfr a ha)

end Copies

theorem destroyNode_spec (hrep : Rep h p t) (ht : (addrs t).Nodup) (hfuel : t.numNodes < fuel) :
    ∃ h', Heap.destroyNode fuel h p = some h' ∧ (∀ a, a ∉ addrs t → h'.key a = h.key a) ∧
      h'.slot = h.slot ∧ h'.size = h.size ∧ h'.fresh = h.fresh := by
  induction t generalizing h p fuel with
  | nil =>
    obtain ⟨fuel, rfl⟩ := Nat.exists_eq_add_one.mpr hfuel
    rw [Rep] at hrep
    subst hrep
    exact ⟨h, rfl, fun _ _ => rfl, rfl, rfl, rfl⟩
  | node x l r ihl ihr =>
    obtain ⟨fuel, rfl, hlfuel, hrfuel⟩ := exists_fuel hfuel
    obtain ⟨rfl, hkey, hl, hr⟩ := hrep
    obtain ⟨⟨hnl, hxl⟩, ⟨hnr, hxr⟩, hlr⟩ := nodup_addrs_node.mp ht
    obtain ⟨h₁, hleft, hkeys₁, hslot₁, hsize₁, hfresh₁⟩ :=
      ihl hl hnl hlfuel
    have hr₁ : Rep h₁ (h₁.slot (.right x.1)) r := by
      rw [hslot₁]
      refine hr.congr fun a ha => ⟨hkeys₁ a fun hal => hlr a hal ha, ?_, ?_⟩
      · rw [hslot₁]
      · rw [hslot₁]
    obtain ⟨h₂, hright, hkeys₂, hslot₂, hsize₂, hfresh₂⟩ :=
      ihr hr₁ hnr hrfuel
    have hkey₁ : h₁.key x.1 = some x.2 := (hkeys₁ _ hxl).trans hkey
    have hkey₂ : h₂.key x.1 = some x.2 := (hkeys₂ _ hxr).trans hkey₁
    obtain ⟨h₃, hdelete, hkeys₃, hslot₃, hsize₃, hfresh₃⟩ := delete_of_key hkey₂
    refine ⟨h₃, ?_, fun a ha => ?_, hslot₃.trans (hslot₂.trans hslot₁),
      hsize₃.trans (hsize₂.trans hsize₁), hfresh₃.trans (hfresh₂.trans hfresh₁)⟩
    · simp only [Heap.destroyNode, load_left hkey, Option.bind_eq_bind, Option.bind_some, hleft,
        load_right hkey₁, hright, hdelete]
    · rw [mem_addrs_node, not_or, not_or] at ha
      rw [hkeys₃, Function.update_of_ne ha.1, hkeys₂ a ha.2.2, hkeys₁ a ha.2.1]

end HftExercises.Bst
