import HftExercises.Algorithms.BinarySearchTreeCopies

/-! # Tree objects and their sets

The tree objects stand for sets of keys and their trees share no node. What each operation
does to the objects, it does to the sets.
-/
namespace HftExercises.Bst
open SearchTree (inorder Ordered keys)

/-! ## Keys of a set -/

section Keys
variable {S : Finset Int32} {k x : Int32} {what : String}

theorem pick_min' (hk : k ∈ S) (hle : ∀ j ∈ S, k ≤ j) : pick S what S.min' = .key k := by
  have hS : S.Nonempty := ⟨k, hk⟩
  rw [pick, dif_pos hS, (S.isLeast_min' hS).unique ⟨hk, hle⟩]

theorem pick_max' (hk : k ∈ S) (hle : ∀ j ∈ S, j ≤ k) : pick S what S.max' = .key k := by
  have hS : S.Nonempty := ⟨k, hk⟩
  rw [pick, dif_pos hS, (S.isGreatest_max' hS).unique ⟨hk, hle⟩]

/-- The key of the least rank is the closest one. -/
theorem pick_nearestKey (hk : k ∈ S) (hle : ∀ j ∈ S, rank x k ≤ rank x j) :
    pick S what (nearestKey S x) = .key k := by
  have hS : S.Nonempty := ⟨k, hk⟩
  have hdist : Closest S x k := by
    intro j hj
    rcases Prod.Lex.toLex_le_toLex.mp (hle j hj) with hlt | ⟨heq, -⟩
    · exact hlt.le
    · exact heq.le
  have hleast : ∀ j ∈ closestKeys S x, k ≤ j := by
    intro j hj
    obtain ⟨hjS, hj⟩ := Finset.mem_filter.mp hj
    rcases Prod.Lex.toLex_le_toLex.mp (hle j hjS) with hlt | ⟨-, hkj⟩
    · exact absurd (hj k hk) (not_le.mpr hlt)
    · exact hkj
  have hmem : k ∈ closestKeys S x := Finset.mem_filter.mpr ⟨hk, hdist⟩
  rw [pick, dif_pos hS, nearestKey]
  exact congrArg Answer.key (((closestKeys S x).isLeast_min' ⟨k, hmem⟩).unique ⟨hmem, hleast⟩)

/-- There are fewer `int` values than values of `std::size_t`. -/
theorem toNat_card (S : Finset Int32) : (UInt64.ofNat S.card).toNat = S.card := by
  have hmaps : ∀ k ∈ S, (k.toInt + 2 ^ 31).toNat ∈ Finset.range (2 ^ 32) := by
    intro k _
    have hle := k.le_toInt
    have hlt := k.toInt_lt
    rw [Finset.mem_range]
    omega
  have hinj : Set.InjOn (fun k : Int32 => (k.toInt + 2 ^ 31).toNat) S := by
    intro j _ k _ hjk
    have hj := j.le_toInt
    have hk := k.le_toInt
    have hint : (j.toInt + 2 ^ 31).toNat = (k.toInt + 2 ^ 31).toNat := hjk
    exact Int32.toInt_inj.mp (by omega)
  have hcard := Finset.card_le_card_of_injOn _ hmaps hinj
  rw [Finset.card_range] at hcard
  rw [UInt64.toNat_ofNat']
  omega

end Keys

variable {ι : Type} {h h' h₂ : Heap ι} {d : Directory ι} {shape : ι → Shape} {t v other : ι}
variable {u : Shape} {S T : Finset Int32} {key : Int32} {p q : Option ℕ} {a : ℕ}

/-- The tree object is a search tree of the keys. -/
structure Stands (h : Heap ι) (t : ι) (u : Shape) (S : Finset Int32) : Prop where
  rep : Rep h (h.slot (.root t)) u
  nodup : (addrs u).Nodup
  ordered : Ordered (values u)
  keys : keys (values u) = S

/-- The objects stand for their sets, with their sizes, and share no node. -/
structure Represents (h : Heap ι) (d : Directory ι) (shape : ι → Shape) : Prop where
  size : ∀ t, h.size t = (d t).map fun S => UInt64.ofNat S.card
  stands : ∀ t S, d t = some S → Stands h t (shape t) S
  disjoint : ∀ t v S T, d t = some S → d v = some T → t ≠ v →
    ∀ a ∈ addrs (shape t), a ∉ addrs (shape v)

theorem Stands.mem_iff (hs : Stands h t u S) : key ∈ S ↔ key ∈ inorder (values u) := by
  rw [← hs.keys, SearchTree.mem_keys]

theorem Stands.search_eq (hs : Stands h t u S) (key : Int32) :
    SearchTree.search key (values u) = decide (key ∈ S) := by
  rw [Bool.eq_iff_iff, hs.ordered.search_iff, ← hs.mem_iff, decide_eq_true_iff]

theorem Stands.cases (hs : Stands h t u S) : h.slot (.root t) = none ∧ S = ∅ ∨
    ∃ x l r, u = .node x l r ∧ h.slot (.root t) = some x.1 := by
  cases u with
  | nil => exact .inl ⟨hs.rep, hs.keys ▸ rfl⟩
  | node x l r => exact .inr ⟨x, l, r, rfl, hs.rep.1⟩

theorem Represents.holds (hr : Represents h d shape) (ht : d t = some S) :
    Holds h (.root t) (shape t) := by
  obtain ⟨hrep, hnodup, -, -⟩ := hr.stands t S ht
  exact ⟨hrep, by rw [Heap.live, hr.size, ht]; rfl, hnodup, nofun⟩

theorem Represents.load (hr : Represents h d shape) (ht : d t = some S) :
    h.load (.root t) = some (h.slot (.root t)) := load_of_live (hr.holds ht).live

theorem Represents.fuel (hr : Represents h d shape) (ht : d t = some S) :
    (shape t).numNodes < h.fresh + 1 :=
  Nat.lt_succ_of_le ((hr.holds ht).rep.numNodes_le (hr.holds ht).nodup)

/-! ## Readers -/

theorem contains_eq (hr : Represents h d shape) (ht : d t = some S) (key : Int32) :
    h.contains t key = some (decide (key ∈ S)) := by
  have hs := hr.stands t S ht
  rw [Heap.contains, hr.load ht, ← hs.search_eq]
  exact containsFrom_eq hs.rep (hr.fuel ht)

theorem inOrder_eq (hr : Represents h d shape) (ht : d t = some S) :
    h.inOrder t = some (S.sort (· ≤ ·)) := by
  have hs := hr.stands t S ht
  rw [Heap.inOrder, hr.load ht, ← hs.keys, hs.ordered.sort_keys]
  exact collectInOrder_eq hs.rep (hr.fuel ht) []

theorem min_eq (hr : Represents h d shape) (ht : d t = some S) :
    ∃ k, h.min t = some k ∧ Answer.ofExcept k = pick S "BinarySearchTree::min on empty" S.min' := by
  have hs := hr.stands t S ht
  have hfuel := hr.fuel ht
  rw [Heap.min, hr.load ht]
  rcases hs.cases with ⟨hnull, rfl⟩ | ⟨x, l, r, hu, hroot⟩
  · exact ⟨.error _, by rw [hnull]; rfl, rfl⟩
  · rw [hu] at hs hfuel
    rw [BinaryTree.numNodes] at hfuel
    have hloop := findMin_eq (hroot ▸ hs.rep) (show l.numNodes < h.fresh + 1 by omega)
    have hkey := hs.rep.key_eq (SearchTree.leftmost_mem x l r)
    refine ⟨.ok (SearchTree.leftmost x l).2, ?_, ?_⟩
    · simp only [hroot, Option.bind_eq_bind, Option.bind_some, hloop, hkey, Option.pure_def]
    · rw [← SearchTree.map_leftmost Prod.snd]
      refine (pick_min' (hs.mem_iff.mpr (SearchTree.leftmost_mem _ _ _)) fun j hj => ?_).symm
      exact hs.ordered.leftmost_le (hs.mem_iff.mp hj)

theorem max_eq (hr : Represents h d shape) (ht : d t = some S) :
    ∃ k, h.max t = some k ∧ Answer.ofExcept k = pick S "BinarySearchTree::max on empty" S.max' := by
  have hs := hr.stands t S ht
  have hfuel := hr.fuel ht
  rw [Heap.max, hr.load ht]
  rcases hs.cases with ⟨hnull, rfl⟩ | ⟨x, l, r, hu, hroot⟩
  · exact ⟨.error _, by rw [hnull]; rfl, rfl⟩
  · rw [hu] at hs hfuel
    rw [BinaryTree.numNodes] at hfuel
    have hloop := findMax_eq (hroot ▸ hs.rep) (show r.numNodes < h.fresh + 1 by omega)
    have hkey := hs.rep.key_eq (SearchTree.rightmost_mem x l r)
    refine ⟨.ok (SearchTree.rightmost x r).2, ?_, ?_⟩
    · simp only [hroot, Option.bind_eq_bind, Option.bind_some, hloop, hkey, Option.pure_def]
    · rw [← SearchTree.map_rightmost Prod.snd]
      refine (pick_max' (hs.mem_iff.mpr (SearchTree.rightmost_mem _ _ _)) fun j hj => ?_).symm
      exact hs.ordered.le_rightmost (hs.mem_iff.mp hj)

theorem nearest_eq (hr : Represents h d shape) (ht : d t = some S) (key : Int32) :
    ∃ k, h.nearest t key = some k ∧ Answer.ofExcept k =
      pick S "BinarySearchTree::nearest on empty" (nearestKey S key) := by
  have hs := hr.stands t S ht
  have hfuel := hr.fuel ht
  rw [Heap.nearest, hr.load ht]
  rcases hs.cases with ⟨hnull, rfl⟩ | ⟨x, l, r, hu, hroot⟩
  · exact ⟨.error _, by rw [hnull]; rfl, rfl⟩
  · rw [hu] at hs hfuel
    have hloop := nearestFrom_eq (hroot ▸ hs.rep) hfuel key x.2
    refine ⟨.ok (SearchTree.closest (rank key) key x.2 (values (.node x l r))), ?_, ?_⟩
    · simp only [hroot, Option.bind_eq_bind, Option.bind_some, hs.rep.2.1, hloop, Option.pure_def]
    · refine (pick_nearestKey ?_ fun j hj => ?_).symm
      · rw [hs.mem_iff]
        -- the first best key is that of the root
        refine SearchTree.closest_mem.elim (fun heq => ?_) id
        rw [heq]
        exact List.mem_append_right _ List.mem_cons_self
      · have hbelow : AntitoneOn (rank key) (Set.Iic key) := fun _ _ _ hk => rank_le_of_le_key hk
        have habove : MonotoneOn (rank key) (Set.Ici key) := fun _ hj _ _ => rank_le_of_key_le hj
        exact (hs.ordered.rank_closest_le hbelow habove x.2).2 j (hs.mem_iff.mp hj)

/-! ## Writers -/

section Writers
variable [DecidableEq ι]

/-- One object changes and the nodes of the others stay. -/
theorem Represents.update (hr : Represents h d shape) {D : Option (Finset Int32)}
    (hsize : h'.size = Function.update h.size t (D.map fun S => UInt64.ofNat S.card))
    (hkeep : ∀ v S, v ≠ t → d v = some S →
      h'.slot (.root v) = h.slot (.root v) ∧ ∀ a ∈ addrs (shape v), SameNode h h' a)
    (hstands : ∀ S, D = some S → Stands h' t u S)
    (hapart : ∀ S v T, D = some S → v ≠ t → d v = some T → ∀ a ∈ addrs u, a ∉ addrs (shape v)) :
    Represents h' (Function.update d t D) (Function.update shape t u) := by
  refine ⟨fun v => ?_, fun v S hv => ?_, fun v w S T hv hw hne a => ?_⟩
  · rw [hsize]
    by_cases hvt : v = t
    · subst hvt
      rw [Function.update_self, Function.update_self]
    · rw [Function.update_of_ne hvt, Function.update_of_ne hvt, hr.size]
  · by_cases hvt : v = t
    · subst hvt
      rw [Function.update_self] at hv ⊢
      exact hstands S hv
    · rw [Function.update_of_ne hvt] at hv ⊢
      obtain ⟨hrep, hnodup, hordered, hkeys⟩ := hr.stands v S hv
      obtain ⟨hslot, hsame⟩ := hkeep v S hvt hv
      exact ⟨hslot ▸ hrep.congr hsame, hnodup, hordered, hkeys⟩
  · by_cases hvt : v = t
    · subst hvt
      rw [Function.update_self] at hv
      rw [Function.update_of_ne hne.symm] at hw
      rw [Function.update_self, Function.update_of_ne hne.symm]
      exact hapart S w T hv hne.symm hw a
    · rw [Function.update_of_ne hvt] at hv ⊢
      by_cases hwt : w = t
      · subst hwt
        rw [Function.update_self] at hw ⊢
        exact fun hav hau => hapart T v S hw hvt hv a hau hav
      · rw [Function.update_of_ne hwt] at hw ⊢
        exact hr.disjoint v w S T hv hw hne a

/-- A tree of its own is hung into an object. -/
theorem Represents.install (hr : Represents h d shape) (hsize : h'.size = h.size)
    (hkeep : ∀ v S, v ≠ t → d v = some S →
      h'.slot (.root v) = h.slot (.root v) ∧ ∀ a ∈ addrs (shape v), SameNode h h' a)
    (hq : Rep h' q u) (hu : (addrs u).Nodup) (hordered : Ordered (values u))
    (hkeys : keys (values u) = T)
    (hapart : ∀ v S, v ≠ t → d v = some S → ∀ a ∈ addrs u, a ∉ addrs (shape v)) :
    Represents ((h'.link (.root t) q).resize t (some (UInt64.ofNat T.card)))
      (Function.update d t (some T)) (Function.update shape t u) := by
  have hother : ∀ c : Slot ι, c ≠ .root t →
      ((h'.link (.root t) q).resize t (some (UInt64.ofNat T.card))).slot c = h'.slot c :=
    fun c hc => Function.update_of_ne hc _ _
  refine hr.update ?_ (fun v S hv hd => ?_) ?_ fun S v U hS => hapart v U
  · change Function.update h'.size t _ = _
    rw [hsize]
    rfl
  · obtain ⟨hslot, hsame⟩ := hkeep v S hv hd
    refine ⟨(hother _ ?_).trans hslot, fun a ha => ?_⟩
    · rintro ⟨⟩
      exact hv rfl
    · obtain ⟨hkey, hleft, hright⟩ := hsame a ha
      exact ⟨hkey, (hother (.left a) nofun).trans hleft, (hother (.right a) nofun).trans hright⟩
  · rintro S ⟨⟩
    refine ⟨?_, hu, hordered, hkeys⟩
    rw [Heap.resize_slot, Heap.link_slot, Function.update_self]
    exact hq.congr fun a _ => ⟨rfl, hother (.left a) nofun, hother (.right a) nofun⟩

/-- An edit of the tree of an object. -/
theorem Represents.becomes (hr : Represents h d shape) (ht : d t = some S)
    (hb : Becomes h (.root t) (shape t) h' u) (hordered : Ordered (values u))
    (hkeys : keys (values u) = T) :
    Represents (h'.resize t (some (UInt64.ofNat T.card))) (Function.update d t (some T))
      (Function.update shape t u) := by
  have hself : h'.link (.root t) (h'.slot (.root t)) = h' := by
    rw [Heap.link, Function.update_eq_self]
  have hapart : ∀ v U, v ≠ t → d v = some U → ∀ a ∈ addrs (shape v), Apart h (shape t) a :=
    fun v U hv hd a ha => ⟨hr.disjoint v t U S hd ht hv a ha, (hr.stands v U hd).rep.lt_fresh ha⟩
  have hinstall := hr.install (q := h'.slot (.root t)) hb.size (fun v U hv hd => ⟨?_, fun a ha => ?_⟩)
    hb.holds.rep hb.holds.nodup hordered hkeys fun v U hv hd a hau hav =>
      (hb.apart (hapart v U hv hd a hav)).1 hau
  · rwa [hself] at hinstall
  · refine hb.slots _ ?_ nofun
    rintro ⟨⟩
    exact hv rfl
  · exact hb.sameNode (hapart v U hv hd a ha) nofun

end Writers
end HftExercises.Bst
