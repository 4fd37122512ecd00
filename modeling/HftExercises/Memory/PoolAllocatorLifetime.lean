import HftExercises.Memory.PoolAllocator

/-! # The pool's constructor and destructor

The constructor threads every slot. The destructor knows the live objects only as what is
not on the free list.
-/
namespace HftExercises.PoolAlloc
namespace Arena
variable {A : Arena} {i j : ℕ}

/-! ## The constructor -/

section Create
variable {s : Pool}

/-- What the loop of the constructor writes into a slot. -/
def linkAfter (A : Arena) (i : ℕ) : ℕ := if i + 1 < A.capacity.toNat then i + 1 else kSentinel

/-- The links before slot `k` are written. -/
structure Threaded (A : Arena) (s : Pool) (k : ℕ) : Prop where
  head : s.head = 0
  constructed : s.constructed = 0
  destroyed : s.destroyed = []
  cells : ∀ i < k, s.cells (A.offset i) = .link (A.linkAfter i)
  empty : ∀ x id, s.cells x ≠ .object id
  links : ∀ c ∈ s.overwritten, ∀ id, c ≠ .object id

theorem Fits.threaded_step (h : A.Fits) {k : ℕ} (hk : k < A.capacity.toNat) (hs : A.Threaded s k) :
    ∃ s', A.setLink s k (A.linkAfter k) = some s' ∧ A.Threaded s' (k + 1) := by
  refine ⟨_, setLink_eq h hk s _, ⟨hs.head, hs.constructed, hs.destroyed, ?_, ?_, ?_⟩⟩
  · intro i hi
    by_cases heq : i = k
    · subst heq
      exact Function.update_self ..
    · exact (h.update_of_ne hk (by omega) heq _ _).trans (hs.cells i (by omega))
  · exact (Function.forall_update_iff s.cells fun _ c => ∀ id, c ≠ .object id).mpr
      ⟨fun _ => nofun, fun x _ => hs.empty x⟩
  · intro c hc id
    rcases List.mem_append.mp hc with hc | hc
    · exact hs.links c hc id
    · rw [List.mem_singleton.mp hc]
      exact hs.empty _ id

/-- The slots from `i` on follow each other. -/
theorem Threaded.freeList (h : A.Fits) (hs : A.Threaded s A.capacity.toNat) {n : ℕ}
    (hi : i + n = A.capacity.toNat) :
    A.FreeList s (if i < A.capacity.toNat then i else kSentinel) (List.range' i n) := by
  induction n generalizing i with
  | zero =>
    rw [if_neg (by omega)]
    rfl
  | succ n ih =>
    rw [if_pos (by omega)]
    exact ⟨rfl, A.linkAfter i, (getLink_eq_some h (by omega)).mpr (hs.cells i (by omega)),
      ih (by omega)⟩

theorem Fits.create_threaded (h : A.Fits) :
    ∃ s, A.create = some s ∧ A.Threaded s A.capacity.toNat := by
  have hinit : A.Threaded ⟨0, fun _ => .raw, 0, [], []⟩ 0 := ⟨rfl, rfl, rfl, nofun, nofun, nofun⟩
  have hround : ∀ k s, k < A.capacity.toNat → A.Threaded s k →
      ∃ s', (∀ _ : Unit, A.setLink s k (A.linkAfter k) = some s') ∧ A.Threaded s' (k + 1) := by
    intro k s hk hs
    obtain ⟨s', hset, hs'⟩ := h.threaded_step hk hs
    exact ⟨s', fun _ => hset, hs'⟩
  obtain ⟨s, hfold, hs⟩ := foldlM_range (fun _ s i => A.setLink s i (A.linkAfter i))
    (fun k s => A.Threaded s k) hround hinit
  exact ⟨s, hfold (), hs⟩

theorem Fits.create (h : A.Fits) (hcap : A.capacity.toNat ≠ 0) :
    ∃ s, A.create = some s ∧ A.Holds s (List.range A.capacity.toNat) [] := by
  obtain ⟨s, hcreate, hs⟩ := h.create_threaded
  have hfree := hs.freeList h (i := 0) (Nat.zero_add _)
  rw [if_pos (Nat.pos_of_ne_zero hcap), ← List.range_eq_range'] at hfree
  refine ⟨s, hcreate, hs.head.symm ▸ hfree, ?_, by simp, ?_, hs.links⟩
  · rw [List.map_nil, List.append_nil]
  · rw [hs.destroyed, hs.constructed]
    exact List.Perm.refl _

theorem foldlM_eq_none {σ β : Type} {f : σ → β → Option σ} {l : List β} {b : β} (hb : b ∈ l)
    (hf : ∀ s, f s b = none) (s : σ) : l.foldlM f s = none := by
  induction l generalizing s with
  | nil => cases hb
  | cons c l ih =>
    rw [List.foldlM_cons]
    rcases List.mem_cons.mp hb with rfl | hb
    · rw [hf s]
      rfl
    · cases f s c with
      | none => rfl
      | some s' => exact ih hb s'

/-- When the size of the arena wraps, a slot lies behind its end. -/
theorem exists_outside (h : ¬A.Fits) :
    ∃ i < A.capacity.toNat, A.bytes < A.offset i + wordBytes := by
  have hsmall : A.bytes < 2 ^ 63 := A.small
  have hslot := A.layout.slotBytes_le
  have hpos := A.layout.slotBytes_pos
  have hwrap : 2 ^ 64 ≤ A.capacity.toNat * A.layout.slotBytes := Nat.not_lt.mp h
  have hdiv := Nat.div_add_mod A.bytes A.layout.slotBytes
  have hmod := Nat.mod_lt A.bytes hpos
  have hoff : (A.bytes / A.layout.slotBytes + 1) * A.layout.slotBytes =
      A.layout.slotBytes * (A.bytes / A.layout.slotBytes) + A.layout.slotBytes := by
    rw [Nat.add_mul, Nat.one_mul, Nat.mul_comm]
  have hlt : (A.bytes / A.layout.slotBytes + 1) * A.layout.slotBytes < 2 ^ 64 := by omega
  refine ⟨A.bytes / A.layout.slotBytes + 1, ?_, ?_⟩
  · exact Nat.lt_of_mul_lt_mul_right (hlt.trans_le hwrap)
  · rw [offset, Nat.mod_eq_of_lt hlt]
    omega

theorem create_wraps (h : ¬A.Fits) : A.create = none := by
  obtain ⟨i, hi, hout⟩ := A.exists_outside h
  refine foldlM_eq_none (List.mem_range.mpr hi) (fun s => ?_) _
  rw [setLink, if_neg (by omega)]

end Create

/-! ## The destructor -/

section Destruct
variable {s : Pool} {free : List ℕ} {live : List (ℕ × ℕ)} {idx : ℕ}

theorem FreeList.walk (hl : A.FreeList s idx free) {marked : List Bool}
    (hlt : ∀ i ∈ free, i < marked.length) (hne : ∀ i ∈ free, i ≠ kSentinel) {fuel : ℕ}
    (hfuel : free.length < fuel) :
    whileLoop (fun q => q.1 != kSentinel) (fun q => (setMark q.2 q.1).bind fun marked =>
      (A.getLink s q.1).map fun next => (next, marked)) fuel (idx, marked) =
      some (kSentinel, free.foldl (fun m i => m.set i true) marked) := by
  induction free generalizing idx marked fuel with
  | nil =>
    obtain rfl : idx = kSentinel := hl
    exact whileLoop_stop (by simp) _
  | cons i rest ih =>
    obtain ⟨rfl, next, hnext, hrest⟩ := hl
    obtain ⟨hi, hlt⟩ := List.forall_mem_cons.mp hlt
    obtain ⟨hnei, hne⟩ := List.forall_mem_cons.mp hne
    obtain ⟨fuel, rfl⟩ := Nat.exists_eq_add_of_lt hfuel
    rw [whileLoop_next (by simpa using hnei)]
    simp only [setMark, if_pos hi, hnext, Option.bind_some, Option.map_some]
    exact ih hrest (by simpa using hlt) hne (by simp at hfuel ⊢; omega)

theorem getElem?_marks {l : List ℕ} {marked : List Bool} {j : ℕ} (hj : j < marked.length) :
    (l.foldl (fun m i => m.set i true) marked)[j]? = some true ↔
      j ∈ l ∨ marked[j]? = some true := by
  induction l generalizing marked with
  | nil => simp
  | cons i l ih =>
    rw [List.foldl_cons, ih (by rwa [List.length_set]), List.mem_cons]
    by_cases hij : j = i
    · subst hij
      simp [hj]
    · rw [List.getElem?_set_ne (Ne.symm hij)]
      simp [hij]

theorem Holds.markFree (h : A.Fits) (hs : A.Holds s free live) :
    ∃ marked, A.markFree s = some marked ∧
      ∀ i < A.capacity.toNat, marked[i]? = some true ↔ i ∈ free := by
  have hlen := hs.length
  refine ⟨free.foldl (fun m i => m.set i true) (List.replicate A.capacity.toNat false), ?_,
    fun i hi => ?_⟩
  · rw [Arena.markFree, hs.freeList.walk (by simpa using fun i hi => hs.free_lt hi)
      (fun i hi => h.ne_sentinel (hs.free_lt hi)) (by omega), Option.map_some]
  · have hunmarked : (List.replicate A.capacity.toNat false)[i]? ≠ some true := by
      rw [List.getElem?_replicate_of_lt hi]
      decide
    rw [getElem?_marks (by simpa using hi), or_iff_left hunmarked]

/-- The live objects, whatever the rest of the storage holds. -/
structure Owes (A : Arena) (s : Pool) (live : List (ℕ × ℕ)) : Prop where
  nodup : (live.map Prod.fst).Nodup
  bound : ∀ o ∈ live, o.1 < A.capacity.toNat
  objects : ∀ o ∈ live, s.cells (A.offset o.1) = .object o.2
  ledger : (s.destroyed ++ live.map Prod.snd).Perm (List.range s.constructed)

theorem Owes.destroyAt (h : A.Fits) {l r : List (ℕ × ℕ)} {o : ℕ × ℕ} (hs : A.Owes s (l ++ o :: r)) :
    ∃ s', A.destroyAt s (A.slotPtr o.1) = some s' ∧ A.Owes s' (l ++ r) ∧
      s'.constructed = s.constructed := by
  have hperm : (o :: (l ++ r)).Perm (l ++ o :: r) := List.perm_middle.symm
  have hmem : ∀ p ∈ l ++ r, p ∈ l ++ o :: r := fun p hp => hperm.subset (List.mem_cons_of_mem _ hp)
  have ho : o ∈ l ++ o :: r := hperm.subset List.mem_cons_self
  obtain ⟨hnot, hnodup⟩ := List.nodup_cons.mp ((hperm.map Prod.fst).nodup_iff.mpr hs.nodup)
  refine ⟨{ s with
    cells := Function.update s.cells (A.offset o.1) .raw
    destroyed := s.destroyed ++ [o.2] }, ?_, ⟨hnodup, fun p hp => hs.bound p (hmem p hp), ?_, ?_⟩, rfl⟩
  · rw [Arena.destroyAt, distance_slotPtr, hs.objects o ho]
  · intro p hp
    have hne : p.1 ≠ o.1 := fun heq => hnot (heq ▸ List.mem_map_of_mem hp)
    exact (h.update_of_ne (hs.bound o ho) (hs.bound p (hmem p hp)) hne _ _).trans
      (hs.objects p (hmem p hp))
  · refine List.Perm.trans ?_ hs.ledger
    rw [List.append_assoc]
    exact (hperm.map Prod.snd).append_left s.destroyed

/-- The loop over the slots destroys what is live in them. -/
theorem Owes.destroy_slots (h : A.Fits) {marked : List Bool} {slots : List ℕ} (hs : A.Owes s live)
    (hmarks : ∀ i ∈ slots, marked[i]? = some true ↔ i ∉ live.map Prod.fst)
    (hlive : ∀ o ∈ live, o.1 ∈ slots) (hslots : slots.Nodup) :
    ∃ t, slots.foldlM
        (fun s i => if marked[i]? = some true then some s else A.destroyAt s (A.slotPtr i)) s = some t ∧
      A.Owes t [] ∧ t.constructed = s.constructed := by
  induction slots generalizing s live with
  | nil =>
    obtain rfl : live = [] := List.eq_nil_iff_forall_not_mem.mpr fun o ho => nomatch hlive o ho
    exact ⟨s, rfl, hs, rfl⟩
  | cons i slots ih =>
    obtain ⟨hi, hothers⟩ := List.forall_mem_cons.mp hmarks
    obtain ⟨hnot, hrest⟩ := List.nodup_cons.mp hslots
    rw [List.foldlM_cons]
    by_cases hmark : marked[i]? = some true
    · have hlater : ∀ o ∈ live, o.1 ∈ slots := fun o ho =>
        (List.mem_cons.mp (hlive o ho)).resolve_left
          fun heq => hi.mp hmark (heq ▸ List.mem_map_of_mem ho)
      rw [if_pos hmark]
      exact ih hs hothers hlater hrest
    · obtain ⟨o, ho, rfl⟩ := List.mem_map.mp (not_not.mp (mt hi.mpr hmark))
      obtain ⟨l, r, rfl⟩ := List.append_of_mem ho
      obtain ⟨s', hdestroy, hs', hcount⟩ := hs.destroyAt h
      have hmiddle : ((l ++ o :: r).map Prod.fst).Perm (o.1 :: (l ++ r).map Prod.fst) :=
        (List.perm_middle (a := o)).map Prod.fst
      have hfirst := List.nodup_cons.mp (hmiddle.nodup_iff.mp hs.nodup)
      have hmarks' : ∀ j ∈ slots, marked[j]? = some true ↔ j ∉ (l ++ r).map Prod.fst := by
        intro j hj
        have hne : j ≠ o.1 := fun heq => hnot (heq ▸ hj)
        rw [hothers j hj, hmiddle.mem_iff, List.mem_cons, or_iff_right hne]
      have hlater : ∀ p ∈ l ++ r, p.1 ∈ slots := by
        intro p hp
        have hmem : p ∈ l ++ o :: r := List.perm_middle.symm.subset (List.mem_cons_of_mem _ hp)
        exact (List.mem_cons.mp (hlive p hmem)).resolve_left
          fun heq => hfirst.1 (heq ▸ List.mem_map_of_mem hp)
      obtain ⟨t, hfold, ht, hcount'⟩ := ih hs' hmarks' hlater hrest
      rw [if_neg hmark, hdestroy]
      exact ⟨t, hfold, ht, hcount'.trans hcount⟩

theorem Holds.destruct (h : A.Fits) (hs : A.Holds s free live) :
    ∃ t, A.destruct s = some t ∧ t.constructed = s.constructed ∧
      t.destroyed.Perm (List.range t.constructed) := by
  obtain ⟨marked, hmarks, hmarked⟩ := hs.markFree h
  have hparts := List.nodup_append.mp hs.nodup
  have hsame : ∀ i ∈ List.range A.capacity.toNat,
      marked[i]? = some true ↔ i ∉ live.map Prod.fst := by
    intro i hi
    have hor := List.mem_append.mp (hs.partition.symm.subset hi)
    rw [hmarked i (List.mem_range.mp hi)]
    exact ⟨fun hf hl => hparts.2.2 i hf i hl rfl, hor.resolve_right⟩
  obtain ⟨t, hfold, ht, hcount⟩ := Owes.destroy_slots h
    ⟨hparts.2.1, fun o ho => hs.live_lt ho, hs.objects, hs.ledger⟩ hsame
    (fun o ho => List.mem_range.mpr (hs.live_lt ho)) List.nodup_range
  refine ⟨t, ?_, hcount, by simpa using ht.ledger⟩
  rw [Arena.destruct, hmarks, Option.bind_some, hfold]

end Destruct
end Arena
end HftExercises.PoolAlloc
