import HftExercises.Memory.UniquePtrCascade

/-! # Every object has one owner

An operation may leave one object without an owner for a moment: what a pointer gives up before
another takes it over, the caller gets it or a deleter is called.
-/
namespace HftExercises.Unique
variable {V D : Type*}

/-- All live objects but one have an owner, and all that are gone were deleted once. -/
structure Heap.Accounted (q : Option ℕ) (h : Heap V D) : Prop extends Heap.Owned h where
  orphan : ∀ p, q = some p → h.Orphan p
  held : ∀ p ∈ h.alive, p ∈ h.loose ∨ q = some p ∨ ∃ a, h.points a p
  absent : ∀ o, o ∉ h.alive → ∀ i, h.place (.member o i) = none
  nodup : (h.deleted.map Prod.fst).Nodup
  ledger : ∀ p, p < h.created ↔ p ∈ h.alive ∨ p ∈ h.deleted.map Prod.fst
  dead : ∀ p ∈ h.deleted.map Prod.fst, p ∉ h.alive

theorem accounted_empty : (Heap.empty : Heap V D).Accounted none where
  single := by
    rintro a b p ⟨u, hu, -⟩
    cases hu
  live := by
    rintro a p ⟨u, hu, -⟩
    cases hu
  loose := nofun
  members := nofun
  orphan := nofun
  held := nofun
  absent _ _ _ := rfl
  nodup := List.nodup_nil
  ledger p := by simp [Heap.empty]
  dead := nofun

section Pointers
variable {q : Option ℕ} {h : Heap V D}

/-- Deleters may change, and pointers come and go that are null. -/
theorem Heap.Accounted.relabel (hh : h.Accounted q) {place : Place V → Option (UniquePtr D)}
    (hpoints : ∀ a p, ({ h with place := place } : Heap V D).points a p ↔ h.points a p)
    (hmembers : ∀ o i, place (.member o i) = none ↔ h.place (.member o i) = none) :
    ({ h with place := place } : Heap V D).Accounted q where
  single a b p ha hb := hh.single a b p ((hpoints a p).mp ha) ((hpoints b p).mp hb)
  live a p ha := hh.live a p ((hpoints a p).mp ha)
  loose p hp := ⟨(hh.loose p hp).1, fun a ha => (hh.loose p hp).2 a ((hpoints a p).mp ha)⟩
  members o ho i := (not_congr (hmembers o i)).trans (hh.members o ho i)
  orphan p hp := by
    have horphan := hh.orphan p hp
    exact ⟨horphan.alive, horphan.loose, fun a ha => horphan.unowned a ((hpoints a p).mp ha)⟩
  held p hp := by
    refine (hh.held p hp).imp_right fun hq => hq.imp_right fun ha => ?_
    exact ha.imp fun a => (hpoints a p).mpr
  absent o ho i := (hmembers o i).mpr (hh.absent o ho i)
  nodup := hh.nodup
  ledger := hh.ledger
  dead := hh.dead

/-- The caller takes over what nobody owns. -/
theorem Heap.Accounted.handOut (hh : h.Accounted q) : (h.handOut q).Accounted none where
  single := hh.single
  live := hh.live
  loose p hp := by
    rcases Finset.mem_union.mp hp with hp | hp
    · exact hh.loose p hp
    · have horphan := hh.orphan p (Option.mem_toFinset.mp hp)
      exact ⟨horphan.alive, horphan.unowned⟩
  members := hh.members
  orphan := nofun
  held p hp := by
    rcases hh.held p hp with hl | hq | ha
    · exact .inl (Finset.mem_union_left _ hl)
    · exact .inl (Finset.mem_union_right _ (Option.mem_toFinset.mpr hq))
    · exact .inr (.inr ha)
  absent := hh.absent
  nodup := hh.nodup
  ledger := hh.ledger
  dead := hh.dead

theorem Heap.Accounted.handBack (hh : h.Accounted none) (hq : ∀ p, q = some p → p ∈ h.loose) :
    (h.handBack q).Accounted q where
  single := hh.single
  live := hh.live
  loose p hp := hh.loose p (Finset.mem_sdiff.mp hp).1
  members := hh.members
  orphan p hp := by
    obtain ⟨halive, hunowned⟩ := hh.loose p (hq p hp)
    refine ⟨halive, fun hmem => ?_, hunowned⟩
    exact (Finset.mem_sdiff.mp hmem).2 (Option.mem_toFinset.mpr hp)
  held p hp := by
    by_cases hpq : q = some p
    · exact .inr (.inl hpq)
    · rcases hh.held p hp with hl | hnone | ha
      · refine .inl (Finset.mem_sdiff.mpr ⟨hl, fun hmem => ?_⟩)
        exact hpq (Option.mem_toFinset.mp hmem)
      · cases hnone
      · exact .inr (.inr ha)
  absent := hh.absent
  nodup := hh.nodup
  ledger := hh.ledger
  dead := hh.dead

/-- A fresh object, whose members are null. -/
theorem Heap.Accounted.newObject (hh : h.Accounted none) (deleters : List D) :
    (h.newObject deleters).Accounted (some h.created) := by
  have hfresh : h.created ∉ h.alive := by
    intro hmem
    exact Nat.lt_irrefl _ ((hh.ledger _).mpr (.inl hmem))
  have hpoints : ∀ a p, (h.newObject deleters).points a p ↔ h.points a p := by
    rintro (v | ⟨o, i⟩) p
    · rfl
    · by_cases ho : o = h.created
      · subst ho
        constructor
        · rintro ⟨x, hx, hp⟩
          simp only [Heap.newObject, if_true, Option.map_eq_some_iff] at hx
          obtain ⟨d, -, rfl⟩ := hx
          cases hp
        · rintro ⟨x, hx, -⟩
          rw [hh.absent _ hfresh] at hx
          cases hx
      · simp only [points, Heap.newObject, if_neg ho]
  constructor
  case toOwned =>
    constructor
    case single =>
      intro a b p ha hb
      exact hh.single a b p ((hpoints a p).mp ha) ((hpoints b p).mp hb)
    case live =>
      intro a p ha
      exact Finset.mem_insert_of_mem (hh.live a p ((hpoints a p).mp ha))
    case loose =>
      intro p hp
      obtain ⟨halive, hunowned⟩ := hh.loose p hp
      exact ⟨Finset.mem_insert_of_mem halive, fun a ha => hunowned a ((hpoints a p).mp ha)⟩
    case members =>
      intro o ho i
      by_cases hoc : o = h.created
      · subst hoc
        simp [Heap.newObject]
      · have hold := hh.members o ((Finset.mem_insert.mp ho).resolve_left hoc) i
        simpa [Heap.newObject, hoc] using hold
  case orphan =>
    rintro p ⟨⟩
    refine ⟨Finset.mem_insert_self _ _, fun hmem => hfresh (hh.loose _ hmem).1, fun a ha => ?_⟩
    exact hfresh (hh.live a _ ((hpoints a _).mp ha))
  case held =>
    intro p hp
    rcases Finset.mem_insert.mp hp with rfl | hp
    · exact .inr (.inl rfl)
    · rcases hh.held p hp with hl | hnone | ha
      · exact .inl hl
      · cases hnone
      · exact .inr (.inr (ha.imp fun a => (hpoints a p).mpr))
  case absent =>
    intro o ho i
    have hne : o ≠ h.created := by
      rintro rfl
      exact ho (Finset.mem_insert_self _ _)
    simp only [Heap.newObject, if_neg hne]
    exact hh.absent o (fun hmem => ho (Finset.mem_insert_of_mem hmem)) i
  case nodup => exact hh.nodup
  case ledger =>
    intro p
    change p < h.created + 1 ↔ p ∈ insert h.created h.alive ∨ p ∈ h.deleted.map Prod.fst
    rw [Finset.mem_insert, Nat.lt_succ_iff_lt_or_eq, hh.ledger p]
    tauto
  case dead =>
    intro p hp hmem
    rcases Finset.mem_insert.mp hmem with rfl | hmem
    · exact Nat.lt_irrefl _ ((hh.ledger _).mpr (.inr hp))
    · exact hh.dead p hp hmem

variable [DecidableEq V] {a b o : Place V} {v : V} {u w : UniquePtr D} {d : D} {p : ℕ}

theorem Heap.put_put (h : Heap V D) (a : Place V) (x y : Option (UniquePtr D)) :
    (h.put a x).put a y = h.put a y := by
  simp only [put, Function.update_idem]

theorem Heap.put_comm (h : Heap V D) (hab : a ≠ b) (x y : Option (UniquePtr D)) :
    (h.put a x).put b y = (h.put b y).put a x := by
  simp only [put, Function.update_comm hab]

theorem Heap.put_same (ha : h.place a = some u) : h.put a (some u) = h := by
  rw [put, ← ha, Function.update_eq_self]

theorem Heap.points_put : (h.put a (some w)).points b p ↔
    b = a ∧ w.ptr = some p ∨ b ≠ a ∧ h.points b p := by
  by_cases hba : b = a
  · subst hba
    constructor
    · rintro ⟨x, hx, hp⟩
      rw [put_place] at hx
      cases hx
      exact .inl ⟨rfl, hp⟩
    · rintro (⟨-, hp⟩ | ⟨hne, -⟩)
      · exact ⟨w, h.put_place b _, hp⟩
      · exact absurd rfl hne
  · simp only [points, put_other h _ hba, hba, false_and, false_or, ne_eq, not_false_eq_true,
      true_and]

/-- The object without an owner goes into a pointer, and what that had comes out. -/
theorem Heap.Accounted.exchange (hh : h.Accounted q) (ha : h.place a = some u) (d : D) :
    (h.put a (some ⟨q, d⟩)).Accounted u.ptr where
  single b c p hb hc := by
    rcases points_put.mp hb with ⟨rfl, hq⟩ | ⟨hb, hpb⟩
    · rcases points_put.mp hc with ⟨rfl, -⟩ | ⟨-, hpc⟩
      · rfl
      · exact absurd hpc ((hh.orphan p hq).unowned c)
    · rcases points_put.mp hc with ⟨rfl, hq⟩ | ⟨-, hpc⟩
      · exact absurd hpb ((hh.orphan p hq).unowned b)
      · exact hh.single b c p hpb hpc
  live b p hb := by
    rcases points_put.mp hb with ⟨-, hq⟩ | ⟨-, hp⟩
    · exact (hh.orphan p hq).alive
    · exact hh.live b p hp
  loose p hp := by
    refine ⟨(hh.loose p hp).1, fun b hb => ?_⟩
    rcases points_put.mp hb with ⟨-, hq⟩ | ⟨-, hpb⟩
    · exact (hh.orphan p hq).loose hp
    · exact (hh.loose p hp).2 b hpb
  members x hx i := by
    refine Iff.trans ?_ (hh.members x hx i)
    by_cases hia : Place.member x i = a
    · rw [hia, put_place, ha]
      simp
    · rw [put_other _ _ hia]
  orphan p hp := by
    have hpa : h.points a p := ⟨u, ha, hp⟩
    refine ⟨hh.live a p hpa, fun hmem => (hh.loose p hmem).2 a hpa, fun b hb => ?_⟩
    rcases points_put.mp hb with ⟨-, hq⟩ | ⟨hne, hpb⟩
    · exact (hh.orphan p hq).unowned a hpa
    · exact hne (hh.single b a p hpb hpa)
  held p hp := by
    rcases hh.held p hp with hl | hq | ⟨b, hb⟩
    · exact .inl hl
    · exact .inr (.inr ⟨a, points_put.mpr (.inl ⟨rfl, hq⟩)⟩)
    · by_cases hba : b = a
      · obtain ⟨x, hx, hptr⟩ := hb
        rw [hba, ha] at hx
        cases hx
        exact .inr (.inl hptr)
      · exact .inr (.inr ⟨b, points_put.mpr (.inr ⟨hba, hb⟩)⟩)
  absent x hx i := by
    have hnone := hh.absent x hx i
    rw [put_other]
    · exact hnone
    · rintro rfl
      rw [ha] at hnone
      cases hnone
  nodup := hh.nodup
  ledger := hh.ledger
  dead := hh.dead

theorem Heap.Accounted.retag (hh : h.Accounted q) (ha : h.place a = some u) (d : D) :
    (h.put a (some { u with deleter := d })).Accounted q := by
  refine hh.relabel (fun b p => ?_) (fun x i => ?_)
  · refine (points_put (h := h)).trans ?_
    by_cases hba : b = a
    · subst hba
      simp [points, ha]
    · simp [hba]
  · by_cases hia : Place.member x i = a
    · rw [hia, Function.update_self, ha]
      simp
    · rw [Function.update_of_ne hia]

/-- A variable that owns nothing comes or goes. -/
theorem Heap.Accounted.blank (hh : h.Accounted q) {x : Option (UniquePtr D)}
    (hv : ∀ u, h.place (.var v) = some u → u.ptr = none) (hx : ∀ u, x = some u → u.ptr = none) :
    (h.put (.var v) x).Accounted q := by
  refine hh.relabel (fun b p => ?_) (fun o i => ?_)
  · refine (h.points_clear hx).trans ?_
    constructor
    · exact fun hb => hb.2
    · rintro ⟨y, hy, hp⟩
      refine ⟨?_, y, hy, hp⟩
      rintro rfl
      rw [hv y hy] at hp
      cases hp
  · rw [Function.update_of_ne]
    nofun

end Pointers
end HftExercises.Unique

/-! ## The calls of an owner

A call deletes what its pointer owned, each object with the deleter that travelled with its
pointer. A move assignment between pointers that lie in what it deletes is undefined.
-/
namespace HftExercises.Unique
variable {V D : Type*}

/-- A pointer that a call of move assignment uses lies in what the target gives up. -/
def Heap.Aliased (h : Heap V D) (a o : Place V) : Prop :=
  ∃ old x, h.points a old ∧ (a.holder = some x ∨ o.holder = some x) ∧
    Relation.ReflTransGen h.owns old x

/-- The call may delete this object with this deleter: it is its owner's, or the caller's. -/
def Call.Disposes (h : Heap V D) (c : Call V D) (q : ℕ × D) : Prop :=
  c = .dispose q.1 q.2 ∨ ∃ a u, h.place a = some u ∧ u.deleter = q.2 ∧
    (u.ptr = some q.1 ∨ c = .reset a (some q.1))

/-- What one call does to the books. -/
structure Settles (h : Heap V D) (c : Call V D) (t : Heap V D) : Prop where
  accounted : t.Accounted none
  deletions : ∃ dead, t.deleted = h.deleted ++ dead ∧ ∀ q ∈ dead, c.Disposes h q

section Deletions
variable {q : Option ℕ} {h t : Heap V D} {o p : ℕ} {d : D} {dead : List (ℕ × D)}

theorem Settles.of_deleted {c : Call V D} (ht : t.Accounted none) (hdel : t.deleted = h.deleted) :
    Settles h c t :=
  ⟨ht, [], by rw [hdel, List.append_nil], nofun⟩

theorem Torn.accounted (hh : h.Accounted (some o)) (ht : Torn ∅ {(o, d)} h t dead) :
    t.Accounted none := by
  have hroots : ∀ r ∈ ({(o, d)} : Set (ℕ × D)), h.Orphan r.1 := by
    rintro r rfl
    exact hh.orphan o rfl
  have hsub : ∀ p ∈ dead.map Prod.fst, p ∈ h.alive := by
    intro p hp
    obtain ⟨r, hr, rfl⟩ := List.mem_map.mp hp
    exact ht.sub r hr
  have hmap : t.deleted.map Prod.fst = h.deleted.map Prod.fst ++ dead.map Prod.fst := by
    rw [ht.deleted, List.map_append]
  constructor
  case toOwned => exact ht.owned hh.toOwned hroots fun _ ha => ha.elim
  case orphan => nofun
  case held =>
    intro p hp
    obtain ⟨halive, hstays⟩ := (ht.alive p).mp hp
    rcases hh.held p halive with hl | horphan | ⟨a, ha⟩
    · exact .inl (ht.loose ▸ hl)
    · obtain rfl : o = p := Option.some.inj horphan
      exact absurd (List.mem_map_of_mem (ht.roots (o, d) rfl)) hstays
    · right
      right
      have hin : ¬a.inside dead := fun hin => hstays (ht.closed a p (.inr hin) ha)
      obtain ⟨u, hu, hptr⟩ := ha
      exact ⟨a, u, (ht.kept a (Set.notMem_empty a) hin).trans hu, hptr⟩
  case absent =>
    intro x hx i
    by_cases hin : (Place.member x i : Place V).inside dead
    · exact ht.gone _ (.inr hin)
    · rw [ht.kept _ (Set.notMem_empty _) hin]
      refine hh.absent x (fun halive => hx ((ht.alive x).mpr ⟨halive, fun hmem => ?_⟩)) i
      exact hin ⟨x, rfl, hmem⟩
  case nodup =>
    rw [hmap]
    refine List.nodup_append.mpr ⟨hh.nodup, ht.nodup, ?_⟩
    rintro x hx _ hy rfl
    exact hh.dead x hx (hsub x hy)
  case ledger =>
    intro p
    rw [ht.created, hh.ledger p, hmap, List.mem_append, ht.alive]
    by_cases hmem : p ∈ dead.map Prod.fst
    · simp [hmem, hsub p hmem]
    · simp [hmem]
  case dead =>
    intro p hp hmem
    rw [hmap, List.mem_append] at hp
    obtain ⟨halive, hstays⟩ := (ht.alive p).mp hmem
    exact hp.elim (fun hold => hh.dead p hold halive) hstays

/-- The objects that go are those that a path of members joins to a root. -/
theorem Torn.mem_dead {R : Set (ℕ × D)} (ht : Torn ∅ R h t dead) {x : ℕ} :
    x ∈ dead.map Prod.fst ↔ ∃ r ∈ R, Relation.ReflTransGen h.owns r.1 x := by
  constructor
  · intro hx
    obtain ⟨r, hr, rfl⟩ := List.mem_map.mp hx
    obtain ⟨y, hy, hpath⟩ := ht.reached r hr
    rcases hy with ⟨e, he⟩ | ⟨a, ha, -⟩
    · exact ⟨(y, e), he, hpath⟩
    · exact ha.elim
  · rintro ⟨r, hr, hpath⟩
    induction hpath with
    | refl => exact List.mem_map_of_mem (ht.roots r hr)
    | tail _ hlast ih =>
      obtain ⟨i, hi⟩ := hlast
      exact ht.closed _ _ (.inr ⟨_, rfl, ih⟩) hi

end Deletions

section Operations
variable [DecidableEq V] {moved : D → D} {q : Option ℕ} {h t : Heap V D} {a b o : Place V} {v : V}
variable {u w : UniquePtr D} {d : D} {p : ℕ} {dead : List (ℕ × D)} {c : Call V D} {r : Option ℕ}

theorem Heap.Accounted.delete (hh : h.Accounted (some p)) (d : D) :
    ∃ t dead, h.delete p d = some t ∧ Torn ∅ {(p, d)} h t dead ∧ t.Accounted none := by
  obtain ⟨t, dead, ht, htorn⟩ := hh.toOwned.delete (hh.orphan p rfl) d
  exact ⟨t, dead, ht, htorn, htorn.accounted hh⟩

/-- What the pointer had is deleted when the pointer is set already. -/
theorem Heap.Accounted.reset (hh : h.Accounted q) (ha : h.place a = some u) :
    ∃ t dead, h.reset Heap.delete a q = some t ∧ t.Accounted none ∧
      Torn ∅ {r | u.ptr = some r.1 ∧ u.deleter = r.2} (h.put a (some ⟨q, u.deleter⟩)) t dead := by
  have hset := hh.exchange ha u.deleter
  cases hptr : u.ptr with
  | none =>
    rw [hptr] at hset
    have hroots : {r : ℕ × D | none = some r.1 ∧ u.deleter = r.2} = ∅ := by
      ext r
      simp
    exact ⟨_, [], Heap.reset_null ha hptr, hset, hroots ▸ Torn.nil⟩
  | some old =>
    rw [hptr] at hset
    have hroots : {r : ℕ × D | some old = some r.1 ∧ u.deleter = r.2} = {(old, u.deleter)} := by
      ext r
      simp [Prod.ext_iff, eq_comm]
    obtain ⟨t, dead, ht, htorn, hacc⟩ := hset.delete u.deleter
    exact ⟨t, dead, (Heap.reset_old ha hptr).trans ht, hacc, hroots ▸ htorn⟩

/-- Who owned what goes in a `reset`. -/
theorem Torn.reset_owner (ha : h.place a = some u)
    (ht : Torn ∅ {r | u.ptr = some r.1 ∧ u.deleter = r.2} (h.put a (some ⟨q, u.deleter⟩)) t dead)
    {r : ℕ × D} (hr : r ∈ dead) : (∃ b w, h.place b = some w ∧ w.ptr = some r.1 ∧ w.deleter = r.2) ∨
      a.inside dead ∧ q = some r.1 ∧ u.deleter = r.2 := by
  rcases ht.owner r hr with ⟨hptr, hdel⟩ | ⟨b, hb, hplace⟩
  · exact .inl ⟨a, u, ha, hptr, hdel⟩
  · by_cases hba : b = a
    · subst hba
      rw [Heap.put_place] at hplace
      obtain ⟨hq, hdel⟩ := UniquePtr.mk.inj (Option.some.inj hplace)
      exact .inr ⟨hb.resolve_left fun h => h.elim, hq, hdel⟩
    · rw [Heap.put_other _ _ hba] at hplace
      exact .inl ⟨b, _, hplace, rfl, rfl⟩

theorem Heap.Accounted.construct (hh : h.Accounted q) (hv : h.place (.var v) = none) (d : D) :
    ∃ t, h.construct v q d = some t ∧ t.Accounted none ∧ t.deleted = h.deleted := by
  have hblank : (h.put (.var v) (some ⟨none, d⟩)).Accounted q := by
    refine hh.blank (fun u hu => ?_) ?_
    · rw [hv] at hu
      cases hu
    · rintro u ⟨⟩
      rfl
  refine ⟨h.put (.var v) (some ⟨q, d⟩), by rw [Heap.construct, hv], ?_, rfl⟩
  have hset := hblank.exchange (h.put_place _ _) d
  rwa [Heap.put_put] at hset

theorem Heap.Accounted.moveConstruct (hh : h.Accounted none) (hv : h.place (.var v) = none)
    (ho : h.place o = some u) (moved : D → D) :
    ∃ t, h.moveConstruct moved v o = some t ∧ t.Accounted none ∧ t.deleted = h.deleted := by
  have hne : o ≠ .var v := by
    rintro rfl
    rw [hv] at ho
    cases ho
  refine ⟨(h.put (.var v) (some ⟨u.ptr, u.deleter⟩)).put o (some ⟨none, moved u.deleter⟩), ?_, ?_,
    rfl⟩
  · rw [Heap.moveConstruct, ho, Option.bind_some, Heap.construct, hv]
    rfl
  · have hblank : (h.put (.var v) (some ⟨none, u.deleter⟩)).Accounted none := by
      refine hh.blank (fun u hu => ?_) ?_
      · rw [hv] at hu
        cases hu
      · rintro u ⟨⟩
        rfl
    have htaken := hblank.exchange ((h.put_other _ hne).trans ho) (moved u.deleter)
    have hgiven := htaken.exchange
      ((Heap.put_other _ _ hne.symm).trans (h.put_place _ _)) u.deleter
    rwa [Heap.put_comm _ hne, Heap.put_put] at hgiven

theorem Heap.Accounted.swap (hh : h.Accounted none) (ha : h.place a = some u)
    (ho : h.place o = some w) :
    ∃ t, h.swap a o = some t ∧ t.Accounted none ∧ t.deleted = h.deleted := by
  refine ⟨(h.put a (some w)).put o (some u), ?_, ?_, rfl⟩
  · rw [Heap.swap, ha, Option.bind_some, ho]
    rfl
  · by_cases hao : a = o
    · subst hao
      rw [Heap.put_put, Heap.put_same ha]
      exact hh
    · have hfirst := hh.exchange ha w.deleter
      have hsecond := hfirst.exchange ((h.put_other _ (Ne.symm hao)).trans ho) u.deleter
      have hthird := hsecond.exchange
        ((Heap.put_other _ _ hao).trans (h.put_place _ _)) w.deleter
      rwa [← Heap.put_comm _ hao, Heap.put_put] at hthird

theorem Heap.takeDeleter_eq (ha : h.place a = some w) (ho : h.place o = some u) :
    h.takeDeleter moved a o = some ((h.put a (some { w with deleter := u.deleter })).put o
      (some { u with deleter := moved u.deleter })) := by
  rw [Heap.takeDeleter, ho, Option.bind_some, ha]
  rfl

theorem Heap.takeDeleter_none : h.takeDeleter moved a o = none ↔
    h.place a = none ∨ h.place o = none := by
  rw [Heap.takeDeleter]
  cases h.place o with
  | none => simp
  | some u => simp

theorem Heap.Accounted.takeDeleter (hh : h.Accounted none) (hao : a ≠ o)
    (ht : h.takeDeleter moved a o = some t) : t.Accounted none ∧ t.deleted = h.deleted := by
  cases ha : h.place a with
  | none =>
    rw [Heap.takeDeleter_none.mpr (.inl ha)] at ht
    cases ht
  | some w =>
    cases ho : h.place o with
    | none =>
      rw [Heap.takeDeleter_none.mpr (.inr ho)] at ht
      cases ht
    | some u =>
      rw [Heap.takeDeleter_eq ha ho] at ht
      cases ht
      refine ⟨?_, rfl⟩
      exact (hh.retag ha u.deleter).retag ((h.put_other _ (Ne.symm hao)).trans ho) _

/-- A move assignment up to the deleter, which is still in the source. -/
theorem Heap.Accounted.moveAssign (hh : h.Accounted none) (moved : D → D) (hao : a ≠ o)
    (ha : h.place a = some w) (ho : h.place o = some u) : ∃ t dead, t.Accounted none ∧
      Torn ∅ {r | w.ptr = some r.1 ∧ w.deleter = r.2}
        ((h.put o (some ⟨none, u.deleter⟩)).put a (some ⟨u.ptr, w.deleter⟩)) t dead ∧
      h.moveAssign moved a o = t.takeDeleter moved a o := by
  have htaken := hh.exchange ho u.deleter
  obtain ⟨t, dead, ht, hacc, htorn⟩ := htaken.reset ((h.put_other _ hao).trans ha)
  refine ⟨t, dead, hacc, htorn, ?_⟩
  rw [Heap.moveAssign, if_neg hao, Heap.release, ho, Option.map_some, Option.bind_some, ht,
    Option.bind_some]

/-- The heap in which a move assignment deletes the old object. -/
theorem Heap.points_moving : ((h.put o (some ⟨none, u.deleter⟩)).put a (some w)).points b p ↔
    b = a ∧ w.ptr = some p ∨ b ≠ a ∧ b ≠ o ∧ h.points b p := by
  rw [points_put, points_clear]
  rintro x ⟨⟩
  rfl

/-- A path of members is the same before and after the pointers were moved, up to the first
object that one of the two lies in. -/
theorem Heap.path_moving {old x : ℕ} (hx : Relation.ReflTransGen h.owns old x) :
    Relation.ReflTransGen ((h.put o (some ⟨none, u.deleter⟩)).put a (some w)).owns old x ∨
      ∃ y, (a.holder = some y ∨ o.holder = some y) ∧
        Relation.ReflTransGen ((h.put o (some ⟨none, u.deleter⟩)).put a (some w)).owns old y := by
  induction hx with
  | refl => exact .inl .refl
  | @tail y z _ hyz ih =>
    refine ih.elim (fun hpath => ?_) .inr
    obtain ⟨i, hi⟩ := hyz
    by_cases ha : Place.member y i = a
    · exact .inr ⟨y, .inl (ha ▸ rfl), hpath⟩
    · by_cases ho : Place.member y i = o
      · exact .inr ⟨y, .inr (ho ▸ rfl), hpath⟩
      · exact .inl (hpath.tail ⟨i, points_moving.mpr (.inr ⟨ha, ho, hi⟩)⟩)

theorem Heap.path_moved {old x : ℕ}
    (hx : Relation.ReflTransGen ((h.put o (some ⟨none, u.deleter⟩)).put a (some w)).owns old x) :
    Relation.ReflTransGen h.owns old x ∨
      ∃ y, a.holder = some y ∧ Relation.ReflTransGen h.owns old y := by
  induction hx with
  | refl => exact .inl .refl
  | @tail y z _ hyz ih =>
    refine ih.elim (fun hpath => ?_) .inr
    obtain ⟨i, hi⟩ := hyz
    rcases points_moving.mp hi with ⟨rfl, -⟩ | ⟨-, -, hi⟩
    · exact .inr ⟨y, rfl, hpath⟩
    · exact .inl (hpath.tail ⟨i, hi⟩)

theorem Heap.aliased_iff (ha : h.place a = some w) (q : Option ℕ)
    (ht : Torn ∅ {r | w.ptr = some r.1 ∧ w.deleter = r.2}
      ((h.put o (some ⟨none, u.deleter⟩)).put a (some ⟨q, w.deleter⟩)) t dead) :
    h.Aliased a o ↔ a.inside dead ∨ o.inside dead := by
  have hinside : ∀ y, (a.holder = some y ∨ o.holder = some y) → y ∈ dead.map Prod.fst →
      a.inside dead ∨ o.inside dead :=
    fun y hy hmem => hy.imp (fun ha => ⟨y, ha, hmem⟩) fun ho => ⟨y, ho, hmem⟩
  constructor
  · rintro ⟨old, x, ⟨w', hw', hptr⟩, hx, hpath⟩
    rw [ha] at hw'
    cases hw'
    rcases path_moving hpath with hpath | ⟨y, hy, hpath⟩
    · exact hinside x hx (ht.mem_dead.mpr ⟨(old, w.deleter), ⟨hptr, rfl⟩, hpath⟩)
    · exact hinside y hy (ht.mem_dead.mpr ⟨(old, w.deleter), ⟨hptr, rfl⟩, hpath⟩)
  · intro hin
    obtain ⟨x, hx, hmem⟩ : ∃ x, (a.holder = some x ∨ o.holder = some x) ∧
        x ∈ dead.map Prod.fst := by
      rcases hin with ⟨x, hx, hmem⟩ | ⟨x, hx, hmem⟩
      · exact ⟨x, .inl hx, hmem⟩
      · exact ⟨x, .inr hx, hmem⟩
    obtain ⟨r, ⟨hptr, -⟩, hpath⟩ := ht.mem_dead.mp hmem
    rcases path_moved hpath with hpath | ⟨y, hy, hpath⟩
    · exact ⟨r.1, x, ⟨w, ha, hptr⟩, hx, hpath⟩
    · exact ⟨r.1, y, ⟨w, ha, hptr⟩, .inl hy, hpath⟩

/-- A move assignment is undefined when its target or its source is gone by the time the deleter
is moved. -/
theorem Heap.Accounted.moveAssign_none (hh : h.Accounted none) (moved : D → D) (hao : a ≠ o)
    (ha : h.place a ≠ none) (ho : h.place o ≠ none) :
    h.moveAssign moved a o = none ↔ h.Aliased a o := by
  obtain ⟨w, hw⟩ := Option.ne_none_iff_exists'.mp ha
  obtain ⟨u, hu⟩ := Option.ne_none_iff_exists'.mp ho
  obtain ⟨t, dead, -, htorn, heq⟩ := hh.moveAssign moved hao hw hu
  have hplace : ∀ b, ((h.put o (some ⟨none, u.deleter⟩)).put a
      (some ⟨u.ptr, w.deleter⟩)).place b ≠ none → (t.place b = none ↔ b.inside dead) := by
    intro b hb
    constructor
    · intro hgone
      by_contra hin
      rw [htorn.kept b (Set.notMem_empty b) hin] at hgone
      exact hb hgone
    · exact fun hin => htorn.gone b (.inr hin)
  rw [heq, takeDeleter_none, aliased_iff hw u.ptr htorn, hplace a, hplace o]
  · rw [put_other _ _ (Ne.symm hao), put_place]
    exact Option.some_ne_none _
  · rw [put_place]
    exact Option.some_ne_none _

/-- One call that keeps the contract and whose pointers exist. -/
theorem Heap.Accounted.settles (hh : h.Accounted none) (moved : D → D) (hc : c.Contract h)
    (hp : c.Present h) :
    (∃ r t, h.step moved c = some (r, t) ∧ Settles h c t) ∨
      h.step moved c = none ∧ ∃ a o, c = .moveAssign a o ∧ a ≠ o ∧ h.Aliased a o := by
  cases c with
  | new deleters =>
    exact .inl ⟨_, _, rfl, .of_deleted (hh.newObject deleters).handOut rfl⟩
  | makeUnique v deleters d =>
    obtain ⟨t, ht, hacc, hdel⟩ := (hh.newObject deleters).construct (v := v) hp d
    refine .inl ⟨none, t, ?_, .of_deleted hacc hdel⟩
    rw [Heap.step, Heap.makeUnique, ht]
    rfl
  | construct v p d =>
    have hback : ∀ x, p = some x → x ∈ h.loose := by
      rintro x rfl
      exact hc
    obtain ⟨t, ht, hacc, hdel⟩ := (hh.handBack hback).construct (v := v) hp d
    refine .inl ⟨none, t, ?_, .of_deleted hacc hdel⟩
    rw [Heap.step, ht]
    rfl
  | moveConstruct v o =>
    obtain ⟨u, hu⟩ := Option.ne_none_iff_exists'.mp hp.2
    obtain ⟨t, ht, hacc, hdel⟩ := hh.moveConstruct hp.1 hu moved
    refine .inl ⟨none, t, ?_, .of_deleted hacc hdel⟩
    rw [Heap.step, ht]
    rfl
  | moveAssign a o =>
    obtain ⟨w, hw⟩ := Option.ne_none_iff_exists'.mp hp.1
    obtain ⟨u, hu⟩ := Option.ne_none_iff_exists'.mp hp.2
    by_cases hao : a = o
    · refine .inl ⟨none, h, ?_, .of_deleted hh rfl⟩
      rw [Heap.step, Heap.moveAssign, if_pos hao, hw]
      rfl
    · have hnone := hh.moveAssign_none moved hao hp.1 hp.2
      obtain ⟨t, dead, hacc, htorn, heq⟩ := hh.moveAssign moved hao hw hu
      have halias : h.Aliased a o ↔ a.inside dead ∨ o.inside dead := aliased_iff hw u.ptr htorn
      cases htake : t.takeDeleter moved a o with
      | none =>
        rw [heq, htake] at hnone
        refine .inr ⟨?_, a, o, rfl, hao, hnone.mp rfl⟩
        rw [Heap.step, heq, htake]
        rfl
      | some t' =>
        rw [heq, htake] at hnone
        obtain ⟨hacc', hdel⟩ := hacc.takeDeleter hao htake
        refine .inl ⟨none, t', by rw [Heap.step, heq, htake]; rfl, hacc', dead, ?_, ?_⟩
        · rw [hdel, htorn.deleted]
          rfl
        · intro r hr
          rcases htorn.reset_owner ((h.put_other _ hao).trans hw) hr with ⟨b, x, hx, hptr, hd⟩ | hin
          · right
            by_cases hbo : b = o
            · subst hbo
              rw [put_place] at hx
              cases hx
              cases hptr
            · rw [put_other _ _ hbo] at hx
              exact ⟨b, x, hx, hd, .inl hptr⟩
          · cases hnone.mpr (halias.mpr (.inl hin.1))
  | release a =>
    obtain ⟨u, hu⟩ := Option.ne_none_iff_exists'.mp hp
    refine .inl ⟨u.ptr, _, ?_, .of_deleted (hh.exchange hu u.deleter).handOut rfl⟩
    rw [Heap.step, Heap.release, hu]
    rfl
  | reset a p =>
    obtain ⟨u, hu⟩ := Option.ne_none_iff_exists'.mp hp
    have hback : ∀ x, p = some x → x ∈ h.loose := by
      rintro x rfl
      exact hc
    have hu' : (h.handBack p).place a = some u := hu
    obtain ⟨t, dead, ht, hacc, htorn⟩ := (hh.handBack hback).reset hu'
    refine .inl ⟨none, t, by rw [Heap.step, ht]; rfl, hacc, dead, htorn.deleted, ?_⟩
    intro r hr
    right
    rcases htorn.reset_owner hu' hr with ⟨b, x, hx, hptr, hd⟩ | ⟨-, hq, hd⟩
    · exact ⟨b, x, hx, hd, .inl hptr⟩
    · exact ⟨a, u, hu, hd, .inr (hq ▸ rfl)⟩
  | swap a o =>
    obtain ⟨u, hu⟩ := Option.ne_none_iff_exists'.mp hp.1
    obtain ⟨w, hw⟩ := Option.ne_none_iff_exists'.mp hp.2
    obtain ⟨t, ht, hacc, hdel⟩ := hh.swap hu hw
    refine .inl ⟨none, t, ?_, .of_deleted hacc hdel⟩
    rw [Heap.step, ht]
    rfl
  | destroy v =>
    obtain ⟨u, hu⟩ := Option.ne_none_iff_exists'.mp hp
    obtain ⟨t, dead, ht, hacc, htorn⟩ := hh.reset hu
    have hout : ¬(Place.var v).inside dead := by
      rintro ⟨x, hx, -⟩
      cases hx
    have hnull : t.place (.var v) = some ⟨none, u.deleter⟩ := by
      rw [htorn.kept _ (Set.notMem_empty _) hout, put_place]
    have hgone : (t.put (.var v) none).Accounted none := by
      refine hacc.blank (fun x hx => ?_) nofun
      rw [hnull] at hx
      cases hx
      rfl
    refine .inl ⟨none, t.put (.var v) none, ?_, hgone, dead, htorn.deleted, ?_⟩
    · rw [Heap.step, Heap.destroy, ht]
      rfl
    · intro r hr
      right
      rcases htorn.reset_owner hu hr with ⟨b, x, hx, hptr, hd⟩ | ⟨hin, -⟩
      · exact ⟨b, x, hx, hd, .inl hptr⟩
      · exact absurd hin hout
  | dispose p d =>
    have hback : ∀ x, some p = some x → x ∈ h.loose := by
      rintro x ⟨⟩
      exact hc
    obtain ⟨t, dead, ht, htorn, hacc⟩ := (hh.handBack hback).delete d
    refine .inl ⟨none, t, by rw [Heap.step, ht]; rfl, hacc, dead, htorn.deleted, ?_⟩
    intro r hr
    rcases htorn.owner r hr with rfl | ⟨b, -, hplace⟩
    · exact .inl rfl
    · exact .inr ⟨b, _, hplace, rfl, .inl rfl⟩

/-- A pointer that does not exist cannot be used, and one that does not constructed. -/
theorem Heap.step_absent (hp : ¬c.Present h) : h.step moved c = none := by
  have hconstruct : ∀ {h : Heap V D} {v : V} {p : Option ℕ} {d : D}, h.place (.var v) ≠ none →
      h.construct v p d = none := by
    intro h v p d hv
    obtain ⟨u, hu⟩ := Option.ne_none_iff_exists'.mp hv
    rw [Heap.construct, hu]
  cases c with
  | new deleters => exact absurd trivial hp
  | dispose p d => exact absurd trivial hp
  | makeUnique v deleters d =>
    rw [Heap.step, Heap.makeUnique, hconstruct (h := h.newObject deleters) hp, Option.map_none]
  | construct v p d =>
    rw [Heap.step, hconstruct (h := h.handBack p) hp, Option.map_none]
  | moveConstruct v o =>
    rw [Heap.step, Heap.moveConstruct]
    cases ho : h.place o with
    | none => rfl
    | some u =>
      have hv : h.place (.var v) ≠ none := fun hv => hp ⟨hv, by rw [ho]; exact nofun⟩
      rw [Option.bind_some, hconstruct hv]
      rfl
  | moveAssign a o =>
    rw [Heap.step, Heap.moveAssign]
    split_ifs with hao
    · subst hao
      cases ha : h.place a with
      | none => rfl
      | some u => exact absurd ⟨by rw [ha]; exact nofun, by rw [ha]; exact nofun⟩ hp
    · cases ho : h.place o with
      | none => rw [Heap.release, ho]; rfl
      | some u =>
        have ha : h.place a = none := by
          by_contra ha
          exact hp ⟨ha, by rw [ho]; exact nofun⟩
        rw [Heap.release, ho, Option.map_some, Option.bind_some, Heap.reset, put_other _ _ hao, ha]
        rfl
  | swap a o =>
    rw [Heap.step, Heap.swap]
    cases ha : h.place a with
    | none => rfl
    | some u =>
      have ho : h.place o = none := by
        by_contra ho
        exact hp ⟨by rw [ha]; exact nofun, ho⟩
      rw [Option.bind_some, ho]
      rfl
  | release a => rw [Heap.step, Heap.release, not_not.mp hp]; rfl
  | reset a p =>
    have ha : (h.handBack p).place a = none := not_not.mp hp
    rw [Heap.step, Heap.reset, ha]
    rfl
  | destroy v =>
    rw [Heap.step, Heap.destroy, Heap.reset, not_not.mp hp]
    rfl

end Operations

end HftExercises.Unique
