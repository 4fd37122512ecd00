import HftExercises.Memory.UniquePtr
import Mathlib.Data.Finset.Card
import Mathlib.Data.Set.Insert

/-! # What a deletion takes with it

As long as no object has two owners, a deletion returns, whatever its members own: it deletes the
objects that a path of members joins to the first one, each once and with the deleter of the
pointer that owned it.
-/
namespace HftExercises.Unique
variable {V D : Type*}

def Place.inside (a : Place V) (dead : List (ℕ × D)) : Prop :=
  ∃ o, a.holder = some o ∧ o ∈ dead.map Prod.fst

/-- Each object has at most one owner, which may be the caller, and is alive. -/
structure Heap.Owned (h : Heap V D) : Prop where
  single : ∀ a b p, h.points a p → h.points b p → a = b
  live : ∀ a p, h.points a p → p ∈ h.alive
  loose : ∀ p ∈ h.loose, p ∈ h.alive ∧ ∀ a, ¬h.points a p
  members : ∀ o ∈ h.alive, ∀ i, h.place (.member o i) ≠ none ↔ i < h.members o

/-- An object that nobody owns. -/
structure Heap.Orphan (h : Heap V D) (p : ℕ) : Prop where
  alive : p ∈ h.alive
  loose : p ∉ h.loose
  unowned : ∀ a, ¬h.points a p

/-- The pointers at `L` are destroyed and the objects `R` deleted, with the deleters there: those
in `dead` go, in this order. -/
structure Torn (L : Set (Place V)) (R : Set (ℕ × D)) (h t : Heap V D) (dead : List (ℕ × D)) :
    Prop where
  members : t.members = h.members
  loose : t.loose = h.loose
  created : t.created = h.created
  deleted : t.deleted = h.deleted ++ dead
  alive : ∀ p, p ∈ t.alive ↔ p ∈ h.alive ∧ p ∉ dead.map Prod.fst
  gone : ∀ a, a ∈ L ∨ a.inside dead → t.place a = none
  kept : ∀ a, a ∉ L → ¬a.inside dead → t.place a = h.place a
  nodup : (dead.map Prod.fst).Nodup
  sub : ∀ q ∈ dead, q.1 ∈ h.alive
  roots : ∀ q ∈ R, q ∈ dead
  owner : ∀ q ∈ dead, q ∈ R ∨
    ∃ a, (a ∈ L ∨ a.inside dead) ∧ h.place a = some ⟨some q.1, q.2⟩
  reached : ∀ q ∈ dead, ∃ r, ((∃ d, (r, d) ∈ R) ∨ ∃ a ∈ L, h.points a r) ∧
    Relation.ReflTransGen h.owns r q.1
  closed : ∀ a p, a ∈ L ∨ a.inside dead → h.points a p → p ∈ dead.map Prod.fst

section Torn
variable {L L' : Set (Place V)} {R R' : Set (ℕ × D)} {h t u : Heap V D} {dead dead' : List (ℕ × D)}

theorem Place.inside_append {a : Place V} :
    a.inside (dead ++ dead') ↔ a.inside dead ∨ a.inside dead' := by
  constructor
  · rintro ⟨o, ho, hmem⟩
    rw [List.map_append, List.mem_append] at hmem
    rcases hmem with hmem | hmem
    · exact .inl ⟨o, ho, hmem⟩
    · exact .inr ⟨o, ho, hmem⟩
  · rintro (⟨o, ho, hmem⟩ | ⟨o, ho, hmem⟩)
    · exact ⟨o, ho, by simp only [List.map_append, List.mem_append, hmem, true_or]⟩
    · exact ⟨o, ho, by simp only [List.map_append, List.mem_append, hmem, or_true]⟩

theorem Place.not_inside_nil {a : Place V} : ¬a.inside ([] : List (ℕ × D)) := by
  rintro ⟨o, -, hmem⟩
  cases hmem

theorem Torn.nil : Torn ∅ ∅ h h [] where
  members := rfl
  loose := rfl
  created := rfl
  deleted := by simp
  alive := by simp
  gone := by
    rintro a (ha | ha)
    · exact ha.elim
    · exact (Place.not_inside_nil ha).elim
  kept _ _ _ := rfl
  nodup := List.nodup_nil
  sub := nofun
  roots := nofun
  owner := nofun
  reached := nofun
  closed := by
    rintro a p (ha | ha)
    · exact ha.elim
    · exact (Place.not_inside_nil ha).elim

/-- What is left was there before. -/
theorem Torn.place_eq (ht : Torn L R h t dead) {a : Place V} {w : UniquePtr D}
    (ha : t.place a = some w) : a ∉ L ∧ ¬a.inside dead ∧ h.place a = some w := by
  have hstays : ¬(a ∈ L ∨ a.inside dead) := by
    intro hgone
    rw [ht.gone a hgone] at ha
    cases ha
  rw [not_or] at hstays
  exact ⟨hstays.1, hstays.2, ht.kept a hstays.1 hstays.2 ▸ ha⟩

theorem Torn.points (ht : Torn L R h t dead) {a : Place V} {p : ℕ} (ha : t.points a p) :
    a ∉ L ∧ ¬a.inside dead ∧ h.points a p := by
  obtain ⟨w, hw, hp⟩ := ha
  obtain ⟨hL, hin, hplace⟩ := ht.place_eq hw
  exact ⟨hL, hin, w, hplace, hp⟩

theorem Torn.owns (ht : Torn L R h t dead) {x y : ℕ} (hxy : t.owns x y) : h.owns x y :=
  hxy.imp fun _ hi => (ht.points hi).2.2

theorem Torn.path (ht : Torn L R h t dead) {x y : ℕ}
    (hxy : Relation.ReflTransGen t.owns x y) : Relation.ReflTransGen h.owns x y :=
  Relation.ReflTransGen.mono (fun _ _ => ht.owns) _ _ hxy

theorem Torn.append (ht : Torn L R h t dead) (hu : Torn L' R' t u dead') :
    Torn (L ∪ L') (R ∪ R') h u (dead ++ dead') := by
  have hfar : ∀ q ∈ dead', q.1 ∉ dead.map Prod.fst :=
    fun q hq => ((ht.alive q.1).mp (hu.sub q hq)).2
  have hmap : (dead ++ dead').map Prod.fst = dead.map Prod.fst ++ dead'.map Prod.fst :=
    List.map_append
  constructor
  case members => exact hu.members.trans ht.members
  case loose => exact hu.loose.trans ht.loose
  case created => exact hu.created.trans ht.created
  case deleted => rw [hu.deleted, ht.deleted, List.append_assoc]
  case alive =>
    intro p
    rw [hu.alive, ht.alive, hmap, List.mem_append, not_or, and_assoc]
  case gone =>
    intro a ha
    rw [Place.inside_append] at ha
    by_cases hlate : a ∈ L' ∨ a.inside dead'
    · exact hu.gone a hlate
    · rw [not_or] at hlate
      rw [hu.kept a hlate.1 hlate.2]
      refine ht.gone a ?_
      rcases ha with (ha | ha) | ha | ha
      · exact .inl ha
      · exact absurd ha hlate.1
      · exact .inr ha
      · exact absurd ha hlate.2
  case kept =>
    intro a hL hin
    rw [Set.mem_union, not_or] at hL
    rw [Place.inside_append, not_or] at hin
    rw [hu.kept a hL.2 hin.2, ht.kept a hL.1 hin.1]
  case nodup =>
    rw [hmap]
    refine List.nodup_append.mpr ⟨ht.nodup, hu.nodup, ?_⟩
    rintro x hx _ hy rfl
    obtain ⟨q, hq, rfl⟩ := List.mem_map.mp hy
    exact hfar q hq hx
  case sub =>
    intro q hq
    rcases List.mem_append.mp hq with hq | hq
    · exact ht.sub q hq
    · exact ((ht.alive q.1).mp (hu.sub q hq)).1
  case roots =>
    rintro q (hq | hq)
    · exact List.mem_append_left _ (ht.roots q hq)
    · exact List.mem_append_right _ (hu.roots q hq)
  case owner =>
    intro q hq
    rcases List.mem_append.mp hq with hq | hq
    · rcases ht.owner q hq with hR | ⟨a, ha, hplace⟩
      · exact .inl (.inl hR)
      · exact .inr ⟨a, ha.imp .inl fun hin => Place.inside_append.mpr (.inl hin), hplace⟩
    · rcases hu.owner q hq with hR | ⟨a, ha, hplace⟩
      · exact .inl (.inr hR)
      · exact .inr ⟨a, ha.imp .inr fun hin => Place.inside_append.mpr (.inr hin),
          (ht.place_eq hplace).2.2⟩
  case reached =>
    intro q hq
    rcases List.mem_append.mp hq with hq | hq
    · obtain ⟨r, hr, hpath⟩ := ht.reached q hq
      refine ⟨r, hr.imp ?_ ?_, hpath⟩
      · exact fun hd => hd.imp fun _ => .inl
      · exact fun ha => ha.imp fun _ hL => ⟨.inl hL.1, hL.2⟩
    · obtain ⟨r, hr, hpath⟩ := hu.reached q hq
      refine ⟨r, hr.imp ?_ ?_, ht.path hpath⟩
      · exact fun hd => hd.imp fun _ => .inr
      · exact fun ha => ha.imp fun _ hL => ⟨.inr hL.1, (ht.points hL.2).2.2⟩
  case closed =>
    intro a p ha hp
    rw [hmap, List.mem_append]
    rw [Place.inside_append] at ha
    by_cases hearly : a ∈ L ∨ a.inside dead
    · exact .inl (ht.closed a p hearly hp)
    · right
      rw [not_or] at hearly
      obtain ⟨w, hw, hptr⟩ := hp
      refine hu.closed a p ?_ ⟨w, (ht.kept a hearly.1 hearly.2).trans hw, hptr⟩
      rcases ha with (ha | ha) | ha | ha
      · exact absurd ha hearly.1
      · exact .inl ha
      · exact absurd ha hearly.2
      · exact .inr ha

/-- What is left has its owners. -/
theorem Torn.owned (ht : Torn L R h t dead) (hh : h.Owned) (hR : ∀ q ∈ R, h.Orphan q.1)
    (hL : ∀ a ∈ L, ∀ o, a.holder = some o → o ∉ h.alive) : t.Owned := by
  have hdead : ∀ p ∈ dead.map Prod.fst, h.Orphan p ∨
      ∃ a, (a ∈ L ∨ a.inside dead) ∧ h.points a p := by
    intro p hp
    obtain ⟨q, hq, rfl⟩ := List.mem_map.mp hp
    rcases ht.owner q hq with hroot | ⟨a, ha, hplace⟩
    · exact .inl (hR q hroot)
    · exact .inr ⟨a, ha, _, hplace, rfl⟩
  constructor
  case single =>
    intro a b p ha hb
    exact hh.single a b p (ht.points ha).2.2 (ht.points hb).2.2
  case live =>
    intro a p ha
    obtain ⟨hnL, hnin, hp⟩ := ht.points ha
    refine (ht.alive p).mpr ⟨hh.live a p hp, fun hmem => ?_⟩
    rcases hdead p hmem with horphan | ⟨b, hb, hpb⟩
    · exact horphan.unowned a hp
    · rw [hh.single a b p hp hpb] at hnL hnin
      exact hb.elim hnL hnin
  case loose =>
    intro p hp
    rw [ht.loose] at hp
    obtain ⟨halive, hunowned⟩ := hh.loose p hp
    refine ⟨(ht.alive p).mpr ⟨halive, fun hmem => ?_⟩, fun a ha => ?_⟩
    · rcases hdead p hmem with horphan | ⟨b, -, hpb⟩
      · exact horphan.loose hp
      · exact hunowned b hpb
    · exact hunowned a (ht.points ha).2.2
  case members =>
    intro o ho i
    obtain ⟨halive, hdead⟩ := (ht.alive o).mp ho
    rw [ht.members, ht.kept]
    · exact hh.members o halive i
    · exact fun hmem => hL _ hmem o rfl halive
    · rintro ⟨x, hx, hmem⟩
      cases hx
      exact hdead hmem

theorem Torn.card_le (ht : Torn L R h t dead) : t.alive.card ≤ h.alive.card :=
  Finset.card_le_card fun p hp => ((ht.alive p).mp hp).1

end Torn

section Cascade
variable [DecidableEq V] {h t : Heap V D} {a : Place V} {p o : ℕ} {d : D} {u : UniquePtr D}
variable {del : Heap V D → ℕ → D → Option (Heap V D)} {n : ℕ}

theorem Heap.put_place (h : Heap V D) (a : Place V) (u : Option (UniquePtr D)) :
    (h.put a u).place a = u :=
  Function.update_self _ _ _

theorem Heap.put_other (h : Heap V D) {a b : Place V} (u : Option (UniquePtr D)) (hb : b ≠ a) :
    (h.put a u).place b = h.place b :=
  Function.update_of_ne hb _ _

/-- A pointer that is set to null points nowhere, and the others are as before. -/
theorem Heap.points_clear (h : Heap V D) {a b : Place V} {w : Option (UniquePtr D)}
    (hw : ∀ u, w = some u → u.ptr = none) :
    (h.put a w).points b p ↔ b ≠ a ∧ h.points b p := by
  by_cases hb : b = a
  · subst hb
    constructor
    · rintro ⟨x, hx, hp⟩
      rw [put_place] at hx
      rw [hw x hx] at hp
      cases hp
    · exact fun hc => absurd rfl hc.1
  · simp only [points, put_other h w hb, ne_eq, hb, not_false_eq_true, true_and]

theorem Heap.reset_null {q : Option ℕ} (hu : h.place a = some u) (hptr : u.ptr = none) :
    h.reset del a q = some (h.put a (some { u with ptr := q })) := by
  rw [reset, hu, Option.bind_some, hptr]

theorem Heap.reset_old {q : Option ℕ} (hu : h.place a = some u) (hptr : u.ptr = some o) :
    h.reset del a q = del (h.put a (some { u with ptr := q })) o u.deleter := by
  rw [reset, hu, Option.bind_some, hptr]

/-- `del` does what a deletion must do, as long as it has no more than `n` objects to delete. -/
def Deletes (del : Heap V D → ℕ → D → Option (Heap V D)) (n : ℕ) : Prop :=
  ∀ (h : Heap V D) (o : ℕ) (d : D), h.Owned → h.Orphan o → h.alive.card ≤ n →
    ∃ t dead, del h o d = some t ∧ Torn ∅ {(o, d)} h t dead

/-- A pointer that has been cleared points to nothing. -/
theorem Heap.points_null {b : Place V} {p : ℕ} :
    (h.put a (some { u with ptr := none })).points b p ↔ b ≠ a ∧ h.points b p := by
  refine h.points_clear ?_
  rintro x ⟨⟩
  rfl

/-- The pointer at `a` gives up its object, which is deleted, and is destroyed itself. -/
theorem Torn.clear {dead : List (ℕ × D)} (ha : h.place a = some u)
    (ht : Torn ∅ {q | u.ptr = some q.1 ∧ u.deleter = q.2} (h.put a (some { u with ptr := none })) t
      dead) : Torn {a} ∅ h (t.put a none) dead := by
  have hroot : ∀ b q, b ∈ ({a} : Set (Place V)) → h.points b q → (q, u.deleter) ∈
      {q : ℕ × D | u.ptr = some q.1 ∧ u.deleter = q.2} := by
    rintro b q rfl ⟨w, hw, hq⟩
    rw [ha] at hw
    cases hw
    exact ⟨hq, rfl⟩
  constructor
  case members => exact ht.members
  case loose => exact ht.loose
  case created => exact ht.created
  case deleted => exact ht.deleted
  case alive => exact ht.alive
  case gone =>
    intro b hb
    by_cases hba : b = a
    · rw [hba, Heap.put_place]
    · rw [Heap.put_other _ _ hba]
      exact ht.gone b (hb.imp_left fun h => (hba h).elim)
  case kept =>
    intro b hba hin
    rw [Heap.put_other _ _ hba, ht.kept b (Set.notMem_empty b) hin, Heap.put_other _ _ hba]
  case nodup => exact ht.nodup
  case sub => exact ht.sub
  case roots => nofun
  case owner =>
    intro q hq
    right
    rcases ht.owner q hq with ⟨hptr, hdel⟩ | ⟨b, hb, hplace⟩
    · refine ⟨a, .inl rfl, ?_⟩
      rw [ha, ← hptr, ← hdel]
    · have hne : b ≠ a := (Heap.points_null.mp ⟨_, hplace, rfl⟩).1
      rw [Heap.put_other _ _ hne] at hplace
      exact ⟨b, hb.imp_left fun h => h.elim, hplace⟩
  case reached =>
    intro q hq
    obtain ⟨r, hr, hpath⟩ := ht.reached q hq
    refine ⟨r, .inr ⟨a, rfl, ?_⟩, ?_⟩
    · rcases hr with ⟨d, hptr, -⟩ | ⟨b, hb, -⟩
      · exact ⟨u, ha, hptr⟩
      · exact hb.elim
    · exact Relation.ReflTransGen.mono (fun x y hxy => hxy.imp fun i hi => (Heap.points_null.mp hi).2)
        _ _ hpath
  case closed =>
    intro b p hb hp
    by_cases hba : b = a
    · exact List.mem_map_of_mem (ht.roots _ (hroot b p hba hp))
    · exact ht.closed b p (hb.imp_left fun h => (hba h).elim) (Heap.points_null.mpr ⟨hba, hp⟩)

theorem Heap.Owned.clear (hh : h.Owned) (ha : h.place a = some u) :
    (h.put a (some { u with ptr := none })).Owned := by
  constructor
  case single =>
    intro b c p hb hc
    exact hh.single b c p (Heap.points_null.mp hb).2 (Heap.points_null.mp hc).2
  case live => exact fun b p hb => hh.live b p (Heap.points_null.mp hb).2
  case loose =>
    intro p hp
    obtain ⟨halive, hunowned⟩ := hh.loose p hp
    exact ⟨halive, fun b hb => hunowned b (Heap.points_null.mp hb).2⟩
  case members =>
    intro o ho i
    refine Iff.trans ?_ (hh.members o ho i)
    by_cases hia : Place.member o i = a
    · rw [hia, put_place, ha]
      simp
    · rw [put_other _ _ hia]

/-- What a pointer gives up has no owner left. -/
theorem Heap.Owned.orphan (hh : h.Owned) (ha : h.points a o) {w : Option (UniquePtr D)}
    (hw : ∀ u, w = some u → u.ptr = none) : (h.put a w).Orphan o where
  alive := hh.live a o ha
  loose hmem := (hh.loose o hmem).2 a ha
  unowned b hb := by
    obtain ⟨hne, hp⟩ := (h.points_clear hw).mp hb
    exact hne (hh.single b a o hp ha)

theorem Deletes.destroy (hdel : Deletes del n) (hh : h.Owned) (ha : h.place a ≠ none)
    (hcard : h.alive.card ≤ n) : ∃ t dead, h.destroy del a = some t ∧ Torn {a} ∅ h t dead := by
  obtain ⟨u, hu⟩ := Option.ne_none_iff_exists'.mp ha
  rw [Heap.destroy]
  cases hptr : u.ptr with
  | none =>
    rw [Heap.reset_null hu hptr]
    have hset : {q : ℕ × D | u.ptr = some q.1 ∧ u.deleter = q.2} = ∅ := by
      ext q
      simp [hptr]
    refine ⟨_, [], rfl, Torn.clear hu ?_⟩
    rw [hset]
    exact Torn.nil
  | some old =>
    have hset : {q : ℕ × D | u.ptr = some q.1 ∧ u.deleter = q.2} = {(old, u.deleter)} := by
      ext q
      simp [hptr, Prod.ext_iff, eq_comm]
    have horphan : (h.put a (some { u with ptr := none })).Orphan old := by
      refine hh.orphan ⟨u, hu, hptr⟩ ?_
      rintro x ⟨⟩
      rfl
    obtain ⟨t, dead, ht, htorn⟩ := hdel _ old u.deleter (hh.clear hu) horphan hcard
    rw [Heap.reset_old hu hptr, ht]
    refine ⟨_, dead, rfl, Torn.clear hu ?_⟩
    rw [hset]
    exact htorn

theorem Deletes.destroyMembers (hdel : Deletes del n) (i : ℕ) (hh : h.Owned)
    (ho : o ∉ h.alive) (hi : ∀ j < i, h.place (.member o j) ≠ none) (hcard : h.alive.card ≤ n) :
    ∃ t dead, Heap.destroyMembers del o i h = some t ∧
      Torn {a | ∃ j < i, a = .member o j} ∅ h t dead := by
  induction i generalizing h with
  | zero =>
    have hset : {a : Place V | ∃ j < 0, a = .member o j} = ∅ := by simp
    exact ⟨h, [], rfl, hset ▸ Torn.nil⟩
  | succ i ih =>
    obtain ⟨t, dead, ht, htorn⟩ := hdel.destroy hh (hi i (Nat.lt_succ_self i)) hcard
    have howned : t.Owned := by
      refine htorn.owned hh (fun _ hq => hq.elim) ?_
      rintro a rfl x ⟨⟩
      exact ho
    have ho' : o ∉ t.alive := fun hmem => ho ((htorn.alive o).mp hmem).1
    have hi' : ∀ j < i, t.place (.member o j) ≠ none := by
      intro j hj
      rw [htorn.kept]
      · exact hi j (Nat.lt_succ_of_lt hj)
      · intro heq
        cases heq
        exact Nat.lt_irrefl _ hj
      · rintro ⟨x, hx, hmem⟩
        cases hx
        obtain ⟨q, hq, rfl⟩ := List.mem_map.mp hmem
        exact ho (htorn.sub q hq)
    obtain ⟨u, dead', hu, htorn'⟩ := ih howned ho' hi' (htorn.card_le.trans hcard)
    have hset : {a : Place V | ∃ j < i + 1, a = .member o j} =
        {.member o i} ∪ {a | ∃ j < i, a = .member o j} := by
      ext a
      constructor
      · rintro ⟨j, hj, rfl⟩
        rcases Nat.lt_succ_iff_lt_or_eq.mp hj with hj | rfl
        · exact .inr ⟨j, hj, rfl⟩
        · exact .inl rfl
      · rintro (rfl | ⟨j, hj, rfl⟩)
        · exact ⟨i, Nat.lt_succ_self i, rfl⟩
        · exact ⟨j, Nat.lt_succ_of_lt hj, rfl⟩
    have hboth := htorn.append htorn'
    rw [Set.union_empty, ← hset] at hboth
    refine ⟨u, dead ++ dead', ?_, hboth⟩
    rw [Heap.destroyMembers, ht, Option.bind_some, hu]

/-- The object and what its members took with them. -/
theorem Torn.whole {dead : List (ℕ × D)} (hh : h.Owned) (ho : o ∈ h.alive)
    (ht : Torn {a | ∃ j < h.members o, a = .member o j} ∅
      { h with alive := h.alive.erase o, deleted := h.deleted ++ [(o, d)] } t dead) :
    Torn ∅ {(o, d)} h t ((o, d) :: dead) := by
  have hfar : o ∉ dead.map Prod.fst := by
    intro hmem
    obtain ⟨q, hq, rfl⟩ := List.mem_map.mp hmem
    exact Finset.notMem_erase _ _ (ht.sub q hq)
  have hinside : ∀ a : Place V, a.inside ((o, d) :: dead) ↔ a.holder = some o ∨ a.inside dead := by
    intro a
    constructor
    · rintro ⟨x, hx, hmem⟩
      rcases List.mem_cons.mp hmem with rfl | hmem
      · exact .inl hx
      · exact .inr ⟨x, hx, hmem⟩
    · rintro (hx | ⟨x, hx, hmem⟩)
      · exact ⟨o, hx, List.mem_cons_self⟩
      · exact ⟨x, hx, List.mem_cons_of_mem _ hmem⟩
  -- a pointer in the object is one of its members
  have hmember : ∀ a : Place V, a.holder = some o → h.place a ≠ none →
      ∃ j < h.members o, a = .member o j := by
    rintro (v | ⟨x, j⟩) ha hplace
    · cases ha
    · cases ha
      exact ⟨j, (hh.members o ho j).mp hplace, rfl⟩
  constructor
  case members => exact ht.members
  case loose => exact ht.loose
  case created => exact ht.created
  case deleted => rw [ht.deleted, List.append_assoc, List.singleton_append]
  case alive =>
    intro p
    rw [ht.alive, Finset.mem_erase, List.map_cons, List.mem_cons, not_or]
    tauto
  case gone =>
    rintro a (ha | ha)
    · exact ha.elim
    · by_cases hcleared : a ∈ {a | ∃ j < h.members o, a = .member o j} ∨ a.inside dead
      · exact ht.gone a hcleared
      · rw [not_or] at hcleared
        have hholder := ((hinside a).mp ha).resolve_right hcleared.2
        rw [ht.kept a hcleared.1 hcleared.2]
        by_contra hplace
        exact hcleared.1 (hmember a hholder hplace)
  case kept =>
    intro a _ hin
    rw [hinside, not_or] at hin
    refine ht.kept a ?_ hin.2
    rintro ⟨j, -, rfl⟩
    exact hin.1 rfl
  case nodup => exact List.nodup_cons.mpr ⟨hfar, ht.nodup⟩
  case sub =>
    intro q hq
    rcases List.mem_cons.mp hq with rfl | hq
    · exact ho
    · exact Finset.mem_of_mem_erase (ht.sub q hq)
  case roots =>
    rintro q rfl
    exact List.mem_cons_self
  case owner =>
    intro q hq
    rcases List.mem_cons.mp hq with rfl | hq
    · exact .inl rfl
    · obtain ⟨a, ha, hplace⟩ := (ht.owner q hq).resolve_left fun h => h.elim
      refine .inr ⟨a, .inr ((hinside a).mpr ?_), hplace⟩
      refine ha.imp_left ?_
      rintro ⟨j, -, rfl⟩
      rfl
  case reached =>
    intro q hq
    refine ⟨o, .inl ⟨d, rfl⟩, ?_⟩
    rcases List.mem_cons.mp hq with rfl | hq
    · exact .refl
    · obtain ⟨r, hr, hpath⟩ := ht.reached q hq
      rcases hr with ⟨_, hr⟩ | ⟨a, ⟨j, -, rfl⟩, hp⟩
      · exact hr.elim
      · exact .head ⟨j, hp⟩ hpath
  case closed =>
    rintro a p (ha | ha) hp
    · exact ha.elim
    · refine List.mem_cons_of_mem _ (ht.closed a p ?_ hp)
      refine ((hinside a).mp ha).imp_left fun hholder => hmember a hholder ?_
      obtain ⟨w, hw, -⟩ := hp
      rw [hw]
      exact Option.some_ne_none w

/-- A deletion returns, and takes with it what the object owns. -/
theorem deleteObject_deletes (n : ℕ) : Deletes (Heap.deleteObject (V := V) (D := D) n) n := by
  induction n with
  | zero =>
    intro h o d _ horphan hcard
    rw [Nat.le_zero, Finset.card_eq_zero] at hcard
    exact absurd horphan.alive (hcard ▸ Finset.notMem_empty o)
  | succ n ih =>
    intro h o d hh horphan hcard
    have howned : ({ h with
        alive := h.alive.erase o, deleted := h.deleted ++ [(o, d)] } : Heap V D).Owned := by
      constructor
      case single => exact hh.single
      case live =>
        intro a p hp
        refine Finset.mem_erase.mpr ⟨?_, hh.live a p hp⟩
        rintro rfl
        exact horphan.unowned a hp
      case loose =>
        intro p hp
        obtain ⟨halive, hunowned⟩ := hh.loose p hp
        refine ⟨Finset.mem_erase.mpr ⟨?_, halive⟩, hunowned⟩
        rintro rfl
        exact horphan.loose hp
      case members => exact fun x hx => hh.members x (Finset.mem_of_mem_erase hx)
    have hle : (h.alive.erase o).card ≤ n := by
      rw [Finset.card_erase_of_mem horphan.alive]
      omega
    obtain ⟨t, dead, ht, htorn⟩ := ih.destroyMembers (h.members o) howned
      (Finset.notMem_erase o h.alive) (fun j hj => (hh.members o horphan.alive j).mpr hj) hle
    refine ⟨t, (o, d) :: dead, ?_, htorn.whole hh horphan.alive⟩
    rw [Heap.deleteObject, if_pos horphan.alive, ht]

theorem Heap.Owned.delete (hh : h.Owned) (horphan : h.Orphan o) (d : D) :
    ∃ t dead, h.delete o d = some t ∧ Torn ∅ {(o, d)} h t dead :=
  deleteObject_deletes h.alive.card h o d hh horphan le_rfl

end Cascade
end HftExercises.Unique
