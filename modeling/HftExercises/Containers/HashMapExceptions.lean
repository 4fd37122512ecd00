import HftExercises.Containers.HashMapRuns

/-! # Insertions that an exception ends

A growth copies the key and moves the value of every pair into the new table, and an
insertion then copies its pair into a slot. A copy may throw. What is left is the map as
it was at that point; a copy that throws leaves its source alone, and the new table of an
unfinished growth is lost.
-/
namespace HftExercises.Hashing
variable {K V : Type*}

/-- Which of the constructions of a call throw, in the order in which they are made, and what
is left of a value that is moved. -/
structure Copying (V : Type*) where
  throws : ℕ → Bool
  moved : V → V

def Slot.move (f : V → V) : Slot K V → Slot K V
  | .filled k v => .filled k (f v)
  | s => s

namespace HashMap

/-- The value in slot `i` is moved from. -/
def moveOut (m : HashMap K V) (f : V → V) (i : ℕ) : HashMap K V :=
  { m with nodes := Function.update m.nodes i ((m.nodes i).move f) }

/-- The iterations of `grow`, when `made` constructions were made: the old map, the new table
and the constructions made. -/
def rehashThrowing (c : Copying V) (newCap : ℕ) :
    ℕ → ℕ → ℕ → HashMap K V → (ℕ → Slot K V) →
      Option (Except (HashMap K V) (HashMap K V × (ℕ → Slot K V) × ℕ))
  | 0, _, made, m, t => some (.ok (m, t, made))
  | n + 1, i, made, m, t =>
    match m.nodes i with
    | .filled k v =>
      match emptySlotFrom t newCap newCap (m.hash k &&& (newCap - 1)) with
      | none => none
      | some idx =>
        if c.throws made then some (.error m)
        else rehashThrowing c newCap n (i + 1) (made + 1) (m.moveOut c.moved i)
          (Function.update t idx (.filled k v))
    | _ => rehashThrowing c newCap n (i + 1) made m t

def growThrowing (c : Copying V) (made : ℕ) (m : HashMap K V) (newCap : ℕ) :
    Option (Except (HashMap K V) (HashMap K V × ℕ)) :=
  let newCap := if newCap < kInitialCapacity then kInitialCapacity else newCap
  (rehashThrowing c newCap m.capacity 0 made m allocEmpty).map fun r =>
    r.map fun r => ({ r.1 with nodes := r.2.1, capacity := newCap, tombstones := 0 }, r.2.2)

def growForInsertThrowing (c : Copying V) (made : ℕ) (m : HashMap K V) :
    Option (Except (HashMap K V) (HashMap K V × ℕ)) :=
  if m.capacity = 0 ∨ 10 * (m.size + 1) > 7 * m.capacity then
    growThrowing c made m (if m.capacity = 0 then kInitialCapacity else m.capacity * 2)
  else some (.ok (m, made))

/-- The counters for a pair in the slot `ins`, which is not there yet. -/
def announce (m : HashMap K V) (ins : ℕ) : HashMap K V :=
  { m with
    size := m.size + 1
    tombstones := match m.nodes ins with
      | .tombstone => m.tombstones - 1
      | _ => m.tombstones }

section Keys
variable [DecidableEq K]

def insertFromThrowing (c : Copying V) (made : ℕ) (m : HashMap K V) (kv : K × V) :
    ℕ → ℕ → Option ℕ → Option (Except (HashMap K V) (HashMap K V × ℕ × Bool))
  | 0, _, _ => none
  | n + 1, idx, tomb =>
    match m.nodes idx with
    | .filled k _ =>
      if k = kv.1 then some (.ok (m, idx, false))
      else insertFromThrowing c made m kv n (m.next idx) tomb
    | .tombstone => insertFromThrowing c made m kv n (m.next idx) (some (tomb.getD idx))
    | .empty =>
      let m := m.announce (tomb.getD idx)
      if c.throws made then some (.error m)
      else
        some (.ok ({ m with nodes := Function.update m.nodes (tomb.getD idx) (.filled kv.1 kv.2) },
          tomb.getD idx, true))

def insertWithinThrowing (c : Copying V) :
    ℕ → ℕ → HashMap K V → K × V → Option (Except (HashMap K V) (HashMap K V × ℕ × Bool))
  | 0, _, _, _ => none
  | n + 1, made, m, kv =>
    match growForInsertThrowing c made m with
    | none => none
    | some (.error m) => some (.error m)
    | some (.ok (m, made)) =>
      match insertFromThrowing c made m kv m.capacity (m.home kv.1) none with
      | some r => some r
      | none =>
        match growThrowing c made m (m.capacity * 2) with
        | none => none
        | some (.error m) => some (.error m)
        | some (.ok (m, made)) => insertWithinThrowing c n made m kv

/-- `insert`, with the map that an exception leaves. -/
def insertThrowing (m : HashMap K V) (c : Copying V) (kv : K × V) :
    Option (Except (HashMap K V) (HashMap K V × ℕ × Bool)) := insertWithinThrowing c 2 0 m kv

end Keys

/-- The values in the slots below `i` are moved from. -/
def movedBelow (m : HashMap K V) (f : V → V) (i : ℕ) : HashMap K V :=
  { m with nodes := fun j => if j < i then (m.nodes j).move f else m.nodes j }

end HashMap

/-- The first construction of the call that throws. -/
def FirstThrow (c : Copying V) (j : ℕ) : Prop := c.throws j = true ∧ ∀ i < j, c.throws i = false

theorem FirstThrow.unique {c : Copying V} {j j' : ℕ} (h : FirstThrow c j) (h' : FirstThrow c j') :
    j = j' := by
  rcases Nat.lt_trichotomy j j' with hlt | heq | hgt
  · exact absurd h.1 (by rw [h'.2 j hlt]; decide)
  · exact heq
  · exact absurd h'.1 (by rw [h.2 j' hgt]; decide)

section Growth
variable {m m' : HashMap K V} {c : Copying V} {newCap : ℕ}

theorem Slot.move_of_not_filled {s : Slot K V} {f : V → V} (h : s.isFilled = false) :
    s.move f = s := by
  cases s with
  | filled k v => cases h
  | empty => rfl
  | tombstone => rfl

theorem movedBelow_zero (f : V → V) : m.movedBelow f 0 = m := rfl

theorem movedBelow_nodes_self (f : V → V) (i : ℕ) : (m.movedBelow f i).nodes i = m.nodes i :=
  if_neg (Nat.lt_irrefl i)

theorem moveOut_movedBelow (f : V → V) (i : ℕ) :
    (m.movedBelow f i).moveOut f i = m.movedBelow f (i + 1) := by
  have hnodes : ∀ j, Function.update (m.movedBelow f i).nodes i
      (((m.movedBelow f i).nodes i).move f) j = (m.movedBelow f (i + 1)).nodes j := by
    intro j
    by_cases hj : j = i
    · subst hj
      simp [HashMap.movedBelow]
    · have hlt : j < i + 1 ↔ j < i := by omega
      rw [Function.update_of_ne hj]
      simp only [HashMap.movedBelow, hlt]
  rw [HashMap.moveOut, funext hnodes]
  rfl

theorem movedBelow_succ (f : V → V) {i : ℕ} (h : (m.nodes i).isFilled = false) :
    m.movedBelow f (i + 1) = m.movedBelow f i := by
  rw [← moveOut_movedBelow, HashMap.moveOut, movedBelow_nodes_self, Slot.move_of_not_filled h]
  conv_lhs => rw [← movedBelow_nodes_self f i, Function.update_eq_self]

/-- A growth moves all pairs to their new places, or it ends at the pair whose construction is
the first that throws. -/
theorem rehashThrowing_spec {n i made : ℕ} {t t' : ℕ → Slot K V} (hn : i + n = m.capacity)
    (hmade : made = (filledSlots m.nodes i).card) (hnone : ∀ j < made, c.throws j = false)
    (hrun : m.rehashFrom newCap n i t = some t') :
    (∀ j < (filledSlots m.nodes m.capacity).card, c.throws j = false) ∧
        HashMap.rehashThrowing c newCap n i made (m.movedBelow c.moved i) t =
          some (.ok (m.movedBelow c.moved m.capacity, t', (filledSlots m.nodes m.capacity).card)) ∨
      ∃ l < m.capacity, (m.nodes l).isFilled = true ∧
        FirstThrow c (filledSlots m.nodes l).card ∧
        HashMap.rehashThrowing c newCap n i made (m.movedBelow c.moved i) t =
          some (.error (m.movedBelow c.moved l)) := by
  induction n generalizing i made t with
  | zero =>
    obtain rfl : i = m.capacity := by omega
    obtain rfl := Option.some.inj hrun
    subst hmade
    exact .inl ⟨hnone, rfl⟩
  | succ n ih =>
    have hcard := card_filledSlots_succ m.nodes i
    cases hslot : m.nodes i with
    | filled k v =>
      rw [hslot, Slot.isFilled_filled, if_pos rfl, ← hmade] at hcard
      simp only [HashMap.rehashFrom, hslot] at hrun
      simp only [HashMap.rehashThrowing, movedBelow_nodes_self, hslot]
      cases hidx : emptySlotFrom t newCap newCap (m.hash k &&& (newCap - 1)) with
      | none =>
        rw [hidx] at hrun
        cases hrun
      | some idx =>
        rw [hidx] at hrun
        have hhash : (m.movedBelow c.moved i).hash = m.hash := rfl
        simp only [hhash, hidx]
        cases hthrow : c.throws made with
        | true =>
          refine .inr ⟨i, by omega, by rw [hslot]; rfl, ?_, rfl⟩
          rw [← hmade]
          exact ⟨hthrow, hnone⟩
        | false =>
          have hnone' : ∀ j < made + 1, c.throws j = false := by
            intro j hj
            rcases Nat.lt_succ_iff_lt_or_eq.mp hj with hlt | rfl
            · exact hnone j hlt
            · exact hthrow
          rw [moveOut_movedBelow]
          exact ih (by omega) hcard.symm hnone' hrun
    | empty | tombstone =>
      have hnot : (m.nodes i).isFilled = false := by rw [hslot]; rfl
      rw [hnot, if_neg Bool.false_ne_true, Nat.add_zero, ← hmade] at hcard
      simp only [HashMap.rehashFrom, hslot] at hrun
      simp only [HashMap.rehashThrowing, movedBelow_nodes_self, hslot]
      rw [← movedBelow_succ c.moved hnot]
      exact ih (by omega) hcard.symm hnone hrun

theorem growThrowing_spec (hm : m.Valid) (hrun : m.grow newCap = some m') :
    (∀ j < m.size, c.throws j = false) ∧
        HashMap.growThrowing c 0 m newCap = some (.ok (m', m.size)) ∨
      ∃ l < m.capacity, (m.nodes l).isFilled = true ∧
        FirstThrow c (filledSlots m.nodes l).card ∧
        HashMap.growThrowing c 0 m newCap = some (.error (m.movedBelow c.moved l)) := by
  simp only [HashMap.grow, Option.map_eq_some_iff] at hrun
  obtain ⟨t', hrun, rfl⟩ := hrun
  have hstart : (0 : ℕ) = (filledSlots m.nodes 0).card := by simp [filledSlots]
  have hspec := rehashThrowing_spec (c := c) (Nat.zero_add _) hstart (by simp) hrun
  rw [movedBelow_zero, ← hm.size] at hspec
  rcases hspec with ⟨hnone, hok⟩ | ⟨l, hl, hfilled, hthrow, herror⟩
  · refine .inl ⟨hnone, ?_⟩
    simp only [HashMap.growThrowing, hok]
    rfl
  · refine .inr ⟨l, hl, hfilled, hthrow, ?_⟩
    simp only [HashMap.growThrowing, herror]
    rfl

end Growth

section Insertion
variable [DecidableEq K] {m : HashMap K V} {c : Copying V} {kv : K × V}

/-- The insertion makes one construction, when the key is new. -/
theorem insertFromThrowing_eq (made n idx : ℕ) (tomb : Option ℕ) :
    HashMap.insertFromThrowing c made m kv n idx tomb =
      (m.insertFrom kv n idx tomb).map fun r =>
        if r.2.2 ∧ c.throws made then .error (m.announce r.2.1) else .ok r := by
  induction n generalizing idx tomb with
  | zero => rfl
  | succ n ih =>
    cases hslot : m.nodes idx with
    | filled k v =>
      simp only [HashMap.insertFromThrowing, HashMap.insertFrom, hslot]
      by_cases hk : k = kv.1
      · simp [hk]
      · simp only [if_neg hk]
        exact ih _ _
    | tombstone =>
      simp only [HashMap.insertFromThrowing, HashMap.insertFrom, hslot]
      exact ih _ _
    | empty =>
      simp only [HashMap.insertFromThrowing, HashMap.insertFrom, hslot, Option.map_some, true_and]
      split_ifs
      · rfl
      · rfl

/-- The call makes a new table: there is none, or it would be too full, or it has neither the
key nor an empty slot. -/
def HashMap.rebuilds (m : HashMap K V) (key : K) : Prop :=
  m.capacity = 0 ∨ 10 * (m.size + 1) > 7 * m.capacity ∨
    ∀ i < m.capacity, stops m key i = false

instance (key : K) : Decidable (m.rebuilds key) :=
  inferInstanceAs (Decidable (_ ∨ _ ∨ _))

/-- The constructions that the growth of the call makes. -/
def HashMap.copies (m : HashMap K V) (key : K) : ℕ := if m.rebuilds key then m.size else 0

theorem insertFrom_eq_none_iff (hm : m.Valid) (hcap : m.capacity ≠ 0) (kv : K × V) :
    m.insertFrom kv m.capacity (m.home kv.1) none = none ↔
      ∀ i < m.capacity, stops m kv.1 i = false := by
  have hpow := hm.pow hcap
  have hhome := home_lt hpow kv.1
  have hlt := ringPos_lt (Nat.pos_of_ne_zero hcap) (m.home kv.1)
  have hends := insertFrom_ends hpow kv m.capacity hhome none
  generalize m.insertFrom kv m.capacity (m.home kv.1) none = r at hends
  cases hends with
  | saturated hall =>
    refine ⟨fun _ i hi => ?_, fun _ => rfl⟩
    obtain ⟨d, hd, rfl⟩ := exists_ringPos hhome hi
    exact hall d hd
  | present hd hslot =>
    refine ⟨fun h => (by cases h), fun h => ?_⟩
    exact absurd hslot (nodes_ne_filled_of_stops (h _ (hlt _)) _)
  | vacant hd hslot hbefore hins =>
    refine ⟨fun h => (by cases h), fun h => ?_⟩
    exact absurd hslot (nodes_ne_empty_of_stops (h _ (hlt _)))

/-- An insertion ends at a pair that the growth cannot construct. Otherwise it is the insertion
that does not throw, unless the copy of the pair itself throws. -/
theorem insertThrowing_cases (hm : m.Valid) (c : Copying V) (kv : K × V) :
    (∃ l < m.capacity, m.rebuilds kv.1 ∧ (m.nodes l).isFilled = true ∧
        FirstThrow c (filledSlots m.nodes l).card ∧
        m.insertThrowing c kv = some (.error (m.movedBelow c.moved l))) ∨
      ∃ m₁ m' idx isNew, (∀ j < m.copies kv.1, c.throws j = false) ∧ m₁.Valid ∧
        SameContent m m₁ ∧ Inserted m₁ kv m' idx isNew ∧ m.insert kv = some (m', idx, isNew) ∧
        m.insertThrowing c kv =
          some (if isNew = true ∧ c.throws (m.copies kv.1) = true then .error (m₁.announce idx)
            else .ok (m', idx, isNew)) := by
  by_cases hgrow : m.capacity = 0 ∨ 10 * (m.size + 1) > 7 * m.capacity
  · have hrebuilds : m.rebuilds kv.1 := hgrow.imp_right .inl
    have hcopies : m.copies kv.1 = m.size := if_pos hrebuilds
    obtain ⟨hpow, hroom, -⟩ := grow_target hm rfl
    obtain ⟨m₁, hrun, hm₁, hcap₁, hsame, hclean⟩ := grow_spec hm hpow hroom
    have hroom₁ : m₁.size < m₁.capacity := by rw [hsame.size, hcap₁]; exact hroom
    obtain ⟨m', idx, isNew, hres, hins⟩ := insertFrom_of_clean hm₁ hclean hroom₁ kv
    have hinsert : m.insert kv = some (m', idx, isNew) := by
      simp only [HashMap.insert, HashMap.insertWithin, HashMap.growForInsert, if_pos hgrow, hrun,
        hres]
    simp only [HashMap.insertThrowing, HashMap.insertWithinThrowing,
      HashMap.growForInsertThrowing, if_pos hgrow, hcopies]
    rcases growThrowing_spec (c := c) hm hrun with ⟨hnone, hok⟩ | ⟨l, hl, hfilled, hthrow, herror⟩
    · refine .inr ⟨m₁, m', idx, isNew, hnone, hm₁, hsame, hins, hinsert, ?_⟩
      simp only [hok, insertFromThrowing_eq, hres, Option.map_some]
    · refine .inl ⟨l, hl, hrebuilds, hfilled, hthrow, ?_⟩
      simp only [herror]
  · have hcap : m.capacity ≠ 0 := fun h => hgrow (.inl h)
    simp only [HashMap.insertThrowing, HashMap.insertWithinThrowing,
      HashMap.growForInsertThrowing, if_neg hgrow, insertFromThrowing_eq]
    rcases insertFrom_spec hm hcap kv with ⟨m', idx, isNew, hres, hins⟩ | ⟨hres, -⟩
    · have hrebuilds : ¬m.rebuilds kv.1 := by
        rintro (h | h | h)
        · exact hcap h
        · exact hgrow (.inr h)
        · rw [(insertFrom_eq_none_iff hm hcap kv).mpr h] at hres
          cases hres
      have hcopies : m.copies kv.1 = 0 := if_neg hrebuilds
      refine .inr ⟨m, m', idx, isNew, ?_, hm, SameContent.refl m, hins, ?_, ?_⟩
      · simp [hcopies]
      · simp only [HashMap.insert, HashMap.insertWithin, HashMap.growForInsert, if_neg hgrow, hres]
      · simp only [hres, hcopies, Option.map_some]
    · have hrebuilds : m.rebuilds kv.1 := .inr (.inr ((insertFrom_eq_none_iff hm hcap kv).mp hres))
      have hcopies : m.copies kv.1 = m.size := if_pos hrebuilds
      obtain ⟨hpow, hroom, hload⟩ := grow_target hm (if_neg hcap).symm
      obtain ⟨m₁, hrun, hm₁, hcap₁, hsame, hclean⟩ := grow_spec hm hpow hroom
      have hroom₁ : m₁.size < m₁.capacity := by rw [hsame.size, hcap₁]; exact hroom
      have hstay : ¬(m₁.capacity = 0 ∨ 10 * (m₁.size + 1) > 7 * m₁.capacity) := by
        have hsize := hsame.size
        omega
      obtain ⟨m', idx, isNew, hres₁, hins⟩ := insertFrom_of_clean hm₁ hclean hroom₁ kv
      have hinsert : m.insert kv = some (m', idx, isNew) := by
        simp only [HashMap.insert, HashMap.insertWithin, HashMap.growForInsert, if_neg hgrow, hres,
          hrun, if_neg hstay, hres₁]
      simp only [hres, Option.map_none, hcopies]
      rcases growThrowing_spec (c := c) hm hrun with
        ⟨hnone, hok⟩ | ⟨l, hl, hfilled, hthrow, herror⟩
      · refine .inr ⟨m₁, m', idx, isNew, hnone, hm₁, hsame, hins, hinsert, ?_⟩
        simp only [hok, if_neg hstay, hres₁, Option.map_some]
      · refine .inl ⟨l, hl, hrebuilds, hfilled, hthrow, ?_⟩
        simp only [herror]

/-- Where no construction throws the insertion is the one that cannot throw. -/
theorem insertThrowing_of_never (hm : m.Valid) (hnever : ∀ j, c.throws j = false) (kv : K × V) :
    m.insertThrowing c kv = (m.insert kv).map .ok := by
  rcases insertThrowing_cases hm c kv with
    ⟨l, -, -, -, hthrow, -⟩ | ⟨m₁, m', idx, isNew, -, -, -, -, hinsert, hres⟩
  · exact absurd hthrow.1 (by rw [hnever]; decide)
  · rw [hres, hinsert, hnever]
    simp

omit [DecidableEq K] in
/-- The pairs that are constructed before the one in slot `l`. -/
theorem mem_take_visited {l : ℕ} (hl : l < m.capacity) {kv : K × V} :
    kv ∈ m.visited.take (filledSlots m.nodes l).card ↔
      ∃ i < l, m.nodes i = .filled kv.1 kv.2 := by
  have hsplit : List.range m.capacity = List.range l ++ List.range' l (m.capacity - l) := by
    have happend := @List.range'_append_1 0 l (m.capacity - l)
    rw [Nat.zero_add, Nat.add_sub_cancel' hl.le] at happend
    rw [List.range_eq_range', List.range_eq_range', happend]
  rw [visited_eq, hsplit, List.filterMap_append, List.take_left' (length_entries m.nodes l)]
  simp only [List.mem_filterMap, List.mem_range, Slot.entry_eq_some_iff]

/-- The map that an exception leaves is the one before the call, as a finite map and in its
counters. -/
structure Survives (m m' : HashMap K V) (f : FiniteMap K V) : Prop where
  represents : Represents m' f
  size : m'.size = (filledSlots m'.nodes m'.capacity).card
  tombstones : m'.capacity = m.capacity →
    (∀ i < m.capacity, m'.nodes i = .tombstone ↔ m.nodes i = .tombstone) →
    m'.tombstones = m.tombstones

theorem Survives.refl {f : FiniteMap K V} (hr : Represents m f) : Survives m m f :=
  ⟨hr, hr.valid.size, fun _ _ => rfl⟩

/-- A growth that ends early leaves the finite map when the moves before left their values. -/
theorem represents_movedBelow_iff {f : FiniteMap K V} (hr : Represents m f) {l : ℕ}
    (hl : l < m.capacity) (g : V → V) :
    Represents (m.movedBelow g l) f ↔
      ∀ p ∈ m.visited.take (filledSlots m.nodes l).card, g p.2 = p.2 := by
  simp only [mem_take_visited hl]
  constructor
  · rintro hr' p ⟨i, hi, hslot⟩
    have hmoved : (m.movedBelow g l).nodes i = .filled p.1 (g p.2) := by
      simp [HashMap.movedBelow, hi, hslot, Slot.move]
    have hold := (hr.stores p.1 p.2).mp ⟨i, hi.trans hl, hslot⟩
    have hnew := (hr'.stores p.1 (g p.2)).mp ⟨i, hi.trans hl, hmoved⟩
    exact Option.some.inj (hnew.symm.trans hold)
  · intro hkept
    have hnodes : ∀ i, (m.movedBelow g l).nodes i = m.nodes i := by
      intro i
      simp only [HashMap.movedBelow]
      split_ifs with hi
      · cases hslot : m.nodes i with
        | filled k v => rw [Slot.move, hkept (k, v) ⟨i, hi, hslot⟩]
        | empty => rfl
        | tombstone => rfl
      · rfl
    have hsame : m.movedBelow g l = m := by
      have hfun : (m.movedBelow g l).nodes = m.nodes := funext hnodes
      cases m
      simp only [HashMap.movedBelow, HashMap.mk.injEq, true_and, and_true] at hfun ⊢
      exact hfun
    rwa [hsame]

/-- An insertion that throws leaves the finite map and the counters if and only if the first
construction that throws is not the copy of a new pair, and no value changed that was moved
before it. -/
theorem insertThrowing_survives_iff {f : FiniteMap K V} (hr : Represents m f) (c : Copying V)
    (kv : K × V) :
    (∀ m', m.insertThrowing c kv = some (.error m') → Survives m m' f) ↔
      ∀ j, FirstThrow c j →
        (j < m.copies kv.1 → ∀ p ∈ m.visited.take j, c.moved p.2 = p.2) ∧
        (j = m.copies kv.1 → ∃ v, f.lookup kv.1 = some v) := by
  have hm := hr.valid
  rcases insertThrowing_cases hm c kv with
    ⟨l, hl, hrebuilds, hfilled, hthrow, hres⟩ |
      ⟨m₁, m', idx, isNew, hnone, hm₁, hsame, hins, -, hres⟩
  · have hbefore : (filledSlots m.nodes l).card < m.copies kv.1 := by
      have hsucc := card_filledSlots_succ m.nodes l
      have hle := Finset.card_le_card (filledSlots_mono m.nodes (show l + 1 ≤ m.capacity by omega))
      rw [HashMap.copies, if_pos hrebuilds, hm.size]
      rw [if_pos hfilled] at hsucc
      omega
    constructor
    · intro hall j hj
      obtain rfl := hj.unique hthrow
      refine ⟨fun _ => (represents_movedBelow_iff hr hl c.moved).mp ?_, fun h => by omega⟩
      exact (hall _ hres).represents
    · rintro hcond m' hm'
      obtain rfl := Except.error.inj (Option.some.inj (hres.symm.trans hm'))
      have hrep := (represents_movedBelow_iff hr hl c.moved).mpr ((hcond _ hthrow).1 hbefore)
      exact ⟨hrep, hrep.valid.size, fun _ _ => rfl⟩
  · have hfirst : c.throws (m.copies kv.1) = true ↔ FirstThrow c (m.copies kv.1) :=
      ⟨fun h => ⟨h, hnone⟩, fun h => h.1⟩
    constructor
    · intro hall j hj
      refine ⟨fun hlt => ?_, ?_⟩
      · exact absurd hj.1 (by rw [hnone j hlt]; decide)
      · rintro rfl
        rcases hins.outcome with ⟨-, ⟨v, hv, -⟩, -⟩ | ⟨hnew, -⟩
        · exact ⟨v, (hr.stores kv.1 v).mp ((hsame.stores kv.1 v).mp hv)⟩
        · -- the size counts a pair that is in no slot
          rw [hnew, hj.1, if_pos ⟨rfl, rfl⟩] at hres
          have hsize : m₁.size + 1 = m₁.size := (hall _ hres).size.trans hm₁.size.symm
          omega
    · rintro hcond m₂ hm₂
      rw [hm₂] at hres
      split_ifs at hres with hthrow
      · obtain ⟨v, hv⟩ := (hcond _ (hfirst.mp hthrow.2)).2 rfl
        rcases hins.outcome with ⟨hold, -⟩ | ⟨-, hnone', -⟩
        · rw [hthrow.1] at hold
          cases hold
        · exact absurd ((hsame.stores kv.1 v).mpr ((hr.stores kv.1 v).mpr hv)) (hnone' v)
      · cases hres

end Insertion

/-- A growth that ends at the third of five pairs, which were moved without a change. -/
theorem insertThrowing_survives_iff_growth :
    ∃ es maps m' f, exec step (start fun _ : Bool => (fun k : ℕ => k, 0))
        ((List.range 5).map fun k => .call false (.insert (k, 10 * k))) = some (es, maps) ∧
      (maps false).insertThrowing ⟨fun j => j == 2, id⟩ (5, 50) = some (.error m') ∧
      Survives (maps false) m' f := by
  have hrun : exec step (start fun _ : Bool => (fun k : ℕ => k, 0))
      ((List.range 5).map fun k => .call false (.insert (k, 10 * k))) = some (_, _) := rfl
  obtain ⟨es', maps', gs, fs, hrun', -, -, hrep⟩ :=
    run_eq (represents_start fun _ : Bool => (fun k : ℕ => k, 0))
      ((List.range 5).map fun k => .call false (.insert (k, 10 * k)))
  rw [hrun] at hrun'
  cases hrun'
  refine ⟨_, _, _, fs false, hrun, rfl, ?_⟩
  refine (insertThrowing_survives_iff (hrep false) ⟨fun j => j == 2, id⟩ (5, 50)).mpr ?_ _ rfl
  intro j hj
  obtain rfl : j = 2 := by simpa using hj.1
  exact ⟨fun _ _ _ => rfl, fun h => absurd h (by decide)⟩

/-- The copy of a pair for a reused tombstone throws: the size counts one pair too many and the
tombstone is no longer counted. -/
theorem insertThrowing_miscounts :
    ∃ es maps m', exec step (start fun _ : Bool => (fun _ : ℕ => 0, 0))
        [.call false (.insert (1, 10)), .call false (.insert (2, 20)), .call false (.erase 1)] =
          some (es, maps) ∧
      (maps false).insertThrowing ⟨fun _ => true, id⟩ (3, 30) = some (.error m') ∧
      m'.size = 2 ∧ (filledSlots m'.nodes m'.capacity).card = 1 ∧
      m'.nodes 0 = .tombstone ∧ (maps false).tombstones = 1 ∧ m'.tombstones = 0 ∧
      ∀ f, ¬Survives (maps false) m' f := by
  have hrun : exec step (start fun _ : Bool => (fun _ : ℕ => 0, 0))
      [.call false (.insert (1, 10)), .call false (.insert (2, 20)), .call false (.erase 1)] =
        some (_, _) := rfl
  refine ⟨_, _, _, hrun, rfl, by decide, by decide, by decide, by decide, by decide, ?_⟩
  exact fun f hf => absurd hf.size (by decide)

end HftExercises.Hashing
