import HftExercises.Containers.HashMapTable

/-! # What each operation of the hash map does

A map is valid when its table is in order, its capacity is zero or a power of two
from eight on, and its size counts the filled slots. Every operation keeps a map
valid and changes what it stores as the operation on a finite map would; growing
and inserting end.
-/
namespace HftExercises.Hashing
variable {K V : Type*}

namespace HashMap

structure Valid (m : HashMap K V) : Prop where
  capacity : m.capacity = 0 ∨ ∃ k, 3 ≤ k ∧ m.capacity = 2 ^ k
  table : TableOk m.hash m.nodes m.capacity
  size : m.size = (filledSlots m.nodes m.capacity).card

theorem Valid.pow {m : HashMap K V} (h : m.Valid) (hcap : m.capacity ≠ 0) :
    ∃ k, m.capacity = 2 ^ k := by
  obtain h0 | ⟨k, -, hk⟩ := h.capacity
  · exact absurd h0 hcap
  · exact ⟨k, hk⟩

end HashMap

section Doubling

theorem doubleWhileBelow_pow {n cap : ℕ} (hcap : ∃ k, 3 ≤ k ∧ cap = 2 ^ k) (fuel : ℕ) :
    ∃ k, 3 ≤ k ∧ doubleWhileBelow n fuel cap = 2 ^ k := by
  induction fuel generalizing cap with
  | zero => exact hcap
  | succ fuel ih =>
    rw [doubleWhileBelow]
    split_ifs with h
    · obtain ⟨k, hk, rfl⟩ := hcap
      exact ih ⟨k + 1, by omega, (pow_succ 2 k).symm⟩
    · exact hcap

/-- As many rounds as the bound are enough. -/
theorem le_doubleWhileBelow {n cap fuel : ℕ} (hcap : 0 < cap) (hfuel : n ≤ cap + fuel) :
    n ≤ doubleWhileBelow n fuel cap := by
  induction fuel generalizing cap with
  | zero => exact hfuel
  | succ fuel ih =>
    rw [doubleWhileBelow]
    split_ifs with h
    · exact ih (by omega) (by omega)
    · omega

end Doubling

/-- The two maps hash alike and store the same pairs. -/
structure SameContent (m m' : HashMap K V) : Prop where
  hash : m'.hash = m.hash
  size : m'.size = m.size
  stores : ∀ k v, Stores m'.nodes m'.capacity k v ↔ Stores m.nodes m.capacity k v

theorem SameContent.refl (m : HashMap K V) : SameContent m m := ⟨rfl, rfl, fun _ _ => Iff.rfl⟩

theorem SameContent.trans {m m' m'' : HashMap K V} (h : SameContent m m')
    (h' : SameContent m' m'') : SameContent m m'' :=
  ⟨h'.hash.trans h.hash, h'.size.trans h.size, fun k v => (h'.stores k v).trans (h.stores k v)⟩

section Growth
variable {m : HashMap K V}

/-- The new table after the first `i` slots of the old one. -/
structure Rehashed (m : HashMap K V) (newCap i : ℕ) (t : ℕ → Slot K V) : Prop where
  table : TableOk m.hash t newCap
  clean : ∀ j, t j ≠ .tombstone
  stores : ∀ k v, Stores t newCap k v ↔ Stores m.nodes i k v
  card : (filledSlots t newCap).card = (filledSlots m.nodes i).card

theorem stores_succ {nodes : ℕ → Slot K V} {i : ℕ} {k : K} {v : V} :
    Stores nodes (i + 1) k v ↔ Stores nodes i k v ∨ nodes i = .filled k v := by
  constructor
  · rintro ⟨j, hj, hjv⟩
    rcases Nat.lt_succ_iff_lt_or_eq.mp hj with hlt | rfl
    · exact Or.inl ⟨j, hlt, hjv⟩
    · exact Or.inr hjv
  · rintro (⟨j, hj, hjv⟩ | hiv)
    · exact ⟨j, by omega, hjv⟩
    · exact ⟨i, by omega, hiv⟩

theorem card_filledSlots_succ (nodes : ℕ → Slot K V) (i : ℕ) :
    (filledSlots nodes (i + 1)).card =
      (filledSlots nodes i).card + if (nodes i).isFilled then 1 else 0 := by
  rw [filledSlots, Finset.range_add_one, Finset.filter_insert]
  split_ifs with h
  · rw [Finset.card_insert_of_notMem (by simp)]
    rfl
  · rfl

theorem filledSlots_mono (nodes : ℕ → Slot K V) {i j : ℕ} (h : i ≤ j) :
    filledSlots nodes i ⊆ filledSlots nodes j := by
  intro l hl
  rw [mem_filledSlots] at hl ⊢
  exact ⟨by omega, hl.2⟩

/-- A table without tombstones that is not full has an empty slot on every probe. -/
theorem exists_emptySlot {t : ℕ → Slot K V} {cap idx : ℕ} (hcap : ∃ k, cap = 2 ^ k)
    (hidx : idx < cap) (hclean : ∀ j, t j ≠ .tombstone)
    (hcard : (filledSlots t cap).card < cap) :
    ∃ i, emptySlotFrom t cap cap idx = some i ∧ i < cap ∧ t i = .empty ∧ Reaches t cap idx i := by
  rw [emptySlotFrom_eq t hcap]
  rcases firstHit_cases (fun i => (t i).isEmpty) cap hidx with ⟨d, hd, hhit, hempty, hbefore⟩ | ⟨-, hall⟩
  · refine ⟨_, hhit, ringPos_lt (by omega) _ _, Slot.isEmpty_iff.mp hempty, d, hd, rfl, ?_⟩
    intro e he hem
    have := hbefore e he
    rw [hem] at this
    cases this
  · obtain ⟨i, hi, hfilled⟩ := exists_not_filled hcard
    obtain ⟨d, hd, rfl⟩ := exists_ringPos hidx hi
    have hnot := hall d hd
    cases hslot : t (ringPos cap idx d) with
    | empty => simp [hslot, Slot.isEmpty] at hnot
    | filled k v => simp [hslot] at hfilled
    | tombstone => exact absurd hslot (hclean _)

theorem rehashFrom_spec {newCap : ℕ} (hpow : ∃ k, newCap = 2 ^ k)
    (htable : TableOk m.hash m.nodes m.capacity)
    (hroom : (filledSlots m.nodes m.capacity).card < newCap) {n i : ℕ} {t : ℕ → Slot K V}
    (hn : i + n = m.capacity) (ht : Rehashed m newCap i t) :
    ∃ t', m.rehashFrom newCap n i t = some t' ∧ Rehashed m newCap m.capacity t' := by
  induction n generalizing i t with
  | zero =>
    obtain rfl : i = m.capacity := by omega
    exact ⟨t, rfl, ht⟩
  | succ n ih =>
    rw [HashMap.rehashFrom]
    have hcardle := Finset.card_le_card (filledSlots_mono m.nodes (show i ≤ m.capacity by omega))
    cases hslot : m.nodes i with
    | filled k v =>
      have hhome : m.hash k &&& (newCap - 1) < newCap := by
        rw [and_pred_eq_mod hpow]
        exact Nat.mod_lt _ (by omega)
      obtain ⟨idx, hfind, hlt, hempty, hreach⟩ :=
        exists_emptySlot hpow hhome ht.clean (by rw [ht.card]; omega)
      have hnot : (t idx).isFilled = false := by rw [hempty]; rfl
      have hnew : ∀ w, ¬ Stores t newCap k w := by
        intro w hw
        obtain ⟨j, hj, hjw⟩ := (ht.stores k w).mp hw
        have := htable.nodup j (by omega) i (by omega) k w v hjw hslot
        omega
      have hnext : Rehashed m newCap (i + 1) (Function.update t idx (.filled k v)) := by
        refine ⟨ht.table.put hnot hreach hnew, fun j => ?_, fun k' w => ?_, ?_⟩
        · by_cases hj : j = idx
          · rw [hj, Function.update_self]
            exact nofun
          · rw [Function.update_of_ne hj]
            exact ht.clean j
        · rw [stores_put hlt hnot, stores_succ, ht.stores, hslot, Slot.filled.injEq]
          constructor
          · rintro (⟨rfl, rfl⟩ | hs)
            · exact Or.inr ⟨rfl, rfl⟩
            · exact Or.inl hs
          · rintro (hs | ⟨rfl, rfl⟩)
            · exact Or.inr hs
            · exact Or.inl ⟨rfl, rfl⟩
        · rw [card_filledSlots_put hlt hnot, card_filledSlots_succ, ht.card, hslot]
          rfl
      simp only [hfind]
      exact ih (by omega) hnext
    | empty | tombstone =>
      refine ih (by omega) ⟨ht.table, ht.clean, fun k v => ?_, ?_⟩
      · rw [stores_succ, ht.stores, hslot]
        simp
      · rw [card_filledSlots_succ, ht.card, hslot]
        rfl

/-- Growing ends in a valid map of the wanted capacity that stores the same pairs and has no
tombstones. -/
theorem grow_spec {newCap : ℕ} (hm : m.Valid) (hpow : ∃ k, 3 ≤ k ∧ newCap = 2 ^ k)
    (hroom : m.size < newCap) :
    ∃ m', m.grow newCap = some m' ∧ m'.Valid ∧ m'.capacity = newCap ∧ SameContent m m' ∧
      ∀ j, m'.nodes j ≠ .tombstone := by
  have hmin : ¬ newCap < kInitialCapacity := by
    obtain ⟨k, hk, rfl⟩ := hpow
    exact Nat.not_lt.mpr (Nat.pow_le_pow_right (show 0 < 2 by decide) hk)
  have hpow' : ∃ k, newCap = 2 ^ k := by
    obtain ⟨k, -, hk⟩ := hpow
    exact ⟨k, hk⟩
  have hstart : Rehashed m newCap 0 allocEmpty := by
    refine ⟨TableOk.empty, fun _ => nofun, fun k v => ?_, ?_⟩
    · constructor
      · rintro ⟨j, -, hj⟩
        cases hj
      · rintro ⟨j, hj, -⟩
        omega
    · simp [filledSlots, allocEmpty]
  obtain ⟨t, ht, hre⟩ := rehashFrom_spec hpow' hm.table (hm.size ▸ hroom) (Nat.zero_add _) hstart
  have hgrow : m.grow newCap = some { m with nodes := t, capacity := newCap, tombstones := 0 } := by
    simp only [HashMap.grow, if_neg hmin, ht, Option.map_some]
  exact ⟨_, hgrow, ⟨Or.inr hpow, hre.table, hm.size.trans hre.card.symm⟩, rfl,
    ⟨rfl, rfl, hre.stores⟩, hre.clean⟩

end Growth

section Insertion
variable [DecidableEq K] {m : HashMap K V} {kv : K × V}

/-- How `n` probes of an insertion from `idx` end: nowhere, at the key, or at an empty slot,
and then the pair goes to that slot or to the first tombstone. -/
inductive InsertEnds (m : HashMap K V) (kv : K × V) (n idx : ℕ) (tomb : Option ℕ) :
    Option (HashMap K V × ℕ × Bool) → Prop
  | saturated (hall : ∀ d < n, stops m kv.1 (ringPos m.capacity idx d) = false) :
    InsertEnds m kv n idx tomb none
  | present {d : ℕ} {v : V} (hd : d < n) (hslot : m.nodes (ringPos m.capacity idx d) = .filled kv.1 v) :
    InsertEnds m kv n idx tomb (some (m, ringPos m.capacity idx d, false))
  | vacant {d ins : ℕ} (hd : d < n) (hslot : m.nodes (ringPos m.capacity idx d) = .empty)
    (hbefore : ∀ e < d, stops m kv.1 (ringPos m.capacity idx e) = false)
    (hins : tomb = some ins ∨
      ∃ e ≤ d, ins = ringPos m.capacity idx e ∧ (m.nodes ins).isFilled = false) :
    InsertEnds m kv n idx tomb (some (m.put ins kv, ins, true))

/-- A slot that does not stop the probes hands over to the rest of the ring. -/
theorem InsertEnds.step {n idx : ℕ} {tomb tomb' : Option ℕ}
    {r : Option (HashMap K V × ℕ × Bool)} (hidx : idx < m.capacity)
    (hstop : stops m kv.1 idx = false)
    (htomb : ∀ ins, tomb' = some ins → tomb = some ins ∨ (ins = idx ∧ (m.nodes ins).isFilled = false))
    (h : InsertEnds m kv n ((idx + 1) % m.capacity) tomb' r) : InsertEnds m kv (n + 1) idx tomb r := by
  have hzero := ringPos_zero hidx
  have hpre : ∀ d,
      (∀ e < d, stops m kv.1 (ringPos m.capacity ((idx + 1) % m.capacity) e) = false) →
      ∀ e < d + 1, stops m kv.1 (ringPos m.capacity idx e) = false := by
    intro d hd e he
    cases e with
    | zero => rw [hzero, hstop]
    | succ e =>
      rw [← ringPos_next]
      exact hd e (by omega)
  cases h with
  | saturated hall => exact .saturated (hpre n hall)
  | present hd hslot =>
    rw [ringPos_next] at hslot ⊢
    exact .present (by omega) hslot
  | vacant hd hslot hbefore hins =>
    rw [ringPos_next] at hslot
    refine .vacant (by omega) hslot (hpre _ hbefore) ?_
    rcases hins with hins | ⟨e, he, rfl, hfilled⟩
    · rcases htomb _ hins with htomb | ⟨rfl, hfilled⟩
      · exact Or.inl htomb
      · exact Or.inr ⟨0, by omega, hzero.symm, hfilled⟩
    · rw [ringPos_next] at hfilled ⊢
      exact Or.inr ⟨e + 1, by omega, rfl, hfilled⟩

theorem insertFrom_ends (hcap : ∃ k, m.capacity = 2 ^ k) (kv : K × V) (n : ℕ) {idx : ℕ}
    (hidx : idx < m.capacity) (tomb : Option ℕ) :
    InsertEnds m kv n idx tomb (m.insertFrom kv n idx tomb) := by
  induction n generalizing idx tomb with
  | zero => exact .saturated nofun
  | succ n ih =>
    have hzero := ringPos_zero hidx
    have hlt : (idx + 1) % m.capacity < m.capacity := Nat.mod_lt _ (by omega)
    have hnext : m.next idx = (idx + 1) % m.capacity := and_pred_eq_mod hcap _
    cases hslot : m.nodes idx with
    | empty =>
      simp only [HashMap.insertFrom, hslot]
      refine .vacant (d := 0) (by omega) (by rw [hzero, hslot]) nofun ?_
      cases tomb with
      | none => exact Or.inr ⟨0, le_rfl, hzero.symm, by rw [Option.getD_none, hslot]; rfl⟩
      | some ins => exact Or.inl rfl
    | filled k v =>
      by_cases hk : k = kv.1
      · subst hk
        simp only [HashMap.insertFrom, hslot, if_true]
        have hpresent : InsertEnds m kv (n + 1) idx tomb (some (m, ringPos m.capacity idx 0, false)) :=
          .present (by omega) (by rw [hzero, hslot])
        rwa [hzero] at hpresent
      · simp only [HashMap.insertFrom, hslot, if_neg hk, hnext]
        exact (ih hlt tomb).step hidx (by simp [stops, hslot, hk]) fun ins h => Or.inl h
    | tombstone =>
      simp only [HashMap.insertFrom, hslot, hnext]
      refine (ih hlt _).step hidx (by simp [stops, hslot]) ?_
      rintro ins hins
      obtain rfl := Option.some.inj hins
      cases tomb with
      | none => exact Or.inr ⟨rfl, by rw [Option.getD_none, hslot]; rfl⟩
      | some ins => exact Or.inl rfl

/-- The outcome of an insertion: the pair that was there, or the new one. -/
structure Inserted (m : HashMap K V) (kv : K × V) (m' : HashMap K V) (idx : ℕ) (isNew : Bool) :
    Prop where
  valid : m'.Valid
  hash : m'.hash = m.hash
  slot : idx < m'.capacity
  outcome : (isNew = false ∧ (∃ v, Stores m.nodes m.capacity kv.1 v ∧
      m'.nodes idx = .filled kv.1 v) ∧
      ∀ k w, Stores m'.nodes m'.capacity k w ↔ Stores m.nodes m.capacity k w) ∨
    (isNew = true ∧ (∀ w, ¬ Stores m.nodes m.capacity kv.1 w) ∧
      m'.nodes idx = .filled kv.1 kv.2 ∧
      ∀ k w, Stores m'.nodes m'.capacity k w ↔
        (k = kv.1 ∧ w = kv.2) ∨ Stores m.nodes m.capacity k w)

omit [DecidableEq K] in
theorem Inserted.of_same {m m' m'' : HashMap K V} {idx : ℕ} {isNew : Bool} (hsame : SameContent m m')
    (h : Inserted m' kv m'' idx isNew) : Inserted m kv m'' idx isNew := by
  refine ⟨h.valid, h.hash.trans hsame.hash, h.slot, ?_⟩
  have houtcome := h.outcome
  simp only [hsame.stores] at houtcome
  exact houtcome

theorem nodes_ne_empty_of_stops {idx : ℕ} {key : K} (h : stops m key idx = false) :
    m.nodes idx ≠ .empty := by
  intro hem
  simp [stops, hem] at h

theorem nodes_ne_filled_of_stops {idx : ℕ} {key : K} (h : stops m key idx = false) (v : V) :
    m.nodes idx ≠ .filled key v := by
  intro hfilled
  simp [stops, hfilled] at h

/-- A probe that meets an empty slot before the key shows that the key is not stored. -/
theorem not_stores_of_vacant {d : ℕ} {key : K} (htable : TableOk m.hash m.nodes m.capacity)
    (hd : d < m.capacity) (hslot : m.nodes (ringPos m.capacity (m.home key) d) = .empty)
    (hbefore : ∀ e < d, stops m key (ringPos m.capacity (m.home key) e) = false) (w : V) :
    ¬ Stores m.nodes m.capacity key w := by
  rintro ⟨i, hi, hiw⟩
  obtain ⟨e, he, rfl, hpath⟩ := htable.reach i hi key w hiw
  rcases Nat.lt_trichotomy e d with hlt | rfl | hgt
  · exact nodes_ne_filled_of_stops (hbefore e hlt) w hiw
  · exact nomatch hslot.symm.trans hiw
  · exact hpath d hgt hslot

/-- The pair in the slot the insertion chose. -/
theorem put_inserted {ins d : ℕ} (hm : m.Valid) (hd : d < m.capacity)
    (hslot : m.nodes (ringPos m.capacity (m.home kv.1) d) = .empty)
    (hbefore : ∀ e < d, stops m kv.1 (ringPos m.capacity (m.home kv.1) e) = false)
    (hins : ∃ e ≤ d, ins = ringPos m.capacity (m.home kv.1) e ∧ (m.nodes ins).isFilled = false) :
    Inserted m kv (m.put ins kv) ins true := by
  obtain ⟨e, he, rfl, hfilled⟩ := hins
  have hlt : ringPos m.capacity (m.home kv.1) e < m.capacity := ringPos_lt (by omega) _ _
  have hnew := not_stores_of_vacant hm.table hd hslot hbefore
  have hreach : Reaches m.nodes m.capacity (m.home kv.1) (ringPos m.capacity (m.home kv.1) e) :=
    ⟨e, by omega, rfl, fun e' he' => nodes_ne_empty_of_stops (hbefore e' (by omega))⟩
  refine ⟨⟨hm.capacity, hm.table.put hfilled hreach hnew, ?_⟩, rfl, hlt,
    Or.inr ⟨rfl, hnew, Function.update_self .., fun k w => stores_put hlt hfilled⟩⟩
  exact (congrArg (· + 1) hm.size).trans (card_filledSlots_put hlt hfilled).symm

/-- The probes of an insertion into a valid map find the place of the pair, or the table has
neither the key nor an empty slot. -/
theorem insertFrom_spec (hm : m.Valid) (hcap : m.capacity ≠ 0) (kv : K × V) :
    (∃ m' idx isNew, m.insertFrom kv m.capacity (m.home kv.1) none = some (m', idx, isNew) ∧
      Inserted m kv m' idx isNew) ∨
    (m.insertFrom kv m.capacity (m.home kv.1) none = none ∧
      ∀ i < m.capacity, m.nodes i ≠ .empty) := by
  have hpow := hm.pow hcap
  have hhome := home_lt hpow kv.1
  have hends := insertFrom_ends hpow kv m.capacity hhome none
  generalize m.insertFrom kv m.capacity (m.home kv.1) none = r at hends
  cases hends with
  | saturated hall =>
    refine Or.inr ⟨rfl, fun i hi => ?_⟩
    obtain ⟨d, hd, rfl⟩ := exists_ringPos hhome hi
    exact nodes_ne_empty_of_stops (hall d hd)
  | present hd hslot =>
    have hlt := ringPos_lt (Nat.pos_of_ne_zero hcap) (m.home kv.1)
    exact Or.inl ⟨_, _, _, rfl, hm, rfl, hlt _,
      Or.inl ⟨rfl, ⟨_, ⟨_, hlt _, hslot⟩, hslot⟩, fun _ _ => Iff.rfl⟩⟩
  | vacant hd hslot hbefore hins =>
    refine Or.inl ⟨_, _, _, rfl, put_inserted hm hd hslot hbefore ?_⟩
    rcases hins with hins | hins
    · cases hins
    · exact hins

omit [DecidableEq K] in
/-- The table that a growth before the probes makes is large enough. -/
theorem grow_target (hm : m.Valid) {newCap : ℕ}
    (hcap : newCap = if m.capacity = 0 then kInitialCapacity else m.capacity * 2) :
    (∃ k, 3 ≤ k ∧ newCap = 2 ^ k) ∧ m.size < newCap ∧ 10 * (m.size + 1) ≤ 7 * newCap := by
  split_ifs at hcap with hzero
  · have hsize : m.size = 0 := by rw [hm.size, hzero]; rfl
    rw [hcap, hsize]
    exact ⟨⟨3, le_rfl, rfl⟩, by decide, by decide⟩
  · obtain ⟨k, hk, hpow⟩ := hm.capacity.resolve_left hzero
    have hle : m.size ≤ m.capacity := by
      rw [hm.size]
      exact (Finset.card_filter_le _ _).trans (Finset.card_range _).le
    have height : 2 ^ 3 ≤ m.capacity := hpow ▸ Nat.pow_le_pow_right (by decide) hk
    exact ⟨⟨k + 1, by omega, by rw [hcap, hpow, pow_succ]⟩, by omega, by omega⟩

omit [DecidableEq K] in
theorem growForInsert_spec (hm : m.Valid) :
    ∃ m', m.growForInsert = some m' ∧ m'.Valid ∧ m'.capacity ≠ 0 ∧
      10 * (m'.size + 1) ≤ 7 * m'.capacity ∧ SameContent m m' := by
  by_cases hgrow : m.capacity = 0 ∨ 10 * (m.size + 1) > 7 * m.capacity
  · rw [HashMap.growForInsert, if_pos hgrow]
    obtain ⟨hpow, hroom, hload⟩ := grow_target hm rfl
    obtain ⟨m', hm', hvalid, hcap, hsame, -⟩ := grow_spec hm hpow hroom
    have hsize' := hsame.size
    exact ⟨m', hm', hvalid, by omega, by omega, hsame⟩
  · rw [HashMap.growForInsert, if_neg hgrow]
    rw [not_or, not_lt] at hgrow
    exact ⟨m, rfl, hm, hgrow.1, hgrow.2, SameContent.refl m⟩

/-- A table without tombstones that is not full has a place for every pair. -/
theorem insertFrom_of_clean (hm : m.Valid) (hclean : ∀ j, m.nodes j ≠ .tombstone)
    (hroom : m.size < m.capacity) (kv : K × V) :
    ∃ m' idx isNew, m.insertFrom kv m.capacity (m.home kv.1) none = some (m', idx, isNew) ∧
      Inserted m kv m' idx isNew := by
  rcases insertFrom_spec hm (by omega) kv with hplace | ⟨-, hfull⟩
  · exact hplace
  · obtain ⟨i, hi, hfilled⟩ := exists_not_filled (hm.size ▸ hroom)
    cases hslot : m.nodes i with
    | empty => exact absurd hslot (hfull i hi)
    | filled k v => simp [hslot] at hfilled
    | tombstone => exact absurd hslot (hclean i)

/-- The retry meets a table without tombstones that is not full, so it ends. -/
theorem insert_spec (hm : m.Valid) (kv : K × V) :
    ∃ m' idx isNew, m.insert kv = some (m', idx, isNew) ∧ Inserted m kv m' idx isNew := by
  obtain ⟨m₁, hgrow₁, hm₁, hcap₁, hload₁, hsame₁⟩ := growForInsert_spec hm
  rw [HashMap.insert, HashMap.insertWithin]
  simp only [hgrow₁]
  rcases insertFrom_spec hm₁ hcap₁ kv with ⟨m', idx, isNew, hres, hins⟩ | ⟨hnone, -⟩
  · simp only [hres]
    exact ⟨m', idx, isNew, rfl, hins.of_same hsame₁⟩
  · obtain ⟨k, hk, hpow⟩ := hm₁.capacity.resolve_left hcap₁
    obtain ⟨m₂, hgrow₂, hm₂, hcap₂, hsame₂, hclean⟩ :=
      grow_spec hm₁ ⟨k + 1, by omega, by rw [hpow, pow_succ]⟩
        (show m₁.size < m₁.capacity * 2 by omega)
    have hsize₂ := hsame₂.size
    have hload₂ : ¬ (m₂.capacity = 0 ∨ 10 * (m₂.size + 1) > 7 * m₂.capacity) := by omega
    have hstay : m₂.growForInsert = some m₂ := by rw [HashMap.growForInsert, if_neg hload₂]
    obtain ⟨m', idx, isNew, hres, hins⟩ := insertFrom_of_clean hm₂ hclean (by omega) kv
    simp only [hnone, hgrow₂, HashMap.insertWithin, hstay, hres]
    exact ⟨m', idx, isNew, rfl, hins.of_same (hsame₁.trans hsame₂)⟩

end Insertion

section Operations
variable {m : HashMap K V}

theorem filledSlots_eq_empty {nodes : ℕ → Slot K V} {cap : ℕ}
    (h : ∀ i < cap, (nodes i).isFilled = false) : filledSlots nodes cap = ∅ := by
  refine Finset.filter_false_of_mem fun i hi => ?_
  rw [h i (Finset.mem_range.mp hi)]
  exact Bool.false_ne_true

theorem not_stores_of_not_filled {nodes : ℕ → Slot K V} {cap : ℕ}
    (h : ∀ i < cap, (nodes i).isFilled = false) (k : K) (v : V) : ¬ Stores nodes cap k v := by
  rintro ⟨i, hi, hiv⟩
  have := h i hi
  rw [hiv] at this
  cases this

/-- A table with nothing in it is in order, whatever its tombstones. -/
theorem valid_of_not_filled (hcap : m.capacity = 0 ∨ ∃ k, 3 ≤ k ∧ m.capacity = 2 ^ k)
    (hsize : m.size = 0) (h : ∀ i < m.capacity, (m.nodes i).isFilled = false) : m.Valid := by
  have hnone : ∀ i < m.capacity, ∀ k v, m.nodes i ≠ .filled k v := fun i hi k v hiv =>
    not_stores_of_not_filled h k v ⟨i, hi, hiv⟩
  refine ⟨hcap, ⟨fun i hi _ _ k v _ hiv => absurd hiv (hnone i hi k v),
    fun i hi k v hiv => absurd hiv (hnone i hi k v)⟩, ?_⟩
  rw [hsize, filledSlots_eq_empty h, Finset.card_empty]

theorem create_valid (hash : K → ℕ) (hint : ℕ) : (HashMap.create hash hint : HashMap K V).Valid := by
  rw [HashMap.create]
  split_ifs
  · exact valid_of_not_filled (Or.inr (doubleWhileBelow_pow ⟨3, le_rfl, rfl⟩ _)) rfl fun _ _ => rfl
  · exact valid_of_not_filled (Or.inl rfl) rfl fun _ _ => rfl

theorem not_stores_create (hash : K → ℕ) (hint : ℕ) (k : K) (v : V) :
    ¬ Stores (HashMap.create hash hint : HashMap K V).nodes
      (HashMap.create hash hint : HashMap K V).capacity k v := by
  refine not_stores_of_not_filled (fun i _ => ?_) k v
  rw [HashMap.create]
  split_ifs <;> rfl

theorem movedFrom_valid : m.movedFrom.Valid :=
  valid_of_not_filled (Or.inl rfl) rfl fun _ _ => rfl

theorem not_stores_movedFrom (k : K) (v : V) :
    ¬ Stores m.movedFrom.nodes m.movedFrom.capacity k v :=
  not_stores_of_not_filled (fun _ _ => rfl) k v

theorem clear_not_filled (i : ℕ) (hi : i < m.capacity) : (m.clear.nodes i).isFilled = false := by
  simp only [HashMap.clear]
  split_ifs with h
  · rfl
  · rw [not_and, Bool.not_eq_true] at h
    exact h hi

theorem clear_valid (hm : m.Valid) : m.clear.Valid :=
  valid_of_not_filled hm.capacity rfl fun i hi => clear_not_filled i hi

theorem not_stores_clear (k : K) (v : V) : ¬ Stores m.clear.nodes m.clear.capacity k v :=
  not_stores_of_not_filled (fun i hi => clear_not_filled i hi) k v

theorem reserve_spec (hm : m.Valid) (n : ℕ) :
    ∃ m', m.reserve n = some m' ∧ m'.Valid ∧ n ≤ m'.capacity ∧ SameContent m m' := by
  rw [HashMap.reserve]
  split_ifs with hle hzero
  · exact ⟨m, rfl, hm, hle, SameContent.refl m⟩
  · have hsize : m.size = 0 := by rw [hm.size, hzero]; rfl
    have hroom := le_doubleWhileBelow (show 0 < kInitialCapacity by decide)
      (show n ≤ kInitialCapacity + n by omega)
    have hlt : m.size < doubleWhileBelow n n kInitialCapacity := by omega
    have hpow : ∃ k, 3 ≤ k ∧ doubleWhileBelow n n kInitialCapacity = 2 ^ k :=
      doubleWhileBelow_pow ⟨3, le_rfl, rfl⟩ n
    obtain ⟨m', hm', hvalid, hcap, hsame, -⟩ := grow_spec hm hpow hlt
    exact ⟨m', hm', hvalid, by omega, hsame⟩
  · have hroom := le_doubleWhileBelow (Nat.pos_of_ne_zero hzero)
      (show n ≤ m.capacity + n by omega)
    have hsize : m.size ≤ m.capacity := by
      rw [hm.size]
      exact (Finset.card_filter_le _ _).trans (Finset.card_range _).le
    have hlt : m.size < doubleWhileBelow n n m.capacity := by omega
    obtain ⟨m', hm', hvalid, hcap, hsame, -⟩ :=
      grow_spec hm (doubleWhileBelow_pow (hm.capacity.resolve_left hzero) n) hlt
    exact ⟨m', hm', hvalid, by omega, hsame⟩

end Operations

section Keyed
variable [DecidableEq K] {m : HashMap K V} {key : K}

/-- The search gives the slot of the key. -/
theorem findNode_cases (hm : m.Valid) (key : K) :
    (∃ i v, m.findNode key = some i ∧ i < m.capacity ∧ m.nodes i = .filled key v) ∨
    (m.findNode key = none ∧ ∀ v, ¬ Stores m.nodes m.capacity key v) := by
  by_cases hcap : m.capacity = 0
  · refine Or.inr ⟨by rw [HashMap.findNode, if_pos hcap], ?_⟩
    rintro v ⟨i, hi, -⟩
    omega
  · cases hfind : m.findNode key with
    | some i =>
      obtain ⟨hi, v, hiv⟩ := filled_of_findNode (hm.pow hcap) hfind
      exact Or.inl ⟨i, v, rfl, hi, hiv⟩
    | none =>
      refine Or.inr ⟨rfl, ?_⟩
      rintro v ⟨i, hi, hiv⟩
      rw [findNode_of_filled (hm.pow hcap) hm.table hi hiv] at hfind
      cases hfind

omit [DecidableEq K] in
theorem bury_spec {i : ℕ} {v : V} (hm : m.Valid) (hi : i < m.capacity)
    (hiv : m.nodes i = .filled key v) :
    (m.bury i).Valid ∧ ∀ k w, Stores (m.bury i).nodes (m.bury i).capacity k w ↔
      k ≠ key ∧ Stores m.nodes m.capacity k w := by
  have hmem : i ∈ filledSlots m.nodes m.capacity := by simp [mem_filledSlots, hi, hiv]
  refine ⟨⟨hm.capacity, hm.table.replace hiv nofun nofun, ?_⟩, fun k w => ?_⟩
  · change m.size - 1 = (filledSlots (Function.update m.nodes i .tombstone) m.capacity).card
    rw [filledSlots_bury, Finset.card_erase_of_mem hmem, ← hm.size]
  · refine (stores_replace hm.table hi hiv).trans ?_
    simp

omit [DecidableEq K] in
/-- Assignment through a reference replaces the value of its key. -/
theorem assignAt_spec {i : ℕ} {v w : V} (hm : m.Valid) (hi : i < m.capacity)
    (hiv : m.nodes i = .filled key v) :
    (m.assignAt i w).Valid ∧ ∀ k u, Stores (m.assignAt i w).nodes (m.assignAt i w).capacity k u ↔
      (k = key ∧ u = w) ∨ (k ≠ key ∧ Stores m.nodes m.capacity k u) := by
  have hnodes : (m.assignAt i w).nodes = Function.update m.nodes i (.filled key w) := by
    simp only [HashMap.assignAt, hiv]
  refine ⟨⟨hm.capacity, ?_, ?_⟩, fun k u => ?_⟩
  · rw [hnodes]
    refine hm.table.replace hiv nofun fun k u h => ?_
    cases h
    rfl
  · rw [hnodes]
    refine hm.size.trans (congrArg Finset.card ?_)
    refine (filledSlots_put hi).symm ▸ (Finset.insert_eq_of_mem ?_).symm
    simp [mem_filledSlots, hi, hiv]
  · rw [hnodes]
    refine (stores_replace hm.table hi hiv).trans ?_
    rw [Slot.filled.injEq, eq_comm, eq_comm (a := w)]

end Keyed

section Iteration
variable {m : HashMap K V}

theorem Slot.entry_filled (k : K) (v : V) : (Slot.filled k v).entry = some (k, v) := rfl

theorem Slot.entry_eq_some_iff {s : Slot K V} {kv : K × V} :
    s.entry = some kv ↔ s = .filled kv.1 kv.2 := by
  cases s <;> simp [Slot.entry, Prod.ext_iff]

/-- From the first filled slot behind `i` on, the iterator visits the filled slots in order. -/
theorem visitFrom_eq {n i fuel : ℕ} (hn : i + n = m.capacity) (hfuel : n ≤ fuel) :
    m.visitFrom fuel (m.filledFrom n i) =
      (List.range' i n).filterMap fun j => (m.nodes j).entry := by
  induction n generalizing i fuel with
  | zero => cases fuel <;> rfl
  | succ n ih =>
    rw [HashMap.filledFrom, List.range'_succ, List.filterMap_cons]
    cases hslot : m.nodes i with
    | filled k v =>
      obtain ⟨fuel, rfl⟩ : ∃ f, fuel = f + 1 := ⟨fuel - 1, by omega⟩
      have hrest : m.increment i = m.filledFrom n (i + 1) := by
        rw [HashMap.increment]
        congr 1
        omega
      simp only [Slot.isFilled_filled, if_true, HashMap.visitFrom, hrest, hslot,
        Slot.entry_filled, Option.toList_some, List.singleton_append]
      rw [ih (by omega) (by omega)]
    | empty => exact ih (by omega) (by omega)
    | tombstone => exact ih (by omega) (by omega)

theorem visited_eq : m.visited = (List.range m.capacity).filterMap fun j => (m.nodes j).entry := by
  rw [HashMap.visited, HashMap.begin]
  split_ifs with hcap
  · rw [hcap]
    rfl
  · rw [visitFrom_eq (Nat.zero_add _) (by omega), List.range_eq_range']

theorem mem_visited_iff {kv : K × V} :
    kv ∈ m.visited ↔ Stores m.nodes m.capacity kv.1 kv.2 := by
  simp only [visited_eq, List.mem_filterMap, List.mem_range, Slot.entry_eq_some_iff, Stores]

/-- No key is visited twice. -/
theorem nodup_visited (hm : m.Valid) : (m.visited.map Prod.fst).Nodup := by
  rw [visited_eq, List.Nodup, List.pairwise_map, List.pairwise_filterMap]
  refine List.Pairwise.imp_of_mem ?_ (List.nodup_range (n := m.capacity))
  intro i j hi hj hij kv hkv kw hkw heq
  rw [Slot.entry_eq_some_iff] at hkv hkw
  rw [← heq] at hkw
  exact hij (hm.table.nodup i (List.mem_range.mp hi) j (List.mem_range.mp hj) kv.1 kv.2 kw.2 hkv hkw)

theorem length_entries (nodes : ℕ → Slot K V) (n : ℕ) :
    ((List.range n).filterMap fun j => (nodes j).entry).length = (filledSlots nodes n).card := by
  induction n with
  | zero => rfl
  | succ n ih =>
    rw [List.range_succ, List.filterMap_append, List.length_append, ih, card_filledSlots_succ]
    cases hslot : nodes n <;> simp [Slot.entry, hslot]

theorem length_visited (hm : m.Valid) : m.visited.length = m.size := by
  rw [hm.size, visited_eq, length_entries]

end Iteration

end HftExercises.Hashing
