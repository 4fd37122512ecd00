import Mathlib.Data.List.AList
import HftExercises.Core.Execution
import HftExercises.Containers.HashMapInvariant

/-! # Runs of hash maps

Several maps and any sequence of calls on them and of moves between them. A
finite map is an association list with distinct keys, used through its lookup.
Every call on a hash map answers as on the finite map it represents, so whole
runs do; a copy does so exactly when no stored key's probe crosses a tombstone.
-/
namespace HftExercises.Hashing

/-- A call on one map. -/
inductive Call (K V : Type*) where
  | insert (kv : K × V)
  | index (k : K)
  /-- `m[k] = v` -/
  | assign (k : K) (v : V)
  | at (k : K)
  | contains (k : K)
  | find (k : K)
  | erase (k : K)
  | clear
  | reserve (n : ℕ)
  | size
  | empty

/-- What a call returns; an iterator or a reference is read at once. -/
inductive Answer (K V : Type*) where
  | unit
  | bool (b : Bool)
  | count (n : ℕ)
  | value (v : Option V)
  | found (kv : Option (K × V))
  | inserted (kv : Option (K × V)) (isNew : Bool)
  | outOfRange (what : String)
  deriving DecidableEq

variable {K V ι : Type*} [DecidableEq K]

section Calls
variable [Inhabited V]

def HashMap.call (m : HashMap K V) : Call K V → Option (Answer K V × HashMap K V)
  | .insert kv => (m.insert kv).map fun r => (.inserted (r.1.nodes r.2.1).entry r.2.2, r.1)
  | .index k => (m.index k).map fun r => (.value (r.1.valueAt r.2), r.1)
  | .assign k v => (m.index k).map fun r => (.unit, r.1.assignAt r.2 v)
  | .at k => match m.at k with
    | .ok n => some (.value (m.valueAt n), m)
    | .error what => some (.outOfRange what, m)
  | .contains k => some (.bool (m.contains k), m)
  | .find k => some (.found ((m.find k).bind fun n => (m.nodes n).entry), m)
  | .erase k => some (.bool (m.erase k).1, (m.erase k).2)
  | .clear => some (.unit, m.clear)
  | .reserve n => (m.reserve n).map fun m => (.unit, m)
  | .size => some (.count m.size, m)
  | .empty => some (.bool (m.size == 0), m)

abbrev FiniteMap (K V : Type*) := AList fun _ : K => V

/-- The same call on a finite map. -/
def FiniteMap.call (f : FiniteMap K V) : Call K V → Answer K V × FiniteMap K V
  | .insert kv => match f.lookup kv.1 with
    | some v => (.inserted (some (kv.1, v)) false, f)
    | none => (.inserted (some kv) true, f.insert kv.1 kv.2)
  | .index k => match f.lookup k with
    | some v => (.value (some v), f)
    | none => (.value (some default), f.insert k default)
  | .assign k v => (.unit, f.insert k v)
  | .at k => match f.lookup k with
    | some v => (.value (some v), f)
    | none => (.outOfRange "HashMap::at", f)
  | .contains k => (.bool (f.lookup k).isSome, f)
  | .find k => (.found ((f.lookup k).map fun v => (k, v)), f)
  | .erase k => (.bool (f.lookup k).isSome, f.erase k)
  | .clear => (.unit, ∅)
  | .reserve _ => (.unit, f)
  | .size => (.count f.entries.length, f)
  | .empty => (.bool (f.entries.length == 0), f)

/-- A call on one of the maps, or a move between two of them. A map is constructed from
another one, and takes the place of the map of its name. -/
inductive Op (ι K V : Type*) where
  | call (i : ι) (c : Call K V)
  | moveConstruct (dst src : ι) (h : dst ≠ src)
  | moveAssign (dst src : ι)

variable [DecidableEq ι]

def step (maps : ι → HashMap K V) : Op ι K V → Option (Answer K V × (ι → HashMap K V))
  | .call i c => ((maps i).call c).map fun r => (r.1, Function.update maps i r.2)
  | .moveConstruct dst src _ =>
    let r := (maps src).moveConstruct
    some (.unit, Function.update (Function.update maps src r.2) dst r.1)
  | .moveAssign dst src =>
    if dst ≠ src then
      let r := (maps dst).moveAssign (maps src)
      some (.unit, Function.update (Function.update maps src r.2) dst r.1)
    else some (.unit, maps)

def specStep (fs : ι → FiniteMap K V) : Op ι K V → Option (Answer K V × (ι → FiniteMap K V))
  | .call i c => some (((fs i).call c).1, Function.update fs i ((fs i).call c).2)
  | .moveConstruct dst src _ =>
    some (.unit, Function.update (Function.update fs src ∅) dst (fs src))
  | .moveAssign dst src =>
    if dst ≠ src then some (.unit, Function.update (Function.update fs src ∅) dst (fs src))
    else some (.unit, fs)

end Calls

/-- The hash map is valid and stores what the finite map holds. -/
structure Represents (m : HashMap K V) (f : FiniteMap K V) : Prop where
  valid : m.Valid
  stores : ∀ k v, Stores m.nodes m.capacity k v ↔ f.lookup k = some v

section Refinement
variable {m m' : HashMap K V} {f : FiniteMap K V}

theorem Represents.of_same (h : Represents m f) (hvalid : m'.Valid) (hsame : SameContent m m') :
    Represents m' f :=
  ⟨hvalid, fun k v => (hsame.stores k v).trans (h.stores k v)⟩

theorem Represents.empty (hvalid : m.Valid) (h : ∀ k v, ¬ Stores m.nodes m.capacity k v) :
    Represents m ∅ := by
  refine ⟨hvalid, fun k v => ⟨fun hs => absurd hs (h k v), fun hs => ?_⟩⟩
  rw [AList.lookup_empty] at hs
  cases hs

theorem lookup_insert_iff {k k' : K} {v w : V} :
    (f.insert k v).lookup k' = some w ↔ (k' = k ∧ w = v) ∨ (k' ≠ k ∧ f.lookup k' = some w) := by
  by_cases hk : k' = k
  · subst hk
    rw [AList.lookup_insert]
    simp [eq_comm]
  · rw [AList.lookup_insert_ne hk]
    simp [hk]

theorem lookup_erase_iff {k k' : K} {w : V} :
    (f.erase k).lookup k' = some w ↔ k' ≠ k ∧ f.lookup k' = some w := by
  by_cases hk : k' = k
  · subst hk
    rw [AList.lookup_erase]
    simp
  · rw [AList.lookup_erase_ne hk]
    simp [hk]

/-- The search finds what the finite map holds. -/
theorem Represents.find_cases (h : Represents m f) (key : K) :
    (∃ i v, m.findNode key = some i ∧ i < m.capacity ∧ m.nodes i = .filled key v ∧
      f.lookup key = some v) ∨
    (m.findNode key = none ∧ f.lookup key = none) := by
  rcases findNode_cases h.valid key with ⟨i, v, hfind, hi, hiv⟩ | ⟨hnone, hnot⟩
  · exact Or.inl ⟨i, v, hfind, hi, hiv, (h.stores key v).mp ⟨i, hi, hiv⟩⟩
  · refine Or.inr ⟨hnone, ?_⟩
    cases hf : f.lookup key with
    | none => rfl
    | some v => exact absurd ((h.stores key v).mpr hf) (hnot v)

/-- What an insertion returns and leaves, on the finite map. -/
theorem Represents.insert_cases (h : Represents m f) (kv : K × V) :
    ∃ m' i b, m.insert kv = some (m', i, b) ∧ i < m'.capacity ∧
      ((∃ v, f.lookup kv.1 = some v ∧ b = false ∧ m'.nodes i = .filled kv.1 v ∧ Represents m' f) ∨
      (f.lookup kv.1 = none ∧ b = true ∧ m'.nodes i = .filled kv.1 kv.2 ∧
        Represents m' (f.insert kv.1 kv.2))) := by
  obtain ⟨m', i, b, hres, hins⟩ := insert_spec h.valid kv
  refine ⟨m', i, b, hres, hins.slot, ?_⟩
  rcases hins.outcome with ⟨hb, ⟨v, hv, hi⟩, hsame⟩ | ⟨hb, hnew, hi, hstores⟩
  · exact Or.inl ⟨v, (h.stores kv.1 v).mp hv, hb, hi, hins.valid,
      fun k w => (hsame k w).trans (h.stores k w)⟩
  · have hnone : f.lookup kv.1 = none := by
      cases hf : f.lookup kv.1 with
      | none => rfl
      | some v => exact absurd ((h.stores kv.1 v).mpr hf) (hnew v)
    refine Or.inr ⟨hnone, hb, hi, hins.valid, fun k w => ?_⟩
    rw [hstores, lookup_insert_iff, h.stores]
    constructor
    · rintro (hkw | hw)
      · exact Or.inl hkw
      · refine Or.inr ⟨?_, hw⟩
        rintro rfl
        rw [hnone] at hw
        cases hw
    · rintro (hkw | ⟨-, hw⟩)
      · exact Or.inl hkw
      · exact Or.inr hw

theorem Represents.size_eq (h : Represents m f) : m.size = f.entries.length := by
  have hperm : (m.visited.map Prod.fst).Perm f.keys := by
    refine (List.perm_ext_iff_of_nodup (nodup_visited h.valid) f.keys_nodup).mpr fun k => ?_
    rw [← AList.mem_keys, ← AList.lookup_isSome, Option.isSome_iff_exists]
    simp only [List.mem_map, mem_visited_iff, h.stores, Prod.exists, exists_and_right, exists_eq_right]
  have hlen := hperm.length_eq
  rw [List.length_map, length_visited h.valid, AList.keys, List.keys, List.length_map] at hlen
  exact hlen

omit [DecidableEq K] in
theorem valueAt_of_filled {i : ℕ} {k : K} {v : V} (h : m.nodes i = .filled k v) :
    m.valueAt i = some v := by
  rw [HashMap.valueAt, h]
  rfl

omit [DecidableEq K] in
theorem entry_of_filled {i : ℕ} {k : K} {v : V} (h : m.nodes i = .filled k v) :
    (m.nodes i).entry = some (k, v) := by
  rw [h]
  rfl

/-- Every call on a hash map answers as on the finite map, and leaves what it leaves. -/
theorem Represents.call_eq [Inhabited V] (h : Represents m f) (c : Call K V) :
    ∃ m', m.call c = some ((f.call c).1, m') ∧ Represents m' (f.call c).2 := by
  cases c with
  | insert kv =>
    obtain ⟨m', i, b, hres, -, ⟨v, hf, hb, hi, hrep⟩ | ⟨hf, hb, hi, hrep⟩⟩ := h.insert_cases kv
    · refine ⟨m', ?_, by simpa only [FiniteMap.call, hf] using hrep⟩
      simp only [HashMap.call, FiniteMap.call, hres, hf, Option.map_some, entry_of_filled hi, hb]
    · refine ⟨m', ?_, by simpa only [FiniteMap.call, hf] using hrep⟩
      simp only [HashMap.call, FiniteMap.call, hres, hf, Option.map_some, entry_of_filled hi, hb]
  | index k =>
    obtain ⟨m', i, b, hres, -, ⟨v, hf, -, hi, hrep⟩ | ⟨hf, -, hi, hrep⟩⟩ :=
      h.insert_cases (k, default)
    · refine ⟨m', ?_, by simpa only [FiniteMap.call, hf] using hrep⟩
      simp only [HashMap.call, HashMap.index, FiniteMap.call, hres, hf, Option.map_some,
        valueAt_of_filled hi]
    · refine ⟨m', ?_, by simpa only [FiniteMap.call, hf] using hrep⟩
      simp only [HashMap.call, HashMap.index, FiniteMap.call, hres, hf, Option.map_some,
        valueAt_of_filled hi]
  | assign k v =>
    obtain ⟨m', i, b, hres, hlt, hcases⟩ := h.insert_cases (k, default)
    refine ⟨m'.assignAt i v, ?_, ?_⟩
    · simp only [HashMap.call, HashMap.index, FiniteMap.call, hres, Option.map_some]
    · rcases hcases with ⟨w, hf, -, hi, hrep⟩ | ⟨hf, -, hi, hrep⟩
      · obtain ⟨hvalid, hstores⟩ := assignAt_spec (w := v) hrep.valid hlt hi
        refine ⟨hvalid, fun k' u => ?_⟩
        rw [hstores, FiniteMap.call, lookup_insert_iff, hrep.stores]
      · obtain ⟨hvalid, hstores⟩ := assignAt_spec (w := v) hrep.valid hlt hi
        refine ⟨hvalid, fun k' u => ?_⟩
        rw [hstores, FiniteMap.call, lookup_insert_iff, hrep.stores, lookup_insert_iff]
        have hand : ∀ a b c : Prop, (a ∨ (¬ b ∧ ((b ∧ c) ∨ (¬ b ∧ f.lookup k' = some u)))) ↔
            (a ∨ (¬ b ∧ f.lookup k' = some u)) := by tauto
        exact hand _ _ _
  | «at» k =>
    refine ⟨m, ?_, ?_⟩
    · rcases h.find_cases k with ⟨i, v, hfind, -, hi, hf⟩ | ⟨hfind, hf⟩
      · simp only [HashMap.call, HashMap.at, FiniteMap.call, hfind, hf, valueAt_of_filled hi]
      · simp only [HashMap.call, HashMap.at, FiniteMap.call, hfind, hf]
    · rw [FiniteMap.call]
      split <;> exact h
  | contains k =>
    refine ⟨m, ?_, h⟩
    rcases h.find_cases k with ⟨i, v, hfind, -, hi, hf⟩ | ⟨hfind, hf⟩ <;>
      simp only [HashMap.call, HashMap.contains, FiniteMap.call, hfind, hf, Option.isSome_some,
        Option.isSome_none]
  | find k =>
    refine ⟨m, ?_, h⟩
    rcases h.find_cases k with ⟨i, v, hfind, -, hi, hf⟩ | ⟨hfind, hf⟩
    · simp only [HashMap.call, HashMap.find, FiniteMap.call, hfind, hf, Option.bind_some,
        Option.map_some, entry_of_filled hi]
    · simp only [HashMap.call, HashMap.find, FiniteMap.call, hfind, hf, Option.bind_none,
        Option.map_none]
  | erase k =>
    rcases h.find_cases k with ⟨i, v, hfind, hlt, hi, hf⟩ | ⟨hfind, hf⟩
    · obtain ⟨hvalid, hstores⟩ := bury_spec h.valid hlt hi
      refine ⟨m.bury i, ?_, hvalid, fun k' w => ?_⟩
      · simp only [HashMap.call, HashMap.erase, FiniteMap.call, hfind, hf, Option.isSome_some]
      · rw [hstores, h.stores, FiniteMap.call, lookup_erase_iff]
    · refine ⟨m, ?_, h.valid, fun k' w => ?_⟩
      · simp only [HashMap.call, HashMap.erase, FiniteMap.call, hfind, hf, Option.isSome_none]
      · rw [h.stores, FiniteMap.call, lookup_erase_iff]
        refine ⟨fun hw => ⟨?_, hw⟩, fun hw => hw.2⟩
        rintro rfl
        rw [hf] at hw
        cases hw
  | clear => exact ⟨m.clear, rfl, Represents.empty (clear_valid h.valid) not_stores_clear⟩
  | reserve n =>
    obtain ⟨m', hm', hvalid, -, hsame⟩ := reserve_spec h.valid n
    refine ⟨m', ?_, h.of_same hvalid hsame⟩
    simp only [HashMap.call, FiniteMap.call, hm', Option.map_some]
  | size => exact ⟨m, by simp only [HashMap.call, FiniteMap.call, h.size_eq], h⟩
  | empty => exact ⟨m, by simp only [HashMap.call, FiniteMap.call, h.size_eq], h⟩

end Refinement

section Runs
variable [Inhabited V] [DecidableEq ι] {maps : ι → HashMap K V} {fs : ι → FiniteMap K V}

omit [Inhabited V] in
theorem represents_update (h : ∀ i, Represents (maps i) (fs i)) {i : ι} {m : HashMap K V}
    {f : FiniteMap K V} (hi : Represents m f) (j : ι) :
    Represents (Function.update maps i m j) (Function.update fs i f j) := by
  by_cases hj : j = i
  · subst hj
    rw [Function.update_self, Function.update_self]
    exact hi
  · rw [Function.update_of_ne hj, Function.update_of_ne hj]
    exact h j

omit [Inhabited V] in
/-- A move hands the representation over and leaves an empty map. -/
theorem represents_move (h : ∀ i, Represents (maps i) (fs i)) (dst src j : ι) :
    Represents (Function.update (Function.update maps src (maps src).movedFrom) dst (maps src) j)
      (Function.update (Function.update fs src ∅) dst (fs src) j) :=
  represents_update (represents_update h
    (Represents.empty movedFrom_valid not_stores_movedFrom)) (h src) j

theorem step_eq (h : ∀ i, Represents (maps i) (fs i)) (op : Op ι K V) :
    ∃ a maps' fs', step maps op = some (a, maps') ∧ specStep fs op = some (a, fs') ∧
      ∀ i, Represents (maps' i) (fs' i) := by
  cases op with
  | call i c =>
    obtain ⟨m', hcall, hrep⟩ := (h i).call_eq c
    refine ⟨_, _, _, ?_, rfl, represents_update h hrep⟩
    simp only [step, hcall, Option.map_some]
  | moveConstruct dst src hne => exact ⟨_, _, _, rfl, rfl, represents_move h dst src⟩
  | moveAssign dst src =>
    by_cases hne : dst ≠ src
    · refine ⟨.unit, _, _, ?_, ?_, represents_move h dst src⟩
      · simp only [step, if_pos hne]
        rfl
      · simp only [specStep, if_pos hne]
    · exact ⟨_, _, _, by rw [step, if_neg hne], by rw [specStep, if_neg hne], h⟩

/-- Hash maps that represent finite maps answer like them in every run, which does not fault. -/
theorem run_eq (h : ∀ i, Represents (maps i) (fs i)) (ops : List (Op ι K V)) :
    ∃ es ms gs fs', exec step maps ops = some (es, ms) ∧ exec specStep fs ops = some (gs, fs') ∧
      es.map Event.result = gs.map Event.result ∧ ∀ i, Represents (ms i) (fs' i) := by
  have hall : Admissible (fun _ _ => True) ops := fun _ _ _ _ => trivial
  obtain ⟨es, gs, ms, fs', hrun, hspec, hres, hrep⟩ := exec_lockstep
    (fun _ (maps : ι → HashMap K V) (fs : ι → FiniteMap K V) => ∀ i, Represents (maps i) (fs i))
    (fun _ _ _ op hrep _ => step_eq hrep op) h hall
  exact ⟨es, ms, gs, fs', hrun, hspec, hres, hrep⟩

/-- Any maps, each with its own hash function and capacity hint. -/
def start (init : ι → (K → ℕ) × ℕ) : ι → HashMap K V :=
  fun i => HashMap.create (init i).1 (init i).2

omit [Inhabited V] [DecidableEq ι] in
theorem represents_start (init : ι → (K → ℕ) × ℕ) (i : ι) :
    Represents (start init i : HashMap K V) ∅ :=
  Represents.empty (create_valid _ _) (not_stores_create _ _)

/-- No probe for a stored key crosses a tombstone on its way from the home slot. -/
def NoBuriedProbe (m : HashMap K V) : Prop :=
  ∀ k v, ∀ d < m.capacity, m.nodes (ringPos m.capacity (m.home k) d) = .filled k v →
    ∀ e < d, m.nodes (ringPos m.capacity (m.home k) e) ≠ .tombstone

/-- `HashMap dst(src)`, in the place of the map of that name. -/
def copyConstruct (maps : ι → HashMap K V) (dst src : ι) : ι → HashMap K V :=
  Function.update maps dst (maps src).copy

/-- `dst = src` -/
def copyAssign (maps : ι → HashMap K V) (dst src : ι) : ι → HashMap K V :=
  if dst ≠ src then Function.update maps dst ((maps dst).copyAssign (maps src)) else maps

/-- After the copy the map at `dst` stands for the one at `src`: it answers alike, has its size,
and in every further run behaves as a finite map with the content of the source. -/
structure StandsFor (maps : ι → HashMap K V) (dst src : ι) (copied : ι → HashMap K V) : Prop where
  answers : ∀ k, ∀ q ∈ [Call.contains k, .find k, .at k],
    ((copied dst).call q).map Prod.fst = ((maps src).call q).map Prod.fst
  size : (copied dst).size = (maps src).size
  continues : ∀ fs : ι → FiniteMap K V, (∀ i, Represents (maps i) (fs i)) → ∀ ops : List (Op ι K V),
    ∃ es ms gs fs', exec step copied ops = some (es, ms) ∧
      exec specStep (Function.update fs dst (fs src)) ops = some (gs, fs') ∧
      es.map Event.result = gs.map Event.result

section Copies
variable {m : HashMap K V}

omit [DecidableEq K] [Inhabited V] in
theorem copy_nodes (hcap : m.capacity ≠ 0) {i : ℕ} (hi : i < m.capacity) :
    m.copy.nodes i = if (m.nodes i).isFilled then m.nodes i else .empty := by
  rw [HashMap.copy, if_pos hcap]
  exact if_pos hi

omit [DecidableEq K] [Inhabited V] in
theorem copy_capacity : m.copy.capacity = m.capacity := by
  rw [HashMap.copy]
  split_ifs with h
  · rfl
  · exact (not_not.mp h).symm

omit [DecidableEq K] [Inhabited V] in
theorem copy_hash : m.copy.hash = m.hash := by
  rw [HashMap.copy]
  split_ifs <;> rfl

omit [DecidableEq K] [Inhabited V] in
theorem copy_size (hm : m.Valid) : m.copy.size = m.size := by
  rw [HashMap.copy]
  split_ifs with h
  · rfl
  · rw [hm.size, not_not.mp h]
    rfl

omit [DecidableEq K] [Inhabited V] in
theorem copy_filled_iff {i : ℕ} (hi : i < m.capacity) {k : K} {v : V} :
    m.copy.nodes i = .filled k v ↔ m.nodes i = .filled k v := by
  rw [copy_nodes (by omega) hi]
  cases hslot : m.nodes i <;> simp

omit [DecidableEq K] [Inhabited V] in
/-- The copy of a map whose probes cross no tombstone is a valid map with its content. -/
theorem copy_valid (hm : m.Valid) (h : NoBuriedProbe m) :
    m.copy.Valid ∧ SameContent m m.copy := by
  have hcap := copy_capacity (m := m)
  have hfilled : filledSlots m.copy.nodes m.copy.capacity = filledSlots m.nodes m.capacity := by
    ext i
    rw [mem_filledSlots, mem_filledSlots, hcap]
    refine and_congr_right fun hi => ?_
    rw [Slot.isFilled_iff, Slot.isFilled_iff]
    simp only [copy_filled_iff hi]
  refine ⟨⟨hcap ▸ hm.capacity, ⟨?_, ?_⟩, by rw [hfilled, ← hm.size, copy_size hm]⟩, copy_hash,
    copy_size hm, fun k v => ?_⟩
  · rw [hcap]
    intro i hi j hj k v w hiv hjw
    exact hm.table.nodup i hi j hj k v w ((copy_filled_iff hi).mp hiv) ((copy_filled_iff hj).mp hjw)
  · rw [hcap, copy_hash]
    intro i hi k v hiv
    rw [copy_filled_iff hi] at hiv
    obtain ⟨d, hd, hpos, hpath⟩ := hm.table.reach i hi k v hiv
    refine ⟨d, hd, hpos, fun e he => ?_⟩
    rw [hpos] at hiv
    have hlt := ringPos_lt (show 0 < m.capacity by omega) (m.hash k &&& (m.capacity - 1)) e
    cases hslot : m.nodes (ringPos m.capacity (m.hash k &&& (m.capacity - 1)) e) with
    | empty => exact absurd hslot (hpath e he)
    | tombstone => exact absurd hslot (h k v d hd hiv e he)
    | filled k' v' =>
      rw [(copy_filled_iff hlt).mpr hslot]
      exact nofun
  · rw [hcap]
    exact exists_congr fun i => and_congr_right fun hi => copy_filled_iff hi

omit [Inhabited V] in
/-- A copy that finds the stored keys crosses no slot that was a tombstone. -/
theorem noBuriedProbe_of_contains (hm : m.Valid)
    (h : ∀ k, m.copy.contains k = m.contains k) : NoBuriedProbe m := by
  intro k v d hd hslot e he htomb
  have hcap : m.capacity ≠ 0 := by omega
  have hpow := hm.pow hcap
  have hlt := ringPos_lt (show 0 < m.capacity by omega) (m.home k)
  have hhome : m.copy.home k = m.home k := by rw [HashMap.home, copy_hash, copy_capacity]; rfl
  have hcontains : m.copy.contains k = true := by
    rw [h, HashMap.contains, findNode_of_filled hpow hm.table (hlt d) hslot]
    rfl
  have hpow' : ∃ j, m.copy.capacity = 2 ^ j := by rwa [copy_capacity]
  obtain ⟨i, hi⟩ := Option.isSome_iff_exists.mp hcontains
  obtain ⟨hic, w, hiw⟩ := filled_of_findNode hpow' hi
  rw [copy_capacity] at hic
  have hid : i = ringPos m.capacity (m.home k) d :=
    hm.table.nodup i hic _ (hlt d) k w v ((copy_filled_iff hic).mp hiw) hslot
  have hempty : m.copy.nodes (ringPos m.capacity (m.home k) e) = .empty := by
    rw [copy_nodes hcap (hlt e), htomb]
    rfl
  -- the first stop of the search in the copy is not behind the emptied slot
  rw [findNode_eq hpow', Option.filter_eq_some_iff, copy_capacity, hhome] at hi
  have hhomelt := home_lt hpow k
  rcases firstHit_cases (stops m.copy k) m.capacity hhomelt with ⟨j, hj, hhit, -, hbefore⟩ | ⟨hnone, -⟩
  · rw [hi.1] at hhit
    have hjd : d = j := ringPos_injective hd hj (hid.symm.trans (Option.some.inj hhit))
    exact nodes_ne_empty_of_stops (hbefore e (by omega)) hempty
  · rw [hi.1] at hnone
    cases hnone

omit [DecidableEq K] [Inhabited V] in
theorem noBuriedProbe_of_clean (h : ∀ j < m.capacity, m.nodes j ≠ .tombstone) : NoBuriedProbe m :=
  fun _ _ _ hd _ _ _ => h _ (ringPos_lt (by omega) _ _)

end Copies

/-- In every run, a copy-constructed or copy-assigned map stands for its source if and only if
no probe for a stored key of the source crosses a tombstone. -/
theorem copy_standsFor_iff (init : ι → (K → ℕ) × ℕ) {ops : List (Op ι K V)}
    {es : List (Event (ι → HashMap K V) (Op ι K V) (Answer K V))} {maps : ι → HashMap K V}
    (h : exec step (start init) ops = some (es, maps)) {src dst : ι} (hne : dst ≠ src) :
    (StandsFor maps dst src (copyConstruct maps dst src) ∧
      StandsFor maps dst src (copyAssign maps dst src)) ↔ NoBuriedProbe (maps src) := by
  obtain ⟨es', maps', gs, fs, hrun, -, -, hrep⟩ := run_eq (represents_start init) ops
  rw [h] at hrun
  cases hrun
  have hsrc := hrep src
  have hassign : copyAssign maps dst src = copyConstruct maps dst src := if_pos hne
  have hdst : copyConstruct maps dst src dst = (maps src).copy := Function.update_self ..
  rw [hassign, and_self]
  constructor
  · intro hcopy
    refine noBuriedProbe_of_contains hsrc.valid fun k => ?_
    have hanswer := hcopy.answers k (.contains k) (by simp)
    simpa [HashMap.call, hdst] using hanswer
  · intro hpaths
    obtain ⟨hvalid, hsame⟩ := copy_valid hsrc.valid hpaths
    have hrepc := hsrc.of_same hvalid hsame
    refine ⟨fun k q _ => ?_, by rw [hdst]; exact hsame.size, fun fs' hrep' ops' => ?_⟩
    · obtain ⟨_, hq, -⟩ := hsrc.call_eq q
      obtain ⟨_, hqc, -⟩ := hrepc.call_eq q
      rw [hdst, hq, hqc]
      rfl
    · obtain ⟨es, ms, gs, fs'', hrun, hspec, hres, -⟩ :=
        run_eq (represents_update hrep' ((hrep' src).of_same hvalid hsame)) ops'
      exact ⟨es, ms, gs, fs'', hrun, hspec, hres⟩

/-- Colliding keys without an erasure: the copy stands for the source. -/
theorem copy_standsFor_of_collision :
    ∃ es maps, exec step (start fun _ : Bool => (fun _ : ℕ => 0, 0))
        [.call false (.insert (1, 10)), .call false (.insert (2, 20))] = some (es, maps) ∧
      StandsFor maps true false (copyConstruct maps true false) ∧
      (maps false).contains 2 = true := by
  have hrun : exec step (start fun _ : Bool => (fun _ : ℕ => 0, 0))
      [.call false (.insert (1, 10)), .call false (.insert (2, 20))] = some (_, _) := rfl
  refine ⟨_, _, hrun, ((copy_standsFor_iff _ hrun (by decide)).mpr ?_).1, by decide⟩
  exact noBuriedProbe_of_clean (by decide)

/-- The first of two colliding keys is erased: the copy has lost the second. -/
theorem copy_loses_key :
    ∃ es maps, exec step (start fun _ : Bool => (fun _ : ℕ => 0, 0))
        [.call false (.insert (1, 10)), .call false (.insert (2, 20)), .call false (.erase 1)] =
          some (es, maps) ∧
      (maps false).contains 2 = true ∧ (copyConstruct maps true false true).contains 2 = false ∧
      ¬ StandsFor maps true false (copyConstruct maps true false) ∧
      ¬ StandsFor maps true false (copyAssign maps true false) := by
  have hrun : exec step (start fun _ : Bool => (fun _ : ℕ => 0, 0))
      [.call false (.insert (1, 10)), .call false (.insert (2, 20)), .call false (.erase 1)] =
        some (_, _) := rfl
  refine ⟨_, _, hrun, by decide, by decide, fun h => ?_, fun h => ?_⟩
  · exact absurd (h.answers 2 (.contains 2) (by simp)) (by decide)
  · exact absurd (h.answers 2 (.contains 2) (by simp)) (by decide)

end Runs

end HftExercises.Hashing
