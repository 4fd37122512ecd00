import Mathlib.Data.Finset.Card
import HftExercises.Containers.HashMap

/-! # Tables of the hash map

A table is in order when no key is stored twice and every stored key is reached
from its home slot without crossing an empty slot. Each change an operation makes
to a slot keeps this; the searches then find exactly the stored keys.
-/
namespace HftExercises.Hashing
variable {K V : Type*}

/-- Slot `i` is reached from `home` without crossing an empty slot. -/
def Reaches (nodes : ℕ → Slot K V) (cap home i : ℕ) : Prop :=
  ∃ d < cap, i = ringPos cap home d ∧ ∀ e < d, nodes (ringPos cap home e) ≠ .empty

structure TableOk (hash : K → ℕ) (nodes : ℕ → Slot K V) (cap : ℕ) : Prop where
  nodup : ∀ i < cap, ∀ j < cap, ∀ k v w, nodes i = .filled k v → nodes j = .filled k w → i = j
  reach : ∀ i < cap, ∀ k v, nodes i = .filled k v → Reaches nodes cap (hash k &&& (cap - 1)) i

def filledSlots (nodes : ℕ → Slot K V) (cap : ℕ) : Finset ℕ :=
  (Finset.range cap).filter fun i => (nodes i).isFilled = true

/-- The table stores the pair. -/
def Stores (nodes : ℕ → Slot K V) (cap : ℕ) (k : K) (v : V) : Prop :=
  ∃ i < cap, nodes i = .filled k v

@[simp] theorem Slot.isFilled_empty : (Slot.empty : Slot K V).isFilled = false := rfl

@[simp] theorem Slot.isFilled_filled (k : K) (v : V) : (Slot.filled k v).isFilled = true := rfl

@[simp] theorem Slot.isFilled_tombstone : (Slot.tombstone : Slot K V).isFilled = false := rfl

theorem Slot.isFilled_iff {s : Slot K V} : s.isFilled = true ↔ ∃ k v, s = .filled k v := by
  cases s <;> simp

theorem Slot.isEmpty_iff {s : Slot K V} : s.isEmpty = true ↔ s = .empty := by
  cases s <;> simp [Slot.isEmpty]

theorem mem_filledSlots {nodes : ℕ → Slot K V} {cap i : ℕ} :
    i ∈ filledSlots nodes cap ↔ i < cap ∧ (nodes i).isFilled = true := by
  simp [filledSlots]

section Changes
variable {hash : K → ℕ} {nodes nodes' : ℕ → Slot K V} {cap i : ℕ} {k : K} {v : V}

/-- Changes that empty no slot and bring no key to a slot keep the table in order. -/
theorem TableOk.of_weaker (h : TableOk hash nodes cap)
    (hempty : ∀ i < cap, nodes' i = .empty → nodes i = .empty)
    (hfilled : ∀ i < cap, ∀ k v, nodes' i = .filled k v → ∃ w, nodes i = .filled k w) :
    TableOk hash nodes' cap := by
  refine ⟨fun i hi j hj k v w hiv hjw => ?_, fun i hi k v hiv => ?_⟩
  · obtain ⟨v', hv'⟩ := hfilled i hi k v hiv
    obtain ⟨w', hw'⟩ := hfilled j hj k w hjw
    exact h.nodup i hi j hj k v' w' hv' hw'
  · obtain ⟨v', hv'⟩ := hfilled i hi k v hiv
    obtain ⟨d, hd, hpos, hpath⟩ := h.reach i hi k v' hv'
    exact ⟨d, hd, hpos, fun e he hem =>
      hpath e he (hempty _ (ringPos_lt (by omega) _ _) hem)⟩

theorem TableOk.empty : TableOk hash (allocEmpty : ℕ → Slot K V) cap :=
  ⟨fun _ _ _ _ _ _ _ h => (nomatch h), fun _ _ _ _ h => (nomatch h)⟩

/-- A new key may take any slot that is not filled and that its probe reaches. -/
theorem TableOk.put (h : TableOk hash nodes cap) (hslot : (nodes i).isFilled = false)
    (hreach : Reaches nodes cap (hash k &&& (cap - 1)) i) (hnew : ∀ w, ¬ Stores nodes cap k w) :
    TableOk hash (Function.update nodes i (.filled k v)) cap := by
  have hpath : ∀ {home j : ℕ}, Reaches nodes cap home j →
      Reaches (Function.update nodes i (.filled k v)) cap home j := by
    rintro home j ⟨d, hd, hpos, hpath⟩
    refine ⟨d, hd, hpos, fun e he => ?_⟩
    by_cases hei : ringPos cap home e = i
    · rw [hei, Function.update_self]
      exact nofun
    · rw [Function.update_of_ne hei]
      exact hpath e he
  have hother : ∀ {j : ℕ} {k' : K} {w : V}, j < cap → j ≠ i →
      Function.update nodes i (Slot.filled k v) j = .filled k' w →
      nodes j = .filled k' w ∧ k' ≠ k := by
    intro j k' w hj hji hjw
    rw [Function.update_of_ne hji] at hjw
    refine ⟨hjw, ?_⟩
    rintro rfl
    exact hnew w ⟨j, hj, hjw⟩
  refine ⟨fun j hj l hl k' v' w' hjv hlw => ?_, fun j hj k' v' hjv => ?_⟩
  · by_cases hji : j = i <;> by_cases hli : l = i
    · rw [hji, hli]
    · subst hji
      rw [Function.update_self] at hjv
      cases hjv
      exact absurd rfl (hother hl hli hlw).2
    · subst hli
      rw [Function.update_self] at hlw
      cases hlw
      exact absurd rfl (hother hj hji hjv).2
    · exact h.nodup j hj l hl k' v' w' (hother hj hji hjv).1 (hother hl hli hlw).1
  · by_cases hji : j = i
    · subst hji
      rw [Function.update_self] at hjv
      cases hjv
      exact hpath hreach
    · exact hpath (h.reach j hj k' v' (hother hj hji hjv).1)

theorem stores_put (hi : i < cap) (hslot : (nodes i).isFilled = false) {k' : K} {w : V} :
    Stores (Function.update nodes i (.filled k v)) cap k' w ↔
      (k' = k ∧ w = v) ∨ Stores nodes cap k' w := by
  constructor
  · rintro ⟨j, hj, hjw⟩
    by_cases hji : j = i
    · rw [hji, Function.update_self] at hjw
      cases hjw
      exact Or.inl ⟨rfl, rfl⟩
    · rw [Function.update_of_ne hji] at hjw
      exact Or.inr ⟨j, hj, hjw⟩
  · rintro (⟨rfl, rfl⟩ | ⟨j, hj, hjw⟩)
    · exact ⟨i, hi, Function.update_self ..⟩
    · refine ⟨j, hj, ?_⟩
      rw [Function.update_of_ne, hjw]
      rintro rfl
      rw [hjw] at hslot
      cases hslot

/-- A slot with a key may get a tombstone or another value of the key. -/
theorem TableOk.replace {s : Slot K V} (h : TableOk hash nodes cap) (hiv : nodes i = .filled k v)
    (hs : s ≠ .empty) (hkey : ∀ k' w, s = .filled k' w → k' = k) :
    TableOk hash (Function.update nodes i s) cap := by
  refine h.of_weaker (fun j _ hj => ?_) (fun j _ k' w hj => ?_)
  · by_cases hji : j = i
    · rw [hji, Function.update_self] at hj
      exact absurd hj hs
    · rwa [Function.update_of_ne hji] at hj
  · by_cases hji : j = i
    · rw [hji, Function.update_self] at hj
      rw [hkey k' w hj, hji]
      exact ⟨v, hiv⟩
    · rw [Function.update_of_ne hji] at hj
      exact ⟨w, hj⟩

theorem stores_replace {s : Slot K V} (h : TableOk hash nodes cap) (hi : i < cap)
    (hiv : nodes i = .filled k v) {k' : K} {w : V} :
    Stores (Function.update nodes i s) cap k' w ↔
      s = .filled k' w ∨ (k' ≠ k ∧ Stores nodes cap k' w) := by
  constructor
  · rintro ⟨j, hj, hjw⟩
    by_cases hji : j = i
    · rw [hji, Function.update_self] at hjw
      exact Or.inl hjw
    · rw [Function.update_of_ne hji] at hjw
      refine Or.inr ⟨?_, j, hj, hjw⟩
      rintro rfl
      exact hji (h.nodup j hj i hi k' w v hjw hiv)
  · rintro (hs | ⟨hne, j, hj, hjw⟩)
    · exact ⟨i, hi, by rw [Function.update_self, hs]⟩
    · refine ⟨j, hj, ?_⟩
      rw [Function.update_of_ne, hjw]
      rintro rfl
      rw [hjw] at hiv
      cases hiv
      exact hne rfl

theorem filledSlots_put (hi : i < cap) :
    filledSlots (Function.update nodes i (.filled k v)) cap = insert i (filledSlots nodes cap) := by
  ext j
  rw [Finset.mem_insert, mem_filledSlots, mem_filledSlots]
  by_cases hji : j = i
  · simp [hji, hi]
  · simp [hji]

theorem card_filledSlots_put (hi : i < cap) (hslot : (nodes i).isFilled = false) :
    (filledSlots (Function.update nodes i (.filled k v)) cap).card =
      (filledSlots nodes cap).card + 1 := by
  rw [filledSlots_put hi, Finset.card_insert_of_notMem]
  rw [mem_filledSlots, hslot]
  exact fun h => nomatch h.2

theorem filledSlots_bury : filledSlots (Function.update nodes i .tombstone) cap =
    (filledSlots nodes cap).erase i := by
  ext j
  rw [Finset.mem_erase, mem_filledSlots, mem_filledSlots]
  by_cases hji : j = i
  · simp [hji]
  · simp [hji]

/-- A full table has no other slots. -/
theorem exists_not_filled (h : (filledSlots nodes cap).card < cap) :
    ∃ i < cap, (nodes i).isFilled = false := by
  by_contra hall
  have heq : filledSlots nodes cap = Finset.range cap := by
    refine Finset.filter_true_of_mem fun i hi => ?_
    by_contra hi'
    exact hall ⟨i, Finset.mem_range.mp hi, Bool.not_eq_true _ ▸ hi'⟩
  rw [heq, Finset.card_range] at h
  exact lt_irrefl _ h

end Changes

section Searches

theorem emptySlotFrom_eq (t : ℕ → Slot K V) {cap : ℕ} (hcap : ∃ k, cap = 2 ^ k) (n idx : ℕ) :
    emptySlotFrom t cap n idx = firstHit (fun i => (t i).isEmpty) cap n idx := by
  induction n generalizing idx with
  | zero => rfl
  | succ n ih => rw [emptySlotFrom, firstHit, and_pred_eq_mod hcap, ih]

variable [DecidableEq K] {m : HashMap K V} {key : K}

/-- The slots at which a search for the key ends. -/
def stops (m : HashMap K V) (key : K) (idx : ℕ) : Bool :=
  match m.nodes idx with
  | .empty => true
  | .filled k _ => k = key
  | .tombstone => false

theorem findNodeFrom_eq (hcap : ∃ k, m.capacity = 2 ^ k) (n idx : ℕ) :
    m.findNodeFrom key n idx =
      (firstHit (stops m key) m.capacity n idx).filter fun i => (m.nodes i).isFilled := by
  induction n generalizing idx with
  | zero => rfl
  | succ n ih =>
    rw [HashMap.findNodeFrom, firstHit, HashMap.next, and_pred_eq_mod hcap]
    cases hslot : m.nodes idx with
    | empty => simp [stops, hslot, Option.filter_some]
    | filled k v =>
      by_cases hk : k = key
      · simp [stops, hslot, hk, Option.filter_some]
      · simp [stops, hslot, hk, ih]
    | tombstone => simp [stops, hslot, ih]

omit [DecidableEq K] in
theorem home_lt (hcap : ∃ k, m.capacity = 2 ^ k) (key : K) : m.home key < m.capacity := by
  rw [HashMap.home, and_pred_eq_mod hcap]
  obtain ⟨k, hk⟩ := hcap
  exact Nat.mod_lt _ (hk ▸ Nat.two_pow_pos k)

theorem findNode_eq (hcap : ∃ k, m.capacity = 2 ^ k) :
    m.findNode key = (firstHit (stops m key) m.capacity m.capacity (m.home key)).filter
      fun i => (m.nodes i).isFilled := by
  have hpos := Nat.ne_of_gt (Nat.lt_of_le_of_lt (Nat.zero_le _) (home_lt hcap key))
  rw [HashMap.findNode, if_neg hpos, findNodeFrom_eq hcap]

/-- What the search finds is the key. -/
theorem filled_of_findNode {i : ℕ} (hcap : ∃ k, m.capacity = 2 ^ k)
    (h : m.findNode key = some i) : i < m.capacity ∧ ∃ v, m.nodes i = .filled key v := by
  rw [findNode_eq hcap, Option.filter_eq_some_iff] at h
  obtain ⟨hhit, hfilled⟩ := h
  have hlt := home_lt hcap key
  rcases firstHit_cases (stops m key) m.capacity hlt with ⟨d, _, hd, hstop, -⟩ | ⟨hnone, -⟩
  · rw [hhit] at hd
    obtain rfl := Option.some.inj hd
    refine ⟨ringPos_lt (by omega) _ _, ?_⟩
    obtain ⟨k, v, hkv⟩ := Slot.isFilled_iff.mp hfilled
    have hk : k = key := by simpa [stops, hkv] using hstop
    exact ⟨v, hk ▸ hkv⟩
  · rw [hhit] at hnone
    cases hnone

/-- A stored key whose probe crosses no empty slot is found. -/
theorem findNode_of_filled {i : ℕ} {v : V} (hcap : ∃ k, m.capacity = 2 ^ k)
    (htable : TableOk m.hash m.nodes m.capacity) (hi : i < m.capacity)
    (hiv : m.nodes i = .filled key v) : m.findNode key = some i := by
  have hlt := home_lt hcap key
  obtain ⟨d, hd, hpos, hpath⟩ := htable.reach i hi key v hiv
  have hstopi : stops m key i = true := by simp [stops, hiv]
  rw [findNode_eq hcap]
  rcases firstHit_cases (stops m key) m.capacity hlt with ⟨e, he, hhit, hstop, hbefore⟩ | ⟨_, hall⟩
  · have hed : e = d := by
      rcases Nat.lt_trichotomy e d with hlt' | heq | hgt
      · -- an earlier stop is the key itself, and the key is stored once
        have hne := hpath e hlt'
        change m.nodes (ringPos m.capacity (m.home key) e) ≠ .empty at hne
        cases hslot : m.nodes (ringPos m.capacity (m.home key) e) with
        | empty => exact absurd hslot hne
        | filled k w =>
          have hk : k = key := by simpa [stops, hslot] using hstop
          rw [hk] at hslot
          have heq := htable.nodup _ (ringPos_lt (by omega) _ _) i hi key w v hslot hiv
          exact ringPos_injective he hd (heq.trans hpos)
        | tombstone => simp [stops, hslot] at hstop
      · exact heq
      · have hfalse := hbefore d hgt
        change i = ringPos m.capacity (m.home key) d at hpos
        rw [← hpos, hstopi] at hfalse
        cases hfalse
    rw [hhit, hed]
    change i = ringPos m.capacity (m.home key) d at hpos
    rw [← hpos]
    simp [Option.filter_some, hiv]
  · have hfalse := hall d hd
    change i = ringPos m.capacity (m.home key) d at hpos
    rw [← hpos, hstopi] at hfalse
    cases hfalse

end Searches

end HftExercises.Hashing
