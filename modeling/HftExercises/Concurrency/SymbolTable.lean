import Mathlib.Data.Finmap
import HftExercises.Core.Execution
import HftExercises.Core.StringVector

/-! # The symbol table

A table from symbols to ids, a vector from ids to symbols and a live flag for
every id encode one partial bijection. Erased symbols leave dead entries behind,
and a symbol that is interned again gets a new one. Every method holds the mutex,
so a history of the table is a sequence of calls.
-/
namespace HftExercises.Symbols

abbrev Symbol := List UInt8

structure SymbolTable where
  symbolToId : Finmap fun _ : Symbol => Int32
  idToSymbol : StringVector UInt8
  live : List Bool

/-- `static_cast<std::size_t>(id)` -/
def toSize (id : Int32) : ℕ := (id.toInt % 2 ^ 64).toNat

namespace SymbolTable

def empty : SymbolTable := ⟨∅, .empty, []⟩

def intern (grow : ℕ → ℕ) (t : SymbolTable) (symbol : Symbol) : Int32 × SymbolTable :=
  match t.symbolToId.lookup symbol with
  | some id => (id, t)
  | none =>
    let id := Int32.ofNat t.idToSymbol.strings.length
    (id, { symbolToId := t.symbolToId.insert symbol id
           idToSymbol := t.idToSymbol.emplaceBack grow symbol
           live := t.live ++ [true] })

def find (t : SymbolTable) (symbol : Symbol) : Option Int32 := t.symbolToId.lookup symbol

def lookup (t : SymbolTable) (id : Int32) : Option StringView :=
  if id < 0 ∨ t.idToSymbol.strings.length ≤ toSize id then none
  else if t.live[toSize id]? ≠ some true then none
  else t.idToSymbol.view (toSize id)

/-- `none` is an access behind the end of `live_`. -/
def eraseSymbol (t : SymbolTable) (symbol : Symbol) : Option (Bool × SymbolTable) :=
  match t.symbolToId.lookup symbol with
  | none => some (false, t)
  | some id =>
    if toSize id < t.live.length then
      some (true, { t with
        live := t.live.set (toSize id) false
        symbolToId := t.symbolToId.erase symbol })
    else none

/-- `none` is an access behind the end of `id_to_symbol_`. -/
def eraseId (t : SymbolTable) (id : Int32) : Option (Bool × SymbolTable) :=
  if id < 0 ∨ t.live.length ≤ toSize id ∨ t.live[toSize id]? ≠ some true then some (false, t)
  else
    t.idToSymbol.texts[toSize id]?.map fun symbol =>
      (true, { t with
        live := t.live.set (toSize id) false
        symbolToId := t.symbolToId.erase symbol })

def size (t : SymbolTable) : ℕ := t.live.count true

def clear (t : SymbolTable) : SymbolTable := ⟨∅, t.idToSymbol.clear, []⟩

/-- The characters behind the view that `lookup` returns, at the moment it returns. -/
def lookupText (t : SymbolTable) (id : Int32) : Option Symbol := (t.lookup id).bind t.idToSymbol.read

end SymbolTable

inductive Call where
  | intern (symbol : Symbol)
  | find (symbol : Symbol)
  | lookup (id : Int32)
  | eraseSymbol (symbol : Symbol)
  | eraseId (id : Int32)
  | size
  | clear
  deriving DecidableEq

inductive Answer where
  | id (id : Int32)
  | found (id : Option Int32)
  | view (view : Option StringView)
  | erased (ok : Bool)
  | count (n : ℕ)
  | done
  deriving DecidableEq

def SymbolTable.step (grow : ℕ → ℕ) (t : SymbolTable) : Call → Option (Answer × SymbolTable)
  | .intern symbol => some (.id (t.intern grow symbol).1, (t.intern grow symbol).2)
  | .find symbol => some (.found (t.find symbol), t)
  | .lookup id => some (.view (t.lookup id), t)
  | .eraseSymbol symbol => (t.eraseSymbol symbol).map fun r => (.erased r.1, r.2)
  | .eraseId id => (t.eraseId id).map fun r => (.erased r.1, r.2)
  | .size => some (.count t.size, t)
  | .clear => some (.done, t.clear)

abbrev CallEvent := Event SymbolTable Call Answer

/-! ## The alignment of the three containers -/

/-- The id `i` is registered, for the symbol `s`. -/
def Registered (t : SymbolTable) (i : ℕ) (s : Symbol) : Prop :=
  t.live[i]? = some true ∧ t.idToSymbol.texts[i]? = some s

structure Aligned (t : SymbolTable) : Prop where
  valid : t.idToSymbol.Valid
  live : t.live.length = t.idToSymbol.texts.length
  entry : ∀ s id, t.find s = some id ↔ ∃ i, id = Int32.ofNat i ∧ Registered t i s
  count : t.size = t.symbolToId.keys.card

/-- Fewer than `2 ^ 31` ids have been issued. -/
def Few (t : SymbolTable) : Prop := t.idToSymbol.texts.length < 2 ^ 31

instance (t : SymbolTable) : Decidable (Few t) := inferInstanceAs (Decidable (_ < _))

section Ids

theorem toInt_ofNat {i : ℕ} (h : i < 2 ^ 31) : (Int32.ofNat i).toInt = i :=
  Int32.toInt_ofNat_of_lt h

theorem toSize_ofNat {i : ℕ} (h : i < 2 ^ 31) : toSize (Int32.ofNat i) = i := by
  rw [toSize, toInt_ofNat h]
  omega

theorem toSize_lt (id : Int32) (h : ¬ id < 0) : toSize id < 2 ^ 31 := by
  have hle := Int32.toInt_lt id
  rw [Int32.lt_iff_toInt_lt, Int32.toInt_zero] at h
  rw [toSize]
  omega

theorem ofNat_toSize {id : Int32} (h : ¬ id < 0) : Int32.ofNat (toSize id) = id := by
  have hlt := toSize_lt id h
  apply Int32.toInt.inj
  rw [toInt_ofNat hlt]
  rw [Int32.lt_iff_toInt_lt, Int32.toInt_zero] at h
  have hle := Int32.toInt_lt id
  rw [toSize]
  omega

theorem not_ofNat_neg {i : ℕ} (h : i < 2 ^ 31) : ¬ Int32.ofNat i < 0 := by
  rw [Int32.lt_iff_toInt_lt, toInt_ofNat h]
  simp

theorem ofNat_inj {i j : ℕ} (hi : i < 2 ^ 31) (hj : j < 2 ^ 31)
    (h : Int32.ofNat i = Int32.ofNat j) : i = j := by
  rw [← toSize_ofNat hi, h, toSize_ofNat hj]

end Ids

section Aligned
variable {grow : ℕ → ℕ} {t : SymbolTable} {s : Symbol} {i : ℕ}

theorem Registered.lt (h : Registered t i s) : i < t.idToSymbol.texts.length :=
  (List.getElem?_eq_some_iff.mp h.2).1

theorem aligned_empty : Aligned .empty where
  valid := StringVector.valid_empty
  live := rfl
  entry s id := by simp [SymbolTable.find, SymbolTable.empty, Registered]
  count := rfl

theorem aligned_clear (h : Aligned t) : Aligned t.clear where
  valid := h.valid.clear
  live := rfl
  entry s id := by simp [SymbolTable.find, SymbolTable.clear, Registered]
  count := rfl

theorem Aligned.find_eq (h : Aligned t) (hr : Registered t i s) :
    t.find s = some (Int32.ofNat i) :=
  (h.entry s _).mpr ⟨i, rfl, hr⟩

/-- A symbol is registered once. -/
theorem Aligned.registered_unique (h : Aligned t) (hfew : Few t) {j : ℕ} (hi : Registered t i s)
    (hj : Registered t j s) : i = j := by
  have heq : some (Int32.ofNat i) = some (Int32.ofNat j) := by rw [← h.find_eq hi, h.find_eq hj]
  exact ofNat_inj (hi.lt.trans hfew) (hj.lt.trans hfew) (Option.some.inj heq)

theorem Aligned.registered_of_find (h : Aligned t) (hfew : Few t) {id : Int32}
    (hf : t.find s = some id) : Registered t (toSize id) s ∧ ¬ id < 0 := by
  obtain ⟨i, rfl, hr⟩ := (h.entry s id).mp hf
  rw [toSize_ofNat (hr.lt.trans hfew)]
  exact ⟨hr, not_ofNat_neg (hr.lt.trans hfew)⟩

/-- Reading through the view that `lookup` returns yields the registered symbol. -/
theorem Aligned.lookupText_iff (h : Aligned t) {id : Int32} :
    t.lookupText id = some s ↔ ¬ id < 0 ∧ Registered t (toSize id) s := by
  have hlen : t.idToSymbol.strings.length = t.idToSymbol.texts.length :=
    (List.length_map _).symm
  simp only [SymbolTable.lookupText, SymbolTable.lookup, hlen]
  by_cases hneg : id < 0
  · simp [hneg]
  by_cases hlive : t.live[toSize id]? = some true
  · have hlt : toSize id < t.idToSymbol.texts.length := by
      rw [← h.live]
      exact (List.getElem?_eq_some_iff.mp hlive).1
    simp only [hneg, Nat.not_le.mpr hlt, or_self, if_false, hlive, ne_eq, not_true]
    rw [StringVector.view_bind_read h.valid]
    simp [Registered, hlive]
  · simp [Registered, hlive]

theorem Aligned.find_iff_lookupText (h : Aligned t) (hfew : Few t) {id : Int32} :
    t.find s = some id ↔ t.lookupText id = some s := by
  rw [h.lookupText_iff]
  constructor
  · intro hf
    exact (h.registered_of_find hfew hf).symm
  · rintro ⟨hneg, hr⟩
    rw [h.find_eq hr, ofNat_toSize hneg]

end Aligned

section Steps
variable {grow : ℕ → ℕ} {t : SymbolTable} {s : Symbol} {i : ℕ}

theorem intern_of_find {id : Int32} (h : t.find s = some id) : t.intern grow s = (id, t) := by
  rw [SymbolTable.find] at h
  rw [SymbolTable.intern, h]

/-- The table with one more id. -/
def SymbolTable.register (grow : ℕ → ℕ) (t : SymbolTable) (s : Symbol) : SymbolTable where
  symbolToId := t.symbolToId.insert s (Int32.ofNat t.idToSymbol.texts.length)
  idToSymbol := t.idToSymbol.emplaceBack grow s
  live := t.live ++ [true]

theorem intern_of_find_none (h : t.find s = none) :
    t.intern grow s = (Int32.ofNat t.idToSymbol.texts.length, t.register grow s) := by
  rw [SymbolTable.find] at h
  rw [SymbolTable.intern, h]
  simp [SymbolTable.register, StringVector.texts]

theorem registered_register (hlive : t.live.length = t.idToSymbol.texts.length) {s' : Symbol} :
    Registered (t.register grow s) i s' ↔
      Registered t i s' ∨ (i = t.idToSymbol.texts.length ∧ s' = s) := by
  simp only [Registered, SymbolTable.register, StringVector.texts_emplaceBack,
    List.getElem?_append, hlive]
  by_cases hi : i < t.idToSymbol.texts.length
  · rw [if_pos hi, if_pos hi]
    simp only [iff_self_or]
    omega
  · have hlive' : t.live[i]? = none := List.getElem?_eq_none (by omega)
    rw [if_neg hi, if_neg hi, hlive']
    rcases Nat.lt_or_eq_of_le (Nat.le_of_not_lt hi) with hlt | rfl
    · have hne : i ≠ t.idToSymbol.texts.length := hlt.ne'
      obtain ⟨k, hk⟩ : ∃ k, i - t.idToSymbol.texts.length = k + 1 := ⟨_, (Nat.succ_pred (by omega)).symm⟩
      simp [hk, hne]
    · simp [eq_comm]

theorem keys_insert (m : Finmap fun _ : Symbol => Int32) (s : Symbol) (id : Int32) :
    (m.insert s id).keys = insert s m.keys := by
  ext x
  rw [Finset.mem_insert, Finmap.mem_keys, Finmap.mem_insert, Finmap.mem_keys]

theorem find_eq_none : t.find s = none ↔ s ∉ t.symbolToId.keys := by
  rw [SymbolTable.find, Finmap.lookup_eq_none, Finmap.mem_keys]

theorem Aligned.register (h : Aligned t) (hnew : t.find s = none) :
    Aligned (t.register grow s) where
  valid := h.valid.emplaceBack grow s
  live := by simp [SymbolTable.register, h.live]
  entry s' id := by
    simp only [registered_register h.live]
    by_cases hs : s' = s
    · subst hs
      have hnot : ∀ i, ¬ Registered t i s' := fun i hi => by
        rw [h.find_eq hi] at hnew
        cases hnew
      simp [SymbolTable.find, SymbolTable.register, hnot, eq_comm]
    · have hold := h.entry s' id
      rw [SymbolTable.find] at hold
      simp only [SymbolTable.find, SymbolTable.register, Finmap.lookup_insert_of_ne _ hs, hold, hs,
        and_false, or_false]
  count := by
    have hcard := Finset.card_insert_of_notMem (find_eq_none.mp hnew)
    have hcount := h.count
    simp only [SymbolTable.size, SymbolTable.register, keys_insert, List.count_append, hcard] at hcount ⊢
    simp [hcount]

/-- The table without the pair of `i` and `s`. -/
def SymbolTable.unregister (t : SymbolTable) (i : ℕ) (s : Symbol) : SymbolTable :=
  { t with live := t.live.set i false, symbolToId := t.symbolToId.erase s }

theorem registered_unregister {j : ℕ} {s' : Symbol} :
    Registered (t.unregister i s) j s' ↔ j ≠ i ∧ Registered t j s' := by
  simp only [Registered, SymbolTable.unregister, List.getElem?_set]
  by_cases hj : i = j
  · subst hj
    by_cases hlt : i < t.live.length
    · simp [hlt]
    · simp [hlt]
  · simp [hj, Ne.symm hj]

theorem find_unregister {s' : Symbol} :
    (t.unregister i s).find s' = if s' = s then none else t.find s' := by
  simp only [SymbolTable.find, SymbolTable.unregister]
  split_ifs with hs
  · rw [hs, Finmap.lookup_erase]
  · rw [Finmap.lookup_erase_ne hs]

theorem Aligned.unregister (h : Aligned t) (hfew : Few t) (hr : Registered t i s) :
    Aligned (t.unregister i s) where
  valid := h.valid
  live := by simp [SymbolTable.unregister, h.live]
  entry s' id := by
    simp only [find_unregister, registered_unregister]
    split_ifs with hs
    · simp only [false_iff, not_exists, not_and]
      rintro j - hj hrj
      exact hj (h.registered_unique hfew (hs ▸ hrj) hr)
    · rw [h.entry]
      refine exists_congr fun j => and_congr_right fun _ => ?_
      refine ⟨fun hrj => ⟨fun hj => hs ?_, hrj⟩, And.right⟩
      rw [hj] at hrj
      exact Option.some.inj (hrj.2.symm.trans hr.2)
  count := by
    have hmem : s ∈ t.symbolToId.keys := by
      by_contra hs
      rw [← find_eq_none, h.find_eq hr] at hs
      cases hs
    have hcard := Finset.card_erase_of_mem hmem
    have hcount := h.count
    obtain ⟨hlt, hget⟩ := List.getElem?_eq_some_iff.mp hr.1
    simp only [SymbolTable.size] at hcount
    simp only [SymbolTable.size, SymbolTable.unregister, Finmap.keys_erase, hcard, List.count_set hlt, hget,
      hcount]
    simp

theorem eraseSymbol_of_find_none (h : t.find s = none) : t.eraseSymbol s = some (false, t) := by
  rw [SymbolTable.find] at h
  rw [SymbolTable.eraseSymbol, h]

theorem Aligned.eraseSymbol_of_registered (h : Aligned t) (hfew : Few t) (hr : Registered t i s) :
    t.eraseSymbol s = some (true, t.unregister i s) := by
  have hfind := h.find_eq hr
  rw [SymbolTable.find] at hfind
  simp only [SymbolTable.eraseSymbol, hfind, toSize_ofNat (hr.lt.trans hfew), h.live, hr.lt, if_true,
    SymbolTable.unregister]

theorem Aligned.eraseId_of_registered (h : Aligned t) {id : Int32} (hneg : ¬ id < 0)
    (hr : Registered t (toSize id) s) :
    t.eraseId id = some (true, t.unregister (toSize id) s) := by
  have hlt : ¬ t.live.length ≤ toSize id := by
    rw [h.live]
    exact Nat.not_le.mpr hr.lt
  simp [SymbolTable.eraseId, hneg, hlt, hr.1, hr.2, SymbolTable.unregister]

theorem Aligned.eraseId_of_unregistered (h : Aligned t) {id : Int32}
    (hn : t.lookupText id = none) : t.eraseId id = some (false, t) := by
  rw [SymbolTable.eraseId, if_pos]
  by_contra hc
  push Not at hc
  obtain ⟨hneg, hlt, hlive⟩ := hc
  rw [h.live] at hlt
  have hr : Registered t (toSize id) t.idToSymbol.texts[toSize id] :=
    ⟨hlive, List.getElem?_eq_getElem hlt⟩
  rw [h.lookupText_iff.mpr ⟨hneg, hr⟩] at hn
  cases hn

end Steps

end HftExercises.Symbols
