import Mathlib.Order.RelClasses
import Mathlib.Data.List.Pairwise
import HftExercises.Core.ListFacts

/-! # Ordered maps over an arbitrary comparator

An ordered map is the list of its bindings, strictly increasing for the
comparator, so that the first binding carries the least key. Every operation
keeps the order, and lookup alone determines the map.
-/
namespace HftExercises
variable {K V : Type*} {r : K → K → Prop}

/-- Bindings listed in strictly increasing key order for the comparator `r`. -/
structure OrdMap (r : K → K → Prop) (V : Type*) where
  entries : List (K × V)
  sorted : entries.Pairwise (fun a b => r a.1 b.1)

namespace OrdMap

def empty : OrdMap r V := ⟨[], List.Pairwise.nil⟩

def begin? (m : OrdMap r V) : Option (K × V) := m.entries.head?

theorem begin?_eq_none_iff {m : OrdMap r V} : m.begin? = none ↔ m.entries = [] :=
  List.head?_eq_none_iff

theorem begin?_mem {m : OrdMap r V} {k : K} {v : V} (h : m.begin? = some (k, v)) :
    (k, v) ∈ m.entries := List.mem_of_mem_head? h

/-- The first binding precedes every other one. -/
theorem begin?_least {m : OrdMap r V} {k : K} {v : V} (h : m.begin? = some (k, v))
    {e : K × V} (he : e ∈ m.entries) : e = (k, v) ∨ r k e.1 := by
  obtain ⟨rest, hrest⟩ := List.head?_eq_some_iff.mp h
  have hs := m.sorted
  rw [hrest] at he hs
  rcases List.mem_cons.mp he with rfl | he
  · exact Or.inl rfl
  · exact Or.inr ((List.pairwise_cons.mp hs).1 e he)

section Lookup
variable [DecidableEq K]

theorem lookup_cons_ite (e : K × V) (l : List (K × V)) (k : K) :
    (e :: l).lookup k = if k = e.1 then some e.2 else l.lookup k := by
  rw [List.lookup_cons]
  by_cases h : k = e.1
  · simp [h]
  · simp [h, beq_eq_false_iff_ne.mpr h]

def find? (m : OrdMap r V) (k : K) : Option V := m.entries.lookup k

@[simp] theorem find?_empty (k : K) : (empty : OrdMap r V).find? k = none := rfl

theorem mem_of_find? {m : OrdMap r V} {k : K} {v : V} (h : m.find? k = some v) :
    (k, v) ∈ m.entries := by
  obtain ⟨l₁, l₂, hl, _⟩ := List.lookup_eq_some_iff.mp h
  simp [hl]

theorem find?_eq_none_iff {m : OrdMap r V} {k : K} :
    m.find? k = none ↔ ∀ e ∈ m.entries, e.1 ≠ k := by
  simp only [find?, List.lookup_eq_none_iff, bne_iff_ne, ne_eq]
  exact forall₂_congr (fun e _ => not_congr eq_comm)

def eraseEntries (k : K) (l : List (K × V)) : List (K × V) := l.filter (fun e => e.1 ≠ k)

def erase (m : OrdMap r V) (k : K) : OrdMap r V :=
  ⟨eraseEntries k m.entries, m.sorted.filter _⟩

theorem mem_erase {m : OrdMap r V} {k : K} {e : K × V} :
    e ∈ (m.erase k).entries ↔ e ∈ m.entries ∧ e.1 ≠ k := by
  simp [erase, eraseEntries]

end Lookup

section Order
variable [DecidableEq K] [IsStrictTotalOrder K r]

theorem find?_eq_some_iff {m : OrdMap r V} {k : K} {v : V} :
    m.find? k = some v ↔ (k, v) ∈ m.entries := by
  refine ⟨mem_of_find?, fun h => ?_⟩
  obtain ⟨l₁, l₂, hl⟩ := List.append_of_mem h
  refine List.lookup_eq_some_iff.mpr ⟨l₁, l₂, hl, ?_⟩
  intro e he
  have hs := m.sorted
  rw [hl, List.pairwise_append] at hs
  have hr : r e.1 k := hs.2.2 e he (k, v) List.mem_cons_self
  have hne : k ≠ e.1 := fun h => irrefl_of r k (h ▸ hr)
  simpa using hne

omit [DecidableEq K] in
theorem keys_nodup (m : OrdMap r V) : (m.entries.map Prod.fst).Nodup := by
  refine List.pairwise_map.mpr (m.sorted.imp ?_)
  intro a b hab he
  exact irrefl_of r b.1 (by rwa [he] at hab)

omit [DecidableEq K] in
/-- Bindings in increasing key order are determined by which bindings they are. -/
theorem eq_of_sorted_of_mem_iff {l l' : List (K × V)} (hl : l.Pairwise (fun a b => r a.1 b.1))
    (hl' : l'.Pairwise (fun a b => r a.1 b.1)) (hmem : ∀ e, e ∈ l ↔ e ∈ l') : l = l' := by
  have hnodup : ∀ {l : List (K × V)}, l.Pairwise (fun a b => r a.1 b.1) → l.Nodup := by
    intro l hl
    refine hl.imp ?_
    rintro a b hab rfl
    exact irrefl_of r a.1 hab
  have hperm : l.Perm l' := (List.perm_ext_iff_of_nodup (hnodup hl) (hnodup hl')).mpr hmem
  apply hperm.eq_of_pairwise ?_ hl hl'
  intro a b _ _ hab hba
  exact absurd (trans_of r hab hba) (irrefl_of r a.1)

/-- Lookup alone determines the map. -/
theorem ext_find? {m m' : OrdMap r V} (h : ∀ k, m.find? k = m'.find? k) : m = m' := by
  have heq : m.entries = m'.entries := by
    refine eq_of_sorted_of_mem_iff m.sorted m'.sorted ?_
    intro e
    rw [← find?_eq_some_iff, ← find?_eq_some_iff, h]
  cases m
  cases m'
  cases heq
  rfl

theorem find?_of_begin? {m : OrdMap r V} {k : K} {v : V} (h : m.begin? = some (k, v)) :
    m.find? k = some v := find?_eq_some_iff.mpr (begin?_mem h)

theorem find?_erase (m : OrdMap r V) (k k' : K) :
    (m.erase k).find? k' = if k' = k then none else m.find? k' := by
  split_ifs with h
  · subst h
    exact find?_eq_none_iff.mpr (fun e he => (mem_erase.mp he).2)
  · ext v
    rw [find?_eq_some_iff, find?_eq_some_iff, mem_erase]
    exact and_iff_left h

variable [DecidableRel r]

def setEntries (r : K → K → Prop) [DecidableRel r] (k : K) (v : V) : List (K × V) → List (K × V)
  | [] => [(k, v)]
  | e :: rest =>
    if r k e.1 then (k, v) :: e :: rest
    else if k = e.1 then (k, v) :: rest
    else e :: setEntries r k v rest

omit [IsStrictTotalOrder K r] in
theorem fst_mem_setEntries {k : K} {v : V} {l : List (K × V)} {e : K × V}
    (he : e ∈ setEntries r k v l) : e = (k, v) ∨ e ∈ l := by
  induction l with
  | nil => simpa [setEntries] using he
  | cons a rest ih =>
    simp only [setEntries] at he
    split_ifs at he with h₁ h₂
    · exact (List.mem_cons.mp he).imp id id
    · exact (List.mem_cons.mp he).imp id (List.mem_cons_of_mem _)
    · rcases List.mem_cons.mp he with rfl | he
      · exact Or.inr List.mem_cons_self
      · exact (ih he).imp id (List.mem_cons_of_mem _)

theorem setEntries_sorted (k : K) (v : V) {l : List (K × V)}
    (hl : l.Pairwise (fun a b => r a.1 b.1)) :
    (setEntries r k v l).Pairwise (fun a b => r a.1 b.1) := by
  induction l with
  | nil => simp [setEntries]
  | cons a rest ih =>
    obtain ⟨ha, hrest⟩ := List.pairwise_cons.mp hl
    simp only [setEntries]
    split_ifs with h₁ h₂
    · refine List.pairwise_cons.mpr ⟨?_, hl⟩
      intro e he
      rcases List.mem_cons.mp he with rfl | he
      · exact h₁
      · exact trans_of r h₁ (ha e he)
    · subst h₂
      exact List.pairwise_cons.mpr ⟨ha, hrest⟩
    · refine List.pairwise_cons.mpr ⟨?_, ih hrest⟩
      intro e he
      rcases fst_mem_setEntries he with rfl | he
      · exact ((trichotomous_of r k a.1).resolve_left h₁).resolve_left h₂
      · exact ha e he

/-- Insert the binding, or overwrite the value already stored under its key. -/
def set (m : OrdMap r V) (k : K) (v : V) : OrdMap r V :=
  ⟨setEntries r k v m.entries, setEntries_sorted k v m.sorted⟩

theorem find?_set (m : OrdMap r V) (k : K) (v : V) (k' : K) :
    (m.set k v).find? k' = if k' = k then some v else m.find? k' := by
  obtain ⟨l, hl⟩ := m
  simp only [find?, set]
  induction l with
  | nil => simp [setEntries, lookup_cons_ite]
  | cons a rest ih =>
    have ih := ih (List.pairwise_cons.mp hl).2
    simp only [setEntries]
    split_ifs with h₁ h₂ h₃ h₃ <;> simp_all [lookup_cons_ite]

/-- Insert the binding unless its key is taken. -/
def emplace (m : OrdMap r V) (k : K) (v : V) : OrdMap r V :=
  if (m.find? k).isSome then m else m.set k v

theorem find?_emplace (m : OrdMap r V) (k : K) (v : V) (k' : K) :
    (m.emplace k v).find? k' = (m.find? k').or (if k' = k then some v else none) := by
  unfold emplace
  split_ifs with hs hk hk
  · obtain ⟨w, hw⟩ := Option.isSome_iff_exists.mp hs
    rw [hk, hw]
    rfl
  · exact Option.or_none.symm
  · rw [find?_set, if_pos hk, hk, Option.not_isSome_iff_eq_none.mp hs]
    rfl
  · rw [find?_set, if_neg hk]
    exact Option.or_none.symm

end Order

/-! ## One binding in place -/

section Split
variable {m : OrdMap r V} {k : K} {v : V} {l₁ l₂ : List (K × V)}

theorem lt_of_split (h : m.entries = l₁ ++ (k, v) :: l₂) : ∀ e ∈ l₁, r e.1 k := by
  have hs := m.sorted
  rw [h, List.pairwise_append] at hs
  exact fun e he => hs.2.2 e he (k, v) List.mem_cons_self

theorem gt_of_split (h : m.entries = l₁ ++ (k, v) :: l₂) : ∀ e ∈ l₂, r k e.1 := by
  have hs := m.sorted
  rw [h, List.pairwise_append] at hs
  exact (List.pairwise_cons.mp hs.2.1).1

theorem ne_of_split [IsStrictTotalOrder K r] (h : m.entries = l₁ ++ (k, v) :: l₂) : ∀ e ∈ l₁ ++ l₂, e.1 ≠ k := by
  rintro e he rfl
  rcases List.mem_append.mp he with he | he
  · exact irrefl_of r e.1 (lt_of_split h e he)
  · exact irrefl_of r e.1 (gt_of_split h e he)

variable [DecidableEq K] [IsStrictTotalOrder K r]

theorem entries_erase (h : m.entries = l₁ ++ (k, v) :: l₂) :
    (m.erase k).entries = l₁ ++ l₂ := by
  have hne := ne_of_split h
  have hout : ∀ l : List (K × V), (∀ e ∈ l, e.1 ≠ k) → l.filter (fun e => e.1 ≠ k) = l :=
    fun l hl => List.filter_eq_self.mpr (fun e he => decide_eq_true (hl e he))
  simp only [erase, eraseEntries, h, List.filter_append]
  rw [hout l₁ (fun e he => hne e (List.mem_append_left _ he)),
    List.filter_cons_of_neg (by simp), hout l₂ (fun e he => hne e (List.mem_append_right _ he))]

theorem entries_set [DecidableRel r] (h : m.entries = l₁ ++ (k, v) :: l₂) (v' : V) :
    (m.set k v').entries = l₁ ++ (k, v') :: l₂ := by
  have hlt := lt_of_split h
  show setEntries r k v' m.entries = _
  rw [h]
  clear h
  induction l₁ with
  | nil => simp [setEntries, irrefl_of r k]
  | cons e l₁ ih =>
    have he : r e.1 k := hlt e List.mem_cons_self
    have hnot : ¬ r k e.1 := fun hk => irrefl_of r k (trans_of r hk he)
    have hne : k ≠ e.1 := fun heq => irrefl_of r k (heq ▸ he)
    simp only [List.cons_append, setEntries, if_neg hnot, if_neg hne]
    rw [ih (fun e' he' => hlt e' (List.mem_cons_of_mem e he'))]

end Split

theorem length_erase_lt [DecidableEq K] {m : OrdMap r V} {k : K} {v : V} (h : m.find? k = some v) :
    (m.erase k).entries.length < m.entries.length := by
  apply List.length_filter_lt_length_iff_exists.mpr
  exact ⟨(k, v), mem_of_find? h, by simp⟩

/-! ## Iterators

An iterator is the key it points at, or `none` past the end. -/

section Iterators

def keys (m : OrdMap r V) : List K := m.entries.map Prod.fst

theorem keys_sorted (m : OrdMap r V) : m.keys.Pairwise r := List.pairwise_map.mpr m.sorted

def firstKey? (m : OrdMap r V) : Option K := m.keys.head?

variable [DecidableRel r]

/-- The iterator after the one at `k`. -/
def nextKey? (m : OrdMap r V) (k : K) : Option K := m.keys.find? (fun q => decide (r k q))

/-- The key comes before the iterator. -/
def isBefore (r : K → K → Prop) [DecidableRel r] (it : Option K) (k : K) : Bool :=
  match it with
  | none => true
  | some q => decide (r k q)

/-- The iterator before `it`. -/
def prevKey? (m : OrdMap r V) (it : Option K) : Option K := (m.keys.filter (isBefore r it)).getLast?

theorem nextKey?_mem {m : OrdMap r V} {k q : K} (h : m.nextKey? k = some q) :
    q ∈ m.keys ∧ r k q := by
  have hr := List.find?_some h
  exact ⟨List.mem_of_find?_eq_some h, of_decide_eq_true hr⟩

theorem prevKey?_mem {m : OrdMap r V} {it : Option K} {k : K} (h : m.prevKey? it = some k) :
    k ∈ m.keys ∧ isBefore r it k = true :=
  List.mem_filter.mp (List.mem_of_getLast? h)

theorem prevKey?_isSome {m : OrdMap r V} {it : Option K} {k : K} (hk : k ∈ m.keys)
    (hb : isBefore r it k = true) : ∃ q, m.prevKey? it = some q := by
  refine Option.isSome_iff_exists.mp (List.getLast?_isSome.mpr ?_)
  exact List.ne_nil_of_mem (List.mem_filter.mpr ⟨hk, hb⟩)

omit [DecidableRel r] in
theorem entries_eq_nil_of_firstKey? {m : OrdMap r V} (h : m.firstKey? = none) : m.entries = [] :=
  List.map_eq_nil_iff.mp (List.head?_eq_none_iff.mp h)

omit [DecidableRel r] in
theorem exists_split_of_firstKey? {m : OrdMap r V} {k : K} (h : m.firstKey? = some k) :
    ∃ v l, m.entries = (k, v) :: l := by
  unfold firstKey? keys at h
  rw [List.head?_map] at h
  obtain ⟨⟨_, v⟩, he, rfl⟩ := Option.map_eq_some_iff.mp h
  obtain ⟨l, hl⟩ := List.head?_eq_some_iff.mp he
  exact ⟨v, l, hl⟩

/-- The predecessor of the end is the last binding. -/
theorem exists_split_of_prevKey? {m : OrdMap r V} {k : K} (h : m.prevKey? none = some k) :
    ∃ v l, m.entries = l ++ [(k, v)] := by
  have hall : m.keys.filter (isBefore r none) = m.keys := List.filter_eq_self.mpr (fun _ _ => rfl)
  unfold prevKey? at h
  rw [hall, keys, List.getLast?_map] at h
  obtain ⟨⟨_, v⟩, he, rfl⟩ := Option.map_eq_some_iff.mp h
  obtain ⟨l, hl⟩ := List.getLast?_eq_some_iff.mp he
  exact ⟨v, l, hl⟩

theorem nextKey?_eq_firstKey? {m : OrdMap r V} {k : K} (h : ∀ e ∈ m.entries, r k e.1) :
    m.nextKey? k = m.firstKey? := by
  have hkeys : ∀ q ∈ m.keys, r k q := by
    intro q hq
    obtain ⟨e, he, rfl⟩ := List.mem_map.mp hq
    exact h e he
  unfold nextKey? firstKey?
  cases hk : m.keys with
  | nil => rfl
  | cons q rest =>
    have hq : r k q := hkeys q (by rw [hk]; exact List.mem_cons_self)
    simp [hq]

theorem nextKey?_eq_none {m : OrdMap r V} {k : K} (h : ∀ e ∈ m.entries, ¬ r k e.1) :
    m.nextKey? k = none := by
  refine List.find?_eq_none.mpr ?_
  intro q hq
  obtain ⟨e, he, rfl⟩ := List.mem_map.mp hq
  simpa using h e he

section StrictTotal
variable [DecidableEq K] [IsStrictTotalOrder K r] {m : OrdMap r V} {it : Option K} {k : K}

omit [DecidableEq K] [IsStrictTotalOrder K r] in
/-- An iterator that is not the first one has a predecessor. -/
theorem exists_prevKey? (hit : ∀ q ∈ it, q ∈ m.keys) (hne : it ≠ m.firstKey?) :
    ∃ q, m.prevKey? it = some q := by
  cases hk : m.keys with
  | nil =>
    cases it with
    | none => exact absurd (by rw [firstKey?, hk]; rfl) hne
    | some q => exact absurd (hit q rfl) (by simp [hk])
  | cons k rest =>
    have hfirst : k ∈ m.keys := by simp [hk]
    refine prevKey?_isSome hfirst ?_
    cases it with
    | none => rfl
    | some q =>
      have hs := m.keys_sorted
      have hq := hit q rfl
      rw [hk] at hs hq
      rcases List.mem_cons.mp hq with rfl | hq
      · exact absurd (by rw [firstKey?, hk]; rfl) hne
      · exact decide_eq_true ((List.pairwise_cons.mp hs).1 q hq)

omit [DecidableEq K] in
/-- Moving down to a key leaves fewer keys before the iterator. -/
theorem length_before_lt (hk : k ∈ m.keys) (hb : isBefore r it k = true) :
    (m.keys.filter (isBefore r (some k))).length < (m.keys.filter (isBefore r it)).length := by
  refine length_filter_lt_of_imp ?_ hk hb (decide_eq_false (irrefl_of r k))
  intro a _ ha
  have hak : r a k := of_decide_eq_true ha
  cases it with
  | none => rfl
  | some q => exact decide_eq_true (trans_of r hak (of_decide_eq_true hb))

omit [DecidableEq K] in
/-- Nothing lies between an iterator and the next one. -/
theorem isBefore_nextKey? {q : K} (hq : q ∈ m.keys) (hne : q ≠ k)
    (hb : isBefore r (m.nextKey? k) q = true) : r q k := by
  rcases trichotomous_of r q k with h | h | hkq
  · exact h
  · exact absurd h hne
  exfalso
  cases hn : m.nextKey? k with
  | none => exact List.find?_eq_none.mp hn q hq (decide_eq_true hkq)
  | some p =>
    rw [hn] at hb
    have hqp : r q p := of_decide_eq_true hb
    obtain ⟨_, l₁, l₂, hl, hno⟩ := List.find?_eq_some_iff_append.mp hn
    have hs := m.keys_sorted
    rw [hl, List.pairwise_append] at hs
    rw [hl] at hq
    rcases List.mem_append.mp hq with hq | hq
    · simpa [hkq] using hno q hq
    · rcases List.mem_cons.mp hq with rfl | hq
      · exact irrefl_of r q hqp
      · exact irrefl_of r q (trans_of r hqp ((List.pairwise_cons.mp hs.2.1).1 q hq))

omit [IsStrictTotalOrder K r] [DecidableRel r] in
theorem keys_erase (m : OrdMap r V) (k : K) : (m.erase k).keys = m.keys.filter (fun q => q ≠ k) := by
  unfold keys erase eraseEntries
  rw [List.filter_map]
  rfl

theorem keys_set (hk : k ∈ m.keys) (v : V) : (m.set k v).keys = m.keys := by
  obtain ⟨l, hl⟩ := m
  unfold keys set at *
  induction l with
  | nil => cases hk
  | cons e rest ih =>
    obtain ⟨he, hrest⟩ := List.pairwise_cons.mp hl
    simp only [setEntries]
    split_ifs with h₁ h₂
    · rcases List.mem_cons.mp hk with rfl | hk
      · exact absurd h₁ (irrefl_of r _)
      · obtain ⟨e', he', rfl⟩ := List.mem_map.mp hk
        exact absurd (trans_of r h₁ (he e' he')) (irrefl_of r _)
    · rw [List.map_cons, List.map_cons, h₂]
    · have hk : k ∈ rest.map Prod.fst := (List.mem_cons.mp hk).resolve_left h₂
      rw [List.map_cons, List.map_cons, ih hrest hk]

omit [DecidableRel r] [IsStrictTotalOrder K r] in
theorem mem_keys_iff : k ∈ m.keys ↔ ∃ v, m.find? k = some v := by
  rw [← Option.ne_none_iff_exists', ne_eq, find?_eq_none_iff]
  simp [keys]

end StrictTotal
end Iterators
end OrdMap

/-! ## Comparators on machine words -/

instance strictTotalOrderUInt64 : IsStrictTotalOrder UInt64 (fun a b => a < b) where
  irrefl a h := Nat.lt_irrefl _ (UInt64.lt_iff_toNat_lt.mp h)
  trans a b c hab hbc := by
    rw [UInt64.lt_iff_toNat_lt] at *
    omega
  trichotomous a b hab hba := by
    rw [UInt64.lt_iff_toNat_lt] at *
    apply UInt64.toNat_inj.mp
    omega

instance strictTotalOrderInt64 : IsStrictTotalOrder Int64 (fun a b => a < b) where
  irrefl a h := Int.lt_irrefl _ (Int64.lt_iff_toInt_lt.mp h)
  trans a b c hab hbc := by
    rw [Int64.lt_iff_toInt_lt] at *
    omega
  trichotomous a b hab hba := by
    rw [Int64.lt_iff_toInt_lt] at *
    apply Int64.toInt_inj.mp
    omega

instance strictTotalOrderInt64Gt : IsStrictTotalOrder Int64 (fun a b => a > b) :=
  inferInstanceAs (IsStrictTotalOrder Int64 (Function.swap fun a b => a < b))

end HftExercises
