import Mathlib.Data.List.Nodup
import Mathlib.Data.Nat.Notation

/-! # A vector of strings and where their characters are

Every block of storage has a number of its own, which is not given out again. A
short string keeps its characters inside the string object and so inside the
vector's buffer; the characters of a long one are in a heap block. When the
vector is full it moves its strings to a new buffer: a moved string takes its
heap block along, and its object is gone.
-/
namespace HftExercises
variable {C : Type*}

/-- Up to this length a string needs no heap block. -/
def localCapacity : ℕ := 15

structure StringObject (C : Type*) where
  chars : List C
  heap : Option ℕ

structure StringVector (C : Type*) where
  buffer : ℕ
  capacity : ℕ
  strings : List (StringObject C)
  /-- the number of the next block -/
  next : ℕ

/-- The address of the first character. -/
inductive Location where
  | inside (buffer slot : ℕ)
  | heap (block : ℕ)
  deriving DecidableEq, Repr

structure StringView where
  data : Location
  size : ℕ
  deriving DecidableEq, Repr

namespace StringVector

def empty : StringVector C := ⟨0, 0, [], 1⟩

def texts (v : StringVector C) : List (List C) := v.strings.map StringObject.chars

/-- A string object with the given characters, and the number of the next block. -/
def construct (v : StringVector C) (s : List C) : StringObject C × ℕ :=
  if s.length ≤ localCapacity then (⟨s, none⟩, v.next) else (⟨s, some v.next⟩, v.next + 1)

/-- `grow` is the capacity the implementation asks for when the vector is full. -/
def emplaceBack (grow : ℕ → ℕ) (v : StringVector C) (s : List C) : StringVector C :=
  let made := v.construct s
  if v.strings.length = v.capacity then
    { buffer := made.2
      capacity := max (grow v.capacity) (v.strings.length + 1)
      strings := v.strings ++ [made.1]
      next := made.2 + 1 }
  else { v with strings := v.strings ++ [made.1], next := made.2 }

/-- The strings are destroyed, the buffer stays. -/
def clear (v : StringVector C) : StringVector C := { v with strings := [] }

/-- The view of the string in a slot. -/
def view (v : StringVector C) (i : ℕ) : Option StringView :=
  v.strings[i]?.map fun o => ⟨(o.heap.map Location.heap).getD (.inside v.buffer i), o.chars.length⟩

/-- The string whose characters start at an address. -/
def ownerAt (v : StringVector C) : Location → Option (StringObject C)
  | .inside buffer slot =>
    if buffer = v.buffer then v.strings[slot]?.filter (fun o => o.heap.isNone) else none
  | .heap block => v.strings.find? fun o => decide (o.heap = some block)

/-- The characters a view designates; `none` when there is no storage behind it. -/
def read (v : StringVector C) (w : StringView) : Option (List C) :=
  (v.ownerAt w.data).bind fun o => if w.size ≤ o.chars.length then some (o.chars.take w.size) else none

structure Valid (v : StringVector C) : Prop where
  fits : v.strings.length ≤ v.capacity
  buffer : v.buffer < v.next
  heap : ∀ o ∈ v.strings, ∀ block, o.heap = some block → block < v.next
  blocks : (v.strings.filterMap StringObject.heap).Nodup
  short : ∀ o ∈ v.strings, o.heap = none ↔ o.chars.length ≤ localCapacity

/-- Strings were added behind those of `v`. They are in another buffer if and only if
they have outgrown the capacity. -/
structure Extends (v v' : StringVector C) : Prop where
  strings : v.strings <+: v'.strings
  same : v'.strings.length ≤ v.capacity → v'.buffer = v.buffer ∧ v'.capacity = v.capacity
  moved : v.capacity < v'.strings.length → v.buffer < v'.buffer
  buffer_le : v.buffer ≤ v'.buffer

variable {v v' : StringVector C}

theorem valid_empty : Valid (empty : StringVector C) :=
  ⟨Nat.le_refl 0, Nat.one_pos, nofun, List.nodup_nil, nofun⟩

@[simp] theorem texts_empty : texts (empty : StringVector C) = [] := rfl

@[simp] theorem texts_clear (v : StringVector C) : v.clear.texts = [] := rfl

theorem construct_chars (v : StringVector C) (s : List C) : (v.construct s).1.chars = s := by
  simp only [construct]
  split_ifs <;> rfl

theorem construct_heap (v : StringVector C) (s : List C) :
    (s.length ≤ localCapacity ∧ (v.construct s).1.heap = none ∧ (v.construct s).2 = v.next) ∨
      (localCapacity < s.length ∧ (v.construct s).1.heap = some v.next ∧
        (v.construct s).2 = v.next + 1) := by
  simp only [construct]
  split_ifs with hs
  · exact .inl ⟨hs, rfl, rfl⟩
  · exact .inr ⟨Nat.lt_of_not_le hs, rfl, rfl⟩

theorem strings_emplaceBack (grow : ℕ → ℕ) (v : StringVector C) (s : List C) :
    (v.emplaceBack grow s).strings = v.strings ++ [(v.construct s).1] := by
  simp only [emplaceBack]
  split_ifs <;> rfl

@[simp] theorem texts_emplaceBack (grow : ℕ → ℕ) (v : StringVector C) (s : List C) :
    (v.emplaceBack grow s).texts = v.texts ++ [s] := by
  simp [texts, strings_emplaceBack, construct_chars]

/-- Where the strings are after one more: in a new buffer if the vector was full. -/
theorem emplaceBack_buffer (grow : ℕ → ℕ) (hv : v.Valid) (s : List C) :
    (v.strings.length = v.capacity ∧ v.next ≤ (v.emplaceBack grow s).buffer ∧
      (v.emplaceBack grow s).buffer < (v.emplaceBack grow s).next ∧
      v.strings.length < (v.emplaceBack grow s).capacity) ∨
    (v.strings.length < v.capacity ∧ (v.emplaceBack grow s).buffer = v.buffer ∧
      (v.emplaceBack grow s).capacity = v.capacity ∧
      v.next ≤ (v.emplaceBack grow s).next) := by
  have hnext : v.next ≤ (v.construct s).2 := by
    rcases construct_heap v s with ⟨_, _, h⟩ | ⟨_, _, h⟩ <;> omega
  have hfits := hv.fits
  simp only [emplaceBack]
  split_ifs with hfull
  · exact .inl ⟨hfull, hnext, Nat.lt_succ_self _, by dsimp only; omega⟩
  · exact .inr ⟨by omega, rfl, rfl, hnext⟩

theorem next_lt_emplaceBack (grow : ℕ → ℕ) (v : StringVector C) (s : List C) :
    (v.construct s).2 ≤ (v.emplaceBack grow s).next := by
  simp only [emplaceBack]
  split_ifs
  · exact Nat.le_succ _
  · exact Nat.le_refl _

theorem Valid.emplaceBack (hv : v.Valid) (grow : ℕ → ℕ) (s : List C) :
    (v.emplaceBack grow s).Valid := by
  have hbuffer := emplaceBack_buffer grow hv s
  have hnext := next_lt_emplaceBack grow v s
  have hmade := construct_heap v s
  have hlt := hv.buffer
  constructor
  case fits =>
    rw [strings_emplaceBack, List.length_append, List.length_singleton]
    omega
  case buffer => omega
  case heap =>
    intro o ho block hblock
    rw [strings_emplaceBack] at ho
    rcases List.mem_append.mp ho with ho | ho
    · have hold := hv.heap o ho block hblock
      omega
    · rw [List.mem_singleton.mp ho] at hblock
      rcases hmade with ⟨_, hnone, _⟩ | ⟨_, hsome, hn⟩
      · rw [hnone] at hblock
        cases hblock
      · rw [hsome] at hblock
        cases hblock
        omega
  case blocks =>
    rw [strings_emplaceBack, List.filterMap_append, List.nodup_append]
    refine ⟨hv.blocks, ?_, ?_⟩
    · rcases hmade with ⟨_, h, _⟩ | ⟨_, h, _⟩ <;> simp [h]
    · intro a ha b hb
      obtain ⟨o, ho, hoa⟩ := List.mem_filterMap.mp ha
      have hold := hv.heap o ho a hoa
      rcases hmade with ⟨_, h, _⟩ | ⟨_, h, _⟩
      · simp [h] at hb
      · simp only [List.filterMap_cons, h, List.filterMap_nil, List.mem_singleton] at hb
        omega
  case short =>
    intro o ho
    rw [strings_emplaceBack] at ho
    rcases List.mem_append.mp ho with ho | ho
    · exact hv.short o ho
    · rw [List.mem_singleton.mp ho, construct_chars]
      rcases hmade with ⟨hs, h, _⟩ | ⟨hs, h, _⟩
      · simp [h, hs]
      · simpa [h] using hs

theorem Valid.clear (hv : v.Valid) : v.clear.Valid :=
  ⟨Nat.zero_le _, hv.buffer, nofun, List.nodup_nil, nofun⟩

theorem Extends.refl (hv : v.Valid) : Extends v v :=
  ⟨List.prefix_rfl, fun _ => ⟨rfl, rfl⟩, fun h => absurd hv.fits (Nat.not_le.mpr h), Nat.le_refl _⟩

theorem Extends.emplaceBack (h : Extends v v') (hv' : v'.Valid) (grow : ℕ → ℕ) (s : List C) :
    Extends v (v'.emplaceBack grow s) := by
  have hbuffer := emplaceBack_buffer grow hv' s
  have hlt := hv'.buffer
  have hle := h.buffer_le
  constructor
  case strings =>
    rw [strings_emplaceBack]
    exact h.strings.trans (List.prefix_append _ _)
  case same =>
    intro hfit
    rw [strings_emplaceBack, List.length_append, List.length_singleton] at hfit
    obtain ⟨hb, hc⟩ := h.same (by omega)
    omega
  case moved =>
    intro hover
    rw [strings_emplaceBack, List.length_append, List.length_singleton] at hover
    by_cases hold : v.capacity < v'.strings.length
    · have hmoved := h.moved hold
      omega
    · obtain ⟨hb, hc⟩ := h.same (by omega)
      omega
  case buffer_le => omega

/-- The only string with a given heap block. -/
theorem find?_block {l : List (StringObject C)} (hl : (l.filterMap StringObject.heap).Nodup)
    {o : StringObject C} (ho : o ∈ l) {block : ℕ} (hblock : o.heap = some block) :
    l.find? (fun o => decide (o.heap = some block)) = some o := by
  induction l with
  | nil => cases ho
  | cons x l ih =>
    by_cases hx : x.heap = some block
    · rw [List.find?_cons_of_pos (by simpa using hx)]
      rcases List.mem_cons.mp ho with rfl | ho
      · rfl
      · rw [List.filterMap_cons_some hx] at hl
        exact absurd (List.mem_filterMap.mpr ⟨o, ho, hblock⟩) (List.nodup_cons.mp hl).1
    · have ho' : o ∈ l := (List.mem_cons.mp ho).resolve_left fun he => hx (he ▸ hblock)
      rw [List.find?_cons_of_neg (by simpa using hx)]
      exact ih (hl.sublist ((List.sublist_cons_self x l).filterMap _)) ho'

/-- A view of a string keeps designating its characters if and only if the string is a
long one or the vector has not outgrown the capacity it had. -/
theorem read_view_iff (h : Extends v v') (hv : v.Valid) (hv' : v'.Valid) {i : ℕ}
    {o : StringObject C} (ho : v.strings[i]? = some o) {w : StringView} (hw : v.view i = some w) :
    v'.read w = some o.chars ↔
      localCapacity < o.chars.length ∨ v'.strings.length ≤ v.capacity := by
  have hmem : o ∈ v.strings := List.mem_of_getElem? ho
  have hmem' : o ∈ v'.strings := h.strings.subset hmem
  have hshort := hv.short o hmem
  rw [view, ho, Option.map_some, Option.some.injEq] at hw
  subst hw
  cases hheap : o.heap with
  | some block =>
    have hlong : localCapacity < o.chars.length := by
      rw [hheap] at hshort
      simpa using hshort
    simp [read, ownerAt, find?_block hv'.blocks hmem' hheap, hlong]
  | none =>
    have hlen : ¬ localCapacity < o.chars.length := Nat.not_lt.mpr (hshort.mp hheap)
    by_cases hfit : v'.strings.length ≤ v.capacity
    · have hget : v'.strings[i]? = some o := by
        obtain ⟨more, hmore⟩ := h.strings
        rw [← hmore, List.getElem?_append_left (List.getElem?_eq_some_iff.mp ho).1, ho]
      simp [read, ownerAt, (h.same hfit).1, hget, hfit, Option.filter, hheap]
    · have hne : v.buffer ≠ v'.buffer := Nat.ne_of_lt (h.moved (Nat.lt_of_not_le hfit))
      simp [read, ownerAt, hne, hfit, hlen]

/-- A view is read at once. -/
theorem view_bind_read (hv : v.Valid) (i : ℕ) : (v.view i).bind v.read = v.texts[i]? := by
  rw [texts, List.getElem?_map]
  cases ho : v.strings[i]? with
  | none => simp [view, ho]
  | some o =>
    obtain ⟨w, hw⟩ : ∃ w, v.view i = some w := by simp [view, ho]
    rw [hw, Option.bind_some, Option.map_some]
    exact (read_view_iff (.refl hv) hv hv ho hw).mpr (.inr hv.fits)

end StringVector
end HftExercises
