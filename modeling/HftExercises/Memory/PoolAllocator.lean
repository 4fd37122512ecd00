import HftExercises.Core.History
import Mathlib.Data.List.Nodup
import Mathlib.Data.List.Perm.Basic
import Mathlib.Data.UInt
import Mathlib.Logic.Function.Basic

/-! # The memory pool

The free slots of the arena are threaded through their own storage: the first word of a
free slot is the index of the next one. Addresses are numbers, and an access outside the
arena, a read of a link where none was written and a destructor of what was never
constructed are undefined.
-/
namespace HftExercises.PoolAlloc

/-- `sizeof(T)` and `alignof(T)`. -/
structure Layout where
  size : ℕ
  align : ℕ
  size_pos : 0 < size
  size_lt : size < 2 ^ 63
  align_dvd : align ∣ size

/-- `alignof(std::max_align_t)` -/
def maxAlign : ℕ := 16

/-- `sizeof(void*)`, which is `sizeof(std::size_t)` too. -/
def wordBytes : ℕ := 8

def kSentinel : ℕ := 2 ^ 64 - 1

namespace Layout

def slotAlign (l : Layout) : ℕ := if l.align > maxAlign then l.align else maxAlign

def slotBytes (l : Layout) : ℕ :=
  if l.size > wordBytes then (l.size + l.slotAlign - 1) / l.slotAlign * l.slotAlign else wordBytes

/-- The argument of `::operator new`. -/
def request (l : Layout) (capacity : UInt64) : ℕ := capacity.toNat * l.slotBytes % 2 ^ 64

end Layout

/-- What the constructor sets once and for all. No object, and so no block that
`::operator new` returns, is larger than the largest `std::ptrdiff_t`. -/
structure Arena where
  layout : Layout
  capacity : UInt64
  base : ℕ
  small : layout.request capacity < 2 ^ 63
  fits : base + layout.request capacity ≤ 2 ^ 64

inductive Cell where
  | raw
  | link (next : ℕ)
  | object (id : ℕ)
  deriving DecidableEq, Repr

/-- `cells` tells what begins at each byte of the arena. The objects are numbered as they
are constructed; `destroyed` lists those whose destructor ran, and `overwritten` what the
writes of links found. -/
structure Pool where
  head : ℕ
  cells : ℕ → Cell
  constructed : ℕ
  destroyed : List ℕ
  overwritten : List Cell

inductive Result where
  | pointer (p : Option ℕ)
  | thrown
  | released
  deriving DecidableEq, Repr

namespace Arena
variable (A : Arena)

def bytes : ℕ := A.layout.request A.capacity

def offset (idx : ℕ) : ℕ := idx * A.layout.slotBytes % 2 ^ 64

def slotPtr (idx : ℕ) : ℕ := A.base + A.offset idx

/-- The distance of an address from the first of the arena, as a `std::size_t`. -/
def distance (p : ℕ) : ℕ := (p + 2 ^ 64 - A.base) % 2 ^ 64

def slotIndex (p : ℕ) : ℕ := A.distance p / A.layout.slotBytes

def setLink (s : Pool) (idx next : ℕ) : Option Pool :=
  if A.offset idx + wordBytes ≤ A.bytes then
    some { s with
      cells := Function.update s.cells (A.offset idx) (.link next)
      overwritten := s.overwritten ++ [s.cells (A.offset idx)] }
  else none

def getLink (s : Pool) (idx : ℕ) : Option ℕ :=
  if A.offset idx + wordBytes ≤ A.bytes then
    match s.cells (A.offset idx) with
    | .link next => some next
    | _ => none
  else none

/-- `::new (slot_ptr(idx)) T()`. A constructor that throws leaves bytes of its own. -/
def placeAt (s : Pool) (idx : ℕ) (throws : Bool) : Option (Result × Pool) :=
  if A.offset idx + A.layout.size ≤ A.bytes then
    if throws then
      some (.thrown, { s with cells := Function.update s.cells (A.offset idx) .raw })
    else
      some (.pointer (some (A.slotPtr idx)), { s with
        cells := Function.update s.cells (A.offset idx) (.object s.constructed)
        constructed := s.constructed + 1 })
  else none

/-- `~T()` of the object at an address. -/
def destroyAt (s : Pool) (p : ℕ) : Option Pool :=
  match s.cells (A.distance p) with
  | .object id => some { s with
      cells := Function.update s.cells (A.distance p) .raw
      destroyed := s.destroyed ++ [id] }
  | _ => none

/-- The constructor's loop over the slots, from a pool with the default `head_`. -/
def create : Option Pool :=
  (List.range A.capacity.toNat).foldlM
    (fun s i => A.setLink s i (if i + 1 < A.capacity.toNat then i + 1 else kSentinel))
    ⟨0, fun _ => .raw, 0, [], []⟩

/-- `throws` tells whether `T()` does if it is run. -/
def allocate (s : Pool) (throws : Bool) : Option (Result × Pool) :=
  if s.head = kSentinel then some (.pointer none, s)
  else (A.getLink s s.head).bind fun next => A.placeAt { s with head := next } s.head throws

def deallocate (s : Pool) : Option ℕ → Option Pool
  | none => some s
  | some p => do
    let s ← A.destroyAt s p
    let s ← A.setLink s (A.slotIndex p) s.head
    some { s with head := A.slotIndex p }

def setMark (marked : List Bool) (idx : ℕ) : Option (List Bool) :=
  if idx < marked.length then some (marked.set idx true) else none

/-- The destructor's walk over the free list. On more steps than there are slots it is
on a cycle. -/
def markFree (s : Pool) : Option (List Bool) :=
  (whileLoop (fun q => q.1 != kSentinel)
    (fun q => (setMark q.2 q.1).bind fun marked => (A.getLink s q.1).map fun next => (next, marked))
    (A.capacity.toNat + 1) (s.head, List.replicate A.capacity.toNat false)).map Prod.snd

/-- `~PoolAllocator()`, up to the release of the arena. -/
def destruct (s : Pool) : Option Pool :=
  (A.markFree s).bind fun marked => (List.range A.capacity.toNat).foldlM
    (fun s i => if marked[i]? = some true then some s else A.destroyAt s (A.slotPtr i)) s

end Arena

inductive Call where
  | allocate (throws : Bool)
  | deallocate (p : Option ℕ)
  deriving DecidableEq, Repr

def Arena.step (A : Arena) (s : Pool) : Call → Option (Result × Pool)
  | .allocate throws => A.allocate s throws
  | .deallocate p => (A.deallocate s p).map fun s => (.released, s)

/-! ## Slots and addresses -/

namespace Layout
variable (l : Layout)

theorem slotAlign_pos : 0 < l.slotAlign := by
  rw [slotAlign, maxAlign]
  split_ifs <;> omega

theorem le_roundUp : l.size ≤ (l.size + l.slotAlign - 1) / l.slotAlign * l.slotAlign := by
  have hround := Nat.div_add_mod (l.size + l.slotAlign - 1) l.slotAlign
  have hmod := Nat.mod_lt (l.size + l.slotAlign - 1) l.slotAlign_pos
  rw [Nat.mul_comm] at hround
  omega

theorem size_le_slotBytes : l.size ≤ l.slotBytes := by
  rw [slotBytes]
  split_ifs with h
  · exact l.le_roundUp
  · exact Nat.not_lt.mp h

theorem wordBytes_le_slotBytes : wordBytes ≤ l.slotBytes := by
  rw [slotBytes]
  split_ifs with h
  · exact (Nat.le_of_lt h).trans l.le_roundUp
  · exact Nat.le_refl _

theorem slotBytes_pos : 0 < l.slotBytes :=
  lt_of_lt_of_le (by decide) l.wordBytes_le_slotBytes

/-- Rounding a size up to its own alignment changes nothing. -/
theorem slotBytes_le : l.slotBytes ≤ 2 ^ 63 := by
  rw [slotBytes]
  split_ifs with h
  · rw [slotAlign, maxAlign]
    split_ifs with halign
    · obtain ⟨k, hk⟩ := l.align_dvd
      have hquot : (l.size + l.align - 1) / l.align = k := by
        rw [hk, Nat.add_sub_assoc (by omega), Nat.mul_add_div (by omega),
          Nat.div_eq_of_lt (by omega), Nat.add_zero]
      rw [hquot, Nat.mul_comm, ← hk]
      exact l.size_lt.le
    · have hsize := l.size_lt
      omega
  · decide

end Layout

namespace Arena
variable (A : Arena) {i j n : ℕ}

/-- The arena has room for all its slots. -/
def Fits : Prop := A.capacity.toNat * A.layout.slotBytes < 2 ^ 64

instance : Decidable A.Fits := inferInstanceAs (Decidable (_ < _))

variable {A}

theorem Fits.bytes_eq (h : A.Fits) : A.bytes = A.capacity.toNat * A.layout.slotBytes :=
  Nat.mod_eq_of_lt h

theorem Fits.offset_eq (h : A.Fits) (hi : i < A.capacity.toNat) :
    A.offset i = i * A.layout.slotBytes :=
  Nat.mod_eq_of_lt ((Nat.mul_le_mul_right _ hi.le).trans_lt h)

theorem Fits.offset_add_le (h : A.Fits) (hi : i < A.capacity.toNat) (hn : n ≤ A.layout.slotBytes) :
    A.offset i + n ≤ A.bytes := by
  have hnext : (i + 1) * A.layout.slotBytes ≤ A.capacity.toNat * A.layout.slotBytes :=
    Nat.mul_le_mul_right _ hi
  rw [Nat.add_mul, Nat.one_mul] at hnext
  rw [h.offset_eq hi, h.bytes_eq]
  omega

theorem Fits.offset_inj (h : A.Fits) (hi : i < A.capacity.toNat) (hj : j < A.capacity.toNat)
    (heq : A.offset i = A.offset j) : i = j := by
  rw [h.offset_eq hi, h.offset_eq hj] at heq
  exact Nat.eq_of_mul_eq_mul_right A.layout.slotBytes_pos heq

theorem distance_slotPtr (A : Arena) (i : ℕ) : A.distance (A.slotPtr i) = A.offset i := by
  have hlt : A.offset i < 2 ^ 64 := Nat.mod_lt _ (by decide)
  rw [distance, slotPtr]
  omega

theorem Fits.slotIndex_slotPtr (h : A.Fits) (hi : i < A.capacity.toNat) :
    A.slotIndex (A.slotPtr i) = i := by
  rw [slotIndex, distance_slotPtr, h.offset_eq hi, Nat.mul_div_cancel _ A.layout.slotBytes_pos]

/-- Following the links from an index visits exactly these slots and ends at `kSentinel`. -/
def FreeList (A : Arena) (s : Pool) : ℕ → List ℕ → Prop
  | idx, [] => idx = kSentinel
  | idx, slot :: rest => idx = slot ∧ ∃ next, A.getLink s slot = some next ∧ A.FreeList s next rest

/-- `free` is the free list in its order; `live` has the live objects with their slots. -/
structure Holds (A : Arena) (s : Pool) (free : List ℕ) (live : List (ℕ × ℕ)) : Prop where
  freeList : A.FreeList s s.head free
  partition : (free ++ live.map Prod.fst).Perm (List.range A.capacity.toNat)
  objects : ∀ o ∈ live, s.cells (A.offset o.1) = .object o.2
  ledger : (s.destroyed ++ live.map Prod.snd).Perm (List.range s.constructed)
  links : ∀ c ∈ s.overwritten, ∀ id, c ≠ .object id

section Ops
variable {s s' : Pool} {free : List ℕ} {live : List (ℕ × ℕ)} {idx next : ℕ}

theorem setLink_eq (h : A.Fits) (hi : i < A.capacity.toNat) (s : Pool) (next : ℕ) :
    A.setLink s i next = some { s with
      cells := Function.update s.cells (A.offset i) (.link next)
      overwritten := s.overwritten ++ [s.cells (A.offset i)] } := by
  rw [setLink, if_pos (h.offset_add_le hi A.layout.wordBytes_le_slotBytes)]

theorem getLink_eq_some (h : A.Fits) (hi : i < A.capacity.toNat) :
    A.getLink s i = some next ↔ s.cells (A.offset i) = .link next := by
  rw [getLink, if_pos (h.offset_add_le hi A.layout.wordBytes_le_slotBytes)]
  cases s.cells (A.offset i) <;> simp

theorem getLink_congr (hcells : s'.cells (A.offset i) = s.cells (A.offset i)) :
    A.getLink s' i = A.getLink s i := by
  rw [getLink, getLink, hcells]

/-- The list is one of links only. -/
theorem FreeList.congr (hcells : ∀ i ∈ free, s'.cells (A.offset i) = s.cells (A.offset i))
    (hl : A.FreeList s idx free) : A.FreeList s' idx free := by
  induction free generalizing idx with
  | nil => exact hl
  | cons i rest ih =>
    obtain ⟨hcell, hcells⟩ := List.forall_mem_cons.mp hcells
    obtain ⟨hidx, next, hnext, hrest⟩ := hl
    exact ⟨hidx, next, (getLink_congr hcell).trans hnext, ih hcells hrest⟩

theorem Holds.free_lt (hs : A.Holds s free live) (hi : i ∈ free) : i < A.capacity.toNat :=
  List.mem_range.mp (hs.partition.subset (List.mem_append_left _ hi))

theorem Holds.live_lt (hs : A.Holds s free live) {o : ℕ × ℕ} (ho : o ∈ live) :
    o.1 < A.capacity.toNat :=
  List.mem_range.mp (hs.partition.subset (List.mem_append_right _ (List.mem_map_of_mem ho)))

theorem Holds.nodup (hs : A.Holds s free live) : (free ++ live.map Prod.fst).Nodup :=
  hs.partition.nodup_iff.mpr List.nodup_range

theorem Holds.length (hs : A.Holds s free live) : free.length + live.length = A.capacity.toNat := by
  have hlen := hs.partition.length_eq
  rwa [List.length_append, List.length_map, List.length_range] at hlen

theorem Fits.ne_sentinel (h : A.Fits) (hi : i < A.capacity.toNat) : i ≠ kSentinel := by
  have hword := A.layout.wordBytes_le_slotBytes
  have hcap : A.capacity.toNat * wordBytes ≤ A.capacity.toNat * A.layout.slotBytes :=
    Nat.mul_le_mul_left _ hword
  have hfits : A.capacity.toNat * A.layout.slotBytes < 2 ^ 64 := h
  rw [wordBytes] at hcap
  rw [kSentinel]
  omega

theorem Fits.update_of_ne (h : A.Fits) (hi : i < A.capacity.toNat) (hj : j < A.capacity.toNat)
    (hne : j ≠ i) (cells : ℕ → Cell) (c : Cell) :
    Function.update cells (A.offset i) c (A.offset j) = cells (A.offset j) :=
  Function.update_of_ne (fun heq => hne (h.offset_inj hj hi heq)) _ _

/-- What is left of the free list does not see its first slot. -/
theorem Holds.freeList_tail (h : A.Fits) (hs : A.Holds s (i :: free) live)
    (hl : A.FreeList s next free) (c : Cell)
    (hcells : s'.cells = Function.update s.cells (A.offset i) c) : A.FreeList s' next free := by
  refine hl.congr fun j hj => ?_
  have hnot : i ∉ free := (List.nodup_cons.mp (List.nodup_append.mp hs.nodup).1).1
  rw [hcells]
  exact h.update_of_ne (hs.free_lt List.mem_cons_self) (hs.free_lt (List.mem_cons_of_mem _ hj))
    (fun heq => hnot (heq ▸ hj)) _ _

theorem Holds.allocate_exhausted (hs : A.Holds s [] live) (throws : Bool) :
    A.allocate s throws = some (.pointer none, s) := by
  have hhead : s.head = kSentinel := hs.freeList
  rw [allocate, if_pos hhead]

theorem Holds.allocate_eq (h : A.Fits) (hs : A.Holds s (i :: free) live) (throws : Bool) :
    ∃ next, A.FreeList s next free ∧
      A.allocate s throws = A.placeAt { s with head := next } i throws := by
  obtain ⟨hhead, next, hnext, hrest⟩ := hs.freeList
  refine ⟨next, hrest, ?_⟩
  have hne : s.head ≠ kSentinel := hhead ▸ h.ne_sentinel (hs.free_lt List.mem_cons_self)
  rw [allocate, if_neg hne, hhead, hnext, Option.bind_some]

theorem Holds.allocate (h : A.Fits) (hs : A.Holds s (i :: free) live) :
    ∃ s', A.allocate s false = some (.pointer (some (A.slotPtr i)), s') ∧
      A.Holds s' free (live ++ [(i, s.constructed)]) := by
  have hi : i < A.capacity.toNat := hs.free_lt List.mem_cons_self
  obtain ⟨next, hrest, heq⟩ := hs.allocate_eq h false
  rw [placeAt, if_pos (h.offset_add_le hi A.layout.size_le_slotBytes)] at heq
  refine ⟨_, heq, ⟨hs.freeList_tail h hrest _ rfl, ?_, ?_, ?_, hs.links⟩⟩
  · rw [List.map_append, List.map_singleton, ← List.append_assoc]
    exact (List.perm_append_singleton i _).trans hs.partition
  · intro o ho
    rcases List.mem_append.mp ho with ho | ho
    · have hne : o.1 ≠ i := fun heq => (List.nodup_append.mp hs.nodup).2.2 i List.mem_cons_self o.1
        (List.mem_map_of_mem ho) heq.symm
      exact (h.update_of_ne hi (hs.live_lt ho) hne _ _).trans (hs.objects o ho)
    · rw [List.mem_singleton.mp ho]
      exact Function.update_self ..
  · rw [List.map_append, List.map_singleton, ← List.append_assoc, List.range_succ]
    exact hs.ledger.append_right _

/-- A constructor that throws leaves `head_` at the slot behind its own. -/
theorem Holds.allocate_throw (h : A.Fits) (hs : A.Holds s (i :: free) live) :
    ∃ s', A.allocate s true = some (.thrown, s') ∧ A.FreeList s' s'.head free := by
  have hi : i < A.capacity.toNat := hs.free_lt List.mem_cons_self
  obtain ⟨next, hrest, heq⟩ := hs.allocate_eq h true
  rw [placeAt, if_pos (h.offset_add_le hi A.layout.size_le_slotBytes)] at heq
  exact ⟨_, heq, hs.freeList_tail h hrest _ rfl⟩

/-- `~T()` of a live object. -/
theorem Holds.destroyAt {l r : List (ℕ × ℕ)} {o : ℕ × ℕ}
    (hs : A.Holds s free (l ++ o :: r)) :
    A.destroyAt s (A.slotPtr o.1) = some { s with
      cells := Function.update s.cells (A.offset o.1) .raw
      destroyed := s.destroyed ++ [o.2] } := by
  rw [Arena.destroyAt, distance_slotPtr, hs.objects o (List.mem_append_right _ List.mem_cons_self)]

theorem Holds.deallocate (h : A.Fits) {l r : List (ℕ × ℕ)} {o : ℕ × ℕ}
    (hs : A.Holds s free (l ++ o :: r)) :
    ∃ s', A.deallocate s (some (A.slotPtr o.1)) = some s' ∧ A.Holds s' (o.1 :: free) (l ++ r) := by
  have ho : o ∈ l ++ o :: r := List.mem_append_right _ List.mem_cons_self
  have hlt := hs.live_lt ho
  have hperm : (o :: (l ++ r)).Perm (l ++ o :: r) := List.perm_middle.symm
  have hslots : (o.1 :: (free ++ (l ++ r).map Prod.fst)).Perm
      (free ++ (l ++ o :: r).map Prod.fst) :=
    List.perm_middle.symm.trans ((hperm.map Prod.fst).append_left free)
  have hnot := List.nodup_cons.mp (hslots.nodup_iff.mpr hs.nodup)
  rw [List.mem_append, not_or] at hnot
  refine ⟨{ s with
    head := o.1
    cells := Function.update (Function.update s.cells (A.offset o.1) .raw) (A.offset o.1)
      (.link s.head)
    destroyed := s.destroyed ++ [o.2]
    overwritten := s.overwritten ++
      [Function.update s.cells (A.offset o.1) .raw (A.offset o.1)] }, ?_,
    ⟨⟨rfl, s.head, ?_, ?_⟩, hslots.trans hs.partition, ?_, ?_, ?_⟩⟩
  · rw [Arena.deallocate, hs.destroyAt, Option.bind_eq_bind, Option.bind_some,
      h.slotIndex_slotPtr hlt, setLink_eq h hlt]
    rfl
  · exact (getLink_eq_some h hlt).mpr (Function.update_self ..)
  · refine hs.freeList.congr fun j hj => ?_
    have hne : j ≠ o.1 := fun heq => hnot.1.1 (heq ▸ hj)
    exact (h.update_of_ne hlt (hs.free_lt hj) hne _ _).trans (h.update_of_ne hlt (hs.free_lt hj) hne _ _)
  · intro p hp
    have hne : p.1 ≠ o.1 := fun heq => hnot.1.2 (heq ▸ List.mem_map_of_mem hp)
    have hmem : p ∈ l ++ o :: r := hperm.subset (List.mem_cons_of_mem _ hp)
    exact (h.update_of_ne hlt (hs.live_lt hmem) hne _ _).trans
      ((h.update_of_ne hlt (hs.live_lt hmem) hne _ _).trans (hs.objects p hmem))
  · refine List.Perm.trans ?_ hs.ledger
    rw [List.append_assoc]
    exact ((hperm.map Prod.snd)).append_left s.destroyed
  · intro c hc id
    rcases List.mem_append.mp hc with hc | hc
    · exact hs.links c hc id
    · rw [List.mem_singleton.mp hc]
      simp

end Ops

end Arena
end HftExercises.PoolAlloc
