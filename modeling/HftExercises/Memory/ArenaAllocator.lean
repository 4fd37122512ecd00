import HftExercises.Core.Execution
import Mathlib.Algebra.Ring.Int.Defs
import Mathlib.Algebra.Ring.Nat

/-! # The block-chained bump allocator

The chain of chunks is a list with the chunk at `head_` first. The addresses that
`operator new` hands out are inputs of the calls: a call that needs more of them than it
is given does not return. Sizes and addresses are natural numbers, and the result of every
`size_t` operation is stored through `SizeT.wrap`.
-/
namespace HftExercises.Arena

/-- How the result of a `size_t` operation is stored. -/
structure SizeT where
  wrap : ℤ → ℕ
  wrap_wrap : ∀ x, wrap (wrap x) = wrap x
  wrap_of_le : ∀ {m n : ℕ}, m ≤ n → wrap n = n → wrap m = m
  wrap_le : ∀ n : ℕ, wrap n ≤ n

namespace SizeT
variable (T : SizeT)

def add (a b : ℕ) : ℕ := T.wrap (a + b)

def sub (a b : ℕ) : ℕ := T.wrap (a - b)

def mul (a b : ℕ) : ℕ := T.wrap (a * b)

/-- The numbers that a `size_t` holds. -/
def Holds (n : ℕ) : Prop := T.wrap n = n

/-- No operation overflows. -/
def exact : SizeT where
  wrap := Int.toNat
  wrap_wrap := by omega
  wrap_of_le := by simp
  wrap_le := by simp

/-- Unsigned arithmetic on 64 bits. -/
def word64 : SizeT where
  wrap x := (x % 2 ^ 64).toNat
  wrap_wrap := by omega
  wrap_of_le := by omega
  wrap_le := by omega

@[simp] theorem exact_add (a b : ℕ) : exact.add a b = a + b := by simp [add, exact]; omega

@[simp] theorem exact_sub (a b : ℕ) : exact.sub a b = a - b := by simp [sub, exact]

@[simp] theorem exact_mul (a b : ℕ) : exact.mul a b = a * b := by
  rw [mul, ← Int.natCast_mul]
  exact Int.toNat_natCast _

@[simp] theorem exact_holds (n : ℕ) : exact.Holds n := by simp [Holds, exact]

@[simp] theorem word64_add (a b : ℕ) : word64.add a b = (a + b) % 2 ^ 64 := by
  simp only [add, word64]
  omega

theorem word64_sub (a b : ℕ) : word64.sub a b = ((a - b : ℤ) % 2 ^ 64).toNat := rfl

@[simp] theorem word64_holds (n : ℕ) : word64.Holds n ↔ n < 2 ^ 64 := by
  simp only [Holds, word64]
  omega

variable {T}

theorem Holds.of_le {m n : ℕ} (h : T.Holds n) (hle : m ≤ n) : T.Holds m := T.wrap_of_le hle h

theorem Holds.add_eq {a b : ℕ} (h : T.Holds (a + b)) : T.add a b = a + b := by
  rw [add, ← Int.natCast_add]
  exact h

theorem Holds.sub_eq {a b : ℕ} (h : T.Holds a) (hle : b ≤ a) : T.sub a b = a - b := by
  rw [sub, ← Int.natCast_sub hle]
  exact h.of_le (Nat.sub_le a b)

theorem Holds.max {a b : ℕ} (ha : T.Holds a) (hb : T.Holds b) : T.Holds (Max.max a b) := by
  rcases Nat.le_total a b with hle | hle
  · rw [Nat.max_eq_right hle]
    exact hb
  · rw [Nat.max_eq_left hle]
    exact ha

variable (T)

theorem add_le (a b : ℕ) : T.add a b ≤ a + b := by
  rw [add, ← Int.natCast_add]
  exact T.wrap_le _

theorem holds_add (a b : ℕ) : T.Holds (T.add a b) := T.wrap_wrap _

end SizeT
variable (T : SizeT)

/-- `align_up` -/
def alignUp (value alignment : ℕ) : ℕ :=
  T.mul (T.sub (T.add value alignment) 1 / alignment) alignment

/-- `align_ptr` -/
def alignPtr (addr alignment : ℕ) : ℕ := alignUp T addr alignment

/-- A chunk header, at `addr`. -/
structure Block where
  addr : ℕ
  size : ℕ
  used : ℕ
  deriving DecidableEq

/-- `sizeof(Block)`: three words. -/
def sizeofBlock : ℕ := 24

namespace Block

/-- `data()` is the address one past the header. -/
def data (b : Block) : ℕ := b.addr + sizeofBlock

/-- `head_->data() + head_->used` -/
def cursor (b : Block) : ℕ := T.add b.data b.used

/-- `aligned` in `allocate` -/
def aligned (b : Block) (alignment : ℕ) : ℕ := alignPtr T (b.cursor T) alignment

/-- `remaining` in `allocate` -/
def remaining (b : Block) : ℕ := T.sub b.size b.used

end Block

/-- `requested` in `allocate` -/
def requested (size alignment : ℕ) : ℕ := alignUp T (max size 1) alignment

/-- `padding + requested` in `allocate` -/
def Block.needed (b : Block) (size alignment : ℕ) : ℕ :=
  T.add (T.sub (b.aligned T alignment) (b.cursor T)) (requested T size alignment)

/-- `target >= begin && target < end` in `rollback_to` -/
def Finds (target : ℕ) (b : Block) : Prop := b.data ≤ target ∧ target < T.add b.data b.size

instance (target : ℕ) (b : Block) : Decidable (Finds T target b) :=
  inferInstanceAs (Decidable (_ ∧ _))

/-- What `operator new` has handed out and `delete` has not taken back. -/
structure Extent where
  addr : ℕ
  bytes : ℕ
  deriving DecidableEq

/-- The chunks are those reachable from `head_`, the newest first. -/
structure ArenaAllocator where
  chunks : List Block
  blockCount : ℕ
  blockSize : ℕ
  heap : List Extent
  deriving DecidableEq

namespace ArenaAllocator

def init (blockSize : ℕ) : ArenaAllocator where
  chunks := []
  blockCount := 0
  blockSize := blockSize
  heap := []

/-- `head_ = new Block{size, 0, head_}` and `++block_count_`: the extent obtained is that of
a `Block`, whatever its `size`. -/
def newBlock (s : ArenaAllocator) (addr size : ℕ) : ArenaAllocator :=
  { s with
    chunks := ⟨addr, size, 0⟩ :: s.chunks
    blockCount := s.blockCount + 1
    heap := ⟨addr, sizeofBlock⟩ :: s.heap }

/-- `delete` of each block -/
def delete (doomed : List Block) (heap : List Extent) : List Extent :=
  doomed.foldl (fun heap b => heap.erase ⟨b.addr, sizeofBlock⟩) heap

/-- `allocate` where the chunk at `head_` has room: the address and the arena after it. -/
def bump (s : ArenaAllocator) (size alignment : ℕ) : Option (ℕ × ArenaAllocator) :=
  match s.chunks with
  | [] => none
  | b :: older =>
    if b.needed T size alignment > b.remaining T then none
    else some (b.aligned T alignment, { s with
      chunks := { b with used := T.add b.used (b.needed T size alignment) } :: older })

/-- `allocate` for an alignment that is not 0. The second component of the result counts the
recursive calls. -/
def serve (size alignment : ℕ) : List ℕ → ArenaAllocator → Option (ℕ × ℕ × ArenaAllocator)
  | [], s => (s.bump T size alignment).map fun r => (r.1, 0, r.2)
  | addr :: news, s =>
    match s.chunks with
    | [] => serve size alignment news (s.newBlock addr s.blockSize)
    | _ :: _ =>
      match s.bump T size alignment with
      | some r => some (r.1, 0, r.2)
      | none =>
        (serve size alignment news (s.newBlock addr
          (max s.blockSize (T.add (requested T size alignment) alignment)))).map
          fun r => (r.1, r.2.1 + 1, r.2.2)

def allocate (s : ArenaAllocator) (size alignment : ℕ) (news : List ℕ) :
    Option (ℕ × ℕ × ArenaAllocator) :=
  serve T size (if alignment = 0 then 1 else alignment) news s

def deallocate (s : ArenaAllocator) (_ptr : ℕ) : ArenaAllocator := s

/-- The mark is the cursor of the chunk at `head_`. -/
def allocateAll (s : ArenaAllocator) (news : List ℕ) : Option (ℕ × ArenaAllocator) :=
  match s.chunks, news with
  | b :: _, _ => some (b.cursor T, s)
  | [], addr :: _ =>
    let s := s.newBlock addr s.blockSize
    some (Block.cursor T ⟨addr, s.blockSize, 0⟩, s)
  | [], [] => none

def rollbackTo (s : ArenaAllocator) (target : ℕ) : ArenaAllocator :=
  match s.chunks.dropWhile (fun b => ¬ Finds T target b) with
  | [] => s
  | b :: older =>
    let doomed := s.chunks.takeWhile (fun b => ¬ Finds T target b)
    { s with
      chunks := { b with used := T.sub target b.data } :: older
      blockCount := s.blockCount - doomed.length
      heap := delete doomed s.heap }

/-- Every chunk is rewound, and `head_` is set to the oldest. -/
def reset (s : ArenaAllocator) : ArenaAllocator :=
  match s.chunks.getLast? with
  | none => s
  | some oldest => { s with chunks := [{ oldest with used := 0 }] }

def release (s : ArenaAllocator) : ArenaAllocator :=
  { s with chunks := [], blockCount := 0, heap := delete s.chunks s.heap }

def capacity (s : ArenaAllocator) : ℕ := s.chunks.foldl (fun total b => T.add total b.size) 0

def usedBytes (s : ArenaAllocator) : ℕ := s.chunks.foldl (fun total b => T.add total b.used) 0

end ArenaAllocator

/-- What the client still holds, the newest first: the bytes of an allocation, or a mark. -/
inductive Held where
  | range (p n : ℕ)
  | mark (m : ℕ)
  deriving DecidableEq

structure System where
  arena : ArenaAllocator
  held : List Held
  deriving DecidableEq

/-- The calls, with the addresses that `operator new` has for them. -/
inductive Call where
  | allocate (size alignment : ℕ) (news : List ℕ)
  | deallocate (ptr : ℕ)
  | allocateAll (news : List ℕ)
  | rollbackTo (mark : ℕ)
  | reset
  | release
  deriving DecidableEq

/-- `none`, or the address returned and the number of recursive calls. -/
abbrev Result := Option (ℕ × ℕ)

/-- A rollback undoes what was handed out after its mark; `reset` and `release` undo
everything. -/
def step (s : System) : Call → Option (Result × System)
  | .allocate size alignment news =>
    (s.arena.allocate T size alignment news).map fun r =>
      (some (r.1, r.2.1), ⟨r.2.2, .range r.1 (max size 1) :: s.held⟩)
  | .deallocate ptr => some (none, ⟨s.arena.deallocate ptr, s.held⟩)
  | .allocateAll news =>
    (s.arena.allocateAll T news).map fun r => (some (r.1, 0), ⟨r.2, .mark r.1 :: s.held⟩)
  | .rollbackTo mark =>
    some (none, ⟨s.arena.rollbackTo T mark, s.held.dropWhile (· ≠ .mark mark)⟩)
  | .reset => some (none, ⟨s.arena.reset, []⟩)
  | .release => some (none, ⟨s.arena.release, []⟩)

end HftExercises.Arena
