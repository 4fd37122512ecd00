import HftExercises.Memory.ArenaAllocatorRuns

/-! # The storage behind the chunks of the bump allocator

`new Block` obtains the bytes of a header and no more, whatever the size that the header
states. `reset` keeps one chunk reachable and `block_count_` as it is.
-/
namespace HftExercises.Arena
variable {T : SizeT} {s s' : ArenaAllocator} {size alignment p k : ℕ} {news : List ℕ}

section Heap

theorem delete_subset (doomed : List Block) (heap : List Extent) :
    ArenaAllocator.delete doomed heap ⊆ heap := by
  induction doomed generalizing heap with
  | nil => exact List.Subset.refl heap
  | cons b doomed ih => exact List.Subset.trans (ih _) List.erase_subset

/-- All that the arena has obtained are headers. -/
def OnlyHeaders (s : ArenaAllocator) : Prop := ∀ e ∈ s.heap, e.bytes = sizeofBlock

theorem OnlyHeaders.newBlock (h : OnlyHeaders s) (addr size : ℕ) :
    OnlyHeaders (s.newBlock addr size) :=
  List.forall_mem_cons.mpr ⟨rfl, h⟩

theorem OnlyHeaders.allocate (h : OnlyHeaders s)
    (ha : s.allocate T size alignment news = some (p, k, s')) : OnlyHeaders s' := by
  obtain ⟨s₁, h₁, hb⟩ := serve_induct OnlyHeaders (fun s addr size _ hs => hs.newBlock addr size) ha h
  obtain ⟨_, _, -, -, -, rfl⟩ := bump_eq_some hb
  exact h₁

theorem OnlyHeaders.allocateAll (h : OnlyHeaders s) (ha : s.allocateAll T news = some (p, s')) :
    OnlyHeaders s' := by
  obtain ⟨_, _, -, -, rfl | ⟨-, addr, rfl⟩⟩ := allocateAll_eq_some ha
  · exact h
  · exact h.newBlock addr _

theorem OnlyHeaders.rollbackTo (h : OnlyHeaders s) (target : ℕ) :
    OnlyHeaders (s.rollbackTo T target) := by
  unfold ArenaAllocator.rollbackTo
  split
  · exact h
  · exact fun e he => h e (delete_subset _ _ he)

theorem OnlyHeaders.reset (h : OnlyHeaders s) : OnlyHeaders s.reset := by
  unfold ArenaAllocator.reset
  split <;> exact h

theorem OnlyHeaders.release (h : OnlyHeaders s) : OnlyHeaders s.release :=
  fun e he => h e (delete_subset _ _ he)

/-- Every range still handed out lies in storage that `operator new` gave, outside the header
that each such extent holds, and apart from the others. -/
structure Backed (s : System) : Prop where
  inside : ∀ r ∈ s.held.filterMap Held.range?,
    ∃ e ∈ s.arena.heap, e.addr ≤ r.1 ∧ r.1 + r.2 ≤ e.addr + e.bytes
  clear : ∀ r ∈ s.held.filterMap Held.range?, ∀ e ∈ s.arena.heap, Apart r (e.addr, sizeofBlock)
  apart : (s.held.filterMap Held.range?).Pairwise Apart

/-- A range of at least one byte. -/
def Proper (held : List Held) : Prop := ∀ r ∈ held.filterMap Held.range?, 0 < r.2

theorem Backed.range_eq_nil {s : System} (h : Backed s) (hheap : OnlyHeaders s.arena)
    (hp : Proper s.held) : s.held.filterMap Held.range? = [] := by
  refine List.eq_nil_iff_forall_not_mem.mpr fun r hr => ?_
  obtain ⟨e, he, hlo, hhi⟩ := h.inside r hr
  have hclear := h.clear r hr e he
  have hpos := hp r hr
  rw [hheap e he] at hhi
  simp only [Apart] at hclear
  omega

theorem backed_of_nil {s : System} (h : s.held.filterMap Held.range? = []) : Backed s where
  inside := by simp [h]
  clear := by simp [h]
  apart := by simp [h]

def Call.isAllocate : Call → Bool
  | .allocate .. => true
  | _ => false

theorem step_headers {s s' : System} {i : Call} {o : Result}
    (h : OnlyHeaders s.arena ∧ Proper s.held) (hs : step T s i = some (o, s')) :
    (OnlyHeaders s'.arena ∧ Proper s'.held) ∧
      if i.isAllocate then s'.held.filterMap Held.range? ≠ []
      else s'.held.filterMap Held.range? ⊆ s.held.filterMap Held.range? := by
  obtain ⟨hheap, hp⟩ := h
  cases i with
  | allocate size alignment news =>
    obtain ⟨⟨p, k, a⟩, ha, hr⟩ := Option.map_eq_some_iff.mp hs
    cases hr
    refine ⟨⟨hheap.allocate ha, ?_⟩, List.cons_ne_nil _ _⟩
    exact List.forall_mem_cons.mpr ⟨Nat.le_max_right size 1, hp⟩
  | deallocate ptr =>
    cases hs
    exact ⟨⟨hheap, hp⟩, List.Subset.refl _⟩
  | allocateAll news =>
    obtain ⟨⟨p, a⟩, ha, hr⟩ := Option.map_eq_some_iff.mp hs
    cases hr
    exact ⟨⟨hheap.allocateAll ha, hp⟩, List.Subset.refl _⟩
  | rollbackTo mark =>
    cases hs
    have hsub : (s.held.dropWhile (· ≠ .mark mark)).filterMap Held.range? ⊆
        s.held.filterMap Held.range? :=
      ((List.dropWhile_suffix _).sublist.filterMap Held.range?).subset
    exact ⟨⟨hheap.rollbackTo mark, fun r hr => hp r (hsub hr)⟩, hsub⟩
  | reset =>
    cases hs
    exact ⟨⟨hheap.reset, List.forall_mem_nil _⟩, List.nil_subset _⟩
  | release =>
    cases hs
    exact ⟨⟨hheap.release, List.forall_mem_nil _⟩, List.nil_subset _⟩

/-- What is handed out is backed by storage of the arena as long as nothing is handed out. -/
theorem backed_iff {blockSize : ℕ} {calls : List Call} {es : List (Event System Call Result)}
    {t : System} (h : exec (step T) ⟨.init blockSize, []⟩ calls = some (es, t)) :
    ((∀ e ∈ es, Backed e.before) ∧ Backed t) ↔ ∀ i ∈ calls, ¬ i.isAllocate := by
  have hinit : OnlyHeaders (.init blockSize) ∧ Proper [] := ⟨List.forall_mem_nil _, List.forall_mem_nil _⟩
  rw [← exec_calls h, List.forall_mem_map]
  refine exec_forall_iff (fun s => OnlyHeaders s.arena ∧ Proper s.held) Backed
    (fun _ i => i.isAllocate) ?_ ?_ ?_ hinit (backed_of_nil rfl) h
  · intro s i o s' hs hstep
    exact (step_headers hs hstep).1
  · intro s i o s' hs hb hi hstep
    have hsub := (step_headers hs hstep).2
    rw [if_neg hi, hb.range_eq_nil hs.1 hs.2] at hsub
    exact backed_of_nil (List.subset_nil.mp hsub)
  · intro s i o s' hs hi hstep hb
    obtain ⟨hs', hne⟩ := step_headers hs hstep
    rw [if_pos hi] at hne
    exact hne (hb.range_eq_nil hs'.1 hs'.2)

/-- Sixteen bytes, of an arena that asked for the header of its chunk only. -/
theorem not_backed : ∃ es t,
    exec (step .word64) ⟨.init 65536, []⟩ [.allocate 16 16 [4096]] = some (es, t) ∧
    t.arena.heap = [⟨4096, 24⟩] ∧ t.held = [.range 4128 16] ∧ ¬ Backed t := by
  refine ⟨_, _, rfl, by decide, by decide, fun h => ?_⟩
  obtain ⟨e, he, -, hhi⟩ := h.inside (4128, 16) (by decide)
  obtain rfl := List.mem_singleton.mp he
  exact absurd hhi (by decide)

/-- A run that only takes and gives back marks. -/
theorem backed_marks : ∃ es t,
    exec (step .word64) ⟨.init 65536, []⟩ [.allocateAll [4096], .rollbackTo 4120, .reset, .release] =
      some (es, t) ∧ Backed t := by
  have hrun : exec (step .word64) ⟨.init 65536, []⟩
    [.allocateAll [4096], .rollbackTo 4120, .reset, .release] = some (_, _) := rfl
  exact ⟨_, _, hrun, ((backed_iff hrun).mpr (by decide)).2⟩

end Heap

section Reset

/-- What `reset` is to do: rewind, keep every chunk and what is counted of them, and start
again at the first address of the first chunk. -/
structure Resets (T : SizeT) (s : ArenaAllocator) : Prop where
  usedBytes : s.reset.usedBytes T = 0
  capacity : s.reset.capacity T = s.capacity T
  blockCount : s.reset.blockCount = s.blockCount
  counted : s.reset.blockCount = s.reset.chunks.length
  owned : ∀ b ∈ s.chunks, b.addr ∈ s.reset.chunks.map Block.addr
  first : ∀ b ∈ s.chunks.getLast?, ∀ size alignment news,
    Block.needed T { b with used := 0 } size (if alignment = 0 then 1 else alignment) ≤
      Block.remaining T { b with used := 0 } →
    ∃ s', s.reset.allocate T size alignment news =
      some (Block.aligned T { b with used := 0 } (if alignment = 0 then 1 else alignment), 0, s')

theorem SizeT.wrap_zero (T : SizeT) : T.wrap 0 = 0 := Nat.le_zero.mp (T.wrap_le 0)

theorem reset_usedBytes (s : ArenaAllocator) : s.reset.usedBytes T = 0 := by
  unfold ArenaAllocator.reset
  split
  · rename_i hc
    rw [ArenaAllocator.usedBytes, List.getLast?_eq_none_iff.mp hc]
    rfl
  · exact T.wrap_zero

theorem reset_first {b : Block} (hb : s.chunks.getLast? = some b)
    (hfit : Block.needed T { b with used := 0 } size (if alignment = 0 then 1 else alignment) ≤
      Block.remaining T { b with used := 0 }) (news : List ℕ) :
    ∃ s', s.reset.allocate T size alignment news =
      some (Block.aligned T { b with used := 0 } (if alignment = 0 then 1 else alignment), 0, s') := by
  have hc : s.reset.chunks = [{ b with used := 0 }] := by rw [ArenaAllocator.reset, hb]
  have hbump := bump_cons T size (if alignment = 0 then 1 else alignment) hc
  rw [if_neg (Nat.not_lt_of_le hfit)] at hbump
  exact ⟨_, serve_of_bump hbump news⟩

/-- The counter counts what is reachable and what is not any more. -/
structure Counted (s : ArenaAllocator) : Prop where
  le : s.chunks.length ≤ s.blockCount
  empty : s.chunks = [] → s.blockCount = 0

theorem Counted.newBlock (h : Counted s) (addr size : ℕ) : Counted (s.newBlock addr size) where
  le := Nat.succ_le_succ h.le
  empty := nofun

theorem Counted.allocate (h : Counted s) (ha : s.allocate T size alignment news = some (p, k, s')) :
    Counted s' := by
  obtain ⟨s₁, h₁, hb⟩ := serve_induct Counted (fun s addr size _ hs => hs.newBlock addr size) ha h
  obtain ⟨b, older, hc, -, -, rfl⟩ := bump_eq_some hb
  have hle := h₁.le
  rw [hc] at hle
  exact ⟨hle, nofun⟩

theorem Counted.allocateAll (h : Counted s) (ha : s.allocateAll T news = some (p, s')) :
    Counted s' := by
  obtain ⟨_, _, -, -, rfl | ⟨-, addr, rfl⟩⟩ := allocateAll_eq_some ha
  · exact h
  · exact h.newBlock addr _

theorem Counted.rollbackTo (h : Counted s) (target : ℕ) : Counted (s.rollbackTo T target) := by
  have hlen := congrArg List.length
    (List.takeWhile_append_dropWhile (p := fun b => ¬ Finds T target b) (l := s.chunks))
  have hle := h.le
  unfold ArenaAllocator.rollbackTo
  split
  · exact h
  · rename_i b older hd
    rw [hd, List.length_append, List.length_cons] at hlen
    refine ⟨?_, nofun⟩
    simp only [List.length_cons]
    omega

theorem Counted.reset (h : Counted s) : Counted s.reset := by
  unfold ArenaAllocator.reset
  split
  · exact h
  · rename_i oldest hlast
    refine ⟨Nat.le_trans ?_ h.le, nofun⟩
    exact List.length_pos_of_mem (List.mem_of_getLast? hlast)

theorem counted_run {blockSize : ℕ} {calls : List Call} {es : List (Event System Call Result)}
    {t : System} (h : exec (step T) ⟨.init blockSize, []⟩ calls = some (es, t)) :
    Counted t.arena := by
  have hinit : Counted (.init blockSize) := ⟨le_rfl, fun _ => rfl⟩
  refine exec_invariant (fun _ s => Counted s.arena) ?_ hinit h
  intro _ s i o s' hs hstep
  cases i with
  | allocate size alignment news =>
    obtain ⟨⟨p, k, a⟩, ha, hr⟩ := Option.map_eq_some_iff.mp hstep
    cases hr
    exact hs.allocate ha
  | deallocate ptr =>
    cases hstep
    exact hs
  | allocateAll news =>
    obtain ⟨⟨p, a⟩, ha, hr⟩ := Option.map_eq_some_iff.mp hstep
    cases hr
    exact hs.allocateAll ha
  | rollbackTo mark =>
    cases hstep
    exact hs.rollbackTo mark
  | reset =>
    cases hstep
    exact hs.reset
  | release =>
    cases hstep
    exact ⟨le_rfl, fun _ => rfl⟩

/-- In every arena that calls lead to, `reset` does this if and only if no more than one chunk
is counted. -/
theorem resets_iff {blockSize : ℕ} {calls : List Call} {es : List (Event System Call Result)}
    {t : System} (h : exec (step T) ⟨.init blockSize, []⟩ calls = some (es, t)) :
    Resets T t.arena ↔ t.arena.blockCount ≤ 1 := by
  obtain ⟨hle, hempty⟩ := counted_run h
  constructor
  · intro hr
    rw [← hr.blockCount, hr.counted, ArenaAllocator.reset]
    split
    · rename_i hc
      rw [List.getLast?_eq_none_iff.mp hc]
      exact Nat.zero_le _
    · exact le_rfl
  · intro hone
    have hused := reset_usedBytes (T := T) t.arena
    rcases hc : t.arena.chunks with _ | ⟨b, _ | ⟨d, older⟩⟩
    · have hreset : t.arena.reset = t.arena := by rw [ArenaAllocator.reset, hc]; rfl
      refine ⟨hused, by rw [hreset], by rw [hreset], ?_, ?_,
        fun b hb _ _ news hfit => reset_first hb hfit news⟩
      · rw [hreset, hempty hc, hc]
        rfl
      · rw [hc]
        exact List.forall_mem_nil _
    · have hreset : t.arena.reset = { t.arena with chunks := [{ b with used := 0 }] } := by
        rw [ArenaAllocator.reset, hc]
        rfl
      rw [hc] at hle
      refine ⟨hused, ?_, by rw [hreset], ?_, ?_,
        fun b hb _ _ news hfit => reset_first hb hfit news⟩
      · rw [hreset, ArenaAllocator.capacity, ArenaAllocator.capacity, hc]
        rfl
      · rw [hreset]
        exact Nat.le_antisymm hone hle
      · rw [hreset, hc]
        exact List.forall_mem_singleton.mpr List.mem_cons_self
    · rw [hc] at hle
      simp only [List.length_cons] at hle
      omega

/-- One chunk, rewound. -/
theorem resets_single : ∃ es t,
    exec (step .word64) ⟨.init 64, []⟩ [.allocate 16 16 [1000]] = some (es, t) ∧
    Resets .word64 t.arena := by
  have hrun : exec (step .word64) ⟨.init 64, []⟩ [.allocate 16 16 [1000]] = some (_, _) := rfl
  exact ⟨_, _, hrun, (resets_iff hrun).mpr (by decide)⟩

/-- With two chunks the capacity drops to that of the first, and one block is counted that is
not reachable any more. -/
theorem not_resets : ∃ es t,
    exec (step .word64) ⟨.init 16, []⟩ [.allocate 16 1 [1000], .allocate 16 1 [2000]] = some (es, t) ∧
    t.arena.capacity .word64 = 33 ∧ t.arena.reset.capacity .word64 = 16 ∧
    t.arena.reset.blockCount = 2 ∧ t.arena.reset.chunks = [⟨1000, 16, 0⟩] ∧
    ¬ Resets .word64 t.arena := by
  refine ⟨_, _, rfl, by decide, by decide, by decide, by decide, fun h => ?_⟩
  exact absurd h.capacity (by decide)

end Reset

end HftExercises.Arena
