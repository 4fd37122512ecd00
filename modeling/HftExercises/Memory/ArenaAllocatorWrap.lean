import HftExercises.Memory.ArenaAllocatorRuns

/-! # Requests near the top of the range

`allocate` adds without a check. Where one of its sums reaches `2 ^ 64` it may return an
address with fewer bytes behind it than were asked for.
-/
namespace HftExercises.Arena
open SizeT
variable {T : SizeT} {s s' : ArenaAllocator} {size alignment p k : ℕ} {news : List ℕ} {b : Block}

/-- The chunk at `head_` holds `size` bytes from `p` on, in what is used of it. -/
def Reserved (s : ArenaAllocator) (p size : ℕ) : Prop :=
  p + size ≤ 2 ^ 64 ∧ ∃ b ∈ s.chunks.head?,
    b.data ≤ p ∧ p + size ≤ b.data + b.used ∧ b.used ≤ b.size

/-- No sum of the call reaches `2 ^ 64`, nor does the end of the range. Where the end of what is
used of the chunk has already passed it, the range still starts in the chunk. -/
structure NoWrap (b : Block) (size alignment : ℕ) : Prop where
  request : max size 1 + alignment ≤ 2 ^ 64
  align : b.cursor .word64 + alignment ≤ 2 ^ 64
  stop : alignUp .exact (b.cursor .word64) alignment + size ≤ 2 ^ 64
  sum : b.data + b.used < 2 ^ 64 → alignUp .exact (b.cursor .word64) alignment -
    b.cursor .word64 + alignUp .exact (max size 1) alignment < 2 ^ 64
  start : 2 ^ 64 ≤ b.data + b.used → b.data ≤ alignUp .exact (b.cursor .word64) alignment

/-- Rounding up that wraps gives 0. -/
theorem alignUp_word64 {value alignment : ℕ} (hv : value < 2 ^ 64) (ha : 0 < alignment)
    (hw : alignment < 2 ^ 64) : alignUp .word64 value alignment =
      if value + alignment ≤ 2 ^ 64 then alignUp .exact value alignment else 0 := by
  have hsub : word64.sub (word64.add value alignment) 1 = (value + alignment - 1) % 2 ^ 64 := by
    rw [word64_add, word64_sub]
    omega
  have hmul : word64.Holds ((value + alignment - 1) % 2 ^ 64 / alignment * alignment) := by
    rw [word64_holds]
    exact Nat.lt_of_le_of_lt (Nat.div_mul_le_self _ _) (Nat.mod_lt _ (by omega))
  have hvalue : alignUp .word64 value alignment =
      (value + alignment - 1) % 2 ^ 64 / alignment * alignment := by
    rw [alignUp, hsub, SizeT.mul, ← Int.natCast_mul]
    exact hmul
  rw [hvalue]
  split_ifs with hsum
  · rw [alignUp_eq (exact_holds _) ha, Nat.mod_eq_of_lt (by omega)]
  · rw [Nat.div_eq_of_lt (by omega), Nat.zero_mul]

theorem exact_alignUp_bounds (value : ℕ) {alignment : ℕ} (ha : 0 < alignment) :
    value ≤ alignUp .exact value alignment ∧ alignUp .exact value alignment < value + alignment ∧
      alignment ∣ alignUp .exact value alignment :=
  alignUp_bounds (exact_holds _) ha

theorem needed_word64 (b : Block) (size : ℕ) {alignment : ℕ} (ha : 0 < alignment)
    (halign : alignment < 2 ^ 64) (hw : b.cursor .word64 + alignment ≤ 2 ^ 64) :
    b.aligned .word64 alignment = alignUp .exact (b.cursor .word64) alignment ∧
      b.needed .word64 size alignment = (alignUp .exact (b.cursor .word64) alignment -
        b.cursor .word64 + requested .word64 size alignment) % 2 ^ 64 := by
  have hcursor : b.cursor .word64 < 2 ^ 64 := by omega
  have haligned : b.aligned .word64 alignment = alignUp .exact (b.cursor .word64) alignment := by
    rw [Block.aligned, alignPtr, alignUp_word64 hcursor ha halign, if_pos hw]
  obtain ⟨hle, hlt, -⟩ := exact_alignUp_bounds (b.cursor .word64) ha
  refine ⟨haligned, ?_⟩
  have hsub : word64.sub (b.aligned .word64 alignment) (b.cursor .word64) =
      alignUp .exact (b.cursor .word64) alignment - b.cursor .word64 := by
    rw [haligned]
    exact SizeT.Holds.sub_eq ((word64_holds _).mpr (by omega)) hle
  rw [Block.needed, hsub, word64_add]

/-- The bytes of the range are reserved in the chunk if and only if nothing wraps. -/
theorem reserved_bump_iff {older : List Block} (hc : s'.chunks = { b with
      used := b.used + b.needed .word64 size alignment } :: older)
    (hused : b.used + b.needed .word64 size alignment ≤ b.size) (ha : 0 < alignment)
    (hw : alignment < 2 ^ 64) (hsize : size < 2 ^ 64) :
    Reserved s' (b.aligned .word64 alignment) size ↔ NoWrap b size alignment := by
  have hres : Reserved s' (b.aligned .word64 alignment) size ↔
      b.aligned .word64 alignment + size ≤ 2 ^ 64 ∧ b.data ≤ b.aligned .word64 alignment ∧
        b.aligned .word64 alignment + size ≤ b.data + (b.used + b.needed .word64 size alignment) := by
    rw [Reserved, hc, List.head?_cons]
    simp only [Option.mem_some_iff, exists_eq_left', Block.data, hused, and_true]
  have hcursor : b.cursor .word64 = (b.data + b.used) % 2 ^ 64 := word64_add _ _
  have hdata : 0 < b.data := Nat.add_pos_right _ (by decide)
  rw [hres]
  by_cases halign : b.cursor .word64 + alignment ≤ 2 ^ 64
  · obtain ⟨haligned, hneeded⟩ := needed_word64 b size ha hw halign
    obtain ⟨hle, hlt, hdvd⟩ := exact_alignUp_bounds (b.cursor .word64) ha
    obtain ⟨hsle, hslt, -⟩ := exact_alignUp_bounds (max size 1) ha
    have hreq : requested .word64 size alignment = _ := alignUp_word64 (by omega) ha hw
    rw [haligned, hneeded]
    constructor
    · rintro ⟨hstop, hstart, hin⟩
      -- what is returned is a multiple of the alignment, and not 0
      have hmul := Nat.le_of_dvd (by omega) hdvd
      have hrequest : max size 1 + alignment ≤ 2 ^ 64 := by omega
      rw [if_pos hrequest] at hreq
      refine ⟨hrequest, halign, hstop, fun hend => ?_, fun _ => hstart⟩
      rw [hreq] at hin
      omega
    · rintro ⟨hrequest, -, hstop, hsum, hstart⟩
      rw [if_pos hrequest] at hreq
      rw [hreq]
      rcases Nat.lt_or_ge (b.data + b.used) (2 ^ 64) with hend | hend
      · have hfit := hsum hend
        refine ⟨hstop, by omega, by omega⟩
      · exact ⟨hstop, hstart hend, by omega⟩
  · have hzero : b.aligned .word64 alignment = 0 := by
      rw [Block.aligned, alignPtr, alignUp_word64 (by omega) ha hw, if_neg halign]
    refine ⟨fun h => ?_, fun h => absurd h.align halign⟩
    rw [hzero] at h
    omega

/-- The number given for an alignment of 0 is 1. -/
theorem alignment_lt {alignment : ℕ} (hw : alignment < 2 ^ 64) :
    (if alignment = 0 then 1 else alignment) < 2 ^ 64 := by
  split_ifs <;> omega

/-- A call that returns has reserved the bytes it was asked for if and only if no sum wraps in
the chunk that serves it. -/
theorem reserved_iff {blockSize : ℕ} (hblock : blockSize < 2 ^ 64) {calls : List Call}
    {es : List (Event System Call Result)} {t : System}
    (h : exec (step .word64) ⟨.init blockSize, []⟩ calls = some (es, t)) (hsize : size < 2 ^ 64)
    (hw : alignment < 2 ^ 64)
    (ha : t.arena.allocate .word64 size alignment news = some (p, k, s)) :
    Reserved s p size ↔
      ∃ b ∈ servedBy .word64 size (if alignment = 0 then 1 else alignment) news t.arena,
        NoWrap b size (if alignment = 0 then 1 else alignment) := by
  have hsound := sound_run ((word64_holds _).mpr hblock) h
  obtain ⟨s₁, hs₁, hserved, hbump⟩ := serve_servedBy (Sound .word64)
    (fun s addr size hhold hs => hs.newBlock (hhold hs.holds)) ha hsound
  obtain ⟨b, older, hc, hfit, rfl, rfl⟩ := bump_eq_some hbump
  obtain ⟨hadd, hused⟩ := hs₁.used_add hc hfit
  rw [← hserved, hc, List.head?_cons]
  simp only [Option.mem_some_iff, exists_eq_left']
  refine reserved_bump_iff (?_ : _ = _ :: older) hused (alignment_pos alignment) (alignment_lt hw)
    hsize
  rw [hadd]

/-- A hundred bytes, in the first chunk. -/
theorem reserved_hundred : ∃ p k s,
    ArenaAllocator.allocate .word64 (.init 65536) 100 16 [4096] = some (p, k, s) ∧
    Reserved s p 100 := by
  have hrun : exec (step .word64) ⟨.init 65536, []⟩ [] = some (_, _) := rfl
  have ha : ArenaAllocator.allocate .word64 (.init 65536) 100 16 [4096] = some (_, _, _) := rfl
  exact ⟨_, _, _, ha, (reserved_iff (by decide) hrun (by decide) (by decide) ha).mpr
    ⟨⟨4096, 65536, 0⟩, rfl, by decide, by decide, by decide, by decide, by decide⟩⟩

/-- All but one byte of the addresses, from eight bytes of padding. -/
theorem not_reserved : ∃ s,
    ArenaAllocator.allocate .word64 (.init 65536) (2 ^ 64 - 1) 16 [4096] = some (4128, 0, s) ∧
    s.chunks = [⟨4096, 65536, 8⟩] ∧ ¬ Reserved s 4128 (2 ^ 64 - 1) :=
  ⟨_, rfl, by decide, fun h => absurd h.1 (by decide)⟩

end HftExercises.Arena
