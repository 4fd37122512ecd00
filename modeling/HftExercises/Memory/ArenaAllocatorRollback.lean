import HftExercises.Memory.ArenaAllocatorRuns

/-! # What a rollback restores

A mark is a bare address, and `rollback_to` looks for the chunk it lies in. A mark at the
end of a full chunk lies in none: such a rollback does nothing.
-/
namespace HftExercises.Arena
variable {T : SizeT} {s s' s₀ : ArenaAllocator} {b : Block} {older : List Block}
  {size alignment m p k : ℕ} {news : List ℕ}

/-- What the calls after a mark keep: they never go back past it. -/
structure Nested (T : SizeT) (s₀ : ArenaAllocator) (s : System) : Prop where
  kept : Kept T s₀.chunks Held.isMark s
  since : Since s₀ s.arena

theorem Since.rollbackTo {c' : List Block} (h : Since s₀ s) (hg : Grown s₀.chunks c')
    (hle : c'.length ≤ s.chunks.length) (hchunks : s'.chunks = c')
    (hcount : s'.blockCount = s.blockCount - (s.chunks.length - c'.length))
    (hsize : s'.blockSize = s.blockSize) : Since s₀ s' where
  grown := hchunks ▸ hg
  count := by
    have := h.count
    have := hg.length_le
    rw [hcount, hchunks]
    omega
  blockSize := hsize.trans h.blockSize

/-- The calls after a mark: no `reset` and no `release`. -/
def KeepsMarks (s : System) (i : Call) : Prop := MarkHeld s i ∧ i ≠ .reset ∧ i ≠ .release

instance (s : System) (i : Call) : Decidable (KeepsMarks s i) :=
  inferInstanceAs (Decidable (_ ∧ _))

theorem Nested.rollbackTo {s : System} (h : Nested T s₀ s) (hm : .mark m ∈ s.held) :
    Since s₀ (s.arena.rollbackTo T m) ∧
      (s.arena.rollbackTo T m = s.arena ∨ ∃ b older, Filled T (b :: older) ∧ b.used < b.size ∧
        (s.arena.rollbackTo T m).chunks = b :: older ∧
          (b :: older).length ≤ s.arena.chunks.length) := by
  obtain ⟨rest, c', -, htakes, hbelow⟩ := h.kept.takes (fun _ => rfl) hm
  obtain ⟨b, older, rfl, hfound, hfull⟩ :=
    rollbackTo_of_takes h.kept.sound.filled h.kept.owned htakes
  have hfilled := htakes.filled h.kept.sound.filled
  rcases Nat.lt_or_eq_of_le (hfilled b List.mem_cons_self).1 with hlt | heq
  · obtain ⟨hchunks, hcount, hsize⟩ := hfound hlt
    exact ⟨h.since.rollbackTo hbelow.grown htakes.grown.length_le hchunks hcount hsize,
      .inr ⟨b, older, hfilled, hlt, hchunks, htakes.grown.length_le⟩⟩
  · rw [hfull heq]
    exact ⟨h.since, .inl rfl⟩

theorem Nested.step {s s' : System} {i : Call} {o : Result} (h : Nested T s₀ s)
    (hs : guarded KeepsMarks (fun s => Owned T s.arena.chunks) (step T) s i = some (o, s')) :
    Nested T s₀ s' := by
  obtain ⟨⟨hmark, hcall⟩, hstep, howned⟩ := guarded_eq_some.mp hs
  refine ⟨h.kept.step (fun _ => rfl) (.inr fun _ _ => Bool.false_ne_true) (.inr hcall)
    (guarded_eq_some.mpr ⟨hmark, hstep, howned⟩), ?_⟩
  cases i with
  | allocate size alignment news =>
    obtain ⟨⟨p, k, a⟩, ha, hr⟩ := Option.map_eq_some_iff.mp hstep
    cases hr
    exact h.since.trans (h.kept.sound.allocate ha).2
  | deallocate ptr =>
    cases hstep
    exact h.since
  | allocateAll news =>
    obtain ⟨⟨p, a⟩, ha, hr⟩ := Option.map_eq_some_iff.mp hstep
    cases hr
    exact h.since.trans (h.kept.sound.allocateAll ha).2
  | rollbackTo mark =>
    cases hstep
    exact (h.rollbackTo hmark).1
  | reset => exact absurd rfl hcall.1
  | release => exact absurd rfl hcall.2

/-- A call that asks for no byte of the chunk: none but an allocation asks for any. -/
def Quiet (T : SizeT) (b : Block) (i : Call) : Prop :=
  ∀ size alignment news, i = .allocate size alignment news →
    b.needed T size (if alignment = 0 then 1 else alignment) = 0

end HftExercises.Arena
