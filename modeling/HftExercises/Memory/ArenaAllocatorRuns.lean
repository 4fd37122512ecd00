import HftExercises.Memory.ArenaAllocator
import Mathlib.Data.List.TakeWhile

/-! # Marks and ranges along a run of the bump allocator

A chain grows at its head only, and a rollback that succeeds cuts it back to the chain
that the mark was taken in. What the client holds is read as a stack of spans, each of
which lies past everything below it in the stack.
-/
namespace HftExercises.Arena
variable {T : SizeT}

section Chains
variable {c c₁ c₂ c' base : List Block} {b : Block} {older : List Block} {m n : ℕ}

/-- The chunk at the head has been filled further, and others have been put before it. -/
def Grown : List Block → List Block → Prop
  | [], _ => True
  | b :: older, c => ∃ newer u, c = newer ++ { b with used := u } :: older ∧ b.used ≤ u

theorem Grown.refl : ∀ c, Grown c c
  | [] => trivial
  | b :: _ => ⟨[], b.used, rfl, le_rfl⟩

theorem Grown.trans (h₁ : Grown c c₁) (h₂ : Grown c₁ c₂) : Grown c c₂ := by
  cases c with
  | nil => trivial
  | cons b older =>
    obtain ⟨newer, u, rfl, hu⟩ := h₁
    cases newer with
    | nil =>
      obtain ⟨newer', u', rfl, hu'⟩ := h₂
      exact ⟨newer', u', rfl, Nat.le_trans hu hu'⟩
    | cons d ds =>
      obtain ⟨newer', u', rfl, -⟩ := h₂
      exact ⟨newer' ++ { d with used := u' } :: ds, u, by simp, hu⟩

theorem Grown.length_le (h : Grown c c₁) : c.length ≤ c₁.length := by
  cases c with
  | nil => exact Nat.zero_le _
  | cons b older =>
    obtain ⟨newer, u, rfl, -⟩ := h
    simp

theorem grown_cons (b : Block) (c : List Block) : Grown c (b :: c) := by
  cases c with
  | nil => trivial
  | cons d ds => exact ⟨[b], d.used, rfl, le_rfl⟩

/-- A span of `n` bytes at `m` in the used bytes of a chunk, with the chain rewound to it. -/
def Takes (c : List Block) (m n : ℕ) (c' : List Block) : Prop :=
  ∃ newer b older, c = newer ++ b :: older ∧ b.data ≤ m ∧ m + n ≤ b.data + b.used ∧
    c' = { b with used := m - b.data } :: older

theorem Takes.grown (h : Takes c m n c') : Grown c' c := by
  obtain ⟨newer, b, older, rfl, hm, hn, rfl⟩ := h
  exact ⟨newer, b.used, rfl, by dsimp only; omega⟩

theorem Takes.of_grown (h : Takes c m n c') (hg : Grown c c₁) : Takes c₁ m n c' := by
  obtain ⟨newer, b, older, rfl, hm, hn, rfl⟩ := h
  cases newer with
  | nil =>
    obtain ⟨newer', u, rfl, hu⟩ := hg
    exact ⟨newer', { b with used := u }, older, rfl, hm, Nat.le_trans hn (Nat.add_le_add_left hu _), rfl⟩
  | cons d ds =>
    obtain ⟨newer', u, rfl, -⟩ := hg
    exact ⟨newer' ++ { d with used := u } :: ds, b, older, by simp, hm, hn, rfl⟩

theorem Takes.mem (h : Takes c m n c') : ∃ b ∈ c, b.data ≤ m ∧ m + n ≤ b.data + b.used := by
  obtain ⟨newer, b, older, rfl, hm, hn, -⟩ := h
  exact ⟨b, by simp, hm, hn⟩

/-- Each span lies past the spans below it, and the last one past `base`. -/
def Stacked (base : List Block) : List (ℕ × ℕ) → List Block → Prop
  | [], c => Grown base c
  | (m, n) :: spans, c => ∃ c', Takes c m n c' ∧ Stacked base spans c'

theorem Stacked.of_grown {spans : List (ℕ × ℕ)} (h : Stacked base spans c) (hg : Grown c c₁) :
    Stacked base spans c₁ := by
  cases spans with
  | nil => exact Grown.trans h hg
  | cons span spans =>
    obtain ⟨c', ht, hs⟩ := h
    exact ⟨c', ht.of_grown hg, hs⟩

theorem Stacked.tail {span : ℕ × ℕ} {spans : List (ℕ × ℕ)} (h : Stacked base (span :: spans) c) :
    Stacked base spans c := by
  obtain ⟨c', ht, hs⟩ := h
  exact hs.of_grown ht.grown

theorem Stacked.of_append {spans rest : List (ℕ × ℕ)} (h : Stacked base (spans ++ rest) c) :
    Stacked base rest c := by
  induction spans with
  | nil => exact h
  | cons span spans ih => exact ih h.tail

theorem Stacked.grown {spans : List (ℕ × ℕ)} (h : Stacked base spans c) : Grown base c := by
  rw [← List.append_nil spans] at h
  exact h.of_append

theorem Stacked.mem {spans : List (ℕ × ℕ)} (h : Stacked base spans c) {m n : ℕ}
    (hmn : (m, n) ∈ spans) : ∃ b ∈ c, b.data ≤ m ∧ m + n ≤ b.data + b.used := by
  obtain ⟨spans₁, spans₂, rfl⟩ := List.append_of_mem hmn
  obtain ⟨c', ht, -⟩ := h.of_append
  exact ht.mem

/-- The mark at the cursor of the head. -/
theorem takes_cursor : Takes (b :: older) (b.data + b.used) 0 (b :: older) :=
  ⟨[], b, older, rfl, Nat.le_add_right _ _, le_rfl, by rw [Nat.add_sub_cancel_left]⟩

/-- Every chunk owns its header and `size` bytes at `data()`, apart from those of the others
and within the addresses. -/
def Owned (T : SizeT) (c : List Block) : Prop :=
  (∀ b ∈ c, T.Holds (b.data + b.size)) ∧
    c.Pairwise fun a b => a.data + a.size ≤ b.addr ∨ b.data + b.size ≤ a.addr

instance (T : SizeT) (n : ℕ) : Decidable (T.Holds n) := inferInstanceAs (Decidable (_ = _))

instance (T : SizeT) (c : List Block) : Decidable (Owned T c) :=
  inferInstanceAs (Decidable (_ ∧ _))

/-- What the calls keep of a chain. -/
def Filled (T : SizeT) (c : List Block) : Prop := ∀ b ∈ c, b.used ≤ b.size ∧ T.Holds b.size

/-- In a chain that owns its chunks only the chunk of a mark can be found for it. -/
theorem finds_iff {newer older : List Block} {b : Block} (ho : Owned T (newer ++ b :: older))
    (hb : b.used ≤ b.size) (hm : b.data ≤ m) (hn : m ≤ b.data + b.used) {d : Block}
    (hd : d ∈ newer ++ b :: older) : Finds T m d ↔ d = b ∧ m < b.data + b.size := by
  have hend : T.add d.data d.size = d.data + d.size := (ho.1 d hd).add_eq
  rw [Finds, hend]
  constructor
  · rintro ⟨hdm, hmd⟩
    have happart : d = b ∨ d.data + d.size ≤ b.addr ∨ b.data + b.size ≤ d.addr := by
      obtain ⟨-, ⟨hb', hrest⟩, hcross⟩ := List.pairwise_append.mp ho.2 |>.imp_right
        (And.imp_left List.pairwise_cons.mp)
      rcases List.mem_append.mp hd with hd | hd
      · exact .inr (hcross d hd b List.mem_cons_self)
      · rcases List.mem_cons.mp hd with rfl | hd
        · exact .inl rfl
        · exact .inr (hb' d hd).symm
    simp only [Block.data, sizeofBlock] at *
    rcases happart with rfl | h | h
    · exact ⟨rfl, hmd⟩
    · omega
    · omega
  · rintro ⟨rfl, hlt⟩
    exact ⟨hm, hlt⟩

/-- A rollback to a mark that is held cuts the chain back to the mark, unless the mark is the
end of its chunk: then it does nothing. -/
theorem rollbackTo_of_takes {s : ArenaAllocator} (hf : Filled T s.chunks) (ho : Owned T s.chunks)
    (ht : Takes s.chunks m 0 c') : ∃ b older, c' = b :: older ∧
      (b.used < b.size → (s.rollbackTo T m).chunks = c' ∧
        (s.rollbackTo T m).blockCount = s.blockCount - (s.chunks.length - c'.length) ∧
        (s.rollbackTo T m).blockSize = s.blockSize) ∧
      (b.used = b.size → s.rollbackTo T m = s) := by
  obtain ⟨newer, b, older, hc, hm, hn, rfl⟩ := ht
  have hb : b ∈ newer ++ b :: older := by simp
  have hbf := hf b (hc ▸ hb)
  have hfinds : ∀ d ∈ newer ++ b :: older, Finds T m d ↔ d = b ∧ m < b.data + b.size :=
    fun d hd => finds_iff (hc ▸ ho) hbf.1 hm hn hd
  refine ⟨_, older, rfl, ?_, ?_⟩
  · intro hlt
    have hnew : ∀ d ∈ newer, ¬ Finds T m d := by
      intro d hd hfind
      obtain ⟨rfl, -⟩ := (hfinds d (by simp [hd])).mp hfind
      -- a chunk that comes twice would own its header twice
      have hself := (List.pairwise_append.mp (hc ▸ ho).2).2.2 d hd d List.mem_cons_self
      simp only [Block.data, sizeofBlock] at hself
      omega
    have hfound : Finds T m b := (hfinds b hb).mpr ⟨rfl, by dsimp only at hlt; omega⟩
    have hdrop : s.chunks.dropWhile (fun b => ¬ Finds T m b) = b :: older := by
      rw [hc, List.dropWhile_append_of_pos (by simpa using hnew),
        List.dropWhile_cons_of_neg (by simpa using hfound)]
    have htake : s.chunks.takeWhile (fun b => ¬ Finds T m b) = newer := by
      rw [hc, List.takeWhile_append_of_pos (by simpa using hnew),
        List.takeWhile_cons_of_neg (by simpa using hfound), List.append_nil]
    have hhold : T.Holds m := ((hc ▸ ho).1 b hb).of_le (by omega)
    rw [ArenaAllocator.rollbackTo, hdrop, htake]
    refine ⟨by simp only [hhold.sub_eq hm], ?_, rfl⟩
    rw [hc]
    simp
  · intro hfull
    have hnone : ∀ d ∈ s.chunks, ¬ Finds T m d := by
      intro d hd hfind
      obtain ⟨-, hlt⟩ := (hfinds d (hc ▸ hd)).mp hfind
      dsimp only at hfull
      omega
    rw [ArenaAllocator.rollbackTo, List.dropWhile_eq_nil_iff.mpr (by simpa using hnone)]

end Chains

section Calls
variable {s s' : ArenaAllocator} {size alignment p k : ℕ} {news : List ℕ}

theorem bump_cons (T : SizeT) (size alignment : ℕ) {b : Block} {older : List Block}
    (hc : s.chunks = b :: older) :
    s.bump T size alignment =
      if b.needed T size alignment > b.remaining T then none
      else some (b.aligned T alignment, { s with
        chunks := { b with used := T.add b.used (b.needed T size alignment) } :: older }) := by
  rw [ArenaAllocator.bump, hc]

theorem bump_eq_some (h : s.bump T size alignment = some (p, s')) : ∃ b older,
    s.chunks = b :: older ∧ b.needed T size alignment ≤ b.remaining T ∧ p = b.aligned T alignment ∧
      s' = { s with
        chunks := { b with used := T.add b.used (b.needed T size alignment) } :: older } := by
  rw [ArenaAllocator.bump] at h
  split at h
  · cases h
  · rename_i b older hc
    split_ifs at h with hfit
    cases h
    exact ⟨b, older, hc, Nat.le_of_not_lt hfit, rfl, rfl⟩

/-- The chunk in which the call finds room, before anything is taken from it. -/
def servedBy (T : SizeT) (size alignment : ℕ) : List ℕ → ArenaAllocator → Option Block
  | [], s => s.chunks.head?
  | addr :: news, s =>
    match s.chunks with
    | [] => servedBy T size alignment news (s.newBlock addr s.blockSize)
    | b :: _ =>
      if b.needed T size alignment > b.remaining T then
        servedBy T size alignment news (s.newBlock addr
          (max s.blockSize (T.add (requested T size alignment) alignment)))
      else some b

/-- What every new chunk keeps holds where the call at last finds room. -/
theorem serve_servedBy (P : ArenaAllocator → Prop)
    (hnew : ∀ s addr size, (T.Holds s.blockSize → T.Holds size) → P s → P (s.newBlock addr size))
    (h : ArenaAllocator.serve T size alignment news s = some (p, k, s')) (hs : P s) :
    ∃ s₁, P s₁ ∧ s₁.chunks.head? = servedBy T size alignment news s ∧
      s₁.bump T size alignment = some (p, s') := by
  induction news generalizing s k with
  | nil =>
    obtain ⟨⟨q, u⟩, hb, hr⟩ := Option.map_eq_some_iff.mp h
    cases hr
    exact ⟨s, hs, rfl, hb⟩
  | cons addr news ih =>
    rw [ArenaAllocator.serve] at h
    rw [servedBy]
    cases hc : s.chunks with
    | nil =>
      rw [hc] at h
      exact ih h (hnew s addr _ id hs)
    | cons b older =>
      have hbump := bump_cons T size alignment hc
      simp only [hc, hbump] at h
      dsimp only
      by_cases hfit : b.needed T size alignment > b.remaining T
      · rw [if_pos hfit] at h ⊢
        obtain ⟨⟨q, l, u⟩, hserve, hr⟩ := Option.map_eq_some_iff.mp h
        cases hr
        exact ih hserve (hnew s addr _ (fun hhold => hhold.max (T.holds_add _ _)) hs)
      · rw [if_neg hfit] at h hbump ⊢
        cases h
        exact ⟨s, hs, by rw [hc, List.head?_cons], hbump⟩

theorem serve_induct (P : ArenaAllocator → Prop)
    (hnew : ∀ s addr size, (T.Holds s.blockSize → T.Holds size) → P s → P (s.newBlock addr size))
    (h : ArenaAllocator.serve T size alignment news s = some (p, k, s')) (hs : P s) :
    ∃ s₁, P s₁ ∧ s₁.bump T size alignment = some (p, s') := by
  obtain ⟨s₁, h₁, -, hb⟩ := serve_servedBy P hnew h hs
  exact ⟨s₁, h₁, hb⟩

/-- What the calls keep of an arena. -/
structure Sound (T : SizeT) (s : ArenaAllocator) : Prop where
  filled : Filled T s.chunks
  holds : T.Holds s.blockSize

theorem Sound.newBlock (h : Sound T s) {addr size : ℕ} (hsize : T.Holds size) :
    Sound T (s.newBlock addr size) where
  filled := List.forall_mem_cons.mpr ⟨⟨Nat.zero_le _, hsize⟩, h.filled⟩
  holds := h.holds

theorem Sound.used_add {b : Block} {older : List Block} (h : Sound T s) (hc : s.chunks = b :: older)
    (hfit : b.needed T size alignment ≤ b.remaining T) :
    T.add b.used (b.needed T size alignment) = b.used + b.needed T size alignment ∧
      b.used + b.needed T size alignment ≤ b.size := by
  obtain ⟨hused, hsize⟩ := h.filled b (hc ▸ List.mem_cons_self)
  rw [Block.remaining, hsize.sub_eq hused] at hfit
  exact ⟨(hsize.of_le (by omega)).add_eq, by omega⟩

/-- How far an arena has come since an earlier state of it: no chunk has been lost. -/
structure Since (s s' : ArenaAllocator) : Prop where
  grown : Grown s.chunks s'.chunks
  count : s'.blockCount + s.chunks.length = s.blockCount + s'.chunks.length
  blockSize : s'.blockSize = s.blockSize

theorem Since.newBlock {s₁ : ArenaAllocator} (h : Since s s₁) (addr size : ℕ) :
    Since s (s₁.newBlock addr size) where
  grown := h.grown.trans (grown_cons _ _)
  count := by
    have := h.count
    simp only [ArenaAllocator.newBlock, List.length_cons]
    omega
  blockSize := h.blockSize

theorem Sound.bump (h : Sound T s) (hb : s.bump T size alignment = some (p, s')) :
    Sound T s' ∧ Since s s' := by
  obtain ⟨b, older, hc, hfit, -, rfl⟩ := bump_eq_some hb
  obtain ⟨hadd, hle⟩ := h.used_add hc hfit
  have hfilled := h.filled
  rw [hc, Filled, List.forall_mem_cons] at hfilled
  refine ⟨⟨List.forall_mem_cons.mpr ⟨⟨?_, hfilled.1.2⟩, hfilled.2⟩, h.holds⟩, ?_, ?_, rfl⟩
  · rw [hadd]
    exact hle
  · rw [hc]
    exact ⟨[], _, rfl, by rw [hadd]; exact Nat.le_add_right _ _⟩
  · rw [hc]
    rfl

theorem Since.trans {s₁ s₂ : ArenaAllocator} (h₁ : Since s s₁) (h₂ : Since s₁ s₂) : Since s s₂ where
  grown := h₁.grown.trans h₂.grown
  count := by
    have := h₁.count
    have := h₂.count
    omega
  blockSize := h₂.blockSize.trans h₁.blockSize

theorem Since.refl (s : ArenaAllocator) : Since s s where
  grown := Grown.refl _
  count := rfl
  blockSize := rfl

theorem Sound.allocate (h : Sound T s) (ha : s.allocate T size alignment news = some (p, k, s')) :
    Sound T s' ∧ Since s s' := by
  obtain ⟨s₁, ⟨hs₁, hsince⟩, hb⟩ := serve_induct (fun s₁ => Sound T s₁ ∧ Since s s₁)
    (fun s₁ addr size hhold hs => ⟨hs.1.newBlock (hhold hs.1.holds), hs.2.newBlock addr size⟩) ha
    ⟨h, Since.refl s⟩
  exact ⟨(hs₁.bump hb).1, hsince.trans (hs₁.bump hb).2⟩

theorem allocateAll_eq_some (h : s.allocateAll T news = some (p, s')) :
    ∃ b older, s'.chunks = b :: older ∧ p = b.cursor T ∧
      (s' = s ∨ s.chunks = [] ∧ ∃ addr, s' = s.newBlock addr s.blockSize) := by
  unfold ArenaAllocator.allocateAll at h
  split at h
  · rename_i b older hc
    cases h
    exact ⟨b, older, hc, rfl, .inl rfl⟩
  · rename_i addr _ hc
    cases h
    exact ⟨_, s.chunks, rfl, rfl, .inr ⟨hc, addr, rfl⟩⟩
  · cases h

theorem Sound.allocateAll (h : Sound T s) (ha : s.allocateAll T news = some (p, s')) :
    Sound T s' ∧ Since s s' := by
  obtain ⟨_, _, -, -, rfl | ⟨-, addr, rfl⟩⟩ := allocateAll_eq_some ha
  · exact ⟨h, Since.refl _⟩
  · exact ⟨h.newBlock h.holds, (Since.refl s).newBlock addr _⟩

theorem Sound.rollbackTo (h : Sound T s) (target : ℕ) : Sound T (s.rollbackTo T target) := by
  unfold ArenaAllocator.rollbackTo
  split
  · exact h
  · rename_i b older hd
    have hsub : b :: older ⊆ s.chunks := hd ▸ (List.dropWhile_suffix _).subset
    have hfind : Finds T target b := by
      have hhead := List.head?_dropWhile_not (fun b => decide (¬ Finds T target b)) s.chunks
      rw [hd] at hhead
      simpa using hhead
    obtain ⟨-, hsize⟩ := h.filled b (hsub List.mem_cons_self)
    have hle := hfind.1
    have hlt := Nat.lt_of_lt_of_le hfind.2 (T.add_le b.data b.size)
    have hoff : target - b.data < b.size := by omega
    refine ⟨List.forall_mem_cons.mpr ⟨⟨?_, hsize⟩, fun d hd => ?_⟩, h.holds⟩
    · change T.sub target b.data ≤ b.size
      rw [SizeT.sub, ← Int.natCast_sub hle]
      exact Nat.le_trans (T.wrap_le _) hoff.le
    · exact h.filled d (hsub (List.mem_cons_of_mem b hd))

theorem Sound.reset (h : Sound T s) : Sound T s.reset := by
  unfold ArenaAllocator.reset
  split
  · exact h
  · rename_i oldest hlast
    have hmem := h.filled oldest (List.mem_of_getLast? hlast)
    exact ⟨List.forall_mem_singleton.mpr ⟨Nat.zero_le _, hmem.2⟩, h.holds⟩

theorem Sound.step {s s' : System} {i : Call} {o : Result} (h : Sound T s.arena)
    (hs : Arena.step T s i = some (o, s')) : Sound T s'.arena := by
  cases i with
  | allocate size alignment news =>
    obtain ⟨⟨p, k, a⟩, ha, hr⟩ := Option.map_eq_some_iff.mp hs
    cases hr
    exact (h.allocate ha).1
  | deallocate ptr =>
    cases hs
    exact h
  | allocateAll news =>
    obtain ⟨⟨p, a⟩, ha, hr⟩ := Option.map_eq_some_iff.mp hs
    cases hr
    exact (h.allocateAll ha).1
  | rollbackTo mark =>
    cases hs
    exact h.rollbackTo mark
  | reset =>
    cases hs
    exact h.reset
  | release =>
    cases hs
    exact ⟨List.forall_mem_nil _, h.holds⟩

/-- Whatever is called, no chunk is used past its size. -/
theorem sound_run {blockSize : ℕ} (hsize : T.Holds blockSize) {calls : List Call}
    {es : List (Event System Call Result)} {t : System}
    (h : exec (Arena.step T) ⟨.init blockSize, []⟩ calls = some (es, t)) : Sound T t.arena := by
  have hinit : Sound T (.init blockSize) := ⟨List.forall_mem_nil _, hsize⟩
  exact exec_invariant (fun _ s => Sound T s.arena) (fun _ _ _ _ _ hs hstep => hs.step hstep) hinit h

/-- The mark is taken at the cursor. -/
theorem takes_mark (h : Sound T s') (ho : Owned T s'.chunks)
    (ha : s.allocateAll T news = some (p, s')) : Takes s'.chunks p 0 s'.chunks := by
  obtain ⟨b, older, hc, rfl, -⟩ := allocateAll_eq_some ha
  have hb : b ∈ s'.chunks := hc ▸ List.mem_cons_self
  have hhold : T.Holds (b.data + b.used) :=
    (ho.1 b hb).of_le (Nat.add_le_add_left (h.filled b hb).1 _)
  rw [hc, Block.cursor, hhold.add_eq]
  exact takes_cursor

end Calls

section Exact
variable {s s' : ArenaAllocator} {size alignment p k : ℕ} {news : List ℕ}

theorem alignUp_eq {value alignment : ℕ} (h : T.Holds (value + alignment)) (ha : 0 < alignment) :
    alignUp T value alignment = (value + alignment - 1) / alignment * alignment := by
  have hsub : T.Holds (value + alignment - 1) := h.of_le (Nat.sub_le _ _)
  have hmul : T.Holds ((value + alignment - 1) / alignment * alignment) :=
    hsub.of_le (Nat.div_mul_le_self _ _)
  rw [alignUp, h.add_eq, h.sub_eq (by omega), SizeT.mul, ← Int.natCast_mul]
  exact hmul

/-- Rounding up gives the first multiple that is not below the value. -/
theorem alignUp_bounds {value alignment : ℕ} (h : T.Holds (value + alignment))
    (ha : 0 < alignment) : value ≤ alignUp T value alignment ∧
      alignUp T value alignment < value + alignment ∧ alignment ∣ alignUp T value alignment := by
  rw [alignUp_eq h ha]
  have hdiv := Nat.div_add_mod (value + alignment - 1) alignment
  have hmod := Nat.mod_lt (value + alignment - 1) ha
  rw [Nat.mul_comm] at hdiv
  exact ⟨by omega, by omega, Nat.dvd_mul_left _ _⟩

/-- Without overflow the padding is less than the alignment, and the bytes reserved past it are
enough. -/
theorem exact_bounds (b : Block) (size : ℕ) (ha : 0 < alignment) :
    b.data + b.used ≤ b.aligned .exact alignment ∧
      b.aligned .exact alignment < b.data + b.used + alignment ∧
      alignment ∣ b.aligned .exact alignment ∧ max size 1 ≤ requested .exact size alignment ∧
      b.needed .exact size alignment =
        b.aligned .exact alignment - (b.data + b.used) + requested .exact size alignment := by
  have hcursor : b.cursor .exact = b.data + b.used := SizeT.exact_add _ _
  have halign := alignUp_bounds (SizeT.exact_holds (b.data + b.used + alignment)) ha
  have hsize := alignUp_bounds (SizeT.exact_holds (max size 1 + alignment)) ha
  rw [Block.needed, Block.aligned, hcursor, SizeT.exact_add, SizeT.exact_sub]
  exact ⟨halign.1, halign.2.1, halign.2.2, hsize.1, rfl⟩

/-- The bytes handed out lie past everything that was used before, and in what is used now. -/
theorem takes_bump (h : Sound .exact s) (ha : 0 < alignment)
    (hb : s.bump .exact size alignment = some (p, s')) :
    ∃ c', Takes s'.chunks p (max size 1) c' ∧ Grown s.chunks c' := by
  obtain ⟨b, older, hc, hfit, rfl, rfl⟩ := bump_eq_some hb
  obtain ⟨hadd, -⟩ := h.used_add hc hfit
  obtain ⟨hle, -, -, hreq, hneed⟩ := exact_bounds b size ha
  rw [hc]
  refine ⟨_, ⟨[], _, older, rfl, ?_, ?_, rfl⟩, ⟨[], _, rfl, ?_⟩⟩
  · exact Nat.le_trans (Nat.le_add_right _ _) hle
  · change b.aligned .exact alignment + max size 1 ≤ b.data + SizeT.exact.add b.used _
    omega
  · change b.used ≤ b.aligned .exact alignment - b.data
    omega

theorem alignment_eq (alignment : ℕ) : (if alignment = 0 then 1 else alignment) = max alignment 1 := by
  split_ifs <;> omega

theorem alignment_pos (alignment : ℕ) : 0 < if alignment = 0 then 1 else alignment := by
  split_ifs <;> omega

theorem dvd_of_allocate (ha : s.allocate .exact size alignment news = some (p, k, s')) :
    max alignment 1 ∣ p := by
  obtain ⟨s₁, -, hb⟩ := serve_induct (fun _ => True) (fun _ _ _ _ _ => trivial) ha trivial
  obtain ⟨b, _, -, -, rfl, -⟩ := bump_eq_some hb
  rw [← alignment_eq]
  exact (exact_bounds b size (alignment_pos alignment)).2.2.1

theorem takes_allocate (h : Sound .exact s)
    (ha : s.allocate .exact size alignment news = some (p, k, s')) :
    ∃ c', Takes s'.chunks p (max size 1) c' ∧ Grown s.chunks c' := by
  obtain ⟨s₁, ⟨hs₁, hsince⟩, hb⟩ := serve_induct (fun s₁ => Sound SizeT.exact s₁ ∧ Since s s₁)
    (fun s₁ addr size hhold hs => ⟨hs.1.newBlock (hhold hs.1.holds), hs.2.newBlock addr size⟩) ha
    ⟨h, Since.refl s⟩
  obtain ⟨c', htakes, hgrown⟩ := takes_bump hs₁ (alignment_pos alignment) hb
  exact ⟨c', htakes, hsince.grown.trans hgrown⟩

/-- A chunk made for a request has room for it. -/
theorem bump_newBlock (s : ArenaAllocator) (addr size : ℕ) (ha : 0 < alignment) {room : ℕ}
    (hroom : requested .exact size alignment + alignment ≤ room) :
    ((s.newBlock addr room).bump .exact size alignment).isSome := by
  obtain ⟨-, hlt, -, -, hneed⟩ := exact_bounds ⟨addr, room, 0⟩ size ha
  have hfit : ¬ Block.needed .exact ⟨addr, room, 0⟩ size alignment >
      Block.remaining .exact ⟨addr, room, 0⟩ := by
    rw [hneed, Block.remaining, SizeT.exact_sub]
    dsimp only at *
    omega
  rw [ArenaAllocator.bump, ArenaAllocator.newBlock]
  simp only [if_neg hfit, Option.isSome_some]

theorem serve_of_bump {r : ℕ × ArenaAllocator} (hb : s.bump T size alignment = some r)
    (news : List ℕ) : s.serve T size alignment news = some (r.1, 0, r.2) := by
  obtain ⟨b, older, hc, -⟩ := bump_eq_some hb
  cases news with
  | nil => rw [ArenaAllocator.serve, hb, Option.map_some]
  | cons addr news =>
    rw [ArenaAllocator.serve, hc]
    simp only [hb]

/-- From a chunk on, one more chunk is enough. -/
theorem serve_cons (ha : 0 < alignment) {b : Block} {older : List Block}
    (hc : s.chunks = b :: older) (addr : ℕ) (news : List ℕ) :
    ∃ p k s', s.serve .exact size alignment (addr :: news) = some (p, k, s') ∧ k ≤ 1 := by
  cases hb : s.bump .exact size alignment with
  | some r => exact ⟨r.1, 0, r.2, serve_of_bump hb _, Nat.zero_le _⟩
  | none =>
    obtain ⟨r, hr⟩ := Option.isSome_iff_exists.mp
      (bump_newBlock s addr size ha (Nat.le_max_right s.blockSize _))
    refine ⟨r.1, 1, r.2, ?_, le_rfl⟩
    rw [ArenaAllocator.serve, hc]
    simp only [hb, SizeT.exact_add, serve_of_bump hr news, Option.map_some, Nat.zero_add]

theorem serve_calls_le (ha : 0 < alignment)
    (hs : s.serve .exact size alignment news = some (p, k, s')) : k ≤ 1 := by
  induction news generalizing s with
  | nil =>
    obtain ⟨_, -, hr⟩ := Option.map_eq_some_iff.mp hs
    cases hr
    exact Nat.zero_le _
  | cons addr news ih =>
    cases hc : s.chunks with
    | nil =>
      rw [ArenaAllocator.serve, hc] at hs
      exact ih hs
    | cons b older =>
      obtain ⟨_, _, _, hserve, hle⟩ := serve_cons ha hc addr news
      rw [hserve] at hs
      cases hs
      exact hle

/-- Two chunks are enough for every call. -/
theorem allocate_isSome (s : ArenaAllocator) (size alignment a₁ a₂ : ℕ) (news : List ℕ) :
    (s.allocate .exact size alignment (a₁ :: a₂ :: news)).isSome := by
  have ha := alignment_pos alignment
  rw [ArenaAllocator.allocate]
  cases hc : s.chunks with
  | nil =>
    obtain ⟨_, _, _, hserve, -⟩ :=
      serve_cons ha (s := s.newBlock a₁ s.blockSize) rfl a₂ news
    rw [ArenaAllocator.serve, hc]
    exact Option.isSome_of_eq_some hserve
  | cons b older =>
    obtain ⟨_, _, _, hserve, -⟩ := serve_cons ha hc a₁ (a₂ :: news)
    exact Option.isSome_of_eq_some hserve

end Exact

section Runs
variable {base c' : List Block} {keep : Held → Bool} {s s' : System} {m : ℕ}

/-- A mark spans no byte. -/
def Held.span : Held → ℕ × ℕ
  | .range p n => (p, n)
  | .mark m => (m, 0)

def Held.isMark : Held → Bool
  | .range _ _ => false
  | .mark _ => true

/-- A rollback goes to a mark that was taken and has not been undone since. -/
def MarkHeld (s : System) : Call → Prop
  | .rollbackTo mark => .mark mark ∈ s.held
  | _ => True

instance (s : System) : (i : Call) → Decidable (MarkHeld s i)
  | .rollbackTo _ => inferInstanceAs (Decidable (_ ∈ _))
  | .allocate .. | .deallocate _ | .allocateAll _ | .reset | .release => inferInstanceAs (Decidable True)

/-- The spans that are kept track of lie in the chain as they are stacked. -/
structure Kept (T : SizeT) (base : List Block) (keep : Held → Bool) (s : System) : Prop where
  sound : Sound T s.arena
  owned : Owned T s.arena.chunks
  stacked : Stacked base ((s.held.filter keep).map Held.span) s.arena.chunks

theorem dropWhile_held {held : List Held} (hm : .mark m ∈ held) :
    ∃ rest, held.dropWhile (· ≠ .mark m) = .mark m :: rest := by
  cases hd : held.dropWhile (· ≠ .mark m) with
  | nil =>
    rw [List.dropWhile_eq_nil_iff] at hd
    simpa using hd _ hm
  | cons e rest =>
    have hhead := List.head?_dropWhile_not (· ≠ Held.mark m) held
    rw [hd] at hhead
    exact ⟨rest, by simpa using hhead⟩

/-- A held mark lies in the chain, and what is below it in the part it cuts off. -/
theorem Kept.takes (h : Kept T base keep s) (hkeep : ∀ m, keep (.mark m)) (hm : .mark m ∈ s.held) :
    ∃ rest c', s.held.dropWhile (· ≠ .mark m) = .mark m :: rest ∧ Takes s.arena.chunks m 0 c' ∧
      Stacked base ((rest.filter keep).map Held.span) c' := by
  obtain ⟨rest, hrest⟩ := dropWhile_held hm
  have hstacked := h.stacked
  rw [← List.takeWhile_append_dropWhile (p := (· ≠ Held.mark m)) (l := s.held), hrest,
    List.filter_append, List.map_append, List.filter_cons_of_pos (hkeep m), List.map_cons] at hstacked
  obtain ⟨c', htakes, hbelow⟩ := hstacked.of_append
  exact ⟨rest, c', hrest, htakes, hbelow⟩

theorem Takes.filled {c : List Block} (h : Takes c m 0 c') (hf : Filled T c) : Filled T c' := by
  obtain ⟨newer, b, older, rfl, hm, hn, rfl⟩ := h
  rw [Filled, List.forall_mem_append, List.forall_mem_cons] at hf
  exact List.forall_mem_cons.mpr ⟨⟨by dsimp only; omega, hf.2.1.2⟩, hf.2.2⟩

/-- A step keeps the spans stacked. Those of the allocations are kept track of only where no
operation overflows. -/
theorem Kept.step (h : Kept T base keep s) (hkeep : ∀ m, keep (.mark m))
    (hrange : T = .exact ∨ ∀ p n, ¬ keep (.range p n)) {i : Call} {o : Result}
    (hbase : base = [] ∨ i ≠ .reset ∧ i ≠ .release)
    (hs : guarded MarkHeld (fun s => Owned T s.arena.chunks) (step T) s i = some (o, s')) :
    Kept T base keep s' := by
  obtain ⟨hmark, hs, howned⟩ := guarded_eq_some.mp hs
  refine ⟨h.sound.step hs, howned, ?_⟩
  cases i with
  | allocate size alignment news =>
    obtain ⟨⟨p, k, a⟩, ha, hr⟩ := Option.map_eq_some_iff.mp hs
    cases hr
    rcases hk : keep (.range p (max size 1)) with _ | _
    · rw [List.filter_cons_of_neg (by simp [hk])]
      exact h.stacked.of_grown (h.sound.allocate ha).2.grown
    · rw [List.filter_cons_of_pos hk]
      rcases hrange with rfl | hrange
      · obtain ⟨c', htakes, hgrown⟩ := takes_allocate h.sound ha
        exact ⟨c', htakes, h.stacked.of_grown hgrown⟩
      · exact absurd hk (hrange _ _)
  | deallocate ptr =>
    cases hs
    exact h.stacked
  | allocateAll news =>
    obtain ⟨⟨p, a⟩, ha, hr⟩ := Option.map_eq_some_iff.mp hs
    cases hr
    obtain ⟨hsound, hsince⟩ := h.sound.allocateAll ha
    rw [List.filter_cons_of_pos (hkeep p)]
    exact ⟨a.chunks, takes_mark hsound howned ha, h.stacked.of_grown hsince.grown⟩
  | rollbackTo mark =>
    obtain ⟨rest, c', hdrop, htakes, hbelow⟩ := h.takes hkeep hmark
    obtain ⟨b, older, hc', hfound, hfull⟩ := rollbackTo_of_takes h.sound.filled h.owned htakes
    have hfilled := htakes.filled h.sound.filled
    cases hs
    rw [hdrop, List.filter_cons_of_pos (hkeep mark)]
    rcases Nat.lt_or_eq_of_le (hfilled b (hc' ▸ List.mem_cons_self)).1 with hlt | heq
    · rw [(hfound hlt).1]
      obtain ⟨newer, d, older', -, hm, -, rfl⟩ := htakes
      refine ⟨_, ⟨[], _, older', rfl, hm, ?_, rfl⟩, hbelow⟩
      change mark ≤ d.data + (mark - d.data)
      omega
    · rw [hfull heq]
      exact ⟨c', htakes, hbelow⟩
  | reset | release =>
    cases hs
    obtain rfl : base = [] := by simpa using hbase
    trivial

/-- Two spans share no byte. -/
def Apart (x y : ℕ × ℕ) : Prop := x.1 + x.2 ≤ y.1 ∨ y.1 + y.2 ≤ x.1

theorem Stacked.pairwise_apart {c : List Block} {spans : List (ℕ × ℕ)} (h : Stacked base spans c)
    (hf : Filled T c) (ho : Owned T c) : spans.Pairwise Apart := by
  induction spans with
  | nil => exact List.Pairwise.nil
  | cons span spans ih =>
    refine List.pairwise_cons.mpr ⟨?_, ih h.tail⟩
    obtain ⟨m, n⟩ := span
    rintro ⟨q, k⟩ hq
    obtain ⟨c', ⟨newer, b, older, rfl, hm, hn, rfl⟩, hbelow⟩ := h
    obtain ⟨d, hd, hdq, hqd⟩ := hbelow.mem hq
    rcases List.mem_cons.mp hd with rfl | hd
    · -- in the chunk of the span itself what is below ends where it starts
      simp only [Block.data] at *
      exact .inr (by dsimp only; omega)
    · have hcross := (List.pairwise_cons.mp (List.pairwise_append.mp ho.2).2.1).1 d hd
      have hbf := (hf b (by simp)).1
      have hdf := (hf d (by simp [hd])).1
      simp only [Apart, Block.data] at *
      omega

/-- The bytes of the allocations that are still held. -/
def Held.range? : Held → Option (ℕ × ℕ)
  | .range p n => some (p, n)
  | .mark _ => none

theorem filterMap_range_sublist (held : List Held) :
    (held.filterMap Held.range?).Sublist (held.map Held.span) := by
  induction held with
  | nil => exact List.Sublist.slnil
  | cons e held ih =>
    cases e with
    | range p n => exact ih.cons_cons (p, n)
    | mark m => exact ih.cons (m, 0)

theorem kept_init (blockSize : ℕ) : Kept .exact [] (fun _ => true) ⟨.init blockSize, []⟩ where
  sound := ⟨nofun, SizeT.exact_holds _⟩
  owned := ⟨nofun, List.Pairwise.nil⟩
  stacked := trivial

/-- Where no operation overflows and every chunk owns its bytes, the bytes handed out and not
undone lie in what is used of their chunk and share nothing, and every call returns. -/
theorem ranges_held {blockSize : ℕ} {calls : List Call} {es : List (Event System Call Result)}
    {t : System} (h : exec (step .exact) ⟨.init blockSize, []⟩ calls = some (es, t))
    (hmark : ∀ e ∈ es, MarkHeld e.before e.call)
    (howned : ∀ e ∈ es, Owned .exact e.before.arena.chunks) (ht : Owned .exact t.arena.chunks) :
    (∀ b ∈ t.arena.chunks, b.used ≤ b.size) ∧
      (∀ r ∈ t.held.filterMap Held.range?,
        ∃ b ∈ t.arena.chunks, b.data ≤ r.1 ∧ r.1 + r.2 ≤ b.data + b.used) ∧
      (t.held.filterMap Held.range?).Pairwise Apart ∧
      (∀ size alignment a₁ a₂ news,
        (t.arena.allocate .exact size alignment (a₁ :: a₂ :: news)).isSome) ∧
      ∀ size alignment news p k a, t.arena.allocate .exact size alignment news = some (p, k, a) →
        max alignment 1 ∣ p ∧ k ≤ 1 ∧
          ∃ b ∈ a.chunks, b.data ≤ p ∧ p + max size 1 ≤ b.data + b.used := by
  have hkept : Kept .exact [] (fun _ => true) t :=
    exec_invariant (fun _ => Kept .exact [] fun _ => true)
      (fun _ _ _ _ _ hk hs => hk.step (fun _ => rfl) (.inl rfl) (.inl rfl) hs) (kept_init blockSize)
      (exec_guarded h hmark howned ht)
  have hstacked := hkept.stacked
  rw [List.filter_eq_self.mpr fun _ _ => rfl] at hstacked
  have hsub := filterMap_range_sublist t.held
  refine ⟨fun b hb => (hkept.sound.filled b hb).1, fun r hr => hstacked.mem (hsub.subset hr),
    (hstacked.pairwise_apart hkept.sound.filled hkept.owned).sublist hsub,
    allocate_isSome t.arena, ?_⟩
  intro size alignment news p k a ha
  obtain ⟨c', htakes, -⟩ := takes_allocate hkept.sound ha
  exact ⟨dvd_of_allocate ha, serve_calls_le (alignment_pos alignment) ha, htakes.mem⟩

/-- Three allocations over two chunks, the last two of them undone. -/
theorem ranges_held_rolled : ∃ es t,
    exec (step .exact) ⟨.init 64, []⟩ [.allocate 0 3 [1000], .allocateAll [], .allocate 5 8 [],
      .allocate 100 16 [2000], .rollbackTo 1029] = some (es, t) ∧
    t.held.filterMap Held.range? = [(1026, 1)] ∧
    (t.held.filterMap Held.range?).Pairwise Apart := by
  have hrun : exec (step .exact) ⟨.init 64, []⟩ [.allocate 0 3 [1000], .allocateAll [],
    .allocate 5 8 [], .allocate 100 16 [2000], .rollbackTo 1029] = some (_, _) := rfl
  exact ⟨_, _, hrun, by decide, (ranges_held hrun (by decide) (by decide) (by decide)).2.2.1⟩

end Runs

end HftExercises.Arena
