import Mathlib.Data.Finset.Card
import HftExercises.Concurrency.MpmcQueue

/-! # Tickets and slots of the queue

What the counters, the sequence numbers and the stored values say about the
tickets claimed and popped so far, and how each store and each claim keeps it.
-/
namespace HftExercises.Mpmc
variable {T V : Type*}

/-- What the run so far has claimed and completed. -/
structure Ledger (V : Type*) where
  tails : List (ℕ × V)
  heads : List ℕ
  pushed : List (ℕ × V)
  popped : List (ℕ × V)

def ledger (es : List (StepEvent T V)) : Ledger V where
  tails := tailClaims es
  heads := headClaims es
  pushed := pushes es
  popped := pops es

/-- The ticket a slot is at: every earlier one of the slot has been popped. -/
def Current (N : ℕ) (s : System T V) (k : ℕ) : Prop :=
  s.seq (k % N) = k ∨ s.seq (k % N) = k + 1

/-- The slots with a completed push whose pop has not completed. -/
def published (N : ℕ) (s : System T V) : Finset ℕ :=
  (Finset.range N).filter (fun i => s.seq i % N ≠ i)

structure SlotInv (N : ℕ) (l : Ledger V) (s : System T V) : Prop where
  tails : l.tails.map Prod.fst = List.range s.tail
  heads : l.heads = List.range s.head
  ordered : s.head ≤ s.tail
  current : ∀ i < N, ∃ k, k % N = i ∧ Current N s k
  tail_le : ∀ k, Current N s k → s.tail ≤ k + N
  lt_head : ∀ k, Current N s k → k < s.head + N
  earlier : ∀ k, Current N s k → ∀ j, j % N = k % N → (j ∈ l.popped.map Prod.fst ↔ j < k)
  once : (l.popped.map Prod.fst).Nodup
  values : ∀ p ∈ l.popped, p ∈ l.tails
  free : ∀ k, s.seq (k % N) = k → s.head ≤ k
  stored : ∀ k, s.seq (k % N) = k + 1 → k < s.tail ∧ (k, s.value (k % N)) ∈ l.pushed
  pushed : ∀ p ∈ l.pushed, p ∈ l.tails
  counted : l.pushed.length = l.popped.length + (published N s).card

theorem succ_mod_ne {N : ℕ} (hN : 2 ≤ N) (k : ℕ) : (k + 1) % N ≠ k % N := by
  intro heq
  have hmod : k + 1 ≡ k + 0 [MOD N] := heq
  have hone : 1 % N = 0 % N := Nat.ModEq.add_left_cancel' k hmod
  rw [Nat.mod_eq_of_lt (by omega), Nat.zero_mod] at hone
  omega

/-- Tickets of one slot are `N` apart. -/
theorem eq_of_mod_eq {N j k : ℕ} (hmod : j % N = k % N) (hlo : k ≤ j) (hhi : j < k + N) :
    j = k := by
  have hzero : (j - k) % N = 0 := Nat.sub_mod_eq_zero_of_mod_eq hmod
  rw [Nat.mod_eq_of_lt (by omega)] at hzero
  omega

theorem Current.eq {N : ℕ} {s : System T V} {j k : ℕ} (hN : 2 ≤ N) (hj : Current N s j)
    (hk : Current N s k) (hmod : j % N = k % N) : j = k := by
  unfold Current at hj hk
  rw [hmod] at hj
  have hsucc : ∀ i, (i + 1) % N ≠ i % N := succ_mod_ne hN
  by_contra hne
  obtain hlt | hlt : j = k + 1 ∨ k = j + 1 := by omega
  · exact hsucc k (hlt ▸ hmod)
  · exact hsucc j (hlt ▸ hmod.symm)

def System.setSeq (s : System T V) (i x : ℕ) : System T V :=
  { s with seq := Function.update s.seq i x }

theorem System.setSeq_self (s : System T V) (i x : ℕ) : (s.setSeq i x).seq i = x := by
  unfold System.setSeq
  exact Function.update_self i x s.seq

theorem System.setSeq_of_ne (s : System T V) {i j x : ℕ} (h : j ≠ i) :
    (s.setSeq i x).seq j = s.seq j := by
  unfold System.setSeq
  exact Function.update_of_ne h x s.seq

section Slots
variable {N k : ℕ} {l : Ledger V} {s : System T V}

theorem slotInv_init [Inhabited V] (hN : 0 < N) :
    SlotInv N ⟨[], [], [], []⟩ (System.init : System T V) := by
  have hseq : ∀ i, (System.init : System T V).seq i = i := fun _ => rfl
  have hcurrent : ∀ k, Current N (System.init : System T V) k → k < N := by
    intro k hk
    have hle := Nat.mod_le k N
    have hlt := Nat.mod_lt k hN
    unfold Current at hk
    rw [hseq] at hk
    omega
  refine ⟨rfl, rfl, Nat.le_refl 0, ?_, ?_, ?_, ?_, List.nodup_nil, ?_, ?_, ?_, ?_, ?_⟩
  · intro i hi
    have hmod : i % N = i := Nat.mod_eq_of_lt hi
    exact ⟨i, hmod, .inl (by rw [hmod, hseq])⟩
  · intro k _
    exact Nat.zero_le _
  · intro k hk
    have hlt := hcurrent k hk
    show k < 0 + N
    omega
  · intro k hk j hj
    have hlt := hcurrent k hk
    have hle := Nat.mod_le j N
    rw [Nat.mod_eq_of_lt hlt] at hj
    constructor
    · intro hmem
      cases hmem
    · omega
  · intro p hp
    cases hp
  · intro k _
    exact Nat.zero_le _
  · intro k hk
    have hle := Nat.mod_le k N
    rw [hseq] at hk
    omega
  · intro p hp
    cases hp
  · have hnone : published N (System.init : System T V) = ∅ := by
      apply Finset.filter_eq_empty_iff.mpr
      intro i hi
      rw [hseq, not_not]
      exact Nat.mod_eq_of_lt (Finset.mem_range.mp hi)
    rw [hnone]
    rfl

theorem SlotInv.setControl [DecidableEq T] (h : SlotInv N l s) (t : T) (c : Control V) :
    SlotInv N l (s.setControl t c) :=
  ⟨h.tails, h.heads, h.ordered, h.current, h.tail_le, h.lt_head, h.earlier, h.once, h.values,
    h.free, h.stored, h.pushed, h.counted⟩

/-- A value written into a slot that has not been published. -/
theorem SlotInv.write (hN : 2 ≤ N) (h : SlotInv N l s) (hseq : s.seq (k % N) = k) (value : V) :
    SlotInv N l { s with value := Function.update s.value (k % N) value } := by
  refine ⟨h.tails, h.heads, h.ordered, h.current, h.tail_le, h.lt_head, h.earlier, h.once,
    h.values, h.free, ?_, h.pushed, h.counted⟩
  intro j hj
  have hmod : j % N ≠ k % N := by
    intro hmod
    dsimp only at hj
    rw [hmod, hseq] at hj
    subst hj
    exact succ_mod_ne hN j hmod.symm
  dsimp only
  rw [Function.update_of_ne hmod]
  exact h.stored j hj

theorem SlotInv.claimTail (hN : 2 ≤ N) (h : SlotInv N l s) (hseq : s.seq (s.tail % N) = s.tail)
    (value : V) :
    SlotInv N { l with tails := l.tails ++ [(s.tail, value)] } { s with tail := s.tail + 1 } := by
  refine ⟨?_, h.heads, ?_, h.current, ?_, h.lt_head, h.earlier, h.once, ?_, h.free, ?_,
    ?_, h.counted⟩
  · rw [List.map_append, h.tails, List.range_succ]
    rfl
  · exact Nat.le_succ_of_le h.ordered
  · intro k hk
    have hle := h.tail_le k hk
    have hne : s.tail ≠ k + N := by
      intro heq
      rw [heq, Nat.add_mod_right] at hseq
      unfold Current at hk
      dsimp only at hk
      omega
    dsimp only
    omega
  · intro p hp
    exact List.mem_append_left _ (h.values p hp)
  · intro k hk
    obtain ⟨hlt, hmem⟩ := h.stored k hk
    exact ⟨Nat.lt_succ_of_lt hlt, hmem⟩
  · intro p hp
    exact List.mem_append_left _ (h.pushed p hp)

theorem SlotInv.claimHead (h : SlotInv N l s) (hseq : s.seq (s.head % N) = s.head + 1) :
    SlotInv N { l with heads := l.heads ++ [s.head] } { s with head := s.head + 1 } := by
  refine ⟨h.tails, ?_, ?_, h.current, h.tail_le, ?_, h.earlier, h.once, h.values, ?_, h.stored,
    h.pushed, h.counted⟩
  · rw [h.heads, List.range_succ]
  · exact (h.stored s.head hseq).1
  · intro k hk
    have hlt := h.lt_head k hk
    dsimp only
    omega
  · intro k hk
    have hle := h.free k hk
    have hne : k ≠ s.head := by
      rintro rfl
      dsimp only at hk
      omega
    dsimp only
    omega

theorem current_setSeq {x j : ℕ} (hmod : j % N ≠ k % N) :
    Current N (s.setSeq (k % N) x) j ↔ Current N s j := by
  unfold Current
  rw [s.setSeq_of_ne hmod]

/-- A slot that gets a new ticket leaves the other slots theirs. -/
theorem SlotInv.current_after (h : SlotInv N l s) {x j : ℕ} (hmod : j % N = k % N)
    (hj : Current N (s.setSeq (k % N) x) j) :
    ∀ i < N, ∃ j, j % N = i ∧ Current N (s.setSeq (k % N) x) j := by
  intro i hi
  by_cases hk : i = k % N
  · exact ⟨j, hmod.trans hk.symm, hj⟩
  · obtain ⟨j', rfl, hj'⟩ := h.current i hi
    exact ⟨j', rfl, (current_setSeq hk).mpr hj'⟩

/-- Once the pop of `k` has returned, so have those of all tickets of its slot
before `k + N`. -/
theorem SlotInv.popped_or_eq (hN : 0 < N) (h : SlotInv N l s) (hk : Current N s k) {i : ℕ}
    (hi : i % N = k % N) : i ∈ l.popped.map Prod.fst ∨ i = k ↔ i < k + N := by
  rw [h.earlier k hk i hi]
  constructor
  · omega
  · intro hlt'
    rcases Nat.lt_or_ge i k with hik | hik
    · exact .inl hik
    · exact .inr (eq_of_mod_eq hi hik hlt')

/-- The end of a push turns its slot from `k` to `k + 1`. -/
theorem SlotInv.publish (hN : 2 ≤ N) (h : SlotInv N l s) (hseq : s.seq (k % N) = k)
    (hlt : k < s.tail) (hmem : (k, s.value (k % N)) ∈ l.tails) :
    SlotInv N { l with pushed := l.pushed ++ [(k, s.value (k % N))] }
      (s.setSeq (k % N) (k + 1)) := by
  have hself := s.setSeq_self (k % N) (k + 1)
  have hother : ∀ i, i ≠ k % N → (s.setSeq (k % N) (k + 1)).seq i = s.seq i :=
    fun i hi => s.setSeq_of_ne hi
  have hcurrent : ∀ j, Current N (s.setSeq (k % N) (k + 1)) j → Current N s j := by
    intro j hj
    by_cases hmod : j % N = k % N
    · have hk : Current N (s.setSeq (k % N) (k + 1)) k := .inr hself
      rw [hj.eq hN hk hmod]
      exact .inl hseq
    · exact (current_setSeq hmod).mp hj
  have hpublished : published N (s.setSeq (k % N) (k + 1)) = insert (k % N) (published N s) := by
    ext i
    by_cases hi : i = k % N
    · have hlt := Nat.mod_lt k (show 0 < N by omega)
      simp [published, hi, hself, succ_mod_ne hN k, hlt]
    · simp [published, hi, hother i hi]
  have hfresh : k % N ∉ published N s := by
    simp [published, hseq]
  refine ⟨?_, ?_, ?_, ?_, ?_, ?_, ?_, h.once, h.values, ?_, ?_, ?_, ?_⟩
  · exact h.tails
  · exact h.heads
  · exact h.ordered
  · exact h.current_after rfl (.inr hself)
  · intro j hj
    exact h.tail_le j (hcurrent j hj)
  · intro j hj
    exact h.lt_head j (hcurrent j hj)
  · intro j hj
    exact h.earlier j (hcurrent j hj)
  · intro j hj
    have hmod : j % N ≠ k % N := by
      intro hmod
      rw [hmod, hself] at hj
      subst hj
      exact succ_mod_ne hN k hmod
    rw [hother _ hmod] at hj
    exact h.free j hj
  · intro j hj
    by_cases hmod : j % N = k % N
    · rw [hmod, hself] at hj
      obtain rfl : k = j := by omega
      exact ⟨hlt, List.mem_append_right _ List.mem_cons_self⟩
    · rw [hother _ hmod] at hj
      obtain ⟨hlt', hmem'⟩ := h.stored j hj
      exact ⟨hlt', List.mem_append_left _ hmem'⟩
  · intro p hp
    rcases List.mem_append.mp hp with hp | hp
    · exact h.pushed p hp
    · rw [List.mem_singleton.mp hp]
      exact hmem
  · rw [hpublished, Finset.card_insert_of_notMem hfresh, List.length_append, h.counted]
    rfl

/-- The end of a pop passes its slot on to ticket `k + N`. -/
theorem SlotInv.release (hN : 2 ≤ N) (h : SlotInv N l s) (hseq : s.seq (k % N) = k + 1)
    (hlt : k < s.head) {out : V} (hmem : (k, out) ∈ l.tails) :
    SlotInv N { l with popped := l.popped ++ [(k, out)] }
      (s.setSeq (k % N) (k + N)) := by
  have htickets : (l.popped ++ [(k, out)]).map Prod.fst = l.popped.map Prod.fst ++ [k] := by
    rw [List.map_append]
    rfl
  have hold : Current N s k := .inr hseq
  have hself := s.setSeq_self (k % N) (k + N)
  have hother : ∀ i, i ≠ k % N → (s.setSeq (k % N) (k + N)).seq i = s.seq i :=
    fun i hi => s.setSeq_of_ne hi
  have hnext : Current N (s.setSeq (k % N) (k + N)) (k + N) := by
    left
    rw [Nat.add_mod_right, hself]
  have hcurrent : ∀ j, Current N (s.setSeq (k % N) (k + N)) j → j = k + N ∨ (j % N ≠ k % N ∧ Current N s j) := by
    intro j hj
    by_cases hmod : j % N = k % N
    · exact .inl (hj.eq hN hnext (by rw [Nat.add_mod_right, hmod]))
    · exact .inr ⟨hmod, (current_setSeq hmod).mp hj⟩
  have hpublished : published N (s.setSeq (k % N) (k + N)) = (published N s).erase (k % N) := by
    ext i
    by_cases hi : i = k % N
    · simp [published, hi, hself]
    · simp [published, hi, hother i hi]
  have hbusy : k % N ∈ published N s := by
    have hlt := Nat.mod_lt k (show 0 < N by omega)
    simp [published, hseq, succ_mod_ne hN k, hlt]
  refine ⟨?_, ?_, ?_, ?_, ?_, ?_, ?_, ?_, ?_, ?_, ?_, h.pushed, ?_⟩
  · exact h.tails
  · exact h.heads
  · exact h.ordered
  · exact h.current_after (Nat.add_mod_right k N) hnext
  · intro j hj
    rcases hcurrent j hj with rfl | ⟨_, hj⟩
    · have hle := h.tail_le k hold
      show s.tail ≤ k + N + N
      omega
    · exact h.tail_le j hj
  · intro j hj
    rcases hcurrent j hj with rfl | ⟨_, hj⟩
    · show k + N < s.head + N
      omega
    · exact h.lt_head j hj
  · intro j hj i hi
    rw [htickets, List.mem_append, List.mem_singleton]
    rcases hcurrent j hj with rfl | ⟨hmod, hj⟩
    · rw [Nat.add_mod_right] at hi
      exact h.popped_or_eq (Nat.lt_of_lt_of_le Nat.two_pos hN) hold hi
    · rw [h.earlier j hj i hi]
      constructor
      · rintro (hij | rfl)
        · exact hij
        · exact absurd hi.symm hmod
      · exact .inl
  · rw [htickets]
    refine List.Nodup.append h.once (List.nodup_singleton k) ?_
    intro i hi hi'
    rw [List.mem_singleton.mp hi'] at hi
    have hkk := (h.earlier k hold k rfl).mp hi
    omega
  · intro p hp
    rcases List.mem_append.mp hp with hp | hp
    · exact h.values p hp
    · rw [List.mem_singleton.mp hp]
      exact hmem
  · intro j hj
    rcases hcurrent j (.inl hj) with rfl | ⟨hmod, _⟩
    · have hle := h.tail_le k hold
      have hord := h.ordered
      show s.head ≤ k + N
      omega
    · rw [hother _ hmod] at hj
      exact h.free j hj
  · intro j hj
    rcases hcurrent j (.inr hj) with rfl | ⟨hmod, _⟩
    · rw [Nat.add_mod_right, hself] at hj
      omega
    · rw [hother _ hmod] at hj
      exact h.stored j hj
  · have hcard := Finset.card_erase_add_one hbusy
    have hcount := h.counted
    rw [hpublished, List.length_append, List.length_singleton]
    dsimp only
    omega

end Slots
end HftExercises.Mpmc
