import HftExercises.Memory.BorrowBox

/-! # Runs of boxes and guards

Every allowed call succeeds, and the boxes count their guards in every state.
-/
namespace HftExercises.BorrowGuards
variable {w : World} {b : Address} {x : Box} {c : Call} {calls : List Call}

/-- The guards of a kind that are not empty and point to the box at `b`. -/
def borrows (w : World) (k : Kind) (b : Address) : ℕ := countAt (bears k b) w

/-- The counters of every box tell its guards, of which none is a reader beside a writer. -/
structure Sound (w : World) : Prop where
  readers : ∀ b x, w b = some (.box x) → x.readers.toNat = borrows w .shared b
  writer : ∀ b x, w b = some (.box x) → (x.writer = true ↔ borrows w .exclusive b = 1)
  apart : ∀ b x, w b = some (.box x) →
    borrows w .exclusive b = 0 ∨ borrows w .exclusive b = 1 ∧ borrows w .shared b = 0

/-- What a call returns in a world, and what it leaves there. -/
structure Answers (w : World) (c : Call) (r : Result) (w' : World) : Prop where
  shared : ∀ b a, c = .tryBorrow .shared b a → (r = .granted ↔ borrows w .exclusive b = 0)
  exclusive : ∀ b a, c = .tryBorrow .exclusive b a →
    (r = .granted ↔ borrows w .shared b = 0 ∧ borrows w .exclusive b = 0)
  guard : ∀ k b a, c = .tryBorrow k b a → r = .granted → w' a = some (.guard k ⟨some b, some b⟩)
  refused : r = .refused → w' = w

theorem Consistent.sound (h : Consistent w) : Sound w := by
  have hread : ∀ b x, w b = some (.box x) → x.readers.toNat = borrows w .shared b :=
    fun b x hb => h.counts hb .shared
  have hwrite : ∀ b x, w b = some (.box x) → x.writer.toNat = borrows w .exclusive b :=
    fun b x hb => h.counts hb .exclusive
  refine ⟨hread, fun b x hb => ?_, fun b x hb => ?_⟩
  · rw [← hwrite b x hb]
    cases x.writer <;> simp
  · rw [← hwrite b x hb, ← hread b x hb]
    cases hw : x.writer with
    | false => exact .inl rfl
    | true =>
      rw [h.apart hb hw]
      exact .inr ⟨rfl, rfl⟩

theorem lend_none_iff (x : Box) (k : Kind) :
    x.lend k = none ↔ x.writer = true ∨ k = .exclusive ∧ x.readers ≠ 0 := by
  cases k with
  | shared => simp [Box.lend, Box.tryBorrow]
  | exclusive => simp [Box.lend, Box.tryBorrowMut, or_iff_not_imp_left]

/-- The contract of `try_borrow` and `try_borrow_mut`. -/
theorem Consistent.lend_none (h : Consistent w) (hb : w b = some (.box x)) (k : Kind) :
    x.lend k = none ↔ borrows w .exclusive b ≠ 0 ∨ k = .exclusive ∧ borrows w .shared b ≠ 0 := by
  have hread : x.readers.toNat = borrows w .shared b := h.counts hb .shared
  have hwrite : x.writer.toNat = borrows w .exclusive b := h.counts hb .exclusive
  have hzero : x.readers = 0 ↔ x.readers.toNat = 0 := UInt64.toNat_inj.symm
  rw [lend_none_iff, ← hread, ← hwrite, Ne, Ne, hzero]
  cases x.writer <;> simp

/-- One call. -/
theorem Consistent.step (h : Consistent w) (hc : w.Allowed c) :
    ∃ r w', w.step c = some (r, w') ∧ Consistent w' ∧ Answers w c r w' := by
  cases c with
  | makeBox b => exact ⟨_, _, rfl, h.makeBox hc, nofun, nofun, nofun, nofun⟩
  | destroyBox b =>
    obtain ⟨⟨x, hb⟩, hunused⟩ := hc
    refine ⟨.done, Function.update w b none, ?_, ?_, nofun, nofun, nofun, nofun⟩
    · rw [World.step, boxAt_eq hb]
      rfl
    · exact h.clear nofun (fun k c => by rw [hb]; rfl) fun c k g hg => (hunused c k g hg).1
  | makeGuard k a =>
    have ha : w a = none := hc
    refine ⟨.done, _, rfl, ?_, nofun, nofun, nofun, nofun⟩
    exact h.clear (fun p hp => ⟨k, (Option.some.inj hp).symm⟩) (fun k c => by rw [ha]; rfl)
      (h.ptr_ne (by rw [ha]; exact nofun))
  | tryBorrow k b a =>
    obtain ⟨⟨x, hb⟩, ha⟩ := hc
    have hnone := h.lend_none hb k
    rw [World.step, boxAt_eq hb, Option.map_some]
    cases hx : x.lend k with
    | none =>
      have hbusy := hnone.mp hx
      refine ⟨_, _, rfl, h, ?_, ?_, nofun, fun _ => rfl⟩
      · rintro _ _ ⟨⟩
        simpa using hbusy
      · rintro _ _ ⟨⟩
        refine iff_of_false nofun fun hfree => ?_
        rcases hbusy with hw | ⟨-, hr⟩
        · exact hw hfree.2
        · exact hr hfree.1
    | some x' =>
      have hfree : ¬(borrows w .exclusive b ≠ 0 ∨ k = .exclusive ∧ borrows w .shared b ≠ 0) := by
        rw [← hnone, hx]
        exact nofun
      rw [not_or, not_not] at hfree
      refine ⟨_, _, rfl, h.lend hb ha hx, ?_, ?_, ?_, nofun⟩
      · rintro _ _ ⟨⟩
        exact iff_of_true rfl hfree.1
      · rintro _ _ ⟨⟩
        exact iff_of_true rfl ⟨by simpa using hfree.2, hfree.1⟩
      · rintro _ _ _ ⟨⟩ -
        exact put_self ..
  | moveConstruct k source target =>
    obtain ⟨⟨g, hs⟩, ht⟩ := hc
    have hne : target ≠ source := by
      rintro rfl
      rw [ht] at hs
      cases hs
    obtain ⟨w', hsteal, hw'⟩ := h.steal hs hne (.inl ht)
    refine ⟨.done, w', ?_, hw', nofun, nofun, nofun, nofun⟩
    rw [World.step, hsteal]
    rfl
  | moveAssign k source target =>
    obtain ⟨⟨g, hs⟩, f, ht⟩ := hc
    rw [World.step]
    by_cases heq : source = target
    · rw [if_pos heq, guardAt_eq ht]
      exact ⟨.done, w, rfl, h, nofun, nofun, nofun, nofun⟩
    · obtain ⟨v, hrelease, hv⟩ := h.release ht
      have hs' : v source = some (.guard k g) :=
        (hv.others source heq (by rw [hs]; exact nofun)).trans hs
      obtain ⟨w', hsteal, hw'⟩ := hv.consistent.steal hs' (Ne.symm heq) (.inr hv.guard)
      rw [if_neg heq, hrelease, Option.bind_some, hsteal]
      exact ⟨.done, w', rfl, hw', nofun, nofun, nofun, nofun⟩
  | destroy k a =>
    obtain ⟨g, ha⟩ := hc
    obtain ⟨v, hrelease, hv⟩ := h.release ha
    refine ⟨.done, Function.update v a none, ?_, ?_, nofun, nofun, nofun, nofun⟩
    · rw [World.step, hrelease]
      rfl
    · refine hv.consistent.clear nofun (fun j c => ?_)
        (hv.consistent.ptr_ne (by rw [hv.guard]; exact nofun))
      rw [hv.guard]
      simp [Guard.empty]

/-- Allowed by the world that the calls before it lead to. -/
def Follows : List Call → Call → Prop :=
  AllowedAfter World.step World.empty fun _ w => w.Allowed

/-- A call of a run whose world was sound and whose answer is right. -/
def Answered (e : Event World Call Result) : Prop :=
  Sound e.before ∧
    ∃ w', e.before.step e.call = some (e.result, w') ∧ Answers e.before e.call e.result w'

/-- A run in which no call faults, every answer is right, and the counters are right from
the first state to the last. -/
theorem borrowBox_counts (calls : List Call) (hcalls : Admissible Follows calls) :
    ∃ es w, exec World.step World.empty calls = some (es, w) ∧ Sound w ∧
      ∀ e ∈ es, Answered e := by
  have hkeep : ∀ es w c, (Consistent w ∧ ∀ e ∈ es, Answered e) → w.Allowed c →
      ∃ r w', w.step c = some (r, w') ∧ Consistent w' ∧ ∀ e ∈ es ++ [⟨w, c, r⟩], Answered e := by
    rintro es w c ⟨hw, hes⟩ hc
    obtain ⟨r, w', hstep, hw', hanswer⟩ := hw.step hc
    refine ⟨r, w', hstep, hw', fun e he => ?_⟩
    rcases List.mem_append.mp he with he | he
    · exact hes e he
    · rw [List.mem_singleton.mp he]
      exact ⟨hw.sound, w', hstep, hanswer⟩
  obtain ⟨es, w, hrun, hw, hes⟩ := exec_allowed_total
    (fun es w => Consistent w ∧ ∀ e ∈ es, Answered e) hkeep ⟨consistent_empty, nofun⟩ hcalls
  exact ⟨es, w, hrun, hw.sound, hes⟩

/-- The reader at 1 moves to 2, and 2 is assigned the reader of the other box. -/
theorem borrowBox_counts_moves :
    ∃ es w, exec World.step World.empty [.makeBox 8, .makeBox 9, .tryBorrow .shared 8 1,
        .moveConstruct .shared 1 2, .tryBorrow .shared 9 3, .moveAssign .shared 3 2,
        .tryBorrow .exclusive 8 4] = some (es, w) ∧ Sound w ∧ ∀ e ∈ es, Answered e := by
  refine borrowBox_counts _ ?_
  simp only [admissible_cons]
  exact ⟨allowedAfter_of_exec rfl rfl, allowedAfter_of_exec rfl rfl,
    allowedAfter_of_exec rfl ⟨⟨_, rfl⟩, rfl⟩, allowedAfter_of_exec rfl ⟨⟨_, rfl⟩, rfl⟩,
    allowedAfter_of_exec rfl ⟨⟨_, rfl⟩, rfl⟩, allowedAfter_of_exec rfl ⟨⟨_, rfl⟩, _, rfl⟩,
    allowedAfter_of_exec rfl ⟨⟨_, rfl⟩, rfl⟩, admissible_nil⟩

end HftExercises.BorrowGuards
