import HftExercises.Memory.StateBorrowReaders

/-! # Shared and exclusive handles

`release` takes any `SMut`, and a reference is counted by the box it was borrowed from.
Where the token is the one of the lock's value, and the references that come and go are
counted for that value or for none, no shared handle is live beside an exclusive one.
-/
namespace HftExercises.Typestate

/-- What is claimed of the handles in a state. -/
def Exclusive (w : World) : Prop := ∀ v, w.mutsTo v ≤ 1 ∧ (w.refsTo v = 0 ∨ w.mutsTo v = 0)

/-- The count of an owner with a value stays above the references to the value: one that is
gained is counted there, without a wrap, and one that is lost was one to the value. -/
def Counted (w : World) (gain loss : Option Ref) : Prop :=
  ∀ k x v, w.boxes k = some x → x.value = some v →
    (gain.any (Ref.sees v) = true → gain.any (Ref.owns k) = true) ∧
    (loss.any (Ref.owns k) = true → loss.any (Ref.sees v) = true) ∧
    (gain.any (Ref.owns k) = true →
      (x.readers - unit (loss.any (Ref.owns k))).toNat + 1 < 2 ^ 64)

/-- The token of a release is the only handle to the value of the lock. -/
def Released (w : World) : Call → Prop
  | .release l m _ => ∀ v, w.Holds (.locked, l) v → ∀ a, a ≠ m → w.muts a ≠ some (some v)
  | _ => True

def Faithful (w : World) (c : Call) : Prop :=
  Counted w (w.changes c).1 (w.changes c).2 ∧ Released w c

/-- No exclusive handle to the value of a free box, whose count is high enough, and no
reference to the value of a locked one. -/
structure Guarded (w : World) : Prop where
  exclusive : Exclusive w
  free : ∀ b x v, w.boxes (.free, b) = some x → x.value = some v →
    w.refsTo v ≤ x.readers.toNat ∧ w.mutsTo v = 0
  locked : ∀ l v, w.Holds (.locked, l) v → w.refsTo v = 0

section Lemmas
variable {w w' : World} {c : Call} {gain loss : Option Ref} {k : State × Place} {x : Box} {v : ℕ}
variable {r : Ref} {a m : Place}

theorem refsTo_pos (ha : w.refs a = some r) (hv : r.sees v = true) : w.refsTo v ≠ 0 :=
  countAt_ne_zero (t := a) (by rw [ha]; exact hv)

/-- A reference that a call adds is one to a value that has one, or to the value of a box. -/
theorem gain_source (hr : (w.changes c).1 = some r) (hv : r.sees v = true) :
    w.refsTo v ≠ 0 ∨ ∃ b, w.Holds (.free, b) v := by
  cases c with
  | borrow b a =>
    obtain ⟨x, hx, rfl⟩ := Option.map_eq_some_iff.mp hr
    exact .inr ⟨b, x, hx, of_decide_eq_true hv⟩
  | copyRef source target => exact .inl (refsTo_pos hr hv)
  | assignRef source target =>
    simp only [World.changes] at hr
    split_ifs at hr with heq
    exact .inl (refsTo_pos hr hv)
  | moveAssignRef source target =>
    simp only [World.changes] at hr
    split_ifs at hr
  | _ => cases hr

/-- A count stays below a word when neither wraps and the word gains no less and loses no
more. -/
theorem word_count_le {C C' R lo go ls gs : ℕ} (hR : R < 2 ^ 64) (hle : C ≤ R)
    (hcount : C' + ls = C + gs) (hgain : gs ≤ go) (hloss : lo ≤ ls) (hone : lo ≤ 1)
    (hroom : go = 0 ∨ go = 1 ∧ (2 ^ 64 - lo + R) % 2 ^ 64 + 1 < 2 ^ 64) :
    C' ≤ (R + (2 ^ 64 - lo) + go) % 2 ^ 64 := by
  omega

theorem Ref.owns_locked (r : Ref) (l : Place) : r.owns (.locked, l) = false := by
  simp [Ref.owns]

theorem Guarded.refChange (h : Guarded w) (hc : RefChange w w' gain loss)
    (hcounted : Counted w gain loss)
    (hgain : ∀ r v, gain = some r → r.sees v = true → w.mutsTo v = 0) : Guarded w' := by
  have hmuts : ∀ v, w'.mutsTo v = w.mutsTo v := fun v => by rw [World.mutsTo, hc.muts]; rfl
  refine ⟨fun v => ?_, fun b y v hy hv => ?_, fun l v hl => ?_⟩
  · obtain ⟨hone, hor⟩ := h.exclusive v
    rw [hmuts]
    refine ⟨hone, or_iff_not_imp_right.mpr fun hm => ?_⟩
    have hnot : gain.any (Ref.sees v) = false := by
      cases gain with
      | none => rfl
      | some r => exact Bool.eq_false_iff.mpr fun hr => hm (hgain r v rfl hr)
    have hcount := hc.counts v
    rw [hnot, Bool.toNat_false, hor.resolve_right hm] at hcount
    omega
  · rw [hc.boxes, Option.map_eq_some_iff] at hy
    obtain ⟨x, hx, rfl⟩ := hy
    obtain ⟨hle, hm⟩ := h.free b x v hx hv
    obtain ⟨hgained, hlost, hroom⟩ := hcounted _ x v hx hv
    refine ⟨?_, (hmuts v).trans hm⟩
    rw [toNat_recount]
    refine word_count_le x.readers.toNat_lt hle (hc.counts v)
      (Bool.toNat_le_toNat hgained) (Bool.toNat_le_toNat hlost) (Bool.toNat_le _) ?_
    cases hg : gain.any (Ref.owns (.free, b)) with
    | false => exact .inl rfl
    | true =>
      have hfits := hroom hg
      rw [UInt64.toNat_sub, toNat_unit] at hfits
      exact .inr ⟨rfl, hfits⟩
  · obtain ⟨x, hx, hv⟩ := hc.holds_iff.mp hl
    have hnone : gain.any (Ref.sees v) = false := by
      refine Bool.eq_false_iff.mpr fun hr => ?_
      have howns := (hcounted _ x v hx hv).1 hr
      cases gain with
      | none => cases howns
      | some r =>
        rw [Option.any_some, Ref.owns_locked] at howns
        cases howns
    have hcount := hc.counts v
    rw [hnone, Bool.toNat_false, h.locked l v ⟨x, hx, hv⟩] at hcount
    omega

theorem mutsTo_fresh (hw : Wellformed w) : w.mutsTo w.fresh = 0 :=
  countAt_eq_zero.mpr fun _ =>
    decide_eq_false fun ha => Nat.lt_irrefl _ (hw.muts ha)

/-- Exclusive handles go, and the boxes and the references stay. -/
theorem Guarded.mono (h : Guarded w) (hboxes : w'.boxes = w.boxes) (hrefs : w'.refs = w.refs)
    (hmuts : ∀ v, w'.mutsTo v ≤ w.mutsTo v) : Guarded w' := by
  have hcount : ∀ v, w'.refsTo v = w.refsTo v := fun v => by rw [World.refsTo, hrefs]; rfl
  refine ⟨fun v => ?_, fun b x v hx hv => ?_, fun l v hl => ?_⟩
  · have hv := h.exclusive v
    have hle := hmuts v
    rw [hcount]
    omega
  · rw [hboxes] at hx
    have hfree := h.free b x v hx hv
    have hle := hmuts v
    rw [hcount]
    omega
  · rw [World.Holds, hboxes] at hl
    rw [hcount]
    exact h.locked l v hl

theorem Guarded.move (h : Guarded w) {source target : State × Place} (hs : w.boxes source = some x)
    (hstate : source.1 = target.1) : Guarded (w.moveInto source target x) := by
  refine ⟨h.exclusive, fun b y v hy hv => ?_, fun l v hl => ?_⟩
  · rw [boxes_moveInto] at hy
    split_ifs at hy with ht hsrc
    · cases hy
      obtain ⟨s, a⟩ := source
      obtain rfl : s = .free := hstate.trans (congrArg Prod.fst ht).symm
      exact h.free a x v hs hv
    · cases hy
      cases hv
    · exact h.free b y v hy hv
  · rcases holds_moveInto.mp hl with ⟨ht, hv⟩ | ⟨-, -, hold⟩
    · obtain ⟨s, a⟩ := source
      obtain rfl : s = .locked := hstate.trans (congrArg Prod.fst ht).symm
      exact h.locked a v ⟨x, hs, hv⟩
    · exact h.locked l v hold

theorem Guarded.lock (h : Guarded w) (hw : Wellformed w) {b l : Place}
    (hb : w.boxes (.free, b) = some x) (hx : x.readers = 0) (hm : w.muts m = none) :
    Guarded ((w.moveInto (.free, b) (.locked, l) x).setMut m (some x.value)) := by
  have hvalue : ∀ v, x.value = some v → w.refsTo v = 0 ∧ w.mutsTo v = 0 := by
    intro v hv
    obtain ⟨hle, hnone⟩ := h.free b x v hb hv
    rw [hx] at hle
    exact ⟨Nat.le_zero.mp hle, hnone⟩
  have hcount : ∀ v, ((w.moveInto (.free, b) (.locked, l) x).setMut m (some x.value)).mutsTo v =
      w.mutsTo v + (decide (x.value = some v)).toNat := by
    intro v
    have hset := mutsTo_setMut (w.moveInto (.free, b) (.locked, l) x) m (some x.value) v
    have hnone : decide ((w.moveInto (.free, b) (.locked, l) x).muts m = some (some v)) = false :=
      decide_eq_false (hm.trans_ne nofun)
    have hmoved : (w.moveInto (.free, b) (.locked, l) x).mutsTo v = w.mutsTo v := rfl
    rw [hnone, Bool.toNat_false, Nat.add_zero, hmoved] at hset
    simpa using hset
  refine ⟨fun v => ?_, fun c y v hy hv => ?_, fun c v hc => ?_⟩
  · rw [hcount]
    by_cases hv : x.value = some v
    · obtain ⟨hr, hm⟩ := hvalue v hv
      rw [hm]
      exact ⟨by simp [hv], .inl hr⟩
    · rw [decide_eq_false hv, Bool.toNat_false, Nat.add_zero]
      exact h.exclusive v
  · have hholds : (w.moveInto (.free, b) (.locked, l) x).Holds (.free, c) v := ⟨y, hy, hv⟩
    rcases holds_moveInto.mp hholds with ⟨heq, -⟩ | ⟨-, hne, hold⟩
    · cases heq
    · have hother : x.value ≠ some v := fun hxv => hne (hw.unique hold ⟨x, hb, hxv⟩)
      rw [hcount, decide_eq_false hother, Bool.toNat_false, Nat.add_zero]
      have hy' : w.boxes (.free, c) = some y := by
        have hmoved := boxes_moveInto w (.free, b) (.locked, l) (.free, c) x
        rw [if_neg nofun, if_neg hne] at hmoved
        exact hmoved.symm.trans hy
      exact h.free c y v hy' hv
  · rcases holds_moveInto.mp hc with ⟨-, hv⟩ | ⟨-, -, hold⟩
    · exact (hvalue v hv).1
    · exact h.locked c v hold

theorem Guarded.unlock (h : Guarded w) {l b : Place} (hl : w.boxes (.locked, l) = some x)
    (hreleased : Released w (.release l m b)) :
    Guarded ((w.setMut m (some none)).moveInto (.locked, l) (.free, b) x) := by
  have hle : ∀ v, (w.setMut m (some none)).mutsTo v ≤ w.mutsTo v := by
    intro v
    have hset := mutsTo_setMut w m (some none) v
    have hempty : decide ((some none : Option (Option ℕ)) = some (some v)) = false := by simp
    rw [hempty, Bool.toNat_false, Nat.add_zero] at hset
    exact (Nat.le_add_right _ _).trans_eq hset
  have hg : Guarded (w.setMut m (some none)) := h.mono rfl rfl hle
  have hnone : ∀ v, x.value = some v → (w.setMut m (some none)).mutsTo v = 0 := by
    intro v hv
    refine countAt_eq_zero.mpr fun a => decide_eq_false fun ha => ?_
    rcases update_cases (· = some (some v)) ha with ⟨-, heq⟩ | ⟨hne, hold⟩
    · cases heq
    · exact hreleased v ⟨x, hl, hv⟩ a hne hold
  refine ⟨hg.exclusive, fun c y v hy hv => ?_, fun c v hc => ?_⟩
  · rw [boxes_moveInto] at hy
    split_ifs at hy with ht hsrc
    · cases hy
      exact ⟨(h.locked l v ⟨x, hl, hv⟩).le.trans (Nat.zero_le _), hnone v hv⟩
    · cases hsrc
    · exact hg.free c y v hy hv
  · rcases holds_moveInto.mp hc with ⟨heq, -⟩ | ⟨-, -, hold⟩
    · cases heq
    · exact hg.locked c v hold

/-- One faithful call. -/
theorem Change.guarded (hc : Change w c w') (hw : Wellformed w) (h : Guarded w)
    (hf : Faithful w c) : Guarded w' := by
  cases hc with
  | make ha =>
    have hfresh := refsTo_fresh hw
    refine ⟨h.exclusive, fun b y v hy hv => ?_, fun l v hl => ?_⟩
    · rw [boxes_makeBox] at hy
      split_ifs at hy with hb
      · cases hy
        cases hv
        exact ⟨hfresh.le.trans (Nat.zero_le _), mutsTo_fresh hw⟩
      · exact h.free b y v hy hv
    · rcases holds_makeBox.mp hl with ⟨heq, -⟩ | ⟨-, hold⟩
      · cases heq
      · exact h.locked l v hold
  | move hs hne hstate heq => exact h.move hs hstate
  | lock hb hx hm => exact h.lock hw hb hx hm
  | unlock hl hm => exact h.unlock hl hf.2
  | handles hmuts heq => exact h.mono rfl rfl hmuts
  | refs hchange =>
    refine h.refChange hchange hf.1 fun r v hr hv => ?_
    rcases gain_source hr hv with hpos | ⟨b, x, hx, hxv⟩
    · exact (h.exclusive v).2.resolve_left hpos
    · exact (h.free b x v hx hxv).2

theorem guarded_empty : Guarded World.empty where
  exclusive v := by
    have hnone : World.empty.mutsTo v = 0 := countAt_eq_zero.mpr fun _ => rfl
    exact ⟨hnone.le.trans (Nat.zero_le _), .inr hnone⟩
  free := nofun
  locked := by
    rintro l v ⟨x, hx, -⟩
    cases hx

end Lemmas

/-- In a run of faithful calls the handles to a value are shared ones, or one exclusive one,
in every state. -/
theorem stateBorrow_exclusive (calls : List Call) (hcalls : Admissible Follows calls) :
    ∃ es w, exec World.step World.empty calls = some (es, w) ∧
      ((∀ e ∈ es, Faithful e.before e.call) → (∀ e ∈ es, Exclusive e.before) ∧ Exclusive w) := by
  have hkeep : ∀ es w c, (Wellformed w ∧ ((∀ e ∈ es, Faithful e.before e.call) →
      (∀ e ∈ es, Exclusive e.before) ∧ Guarded w)) → w.Allowed c →
      ∃ r w', w.step c = some (r, w') ∧ Wellformed w' ∧
        ((∀ e ∈ (es ++ [⟨w, c, r⟩] : List (Event World Call Result)), Faithful e.before e.call) →
          (∀ e ∈ es ++ [⟨w, c, r⟩], Exclusive e.before) ∧ Guarded w') := by
    rintro es w c ⟨hw, himp⟩ hc
    obtain ⟨r, w', hstep, hw', hchange⟩ := step_spec hw hc
    refine ⟨r, w', hstep, hw', fun hfaithful => ?_⟩
    rw [List.forall_mem_append, List.forall_mem_singleton] at hfaithful
    obtain ⟨hbefore, hg⟩ := himp hfaithful.1
    rw [List.forall_mem_append, List.forall_mem_singleton]
    exact ⟨⟨hbefore, hg.exclusive⟩, hchange.guarded hw hg hfaithful.2⟩
  obtain ⟨es, w, hrun, -, himp⟩ := exec_allowed_total (fun es w => Wellformed w ∧
    ((∀ e ∈ es, Faithful e.before e.call) → (∀ e ∈ es, Exclusive e.before) ∧ Guarded w)) hkeep
    ⟨wellformed_empty, fun _ => ⟨nofun, guarded_empty⟩⟩ hcalls
  exact ⟨es, w, hrun, fun hf => ⟨(himp hf).1, (himp hf).2.exclusive⟩⟩

/-- The box is lent out exclusively and comes back with its own token. -/
theorem stateBorrow_exclusive_released :
    ∃ es w, exec World.step World.empty [.makeBox ⟨0⟩, .borrowMut ⟨0⟩ ⟨0⟩ ⟨0⟩,
        .release ⟨0⟩ ⟨0⟩ ⟨1⟩, .borrow ⟨1⟩ ⟨0⟩] = some (es, w) ∧
      ((∀ e ∈ es, Faithful e.before e.call) → (∀ e ∈ es, Exclusive e.before) ∧ Exclusive w) := by
  refine stateBorrow_exclusive _ ?_
  simp only [admissible_cons]
  exact ⟨allowedAfter_of_exec rfl rfl, allowedAfter_of_exec rfl ⟨by decide, rfl, rfl⟩,
    allowedAfter_of_exec rfl ⟨by decide, by decide, rfl⟩,
    allowedAfter_of_exec rfl ⟨by decide, rfl⟩, admissible_nil⟩

/-- The lock takes an empty handle for the token, and the box that it returns is borrowed. -/
theorem stateBorrow_empty_token :
    ∃ calls es w, Admissible Follows calls ∧ exec World.step World.empty calls = some (es, w) ∧
      ¬Exclusive w := by
  refine ⟨[.makeBox ⟨0⟩, .borrowMut ⟨0⟩ ⟨0⟩ ⟨0⟩, .makeMut ⟨1⟩, .release ⟨0⟩ ⟨1⟩ ⟨1⟩,
    .borrow ⟨1⟩ ⟨0⟩], _, _, ?_, rfl, fun h => ?_⟩
  · simp only [admissible_cons]
    exact ⟨allowedAfter_of_exec rfl rfl, allowedAfter_of_exec rfl ⟨by decide, rfl, rfl⟩,
      allowedAfter_of_exec rfl rfl, allowedAfter_of_exec rfl ⟨by decide, by decide, rfl⟩,
      allowedAfter_of_exec rfl ⟨by decide, rfl⟩, admissible_nil⟩
  · rcases (h 0).2 with hr | hm
    · exact countAt_ne_zero (t := ⟨0⟩) rfl hr
    · exact countAt_ne_zero (t := ⟨0⟩) rfl hm

end HftExercises.Typestate
