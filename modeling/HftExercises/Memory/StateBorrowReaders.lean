import HftExercises.Memory.StateBorrowSteps

/-! # Reader counts of moved boxes

A count is in the box, and so is copied by the defaulted moves; a reference keeps the
address of the box that it was borrowed from. The counts are right exactly as long as
every reference that comes or goes is counted where its value is.
-/
namespace HftExercises.Typestate

/-- What is claimed of the counts in a state. -/
structure Exact (w : World) : Prop where
  readers : ∀ k x v, w.boxes k = some x → x.value = some v → x.readers.toNat = w.refsTo v
  underflow : w.underflow = false
  borrowMut : ∀ b l m x v, w.boxes (.free, b) = some x → x.value = some v →
    ((∃ w', w.step (.borrowMut b l m) = some (.done, w')) ↔ w.refsTo v = 0)

/-- Of the references gained and lost, an owner with a value counts as many as point to it. -/
def Balance (w : World) (gain loss : Option Ref) : Prop :=
  ∀ k v, w.Holds k v → (gain.any (Ref.owns k)).toNat + (loss.any (Ref.sees v)).toNat =
    (loss.any (Ref.owns k)).toNat + (gain.any (Ref.sees v)).toNat

/-- The references that the call adds and takes away are balanced, and the owner of the
one that it takes away has a reader to lose. -/
def Balanced (w : World) (c : Call) : Prop :=
  Balance w (w.changes c).1 (w.changes c).2 ∧ (w.changes c).2.any w.underflows = false

section Lemmas
variable {w w' : World} {c : Call} {gain loss : Option Ref} {k : State × Place} {x : Box} {v : ℕ}

theorem borrowMut_done_iff {b l m : Place} (hb : w.boxes (.free, b) = some x) :
    (∃ w', w.step (.borrowMut b l m) = some (.done, w')) ↔ x.readers.toNat = 0 := by
  have hzero : x.readers = 0 ↔ x.readers.toNat = 0 := UInt64.toNat_inj.symm
  rw [← hzero]
  by_cases hx : x.readers = 0
  · simp [World.step, hb, hx]
  · simp [World.step, hb, hx]

theorem exact_of (h : ∀ k x v, w.boxes k = some x → x.value = some v → x.readers.toNat = w.refsTo v)
    (hu : w.underflow = false) : Exact w :=
  ⟨h, hu, fun b l m x v hb hv => by rw [borrowMut_done_iff hb, h _ x v hb hv]⟩

theorem toNat_unit (b : Bool) : (unit b).toNat = b.toNat := by
  cases b <;> rfl

theorem toNat_recount (gain loss : Option Ref) (k : State × Place) (x : Box) :
    (recount gain loss k x).readers.toNat =
      (x.readers.toNat + (2 ^ 64 - (loss.any (Ref.owns k)).toNat) +
        (gain.any (Ref.owns k)).toNat) % 2 ^ 64 := by
  rw [recount, UInt64.toNat_add, UInt64.toNat_sub, toNat_unit, toNat_unit]
  omega

/-- A count and the readers in a word change alike or end up different. -/
theorem word_count_iff {C C' lo go ls gs : ℕ} (hC : C < 2 ^ 64) (hC' : C' < 2 ^ 64) (hlo : lo ≤ 1)
    (hgo : go ≤ 1) (hls : ls ≤ 1) (hgs : gs ≤ 1) (hcount : C' + ls = C + gs) :
    (C + (2 ^ 64 - lo) + go) % 2 ^ 64 = C' ↔ go + ls = lo + gs := by
  omega

theorem RefChange.exact_iff (hc : RefChange w w' gain loss) (h : Exact w) :
    Exact w' ↔ Balance w gain loss ∧ loss.any w.underflows = false := by
  have hunder : w'.underflow = false ↔ loss.any w.underflows = false := by
    rw [hc.underflow, h.underflow, Bool.false_or]
  have hbox : ∀ k x v, w.boxes k = some x → x.value = some v →
      ((recount gain loss k x).readers.toNat = w'.refsTo v ↔
        (gain.any (Ref.owns k)).toNat + (loss.any (Ref.sees v)).toNat =
          (loss.any (Ref.owns k)).toNat + (gain.any (Ref.sees v)).toNat) := by
    intro k x v hx hv
    rw [toNat_recount, h.readers k x v hx hv]
    exact word_count_iff (refsTo_lt w v) (refsTo_lt w' v) (Bool.toNat_le _) (Bool.toNat_le _)
      (Bool.toNat_le _) (Bool.toNat_le _) (hc.counts v)
  constructor
  · intro h'
    refine ⟨?_, hunder.mp h'.underflow⟩
    rintro k v ⟨x, hx, hv⟩
    exact (hbox k x v hx hv).mp (h'.readers k _ v (by rw [hc.boxes, hx]; rfl) hv)
  · rintro ⟨hbalance, hu⟩
    refine exact_of (fun k y v hy hv => ?_) (hunder.mpr hu)
    rw [hc.boxes, Option.map_eq_some_iff] at hy
    obtain ⟨x, hx, rfl⟩ := hy
    exact (hbox k x v hx hv).mpr (hbalance k v ⟨x, hx, hv⟩)

theorem refsTo_fresh (hw : Wellformed w) : w.refsTo w.fresh = 0 := by
  refine countAt_eq_zero.mpr fun a => ?_
  cases ha : w.refs a with
  | none => rfl
  | some r => exact decide_eq_false fun hr => Nat.lt_irrefl _ ((hw.refs ha).fresh _ hr)

/-- The count goes with the value. -/
theorem Exact.moveInto (h : Exact w) {source target : State × Place} (hs : w.boxes source = some x)
    (hrefs : w'.refs = w.refs) (hu : w'.underflow = w.underflow)
    (hboxes : w'.boxes = (w.moveInto source target x).boxes) : Exact w' := by
  refine exact_of (fun k y v hy hv => ?_) (hu.trans h.underflow)
  have hcount : w'.refsTo v = w.refsTo v := by
    rw [World.refsTo, hrefs]
    rfl
  rw [hboxes, boxes_moveInto] at hy
  rw [hcount]
  split_ifs at hy with hkt hks
  · cases hy
    exact h.readers _ x v hs hv
  · cases hy
    cases hv
  · exact h.readers k y v hy hv

/-- A box with a value counts readers, and there is no reference. -/
theorem not_exact_of_stale (hx : w.boxes k = some x) (hv : x.value = some v) (hr : x.readers ≠ 0)
    (hrefs : ∀ a, w.refs a = none) : ¬Exact w := by
  intro h
  have hnone : w.refsTo v = 0 := countAt_eq_zero.mpr fun a => by rw [hrefs a]; rfl
  have hcount := h.readers k x v hx hv
  rw [hnone] at hcount
  exact hr (UInt64.toNat_inj.mp hcount)

/-- One call keeps the counts right if and only if it is balanced. -/
theorem Change.exact_iff (hc : Change w c w') (hw : Wellformed w) (h : Exact w) :
    Exact w' ↔ Balanced w c := by
  have hquiet : w.changes c = (none, none) → Balanced w c := by
    intro heq
    rw [Balanced, heq]
    exact ⟨fun _ _ _ => rfl, rfl⟩
  cases hc with
  | make ha =>
    refine iff_of_true (exact_of (fun k y v hy hv => ?_) h.underflow) (hquiet rfl)
    rw [boxes_makeBox] at hy
    split_ifs at hy with hk
    · cases hy
      cases hv
      exact (refsTo_fresh hw).symm
    · exact h.readers k y v hy hv
  | move hs hne hstate heq => exact iff_of_true (h.moveInto hs rfl rfl rfl) (hquiet heq)
  | lock hb hx hm => exact iff_of_true (h.moveInto hb rfl rfl rfl) (hquiet rfl)
  | unlock hl hm => exact iff_of_true (h.moveInto hl rfl rfl rfl) (hquiet rfl)
  | handles hmuts heq => exact iff_of_true (exact_of h.readers h.underflow) (hquiet heq)
  | refs hchange => exact hchange.exact_iff h

end Lemmas

/-- Allowed by the world that the calls before it lead to. -/
def Follows : List Call → Call → Prop :=
  AllowedAfter World.step World.empty fun _ w => w.Allowed

theorem wellformed_empty : Wellformed World.empty where
  refs := nofun
  muts := nofun
  boxes := by
    rintro k v ⟨x, hx, -⟩
    cases hx
  unique := by
    rintro k k' v ⟨x, hx, -⟩
    cases hx

theorem exact_empty : Exact World.empty :=
  exact_of nofun rfl

/-- The counts are right in every state of a run if and only if every call is balanced. -/
theorem stateBorrow_readers (calls : List Call) (hcalls : Admissible Follows calls) :
    ∃ es w, exec World.step World.empty calls = some (es, w) ∧
      (((∀ e ∈ es, Exact e.before) ∧ Exact w) ↔ ∀ e ∈ es, Balanced e.before e.call) := by
  have hkeep : ∀ es w c, (Wellformed w ∧
      (((∀ e ∈ es, Exact e.before) ∧ Exact w) ↔ ∀ e ∈ es, Balanced e.before e.call)) →
      w.Allowed c → ∃ r w', w.step c = some (r, w') ∧ Wellformed w' ∧
        (((∀ e ∈ es ++ [⟨w, c, r⟩], Exact e.before) ∧ Exact w') ↔
          ∀ e ∈ (es ++ [⟨w, c, r⟩] : List (Event World Call Result)),
            Balanced e.before e.call) := by
    rintro es w c ⟨hw, hiff⟩ hc
    obtain ⟨r, w', hstep, hw', hchange⟩ := step_spec hw hc
    refine ⟨r, w', hstep, hw', ?_⟩
    rw [List.forall_mem_append, List.forall_mem_append, List.forall_mem_singleton,
      List.forall_mem_singleton, ← hiff]
    constructor
    · rintro ⟨hbefore, hafter⟩
      exact ⟨hbefore, (hchange.exact_iff hw hbefore.2).mp hafter⟩
    · rintro ⟨hbefore, hbalanced⟩
      exact ⟨hbefore, (hchange.exact_iff hw hbefore.2).mpr hbalanced⟩
  obtain ⟨es, w, hrun, -, hiff⟩ := exec_allowed_total (fun es w => Wellformed w ∧
    (((∀ e ∈ es, Exact e.before) ∧ Exact w) ↔ ∀ e ∈ es, Balanced e.before e.call)) hkeep
    ⟨wellformed_empty, iff_of_true ⟨nofun, exact_empty⟩ nofun⟩ hcalls
  exact ⟨es, w, hrun, hiff⟩

/-- A reference and its copy, of which the first goes. -/
theorem stateBorrow_readers_copy :
    ∃ es w, exec World.step World.empty
        [.makeBox ⟨0⟩, .borrow ⟨0⟩ ⟨0⟩, .copyRef ⟨0⟩ ⟨1⟩, .dropRef ⟨0⟩] = some (es, w) ∧
      (((∀ e ∈ es, Exact e.before) ∧ Exact w) ↔ ∀ e ∈ es, Balanced e.before e.call) := by
  refine stateBorrow_readers _ ?_
  simp only [admissible_cons]
  exact ⟨allowedAfter_of_exec rfl rfl, allowedAfter_of_exec rfl ⟨by decide, rfl⟩,
    allowedAfter_of_exec rfl ⟨by decide, rfl⟩,
    allowedAfter_of_exec rfl (show _ ≠ _ by decide), admissible_nil⟩

/-- The box moves, and its reference goes: the box that has the value now keeps its reader. -/
theorem stateBorrow_readers_stale :
    ∃ calls es w, Admissible Follows calls ∧ exec World.step World.empty calls = some (es, w) ∧
      ¬Exact w := by
  refine ⟨[.makeBox ⟨0⟩, .borrow ⟨0⟩ ⟨0⟩, .moveBox .free ⟨0⟩ ⟨1⟩, .dropRef ⟨0⟩], _, _, ?_, rfl, ?_⟩
  · simp only [admissible_cons]
    exact ⟨allowedAfter_of_exec rfl rfl, allowedAfter_of_exec rfl ⟨by decide, rfl⟩,
      allowedAfter_of_exec rfl ⟨by decide, rfl⟩,
      allowedAfter_of_exec rfl (show _ ≠ _ by decide), admissible_nil⟩
  · refine not_exact_of_stale (k := (.free, ⟨1⟩)) (x := ⟨some 0, 1⟩) rfl rfl (by decide) fun a => ?_
    by_cases ha : a = ⟨0⟩
    · subst ha
      rfl
    · exact (Function.update_of_ne ha ..).trans
        ((Function.update_of_ne ha ..).trans (Function.update_of_ne ha ..))

end HftExercises.Typestate
