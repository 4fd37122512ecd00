import HftExercises.Memory.StateBorrow

/-! # What a call can do to owners and handles

A call moves a value between two owners, moves an exclusive handle, or adds and takes away
shared references; an owner's count follows the references that name it as their owner.
-/
namespace HftExercises.Typestate

def Ref.owns (k : State × Place) (r : Ref) : Bool := decide (k.1 = .free ∧ r.owner = some k.2)

def Ref.sees (v : ℕ) (r : Ref) : Bool := decide (r.ptr = some v)

/-- One reader or none. -/
def unit (b : Bool) : UInt64 := if b then 1 else 0

/-- The box at `k` with the readers that two references, one lost and one gained, are to it. -/
def recount (gain loss : Option Ref) (k : State × Place) (x : Box) : Box :=
  { x with readers := x.readers - unit (loss.any (Ref.owns k)) + unit (gain.any (Ref.owns k)) }

namespace World

/-- The owner at `k` has the value. -/
def Holds (w : World) (k : State × Place) (v : ℕ) : Prop :=
  ∃ x, w.boxes k = some x ∧ x.value = some v

/-- How many `SRef`s point to a value. -/
noncomputable def refsTo (w : World) (v : ℕ) : ℕ := countAt (fun r => r.any (Ref.sees v)) w.refs

/-- How many `SMut`s point to a value. -/
noncomputable def mutsTo (w : World) (v : ℕ) : ℕ := countAt (fun p => decide (p = some (some v))) w.muts

/-- Whether the owner of the reference has no reader to take away. -/
def underflows (w : World) (r : Ref) : Bool :=
  r.owner.any fun b => (w.boxes (.free, b)).any fun x => x.readers == 0

/-- The reference that a call adds, and the one that it takes away. -/
def changes (w : World) : Call → Option Ref × Option Ref
  | .borrow b _ => ((w.boxes (.free, b)).map fun x => ⟨x.value, some b⟩, none)
  | .copyRef source _ => (w.refs source, none)
  | .assignRef source target =>
    if source = target then (none, none) else (w.refs source, w.refs target)
  | .moveAssignRef source target => if source = target then (none, none) else (none, w.refs target)
  | .dropRef a => (none, w.refs a)
  | _ => (none, none)

end World

/-- References point to values that were made, and have an owner that is there. -/
structure Anchored (w : World) (r : Ref) : Prop where
  owner : ∀ b, r.owner = some b → w.boxes (.free, b) ≠ none
  grounded : r.owner = none → r.ptr = none
  fresh : ∀ v, r.ptr = some v → v < w.fresh

structure Wellformed (w : World) : Prop where
  refs : ∀ {a r}, w.refs a = some r → Anchored w r
  muts : ∀ {a v}, w.muts a = some (some v) → v < w.fresh
  boxes : ∀ {k v}, w.Holds k v → v < w.fresh
  unique : ∀ {k k' v}, w.Holds k v → w.Holds k' v → k = k'

/-- References come and go; the owners' values and the exclusive handles stay. -/
structure RefChange (w w' : World) (gain loss : Option Ref) : Prop where
  boxes : ∀ k, w'.boxes k = (w.boxes k).map (recount gain loss k)
  muts : w'.muts = w.muts
  fresh : w'.fresh = w.fresh
  underflow : w'.underflow = (w.underflow || loss.any w.underflows)
  refs : ∀ a r, w'.refs a = some r → r = .empty ∨ gain = some r ∨ ∃ a', w.refs a' = some r
  counts : ∀ v, w'.refsTo v + (loss.any (Ref.sees v)).toNat =
    w.refsTo v + (gain.any (Ref.sees v)).toNat

/-- What a call does. -/
inductive Change (w : World) : Call → World → Prop
  | make {a : Place} (ha : w.boxes (.free, a) = none) :
    Change w (.makeBox a) (w.makeBox a)
  | move {c : Call} {source target : State × Place} {x : Box} (hs : w.boxes source = some x)
    (hne : source ≠ target) (hstate : source.1 = target.1) (hc : w.changes c = (none, none)) :
    Change w c (w.moveInto source target x)
  | lock {b l m : Place} {x : Box} (hb : w.boxes (.free, b) = some x) (hx : x.readers = 0)
    (hm : w.muts m = none) : Change w (.borrowMut b l m)
      ((w.moveInto (.free, b) (.locked, l) x).setMut m (some x.value))
  | unlock {l m b : Place} {x : Box} {p : Option ℕ} (hl : w.boxes (.locked, l) = some x)
    (hm : w.muts m = some p) : Change w (.release l m b)
      ((w.setMut m (some none)).moveInto (.locked, l) (.free, b) x)
  | handles {c : Call} {muts : Place → Option (Option ℕ)}
    (hmuts : ∀ v, { w with muts := muts }.mutsTo v ≤ w.mutsTo v)
    (hc : w.changes c = (none, none)) : Change w c { w with muts := muts }
  | refs {c : Call} {w' : World} (h : RefChange w w' (w.changes c).1 (w.changes c).2) :
    Change w c w'

section Lemmas
variable {w w' : World} {a b source target : Place} {k : State × Place} {x : Box} {r : Ref}
variable {gain loss : Option Ref} {v : ℕ} {c : Call}

@[simp] theorem Ref.sees_empty : Ref.empty.sees v = false := rfl

@[simp] theorem recount_none (k : State × Place) (x : Box) : recount none none k x = x := by
  simp [recount, unit]

@[simp] theorem recount_value (gain loss : Option Ref) (k : State × Place) (x : Box) :
    (recount gain loss k x).value = x.value := rfl

theorem anchored_empty (w : World) : Anchored w .empty :=
  ⟨nofun, fun _ => rfl, nofun⟩

/-- At most this many variables are there. -/
theorem refsTo_lt (w : World) (v : ℕ) : w.refsTo v < 2 ^ 64 := by
  have hle : w.refsTo v ≤ Fintype.card Place := countAt_le_card_type _ w.refs
  rw [Place.card] at hle
  omega

/-! ## References -/

/-- A place where no reference counts. -/
def Blank (o : Option Ref) : Prop := o = none ∨ o = some .empty

theorem Blank.any {o : Option Ref} (h : Blank o) (v : ℕ) : o.any (Ref.sees v) = false := by
  rcases h with rfl | rfl
  · rfl
  · exact Ref.sees_empty

theorem refsTo_setRef (w : World) (a : Place) (o : Option Ref) (v : ℕ) :
    (w.setRef a o).refsTo v + ((w.refs a).any (Ref.sees v)).toNat =
      w.refsTo v + (o.any (Ref.sees v)).toNat :=
  countAt_update _ w.refs a o

theorem RefChange.refl (w : World) : RefChange w w none none where
  boxes k := by
    cases w.boxes k with
    | none => rfl
    | some x => rw [Option.map_some, recount_none]
  muts := rfl
  fresh := rfl
  underflow := (Bool.or_false _).symm
  refs a r h := .inr (.inr ⟨a, h⟩)
  counts _ := rfl

theorem RefChange.trans {w₁ w₂ : World} (h₁ : RefChange w w₁ none loss)
    (h₂ : RefChange w₁ w₂ gain none) : RefChange w w₂ gain loss where
  boxes k := by
    rw [h₂.boxes, h₁.boxes, Option.map_map]
    congr 1
    funext x
    simp [recount, unit]
  muts := h₂.muts.trans h₁.muts
  fresh := h₂.fresh.trans h₁.fresh
  underflow := by
    rw [h₂.underflow, h₁.underflow]
    exact Bool.or_false _
  refs a r h := by
    rcases h₂.refs a r h with hempty | hgain | ⟨a', h'⟩
    · exact .inl hempty
    · exact .inr (.inl hgain)
    · rcases h₁.refs a' r h' with hempty | hgain | hold
      · exact .inl hempty
      · cases hgain
      · exact .inr (.inr hold)
  counts v := by
    have hfirst := h₁.counts v
    have hsecond := h₂.counts v
    simp only [Option.any_none, Bool.toNat_false, Nat.add_zero] at hfirst hsecond
    omega

theorem refChange_blank (ha : Blank (w.refs a)) {o : Option Ref} (ho : Blank o) :
    RefChange w (w.setRef a o) none none := by
  refine { RefChange.refl w with refs := fun b r hb => ?_, counts := fun v => ?_ }
  · rcases update_cases (· = some r) hb with ⟨-, hor⟩ | ⟨-, hold⟩
    · rcases ho with hnone | hempty
      · rw [hnone] at hor
        cases hor
      · exact .inl (Option.some.inj (hor.symm.trans hempty))
    · exact .inr (.inr ⟨b, hold⟩)
  · have hset := refsTo_setRef w a o v
    rwa [ha.any, ho.any] at hset

/-- The pointers of a reference go to another place. -/
theorem refChange_steal (hs : w.refs source = some r) (ht : Blank (w.refs target))
    (hne : target ≠ source) : RefChange w (w.stealRef source target r) none none := by
  refine { RefChange.refl w with refs := fun b f hb => ?_, counts := fun v => ?_ }
  · rcases update_cases (· = some f) hb with ⟨-, heq⟩ | ⟨-, hb⟩
    · exact .inr (.inr ⟨source, hs.trans heq⟩)
    · rcases update_cases (· = some f) hb with ⟨-, heq⟩ | ⟨-, hold⟩
      · exact .inl (Option.some.inj heq).symm
      · exact .inr (.inr ⟨b, hold⟩)
  · have hmove := countAt_relocate (fun o : Option Ref => o.any (Ref.sees v)) w.refs hne
      (x := some .empty) Ref.sees_empty (ht.any v)
    rw [hs] at hmove
    exact congrArg (· + 0) hmove

theorem Ref.owns_of_owner_eq_none (h : r.owner = none) (k : State × Place) : r.owns k = false := by
  simp [Ref.owns, h]

theorem Ref.owns_of_owner {b : Place} (h : r.owner = some b) (k : State × Place) :
    r.owns k = decide (k = (.free, b)) := by
  obtain ⟨s, a⟩ := k
  simp [Ref.owns, h, eq_comm]

theorem map_recount_eq_self {x : Option Box} (hgain : gain.any (Ref.owns k) = false)
    (hloss : loss.any (Ref.owns k) = false) : x.map (recount gain loss k) = x := by
  cases x with
  | none => rfl
  | some x => simp [recount, unit, hgain, hloss]

/-- Where references change that all have one owner, the other owners stay. -/
theorem map_recount_boxes {b : Place} {x : Box} (hb : w.boxes (.free, b) = some x)
    (gain loss : Option Ref)
    (hgain : ∀ k, k ≠ (.free, b) → gain.any (Ref.owns k) = false)
    (hloss : ∀ k, k ≠ (.free, b) → loss.any (Ref.owns k) = false) :
    (fun k => (w.boxes k).map (recount gain loss k)) =
      Function.update w.boxes (.free, b) (some (recount gain loss (.free, b) x)) := by
  funext k
  by_cases hk : k = (.free, b)
  · subst hk
    rw [hb, Function.update_self, Option.map_some]
  · rw [Function.update_of_ne hk, map_recount_eq_self (hgain k hk) (hloss k hk)]

theorem acquire_eq (hr : Anchored w r) :
    w.acquire r = some { w with boxes := fun k => (w.boxes k).map (recount (some r) none k) } := by
  rw [World.acquire]
  cases howner : r.owner with
  | none =>
    have hsame : (fun k => (w.boxes k).map (recount (some r) none k)) = w.boxes :=
      funext fun k => map_recount_eq_self (Ref.owns_of_owner_eq_none howner k) rfl
    rw [hsame]
  | some b =>
    obtain ⟨x, hx⟩ := Option.ne_none_iff_exists'.mp (hr.owner b howner)
    have howns := Ref.owns_of_owner howner
    rw [map_recount_boxes hx (some r) none (fun k hk => (howns k).trans (decide_eq_false hk))
      fun _ _ => rfl]
    simp [World.addReader, World.setBox, hx, recount, unit, howns]

theorem releaseRef_eq (ha : w.refs a = some r) (hr : Anchored w r) :
    w.releaseRef a = some { w.setRef a (some .empty) with
      boxes := fun k => (w.boxes k).map (recount none (some r) k)
      underflow := w.underflow || w.underflows r } := by
  rw [World.releaseRef, ha, Option.bind_some]
  cases howner : r.owner with
  | none =>
    have hempty : r = .empty := by
      cases r
      cases howner
      exact congrArg₂ Ref.mk (hr.grounded rfl) rfl
    have hsame : (fun k => (w.boxes k).map (recount none (some r) k)) = w.boxes :=
      funext fun k => map_recount_eq_self rfl (Ref.owns_of_owner_eq_none howner k)
    have hself : w.setRef a (some .empty) = w := by
      rw [World.setRef, ← hempty, ← ha, Function.update_eq_self]
    rw [hsame, hself]
    simp [World.underflows, howner]
  | some b =>
    obtain ⟨x, hx⟩ := Option.ne_none_iff_exists'.mp (hr.owner b howner)
    have howns := Ref.owns_of_owner howner
    rw [map_recount_boxes hx none (some r) (fun _ _ => rfl)
      fun k hk => (howns k).trans (decide_eq_false hk)]
    simp [World.releaseReader, World.setBox, World.setRef, World.underflows, hx, recount, unit,
      howner, howns]

theorem refChange_release (ha : w.refs a = some r) (hr : Anchored w r) :
    ∃ w', w.releaseRef a = some w' ∧ RefChange w w' none (some r) ∧ w'.refs a = some .empty ∧
      ∀ b, b ≠ a → w'.refs b = w.refs b := by
  have hcounts := refsTo_setRef w a (some .empty)
  refine ⟨_, releaseRef_eq ha hr, ⟨fun _ => rfl, rfl, rfl, rfl, ?_, ?_⟩,
    Function.update_self .., fun b hb => Function.update_of_ne hb ..⟩
  · intro b f hb
    rcases update_cases (· = some f) hb with ⟨-, heq⟩ | ⟨-, hold⟩
    · exact .inl (Option.some.inj heq).symm
    · exact .inr (.inr ⟨b, hold⟩)
  · intro v
    have hset := hcounts v
    rw [ha] at hset
    exact hset

/-- A reference is made at a blank place, and its owner counts it. -/
theorem refChange_acquire (hr : Anchored w r) (ha : Blank (w.refs a)) :
    ∃ w', w.acquire r = some w' ∧ RefChange w (w'.setRef a (some r)) (some r) none := by
  refine ⟨_, acquire_eq hr, ⟨fun _ => rfl, rfl, rfl, (Bool.or_false _).symm, ?_, ?_⟩⟩
  · intro b f hb
    rcases update_cases (· = some f) hb with ⟨-, heq⟩ | ⟨-, hold⟩
    · exact .inr (.inl heq)
    · exact .inr (.inr ⟨b, hold⟩)
  · intro v
    have hset := refsTo_setRef w a (some r) v
    rw [ha.any] at hset
    exact hset

/-! ## What is kept -/

theorem RefChange.exists_iff (h : RefChange w w' gain loss) :
    w'.boxes k ≠ none ↔ w.boxes k ≠ none := by
  rw [h.boxes]
  cases w.boxes k <;> simp

theorem RefChange.holds_iff (h : RefChange w w' gain loss) : w'.Holds k v ↔ w.Holds k v := by
  rw [World.Holds, World.Holds, h.boxes]
  cases w.boxes k <;> simp

theorem Anchored.of_refChange (h : RefChange w w' gain loss) (hr : Anchored w r) : Anchored w' r :=
  ⟨fun b hb => h.exists_iff.mpr (hr.owner b hb), hr.grounded, fun v hv => h.fresh ▸ hr.fresh v hv⟩

theorem Wellformed.refChange (hw : Wellformed w) (h : RefChange w w' gain loss)
    (hgain : ∀ r, gain = some r → Anchored w r) : Wellformed w' where
  refs ha := by
    rcases h.refs _ _ ha with rfl | hr | ⟨a', ha'⟩
    · exact anchored_empty w'
    · exact (hgain _ hr).of_refChange h
    · exact (hw.refs ha').of_refChange h
  muts ha := by
    rw [h.muts] at ha
    exact h.fresh ▸ hw.muts ha
  boxes hk := h.fresh ▸ hw.boxes (h.holds_iff.mp hk)
  unique hk hk' := hw.unique (h.holds_iff.mp hk) (h.holds_iff.mp hk')

theorem boxes_moveInto (w : World) (source target k : State × Place) (x : Box) :
    (w.moveInto source target x).boxes k =
      if k = target then some x else if k = source then some { x with value := none }
      else w.boxes k := by
  simp [World.moveInto, World.setBox, Function.update_apply]

/-- The value has left the source. -/
theorem holds_moveInto {source target : State × Place} :
    (w.moveInto source target x).Holds k v ↔
      k = target ∧ x.value = some v ∨ k ≠ target ∧ k ≠ source ∧ w.Holds k v := by
  rw [World.Holds, boxes_moveInto]
  split_ifs with ht hs
  · simp [ht]
  · subst hs
    simp [ht]
  · simp [ht, hs, World.Holds]

theorem Wellformed.setBoxes (hw : Wellformed w) (hrefs : w'.refs = w.refs) (hmuts : w'.muts = w.muts)
    (hfresh : w.fresh ≤ w'.fresh) (hexists : ∀ k, w.boxes k ≠ none → w'.boxes k ≠ none)
    (hboxes : ∀ {k v}, w'.Holds k v → v < w'.fresh)
    (hunique : ∀ {k k' v}, w'.Holds k v → w'.Holds k' v → k = k') : Wellformed w' where
  refs ha := by
    rw [hrefs] at ha
    have hr := hw.refs ha
    exact ⟨fun b hb => hexists _ (hr.owner b hb), hr.grounded,
      fun v hv => (hr.fresh v hv).trans_le hfresh⟩
  muts ha := by
    rw [hmuts] at ha
    exact (hw.muts ha).trans_le hfresh
  boxes := hboxes
  unique := hunique

theorem Wellformed.moveInto (hw : Wellformed w) {source target : State × Place}
    (hs : w.boxes source = some x) : Wellformed (w.moveInto source target x) := by
  have hholds : ∀ v, x.value = some v → w.Holds source v := fun v hv => ⟨x, hs, hv⟩
  refine hw.setBoxes rfl rfl (Nat.le_refl _) (fun k hk => ?_) (fun hk => ?_) (fun hk hk' => ?_)
  · rw [boxes_moveInto]
    split_ifs <;> first | exact Option.some_ne_none _ | exact hk
  · rcases holds_moveInto.mp hk with ⟨-, hv⟩ | ⟨-, -, hk⟩
    · exact hw.boxes (hholds _ hv)
    · exact hw.boxes hk
  · rcases holds_moveInto.mp hk with ⟨rfl, hv⟩ | ⟨-, hks, hold⟩
    · rcases holds_moveInto.mp hk' with ⟨rfl, -⟩ | ⟨-, hks', hold'⟩
      · rfl
      · exact absurd (hw.unique hold' (hholds _ hv)) hks'
    · rcases holds_moveInto.mp hk' with ⟨rfl, hv⟩ | ⟨-, -, hold'⟩
      · exact absurd (hw.unique hold (hholds _ hv)) hks
      · exact hw.unique hold hold'

theorem Wellformed.setMuts (hw : Wellformed w) {muts : Place → Option (Option ℕ)}
    (hm : ∀ {a v}, muts a = some (some v) → v < w.fresh) : Wellformed { w with muts := muts } where
  refs ha := ⟨(hw.refs ha).owner, (hw.refs ha).grounded, (hw.refs ha).fresh⟩
  muts := hm
  boxes := hw.boxes
  unique := hw.unique

theorem boxes_makeBox (w : World) (a : Place) (k : State × Place) :
    (w.makeBox a).boxes k = if k = (.free, a) then some ⟨some w.fresh, 0⟩ else w.boxes k := by
  simp [World.makeBox, World.setBox, Function.update_apply]

theorem holds_makeBox : (w.makeBox a).Holds k v ↔
    k = (.free, a) ∧ v = w.fresh ∨ k ≠ (.free, a) ∧ w.Holds k v := by
  rw [World.Holds, boxes_makeBox]
  split_ifs with hk
  · simp [hk, eq_comm]
  · simp [hk, World.Holds]

theorem Wellformed.makeBox (hw : Wellformed w) (ha : w.boxes (.free, a) = none) :
    Wellformed (w.makeBox a) := by
  refine hw.setBoxes rfl rfl (Nat.le_succ _) (fun k hk => ?_) (fun hk => ?_) (fun hk hk' => ?_)
  · have hne : k ≠ (.free, a) := fun heq => hk (heq ▸ ha)
    rwa [boxes_makeBox, if_neg hne]
  · rcases holds_makeBox.mp hk with ⟨-, rfl⟩ | ⟨-, hold⟩
    · exact Nat.lt_succ_self _
    · exact Nat.lt_succ_of_lt (hw.boxes hold)
  · rcases holds_makeBox.mp hk with ⟨rfl, rfl⟩ | ⟨-, hold⟩
    · rcases holds_makeBox.mp hk' with ⟨rfl, -⟩ | ⟨-, hold'⟩
      · rfl
      · exact absurd (hw.boxes hold') (Nat.lt_irrefl _)
    · rcases holds_makeBox.mp hk' with ⟨-, rfl⟩ | ⟨-, hold'⟩
      · exact absurd (hw.boxes hold) (Nat.lt_irrefl _)
      · exact hw.unique hold hold'

theorem mutsTo_setMut (w : World) (a : Place) (p : Option (Option ℕ)) (v : ℕ) :
    (w.setMut a p).mutsTo v + (decide (w.muts a = some (some v))).toNat =
      w.mutsTo v + (decide (p = some (some v))).toNat :=
  countAt_update _ w.muts a p

/-- An exclusive handle that is taken over is at one place before and after. -/
theorem mutsTo_steal {p : Option ℕ} (hs : w.muts source = some p) (v : ℕ) :
    (w.stealMut source target p).mutsTo v ≤ w.mutsTo v := by
  have hfirst := mutsTo_setMut w source (some none) v
  have hsecond := mutsTo_setMut (w.setMut source (some none)) target (some p) v
  have hempty : decide ((some none : Option (Option ℕ)) = some (some v)) = false := by simp
  rw [hs, hempty, Bool.toNat_false, Nat.add_zero] at hfirst
  rw [World.stealMut]
  omega

theorem stealMut_lt (hw : Wellformed w) {p : Option ℕ} (hs : w.muts source = some p)
    (ha : (w.stealMut source target p).muts a = some (some v)) : v < w.fresh := by
  rcases update_cases (· = some (some v)) ha with ⟨-, heq⟩ | ⟨-, ha⟩
  · exact hw.muts (hs.trans heq)
  · rcases update_cases (· = some (some v)) ha with ⟨-, heq⟩ | ⟨-, hold⟩
    · cases heq
    · exact hw.muts hold

/-! ## Steps -/

theorem step_quiet (hw : Wellformed w) (hstep : w.step c = some (.done, w))
    (hc : w.changes c = (none, none)) :
    ∃ r w', w.step c = some (r, w') ∧ Wellformed w' ∧ Change w c w' :=
  ⟨_, w, hstep, hw, .refs (by rw [hc]; exact RefChange.refl w)⟩

theorem step_refs (hw : Wellformed w) (hstep : w.step c = some (.done, w'))
    (hc : w.changes c = (gain, loss)) (h : RefChange w w' gain loss)
    (hgain : ∀ r, gain = some r → Anchored w r) :
    ∃ r w', w.step c = some (r, w') ∧ Wellformed w' ∧ Change w c w' :=
  ⟨_, w', hstep, hw.refChange h hgain, .refs (by rw [hc]; exact h)⟩

theorem step_move (hw : Wellformed w) {source target : State × Place} (hs : w.boxes source = some x)
    (hne : source ≠ target) (hstate : source.1 = target.1)
    (hstep : w.step c = some (.done, w.moveInto source target x))
    (hc : w.changes c = (none, none)) :
    ∃ r w', w.step c = some (r, w') ∧ Wellformed w' ∧ Change w c w' :=
  ⟨_, _, hstep, hw.moveInto hs, .move hs hne hstate hc⟩

theorem step_muts (hw : Wellformed w) (muts : Place → Option (Option ℕ))
    (hm : ∀ {a v}, muts a = some (some v) → v < w.fresh)
    (hcount : ∀ v, { w with muts := muts }.mutsTo v ≤ w.mutsTo v)
    (hstep : w.step c = some (.done, { w with muts := muts })) (hc : w.changes c = (none, none)) :
    ∃ r w', w.step c = some (r, w') ∧ Wellformed w' ∧ Change w c w' :=
  ⟨_, _, hstep, hw.setMuts hm, .handles hcount hc⟩

/-- `SRef`s are assigned: the target lets go of what it has first. -/
theorem exists_release (hw : Wellformed w) (ha : w.refs a ≠ none) :
    ∃ r w', w.refs a = some r ∧ w.releaseRef a = some w' ∧ RefChange w w' none (some r) ∧
      Wellformed w' ∧ w'.refs a = some .empty ∧ ∀ b, b ≠ a → w'.refs b = w.refs b := by
  obtain ⟨r, hr⟩ := Option.ne_none_iff_exists'.mp ha
  obtain ⟨w', hrelease, hchange, hself, hothers⟩ := refChange_release hr (hw.refs hr)
  exact ⟨r, w', hr, hrelease, hchange, hw.refChange hchange nofun, hself, hothers⟩

theorem step_borrowMut (hw : Wellformed w) {b l m : Place} (hb : w.boxes (.free, b) = some x)
    (hm : w.muts m = none) :
    ∃ r w', w.step (.borrowMut b l m) = some (r, w') ∧ Wellformed w' ∧
      Change w (.borrowMut b l m) w' := by
  by_cases hx : x.readers = 0
  · have hstep : w.step (.borrowMut b l m) =
        some (.done, (w.moveInto (.free, b) (.locked, l) x).setMut m (some x.value)) := by
      simp [World.step, hb, hx]
    refine ⟨_, _, hstep, (hw.moveInto hb).setMuts fun {a v} ha => ?_, .lock hb hx hm⟩
    rcases update_cases (· = some (some v)) ha with ⟨-, heq⟩ | ⟨-, hold⟩
    · exact hw.boxes ⟨x, hb, Option.some.inj heq⟩
    · exact hw.muts hold
  · have hstep : w.step (.borrowMut b l m) = some (.threw, w) := by
      simp [World.step, hb, hx]
    exact ⟨_, w, hstep, hw, .refs (RefChange.refl w)⟩

theorem step_release (hw : Wellformed w) {l m b : Place} {p : Option ℕ}
    (hl : w.boxes (.locked, l) = some x) (hm : w.muts m = some p) :
    ∃ r w', w.step (.release l m b) = some (r, w') ∧ Wellformed w' ∧
      Change w (.release l m b) w' := by
  have hstep : w.step (.release l m b) =
      some (.done, (w.setMut m (some none)).moveInto (.locked, l) (.free, b) x) := by
    simp [World.step, hl, hm]
  have hemptied : Wellformed (w.setMut m (some none)) := by
    refine hw.setMuts fun {a v} ha => ?_
    rcases update_cases (· = some (some v)) ha with ⟨-, heq⟩ | ⟨-, hold⟩
    · cases heq
    · exact hw.muts hold
  exact ⟨_, _, hstep, hemptied.moveInto hl, .unlock hl hm⟩

/-- Every allowed call does one of the things a call can do. -/
theorem step_spec (hw : Wellformed w) (hc : w.Allowed c) :
    ∃ r w', w.step c = some (r, w') ∧ Wellformed w' ∧ Change w c w' := by
  cases c with
  | makeBox a => exact ⟨_, _, rfl, hw.makeBox hc, .make hc⟩
  | moveBox s source target =>
    obtain ⟨hs, ht⟩ := hc
    obtain ⟨x, hx⟩ := Option.ne_none_iff_exists'.mp hs
    have hne : (s, source) ≠ (s, target) := fun heq => hs (congrArg w.boxes heq ▸ ht)
    exact step_move hw hx hne rfl (by simp [World.step, hx]) rfl
  | assignBox s source target =>
    obtain ⟨hs, ht⟩ := hc
    obtain ⟨x, hx⟩ := Option.ne_none_iff_exists'.mp hs
    obtain ⟨y, hy⟩ := Option.ne_none_iff_exists'.mp ht
    by_cases heq : source = target
    · exact step_quiet hw (by simp [World.step, hy, heq]) rfl
    · have hne : (s, source) ≠ (s, target) := fun h => heq (congrArg Prod.snd h)
      exact step_move hw hx hne rfl (by simp [World.step, hx, hy, heq]) rfl
  | borrow b a =>
    obtain ⟨hb, ha⟩ := hc
    obtain ⟨x, hx⟩ := Option.ne_none_iff_exists'.mp hb
    have hr : Anchored w ⟨x.value, some b⟩ :=
      ⟨fun _ h => Option.some.inj h ▸ hb, nofun, fun v hv => hw.boxes ⟨x, hx, hv⟩⟩
    obtain ⟨w', hacquire, hchange⟩ := refChange_acquire hr (.inl ha)
    have hw' : w' = w.setBox (.free, b) { x with readers := x.readers + 1 } := by
      simp only [World.acquire, World.addReader, hx, Option.map_some, Option.some.injEq] at hacquire
      exact hacquire.symm
    refine step_refs hw ?_ (by rw [World.changes, hx]; rfl) hchange ?_
    · rw [World.step, hx, hw']
      rfl
    · rintro r ⟨⟩
      exact hr
  | borrowMut b l m =>
    obtain ⟨hb, -, hm⟩ := hc
    obtain ⟨x, hx⟩ := Option.ne_none_iff_exists'.mp hb
    exact step_borrowMut hw hx hm
  | makeRef a => exact step_refs hw rfl rfl (refChange_blank (.inl hc) (.inr rfl)) nofun
  | copyRef source target =>
    obtain ⟨hs, ht⟩ := hc
    obtain ⟨r, hr⟩ := Option.ne_none_iff_exists'.mp hs
    obtain ⟨w', hacquire, hchange⟩ := refChange_acquire (hw.refs hr) (.inl ht)
    refine step_refs hw ?_ (by rw [World.changes, hr]) hchange ?_
    · rw [World.step, hr, Option.bind_some, hacquire]
      rfl
    · rintro f ⟨⟩
      exact hw.refs hr
  | moveRef source target =>
    obtain ⟨hs, ht⟩ := hc
    obtain ⟨r, hr⟩ := Option.ne_none_iff_exists'.mp hs
    have hne : target ≠ source := fun heq => hs (heq ▸ ht)
    exact step_refs hw (by rw [World.step, hr]; rfl) rfl (refChange_steal hr (.inl ht) hne) nofun
  | assignRef source target =>
    obtain ⟨hs, ht⟩ := hc
    obtain ⟨r, v, hr, hrelease, hchange, hv, hself, hothers⟩ := exists_release hw ht
    by_cases heq : source = target
    · exact step_quiet hw (by simp [World.step, heq, hr]) (by simp [World.changes, heq])
    · obtain ⟨f, hf⟩ := Option.ne_none_iff_exists'.mp hs
      have hf' : v.refs source = some f := (hothers source heq).trans hf
      obtain ⟨w', hacquire, hchange'⟩ := refChange_acquire (hv.refs hf') (.inr hself)
      refine step_refs hw ?_ (by rw [World.changes, if_neg heq, hf, hr]) (hchange.trans hchange') ?_
      · rw [World.step, if_neg heq, hrelease, Option.bind_some, hf', Option.bind_some, hacquire]
        rfl
      · rintro g ⟨⟩
        exact hw.refs hf
  | moveAssignRef source target =>
    obtain ⟨hs, ht⟩ := hc
    obtain ⟨r, v, hr, hrelease, hchange, hv, hself, hothers⟩ := exists_release hw ht
    by_cases heq : source = target
    · exact step_quiet hw (by simp [World.step, heq, hr]) (by simp [World.changes, heq])
    · obtain ⟨f, hf⟩ := Option.ne_none_iff_exists'.mp hs
      have hf' : v.refs source = some f := (hothers source heq).trans hf
      refine step_refs hw ?_ (by rw [World.changes, if_neg heq, hr])
        (hchange.trans (refChange_steal hf' (.inr hself) (Ne.symm heq))) nofun
      rw [World.step, if_neg heq, hrelease, Option.bind_some, hf']
      rfl
  | dropRef a =>
    obtain ⟨r, v, hr, hrelease, hchange, hv, hself, -⟩ := exists_release hw hc
    refine step_refs hw ?_ (by rw [World.changes, hr])
      (hchange.trans (refChange_blank (.inr hself) (.inl rfl))) nofun
    rw [World.step, hrelease]
    rfl
  | makeMut a =>
    have ha : w.muts a = none := hc
    refine step_muts hw (Function.update w.muts a (some none)) (fun {b v} hb => ?_)
      (fun v => ?_) rfl rfl
    · rcases update_cases (· = some (some v)) hb with ⟨-, heq⟩ | ⟨-, hold⟩
      · cases heq
      · exact hw.muts hold
    · have hset := mutsTo_setMut w a (some none) v
      simp only [ha] at hset
      exact hset.le
  | moveMut source target =>
    obtain ⟨hs, ht⟩ := hc
    obtain ⟨p, hp⟩ := Option.ne_none_iff_exists'.mp hs
    exact step_muts hw _ (stealMut_lt hw hp) (mutsTo_steal hp) (by rw [World.step, hp]; rfl) rfl
  | assignMut source target =>
    obtain ⟨hs, ht⟩ := hc
    obtain ⟨p, hp⟩ := Option.ne_none_iff_exists'.mp hs
    obtain ⟨q, hq⟩ := Option.ne_none_iff_exists'.mp ht
    by_cases heq : source = target
    · exact step_quiet hw (by simp [World.step, hq, heq]) rfl
    · exact step_muts hw _ (stealMut_lt hw hp) (mutsTo_steal hp)
        (by rw [World.step, hp, Option.bind_some, hq, Option.map_some, if_neg heq]; rfl) rfl
  | dropMut a =>
    obtain ⟨p, hp⟩ := Option.ne_none_iff_exists'.mp hc
    refine step_muts hw (Function.update w.muts a none) (fun {b v} hb => ?_)
      (fun v => ?_) (by rw [World.step, hp]; rfl) rfl
    · rcases update_cases (· = some (some v)) hb with ⟨-, heq⟩ | ⟨-, hold⟩
      · cases heq
      · exact hw.muts hold
    · have hset := mutsTo_setMut w a none v
      have hnone : decide ((none : Option (Option ℕ)) = some (some v)) = false := by simp
      rw [hnone, Bool.toNat_false, Nat.add_zero] at hset
      exact (Nat.le_add_right _ _).trans_eq hset
  | release l m b =>
    obtain ⟨hl, hm, -⟩ := hc
    obtain ⟨x, hx⟩ := Option.ne_none_iff_exists'.mp hl
    obtain ⟨p, hp⟩ := Option.ne_none_iff_exists'.mp hm
    exact step_release hw hx hp

end Lemmas
end HftExercises.Typestate
