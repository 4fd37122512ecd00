import HftExercises.Core.AddressSpace
import HftExercises.Core.History
import Mathlib.Data.UInt

/-! # Runtime borrow guards

Boxes and guards are objects at addresses. A guard that holds a borrow points to its box
and gives the borrow back to it when it is destroyed or assigned over. An access to an
object that is not there is undefined.
-/
namespace HftExercises.BorrowGuards

/-- A `BorrowRef` or a `BorrowMut`. -/
inductive Kind where
  | shared
  | exclusive
  deriving DecidableEq, Repr

/-- `ptr` is the box whose value the guard points to. -/
structure Guard where
  ptr : Option Address
  owner : Option Address
  deriving DecidableEq, Repr

def Guard.empty : Guard := ⟨none, none⟩

structure Box where
  readers : UInt64
  writer : Bool
  deriving DecidableEq, Repr

namespace Box

def tryBorrow (x : Box) : Option Box :=
  if x.writer then none else some { x with readers := x.readers + 1 }

def tryBorrowMut (x : Box) : Option Box :=
  if x.writer || x.readers != 0 then none else some { x with writer := true }

def releaseShared (x : Box) : Box := { x with readers := x.readers - 1 }

def releaseMut (x : Box) : Box := { x with writer := false }

def lend (x : Box) : Kind → Option Box
  | .shared => x.tryBorrow
  | .exclusive => x.tryBorrowMut

def release (x : Box) : Kind → Box
  | .shared => x.releaseShared
  | .exclusive => x.releaseMut

end Box

inductive Object where
  | box (x : Box)
  | guard (k : Kind) (g : Guard)
  deriving DecidableEq, Repr

abbrev World := Address → Option Object

inductive Call where
  | makeBox (b : Address)
  | destroyBox (b : Address)
  | makeGuard (k : Kind) (a : Address)
  /-- `try_borrow` or `try_borrow_mut` of the box at `b`, for a guard at `a` -/
  | tryBorrow (k : Kind) (b a : Address)
  | moveConstruct (k : Kind) (source target : Address)
  | moveAssign (k : Kind) (source target : Address)
  | destroy (k : Kind) (a : Address)

inductive Result where
  | done
  | granted
  | refused
  deriving DecidableEq, Repr

namespace World

def empty : World := fun _ => none

def boxAt (w : World) (b : Address) : Option Box :=
  match w b with
  | some (.box x) => some x
  | _ => none

def guardAt (w : World) (k : Kind) (a : Address) : Option Guard :=
  match w a with
  | some (.guard k' g) => if k' = k then some g else none
  | _ => none

def put (w : World) (a : Address) (o : Object) : World := Function.update w a (some o)

/-- `release()` of the guard at an address. -/
def release (w : World) (k : Kind) (a : Address) : Option World :=
  (w.guardAt k a).bind fun g =>
    match g.owner with
    | none => some w
    | some b => (w.boxAt b).map fun x => (w.put b (.box (x.release k))).put a (.guard k .empty)

/-- The pointers go to the target and are cleared in the source. -/
def steal (w : World) (k : Kind) (source target : Address) : Option World :=
  (w.guardAt k source).map fun g => (w.put source (.guard k .empty)).put target (.guard k g)

def step (w : World) : Call → Option (Result × World)
  | .makeBox b => some (.done, w.put b (.box ⟨0, false⟩))
  | .destroyBox b => (w.boxAt b).map fun _ => (.done, Function.update w b none)
  | .makeGuard k a => some (.done, w.put a (.guard k .empty))
  | .tryBorrow k b a => (w.boxAt b).map fun x =>
    match x.lend k with
    | none => (.refused, w)
    | some x => (.granted, (w.put b (.box x)).put a (.guard k ⟨some b, some b⟩))
  | .moveConstruct k source target => (w.steal k source target).map fun w => (.done, w)
  | .moveAssign k source target =>
    if source = target then (w.guardAt k target).map fun _ => (.done, w)
    else (w.release k target).bind fun w => (w.steal k source target).map fun w => (.done, w)
  | .destroy k a => (w.release k a).map fun w => (.done, Function.update w a none)

/-- Objects are made where nothing is and used where they are, and no guard outlives the
box that it points to. -/
def Allowed (w : World) : Call → Prop
  | .makeBox b => w b = none
  | .destroyBox b => (∃ x, w b = some (.box x)) ∧
      ∀ a k g, w a = some (.guard k g) → g.ptr ≠ some b ∧ g.owner ≠ some b
  | .makeGuard _ a => w a = none
  | .tryBorrow _ b a => (∃ x, w b = some (.box x)) ∧ w a = none
  | .moveConstruct k source target => (∃ g, w source = some (.guard k g)) ∧ w target = none
  | .moveAssign k source target =>
      (∃ g, w source = some (.guard k g)) ∧ ∃ g, w target = some (.guard k g)
  | .destroy k a => ∃ g, w a = some (.guard k g)

end World

/-- A guard of the kind that is not empty and points to the box at `b`. -/
def bears (k : Kind) (b : Address) : Option Object → Bool
  | some (.guard k' g) => decide (k' = k) && decide (g.ptr = some b)
  | _ => false

/-- What the counters of a box say. -/
def Box.count (x : Box) : Kind → ℕ
  | .shared => x.readers.toNat
  | .exclusive => x.writer.toNat

/-- Every guard points to the box that it gives its borrow back to, and every box counts
the guards that point to it. -/
structure Consistent (w : World) : Prop where
  linked : ∀ {a k g}, w a = some (.guard k g) → g.ptr = g.owner
  attached : ∀ {a k g b}, w a = some (.guard k g) → g.ptr = some b → ∃ x, w b = some (.box x)
  counts : ∀ {b x}, w b = some (.box x) → ∀ k, x.count k = countAt (bears k b) w
  apart : ∀ {b x}, w b = some (.box x) → x.writer = true → x.readers = 0

section Lemmas
variable {w w' : World} {a b c source target : Address} {k k' : Kind} {g : Guard} {x x' : Box}
variable {o : Object}

theorem boxAt_eq (h : w b = some (.box x)) : w.boxAt b = some x := by
  rw [World.boxAt, h]

theorem guardAt_eq (h : w a = some (.guard k g)) : w.guardAt k a = some g := by
  rw [World.guardAt, h]
  exact if_pos rfl

@[simp] theorem bears_none : bears k b none = false := rfl

@[simp] theorem bears_box : bears k b (some (.box x)) = false := rfl

@[simp] theorem bears_guard : bears k b (some (.guard k' g)) =
    (decide (k' = k) && decide (g.ptr = some b)) := rfl

theorem put_self (w : World) (a : Address) (o : Object) : w.put a o a = some o :=
  Function.update_self ..

theorem put_of_ne (h : b ≠ a) (w : World) (o : Object) : w.put a o b = w b :=
  Function.update_of_ne h ..

theorem consistent_empty : Consistent World.empty where
  linked := nofun
  attached := nofun
  counts := nofun
  apart := nofun

/-- The counters of a box fit into a word. -/
theorem countAt_bears_lt (h : w b = some (.box x)) : countAt (bears k c) w < 2 ^ 64 :=
  countAt_lt_addresses (a := b) (by rw [h]; rfl)

/-- A box changes its counters together with one guard, or the place of one. -/
theorem Consistent.exchange (h : Consistent w) (hb : w b = some (.box x)) (hne : a ≠ b)
    (hplace : ∀ y, w a ≠ some (.box y)) (hlinked : g.ptr = g.owner)
    (htarget : ∀ c, g.ptr = some c → c = b)
    (hothers : ∀ c, c ≠ b → ∀ k', bears k' c (w a) = false)
    (hcount : ∀ k', x'.count k' + (bears k' b (w a)).toNat =
      x.count k' + (bears k' b (some (.guard k g))).toNat)
    (hapart : x'.writer = true → x'.readers = 0) :
    Consistent ((w.put b (.box x')).put a (.guard k g)) := by
  have hself : ((w.put b (.box x')).put a (.guard k g)) b = some (.box x') := by
    rw [put_of_ne hne.symm, put_self]
  have hrest : ∀ c, c ≠ a → c ≠ b → ((w.put b (.box x')).put a (.guard k g)) c = w c := by
    intro c ha hb
    rw [put_of_ne ha, put_of_ne hb]
  have hbox : ∀ c y, w c = some (.box y) → c ≠ a := by
    rintro c y hc rfl
    exact hplace y hc
  have hcounts : ∀ k' c, countAt (bears k' c) ((w.put b (.box x')).put a (.guard k g)) +
      (bears k' c (w a)).toNat =
        countAt (bears k' c) w + (bears k' c (some (.guard k g))).toNat := by
    intro k' c
    have hmove := countAt_update_update (bears k' c) w hne (some (.box x'))
      (some (.guard k g))
    rw [hb, bears_box, bears_box, Bool.toNat_false, Nat.add_zero, Nat.add_zero] at hmove
    exact hmove
  constructor
  · intro c j f hc
    by_cases hca : c = a
    · subst hca
      rw [put_self] at hc
      cases hc
      exact hlinked
    · by_cases hcb : c = b
      · subst hcb
        rw [hself] at hc
        cases hc
      · exact h.linked ((hrest c hca hcb).symm.trans hc)
  · intro c j f d hc hd
    by_cases hdb : d = b
    · exact ⟨x', hdb ▸ hself⟩
    · have hold : w c = some (.guard j f) := by
        by_cases hca : c = a
        · subst hca
          rw [put_self] at hc
          cases hc
          exact absurd (htarget d hd) hdb
        · by_cases hcb : c = b
          · subst hcb
            rw [hself] at hc
            cases hc
          · exact (hrest c hca hcb).symm.trans hc
      obtain ⟨y, hy⟩ := h.attached hold hd
      exact ⟨y, (hrest d (hbox d y hy) hdb).trans hy⟩
  · intro c y hc k'
    by_cases hcb : c = b
    · subst hcb
      rw [hself] at hc
      cases hc
      have hnew := hcounts k' c
      have hwas := h.counts hb k'
      have hchange := hcount k'
      omega
    · have hca : c ≠ a := by
        rintro rfl
        rw [put_self] at hc
        cases hc
      have hnone : bears k' c (some (.guard k g)) = false := by
        rw [bears_guard, Bool.and_eq_false_iff]
        exact .inr (decide_eq_false fun hptr => hcb (htarget c hptr))
      have hnew := hcounts k' c
      rw [hothers c hcb, hnone, Bool.toNat_false, Nat.add_zero, Nat.add_zero] at hnew
      rw [hnew]
      exact h.counts ((hrest c hca hcb).symm.trans hc) k'
  · intro c y hc
    by_cases hcb : c = b
    · subst hcb
      rw [hself] at hc
      cases hc
      exact hapart
    · have hca : c ≠ a := by
        rintro rfl
        rw [put_self] at hc
        cases hc
      exact h.apart ((hrest c hca hcb).symm.trans hc)

/-- Guards are moved, emptied or taken away and boxes are made, and every count stays. -/
theorem Consistent.rearrange (h : Consistent w)
    (hguard : ∀ {c j f}, w' c = some (.guard j f) → f = .empty ∨ ∃ d, w d = some (.guard j f))
    (hkept : ∀ {b x c j f}, w b = some (.box x) → w c = some (.guard j f) → f.ptr = some b →
      w' b = some (.box x))
    (hbox : ∀ {b x}, w' b = some (.box x) →
      w b = some (.box x) ∨ x = ⟨0, false⟩ ∧ ∀ k c, bears k b (w c) = false)
    (hcounts : ∀ k b, countAt (bears k b) w' = countAt (bears k b) w) : Consistent w' where
  linked hc := by
    rcases hguard hc with rfl | ⟨d, hd⟩
    · rfl
    · exact h.linked hd
  attached hc hptr := by
    rcases hguard hc with rfl | ⟨d, hd⟩
    · cases hptr
    · obtain ⟨x, hx⟩ := h.attached hd hptr
      exact ⟨x, hkept hx hd hptr⟩
  counts hb k := by
    rw [hcounts]
    rcases hbox hb with hold | ⟨rfl, hnone⟩
    · exact h.counts hold k
    · rw [countAt_eq_zero.mpr (hnone k)]
      cases k <;> rfl
  apart hb := by
    rcases hbox hb with hold | ⟨rfl, -⟩
    · exact h.apart hold
    · exact nofun

/-- An object that bears no borrow and that no guard points to makes way for nothing, or for
an empty guard. -/
theorem Consistent.clear (h : Consistent w) {o : Option Object}
    (ho : ∀ p, o = some p → ∃ k, p = .guard k .empty) (hold : ∀ k c, bears k c (w a) = false)
    (hunused : ∀ c k g, w c = some (.guard k g) → g.ptr ≠ some a) :
    Consistent (Function.update w a o) := by
  refine h.rearrange (fun hc => ?_) (fun hb hc hptr => ?_) (fun hb => .inl ?_) fun k c => ?_
  · rcases update_cases (· = some (Object.guard _ _)) hc with ⟨-, hog⟩ | ⟨-, hwas⟩
    · obtain ⟨k, heq⟩ := ho _ hog
      cases heq
      exact .inl rfl
    · exact .inr ⟨_, hwas⟩
  · refine (Function.update_of_ne ?_ ..).trans hb
    rintro rfl
    exact hunused _ _ _ hc hptr
  · rcases update_cases (· = some (Object.box _)) hb with ⟨-, hob⟩ | ⟨-, hwas⟩
    · obtain ⟨k, heq⟩ := ho _ hob
      cases heq
    · exact hwas
  · refine countAt_update_same ?_
    rw [hold]
    cases o with
    | none => rfl
    | some p =>
      obtain ⟨k', rfl⟩ := ho p rfl
      simp [Guard.empty]

/-- Guards point to boxes. -/
theorem Consistent.ptr_ne (h : Consistent w) (ha : ∀ x, w a ≠ some (.box x)) (c : Address) (k : Kind)
    (g : Guard) (hc : w c = some (.guard k g)) : g.ptr ≠ some a := by
  intro hptr
  obtain ⟨x, hx⟩ := h.attached hc hptr
  exact ha x hx

theorem Consistent.bears_eq_false (h : Consistent w) (ha : ∀ x, w a ≠ some (.box x)) (k : Kind)
    (c : Address) : bears k a (w c) = false := by
  cases hc : w c with
  | none => rfl
  | some p =>
    cases p with
    | box y => rfl
    | guard k' g =>
      rw [bears_guard, Bool.and_eq_false_iff]
      exact .inr (decide_eq_false (h.ptr_ne ha c k' g hc))

theorem Consistent.makeBox (h : Consistent w) (hb : w b = none) :
    Consistent (w.put b (.box ⟨0, false⟩)) := by
  refine h.rearrange (fun hc => ?_) (fun hd _ _ => ?_) (fun hc => ?_) fun k c =>
    countAt_update_same (by rw [hb]; rfl)
  · rcases update_cases (· = some (Object.guard _ _)) hc with ⟨-, hog⟩ | ⟨-, hwas⟩
    · cases hog
    · exact .inr ⟨_, hwas⟩
  · refine (put_of_ne ?_ ..).trans hd
    rintro rfl
    rw [hb] at hd
    cases hd
  · rcases update_cases (· = some (Object.box _)) hc with ⟨rfl, hox⟩ | ⟨-, hwas⟩
    · cases hox
      exact .inr ⟨rfl, h.bears_eq_false (by rw [hb]; exact nofun)⟩
    · exact .inl hwas

theorem lend_spec (h : x.lend k = some x') (hfits : x.readers.toNat + 1 < 2 ^ 64) :
    (∀ k', x'.count k' = x.count k' + (decide (k = k')).toNat) ∧
      (x'.writer = true → x'.readers = 0) := by
  cases k with
  | shared =>
    simp only [Box.lend, Box.tryBorrow] at h
    split_ifs at h with hw
    cases h
    refine ⟨fun k' => ?_, fun hw' => absurd hw' hw⟩
    cases k' with
    | shared =>
      simp only [Box.count, UInt64.toNat_add, UInt64.reduceToNat, decide_true, Bool.toNat_true]
      omega
    | exclusive => rfl
  | exclusive =>
    simp only [Box.lend, Box.tryBorrowMut] at h
    split_ifs at h with hw
    cases h
    rw [Bool.or_eq_true, not_or, Bool.not_eq_true, bne_iff_ne, not_not] at hw
    refine ⟨fun k' => ?_, fun _ => hw.2⟩
    cases k' with
    | shared => rfl
    | exclusive => simp [Box.count, hw.1]

theorem release_spec (hpos : 0 < x.count k) (hapart : x.writer = true → x.readers = 0) :
    (∀ k', (x.release k).count k' + (decide (k = k')).toNat = x.count k') ∧
      ((x.release k).writer = true → (x.release k).readers = 0) := by
  cases k with
  | shared =>
    have hread : 0 < x.readers.toNat := hpos
    refine ⟨fun k' => ?_, fun hw => ?_⟩
    · cases k' with
      | shared =>
        have hlt := x.readers.toNat_lt
        simp only [Box.count, Box.release, Box.releaseShared, UInt64.toNat_sub, UInt64.reduceToNat,
          decide_true, Bool.toNat_true]
        omega
      | exclusive => rfl
    · have hzero := hapart hw
      rw [hzero] at hread
      cases hread
  | exclusive =>
    refine ⟨fun k' => ?_, nofun⟩
    cases k' with
    | shared => rfl
    | exclusive =>
      have hw : x.writer = true := by
        cases hx : x.writer with
        | true => rfl
        | false => simp [Box.count, hx] at hpos
      simp [Box.count, Box.release, Box.releaseMut, hw]

/-- A guard may still be added: its place is free, and so is the place of the box. -/
theorem countAt_bears_succ_lt (hb : w b = some (.box x)) (ha : w a = none) :
    countAt (bears k c) w + 1 < 2 ^ 64 := by
  have hne : a ≠ b := by
    rintro rfl
    rw [ha] at hb
    cases hb
  have hmore := countAt_bears_lt (k := k) (c := c)
    (w := w.put a (.guard k ⟨some c, some c⟩)) ((put_of_ne hne.symm ..).trans hb)
  have henter : countAt (bears k c) (Function.update w a (some (.guard k ⟨some c, some c⟩))) =
      countAt (bears k c) w + 1 := countAt_update_enter (by rw [ha]; rfl) (by simp)
  rw [World.put] at hmore
  omega

/-- `try_borrow` and `try_borrow_mut` that succeed. -/
theorem Consistent.lend (h : Consistent w) (hb : w b = some (.box x)) (ha : w a = none)
    (hx : x.lend k = some x') :
    Consistent ((w.put b (.box x')).put a (.guard k ⟨some b, some b⟩)) := by
  have hne : a ≠ b := by
    rintro rfl
    rw [ha] at hb
    cases hb
  have hfits := countAt_bears_succ_lt (k := .shared) (c := b) hb ha
  rw [← h.counts hb .shared] at hfits
  obtain ⟨hcount, hapart⟩ := lend_spec hx hfits
  refine h.exchange hb hne (by rw [ha]; exact nofun) rfl (fun c hc => (Option.some.inj hc).symm)
    (fun _ _ _ => by rw [ha]; rfl) (fun k' => ?_) hapart
  rw [ha, hcount k']
  simp

/-- What `release()` of the guard at `a` leaves. -/
structure Released (w w' : World) (k : Kind) (a : Address) : Prop where
  consistent : Consistent w'
  guard : w' a = some (.guard k .empty)
  others : ∀ c, c ≠ a → (∀ x, w c ≠ some (.box x)) → w' c = w c

theorem Consistent.release (h : Consistent w) (ha : w a = some (.guard k g)) :
    ∃ w', w.release k a = some w' ∧ Released w w' k a := by
  have hlinked := h.linked ha
  rw [World.release, guardAt_eq ha, Option.bind_some]
  cases howner : g.owner with
  | none =>
    have hempty : g = .empty := by
      rw [howner] at hlinked
      cases g
      cases hlinked
      cases howner
      rfl
    exact ⟨w, rfl, h, hempty ▸ ha, fun _ _ _ => rfl⟩
  | some b =>
    rw [howner] at hlinked
    obtain ⟨x, hb⟩ := h.attached ha hlinked
    have hne : a ≠ b := by
      rintro rfl
      rw [ha] at hb
      cases hb
    have hbears : ∀ k' c, bears k' c (w a) = (decide (k = k') && decide (b = c)) := by
      intro k' c
      rw [ha, bears_guard, hlinked]
      simp
    have hpos : 0 < x.count k := by
      rw [h.counts hb k]
      exact Nat.pos_of_ne_zero (countAt_ne_zero (t := a) (by rw [hbears]; simp))
    obtain ⟨hcount, hapart⟩ := release_spec hpos (h.apart hb)
    simp only [boxAt_eq hb, Option.map_some]
    refine ⟨_, rfl, h.exchange hb hne (by rw [ha]; exact nofun) rfl nofun ?_ (fun k' => ?_) hapart,
      put_self .., fun c hca hc => ?_⟩
    · intro c hcb k'
      rw [hbears, decide_eq_false (p := b = c) (Ne.symm hcb), Bool.and_false]
    · rw [hbears, ← hcount k']
      simp [Guard.empty]
    · have hcb : c ≠ b := by
        rintro rfl
        exact hc x hb
      rw [put_of_ne hca, put_of_ne hcb]

/-- A guard takes over what another one bears. -/
theorem Consistent.steal (h : Consistent w) (hs : w source = some (.guard k g))
    (hne : target ≠ source) (hplace : w target = none ∨ w target = some (.guard k .empty)) :
    ∃ w', w.steal k source target = some w' ∧ Consistent w' := by
  refine ⟨(w.put source (.guard k .empty)).put target (.guard k g), ?_, ?_⟩
  · rw [World.steal, guardAt_eq hs]
    rfl
  have hfree : ∀ k' c, bears k' c (w target) = false := by
    intro k' c
    rcases hplace with hnone | hempty
    · rw [hnone]
      rfl
    · rw [hempty]
      simp [Guard.empty]
  have hcounts : ∀ k' c, countAt (bears k' c)
      ((w.put source (.guard k .empty)).put target (.guard k g)) = countAt (bears k' c) w := by
    intro k' c
    have hmove := countAt_relocate (bears k' c) w hne
      (x := some (.guard k .empty)) (by simp [Guard.empty]) (hfree k' c)
    rwa [hs] at hmove
  have hguard : ∀ c j f, ((w.put source (.guard k .empty)).put target (.guard k g)) c =
      some (.guard j f) → f = .empty ∨ ∃ d, w d = some (.guard j f) := by
    intro c j f hc
    rcases update_cases (· = some (Object.guard j f)) hc with ⟨-, heq⟩ | ⟨-, hc⟩
    · cases heq
      exact .inr ⟨source, hs⟩
    · rcases update_cases (· = some (Object.guard j f)) hc with ⟨-, heq⟩ | ⟨-, hc⟩
      · cases heq
        exact .inl rfl
      · exact .inr ⟨c, hc⟩
  have hbox : ∀ c x, ((w.put source (.guard k .empty)).put target (.guard k g)) c =
      some (.box x) ↔ w c = some (.box x) := by
    intro c x
    by_cases hct : c = target
    · subst hct
      rw [put_self]
      rcases hplace with hnone | hempty
      · simp [hnone]
      · simp [hempty]
    · rw [put_of_ne hct]
      by_cases hcs : c = source
      · subst hcs
        rw [put_self]
        simp [hs]
      · rw [put_of_ne hcs]
  exact h.rearrange (fun hc => hguard _ _ _ hc) (fun hb _ _ => (hbox _ _).mpr hb)
    (fun hb => .inl ((hbox _ _).mp hb)) fun k' b => hcounts k' b

end Lemmas
end HftExercises.BorrowGuards
