import Mathlib.Data.List.Basic
import Mathlib.Data.Nat.Notation

/-! # Guards and the entries they keep in a registry

A guard enters a name into a list when it is made and takes one entry of that name
out when it goes; in between it may be moved. Guards are told apart by their
position. A guard that has been moved from, and one that is gone, holds nothing.
-/
namespace HftExercises.Guards
variable {A H : Type*} [DecidableEq A]

/-- The first entry of the name is overwritten with the last one. -/
def unregister (roots : List A) (a : A) : List A :=
  if a ∈ roots then (roots.set (roots.idxOf a) (roots.getLastD a)).dropLast else roots

theorem count_unregister {roots : List A} {a : A} (ha : a ∈ roots) (x : A) :
    (unregister roots a).count x + [a].count x = roots.count x := by
  obtain ⟨l, r, rfl, hl⟩ := List.eq_append_cons_of_mem ha
  have hidx : (l ++ a :: r).idxOf a = l.length := by
    rw [List.idxOf_append_of_notMem hl, List.idxOf_cons_self, Nat.add_zero]
  rw [unregister, if_pos ha, hidx]
  rcases List.eq_nil_or_concat' r with rfl | ⟨r, z, rfl⟩
  · simp
  · have hlast : (l ++ a :: (r ++ [z])).getLastD a = z := by
      rw [← List.cons_append, ← List.append_assoc, List.getLastD_concat]
    have hset : (l ++ a :: (r ++ [z])).set l.length z = l ++ z :: r ++ [z] := by simp
    rw [hlast, hset, List.dropLast_concat]
    simp only [List.count_append, List.count_cons, List.count_nil]
    omega

theorem count_unregister_of_ne {roots : List A} {a x : A} (hx : x ≠ a) :
    (unregister roots a).count x = roots.count x := by
  by_cases ha : a ∈ roots
  · have hcount := count_unregister ha x
    rwa [List.count_singleton, if_neg (by simpa using hx.symm), Nat.add_zero] at hcount
  · rw [unregister, if_neg ha]

/-- The registry and the guards. -/
structure Registry (A H : Type*) where
  roots : List A
  guards : List (Option H)

namespace Registry
variable (name : H → A) (r : Registry A H)

/-- What the guard at a position holds. -/
def guard (i : ℕ) : Option H := r.guards[i]?.join

/-- The guard takes its entry out and holds nothing from then on. -/
def release (i : ℕ) : Registry A H :=
  match r.guard i with
  | none => r
  | some h => { roots := unregister r.roots (name h), guards := r.guards.set i none }

/-- A new guard takes over what another one holds. -/
def move (src : ℕ) : Registry A H := { r with guards := r.guards.set src none ++ [r.guard src] }

/-- A guard lets go of what it has and takes over what another one holds. -/
def assign (dst src : ℕ) : Registry A H :=
  if dst = src then r
  else { r.release name dst with
    guards := ((r.release name dst).guards.set src none).set dst ((r.release name dst).guard src) }

/-- A new guard, with the entries that are made for it. -/
def enter (entries : List A) (g : Option H) : Registry A H :=
  { roots := r.roots ++ entries, guards := r.guards ++ [g] }

/-- Whether the guard satisfies `p` and has an entry of the name to take out. -/
def holds (p : H → Bool) (a : A) (g : Option H) : Bool := g.any fun h => p h && decide (name h = a)

/-- As many entries of the name as guards that satisfy `p` to take them out. -/
def Balanced (p : H → Bool) (a : A) : Prop :=
  r.roots.count a = r.guards.countP (holds name p a)

variable {name r} {p : H → Bool} {a : A}

@[simp] theorem holds_none : holds name p a none = false := rfl

theorem holds_some {h : H} : holds name p a (some h) = (p h && decide (name h = a)) := rfl

omit [DecidableEq A] in
theorem getElem?_of_guard {i : ℕ} {h : H} (hi : r.guard i = some h) : r.guards[i]? = some (some h) :=
  Option.join_eq_some_iff.mp hi

omit [DecidableEq A] in
theorem mem_of_guard {i : ℕ} {h : H} (hi : r.guard i = some h) : some h ∈ r.guards :=
  List.mem_of_getElem? (getElem?_of_guard hi)

omit [DecidableEq A] in
theorem guard_eq_getElem {i : ℕ} (hi : i < r.guards.length) : r.guard i = r.guards[i] := by
  rw [guard, List.getElem?_eq_getElem hi]
  rfl

omit [DecidableEq A] in
/-- Overwriting one guard changes the count by that guard alone. -/
theorem countP_set {i : ℕ} (q : Option H → Bool) (hi : i < r.guards.length) (g : Option H) :
    (r.guards.set i g).countP q + (if q (r.guard i) then 1 else 0) =
      r.guards.countP q + (if q g then 1 else 0) := by
  have hpos : q r.guards[i] = true → 0 < r.guards.countP q := fun h =>
    List.countP_pos_iff.mpr ⟨_, List.getElem_mem hi, h⟩
  rw [guard_eq_getElem hi, List.countP_set hi]
  split_ifs with hq
  all_goals
    try have := hpos hq
    omega

theorem Balanced.enter (hr : r.Balanced name p a) {entries : List A} {g : Option H}
    (he : entries.count a = if holds name p a g then 1 else 0) :
    (r.enter entries g).Balanced name p a := by
  simp only [Balanced, Registry.enter, List.count_append, List.countP_append, List.countP_cons,
    List.countP_nil, he, Nat.zero_add]
  rw [hr]

/-- The guard that goes has an entry of its own, or finds none to take. -/
theorem Balanced.release (hr : r.Balanced name p a) {i : ℕ}
    (hi : ∀ h, r.guard i = some h → name h = a → p h = true ∨ a ∉ r.roots) :
    (r.release name i).Balanced name p a := by
  rw [Registry.release]
  cases hg : r.guard i with
  | none => exact hr
  | some h =>
    have hlen : i < r.guards.length := (List.getElem?_eq_some_iff.mp (getElem?_of_guard hg)).1
    have hset := countP_set (holds name p a) hlen none
    rw [hg] at hset
    simp only [holds_some, holds_none, Bool.and_eq_true, decide_eq_true_eq, Bool.false_eq_true,
      if_false, Nat.add_zero] at hset
    change (unregister r.roots (name h)).count a = (r.guards.set i none).countP (holds name p a)
    have hr' : r.roots.count a = r.guards.countP (holds name p a) := hr
    by_cases ha : name h = a
    · subst ha
      by_cases hmem : name h ∈ r.roots
      · have hcount := count_unregister hmem (name h)
        rw [if_pos ⟨(hi h hg rfl).resolve_right (not_not_intro hmem), rfl⟩] at hset
        rw [List.count_singleton_self] at hcount
        omega
      · have hzero : r.guards.countP (holds name p (name h)) = 0 := by
          rw [← hr', List.count_eq_zero.mpr hmem]
        rw [unregister, if_neg hmem]
        omega
    · rw [count_unregister_of_ne (Ne.symm ha)]
      rw [if_neg fun hp => ha hp.2] at hset
      omega

theorem Balanced.move (hr : r.Balanced name p a) (src : ℕ) : (r.move src).Balanced name p a := by
  have hr' : r.roots.count a = r.guards.countP (holds name p a) := hr
  change r.roots.count a = (r.guards.set src none ++ [r.guard src]).countP (holds name p a)
  rw [List.countP_append, List.countP_singleton]
  by_cases hsrc : src < r.guards.length
  · have hset := countP_set (holds name p a) hsrc none
    rw [holds_none, if_neg Bool.false_ne_true] at hset
    omega
  · have hnone : r.guard src = none := by
      rw [guard, List.getElem?_eq_none (by omega)]
      rfl
    rw [hnone, holds_none, if_neg Bool.false_ne_true, List.set_eq_of_length_le (by omega), hr',
      Nat.add_zero]

omit [DecidableEq A] in
/-- A guard takes over what another one holds, and had nothing before. -/
theorem countP_take {dst src : ℕ} (hdst : dst < r.guards.length) (hne : dst ≠ src)
    (q : Option H → Bool) (hq : q none = false) (hempty : r.guard dst = none) :
    ((r.guards.set src none).set dst (r.guard src)).countP q = r.guards.countP q := by
  let taken : Registry A H := { r with guards := r.guards.set src none }
  have hguard : taken.guard dst = none := by
    rw [guard, List.getElem?_set_ne (Ne.symm hne)]
    exact hempty
  have hput := countP_set (r := taken) (i := dst) q (by simpa [taken] using hdst) (r.guard src)
  rw [hguard, hq, if_neg Bool.false_ne_true, Nat.add_zero] at hput
  rw [hput]
  by_cases hsrc : src < r.guards.length
  · have hset := countP_set q hsrc none
    rw [hq, if_neg Bool.false_ne_true] at hset
    omega
  · have hnone : r.guard src = none := by
      rw [guard, List.getElem?_eq_none (by omega)]
      rfl
    rw [hnone, hq, if_neg Bool.false_ne_true, Nat.add_zero]
    change (r.guards.set src none).countP q = _
    rw [List.set_eq_of_length_le (by omega)]

@[simp] theorem length_release (i : ℕ) :
    (r.release name i).guards.length = r.guards.length := by
  rw [Registry.release]
  split
  · rfl
  · exact List.length_set

theorem guard_release_self (i : ℕ) : (r.release name i).guard i = none := by
  rw [Registry.release]
  cases hg : r.guard i with
  | none => exact hg
  | some h =>
    change (r.guards.set i none)[i]?.join = none
    rw [List.getElem?_set, if_pos rfl]
    split_ifs <;> rfl

theorem Balanced.assign (hr : r.Balanced name p a) {dst src : ℕ} (hdst : dst < r.guards.length)
    (hi : ∀ h, dst ≠ src → r.guard dst = some h → name h = a → p h = true ∨ a ∉ r.roots) :
    (r.assign name dst src).Balanced name p a := by
  rw [Registry.assign]
  split_ifs with heq
  · exact hr
  · have hrel : (r.release name dst).roots.count a =
        (r.release name dst).guards.countP (holds name p a) := hr.release fun h => hi h heq
    change (r.release name dst).roots.count a = _
    rw [countP_take (by simpa using hdst) heq _ holds_none (guard_release_self dst), hrel]

theorem mem_release {i : ℕ} {g : H} (h : some g ∈ (r.release name i).guards) :
    some g ∈ r.guards := by
  rw [Registry.release] at h
  split at h
  · exact h
  · exact (List.mem_or_eq_of_mem_set h).resolve_right (by simp)

omit [DecidableEq A] in
theorem mem_move {src : ℕ} {g : H} (h : some g ∈ (r.move src).guards) : some g ∈ r.guards := by
  rcases List.mem_append.mp h with h | h
  · exact (List.mem_or_eq_of_mem_set h).resolve_right (by simp)
  · exact mem_of_guard (List.mem_singleton.mp h).symm

theorem mem_assign {dst src : ℕ} {g : H} (h : some g ∈ (r.assign name dst src).guards) :
    some g ∈ r.guards := by
  rw [Registry.assign] at h
  split_ifs at h with heq
  · exact h
  · rcases List.mem_or_eq_of_mem_set h with h | h
    · exact mem_release ((List.mem_or_eq_of_mem_set h).resolve_right (by simp))
    · exact mem_release (mem_of_guard h.symm)

end Registry
end HftExercises.Guards
