import Mathlib.Algebra.BigOperators.Group.List.Basic
import Mathlib.Algebra.Order.Floor.Ring
import Mathlib.Data.List.Forall2
import Mathlib.Data.List.Induction
import Mathlib.Data.List.Nodup
import Mathlib.Data.List.Perm.Subperm
import Mathlib.Tactic.Linarith
import Mathlib.Tactic.Ring

/-! # Rounding a list of shares

Shares are rounded down, and some of them are then served one unit each. As long as
only slots with a remainder are served, and none of them twice, every share ends up
rounded down or up.
-/
namespace HftExercises.Apportionment
variable {K : Type*} [Field K] [LinearOrder K] [IsStrictOrderedRing K] [FloorRing K]
variable {qs : List ℤ} {served : List ℕ} {xs : List K}

/-- One unit more in each of some slots. -/
def bump (qs : List ℤ) (served : List ℕ) : List ℤ :=
  served.foldl (fun qs i => qs.modify i (· + 1)) qs

def floors (xs : List K) : List ℤ := xs.map Int.floor

/-- What a rounding leaves of the shares. -/
def remainders (xs : List K) (qs : List ℤ) : List K :=
  List.zipWith (fun (x : K) (q : ℤ) => x - q) xs qs

theorem bump_append_singleton (qs : List ℤ) (served : List ℕ) (i : ℕ) :
    bump qs (served ++ [i]) = (bump qs served).modify i (· + 1) := by
  simp [bump]

theorem bump_length (qs : List ℤ) (served : List ℕ) : (bump qs served).length = qs.length := by
  induction served using List.reverseRecOn with
  | nil => rfl
  | append_singleton served i ih => rw [bump_append_singleton, List.length_modify, ih]

theorem getElem?_bump (hnodup : served.Nodup) (qs : List ℤ) (i : ℕ) :
    (bump qs served)[i]? = qs[i]?.map fun q => q + if i ∈ served then 1 else 0 := by
  induction served using List.reverseRecOn with
  | nil => simp [bump]
  | append_singleton served j ih =>
    obtain ⟨hnodup, -, hfresh⟩ := List.nodup_append.mp hnodup
    rw [bump_append_singleton, List.getElem?_modify, ih hnodup, Option.map_eq_map, Option.map_map]
    refine congrArg (Option.map · qs[i]?) (funext fun q => ?_)
    have hmem : i ∈ served ++ [j] ↔ i ∈ served ∨ i = j := by simp
    by_cases hij : j = i
    · subst hij
      have hout : j ∉ served := fun hj => hfresh j hj j (List.mem_singleton_self j) rfl
      simp [hout]
    · have hji : i ≠ j := fun h => hij h.symm
      simp [hij, hji]

theorem sum_modify {i : ℕ} (h : i < qs.length) : (qs.modify i (· + 1)).sum = qs.sum + 1 := by
  induction qs generalizing i with
  | nil => simp at h
  | cons q qs ih =>
    cases i with
    | zero =>
      simp only [List.modify_zero_cons, List.sum_cons]
      ring
    | succ i =>
      rw [List.modify_succ_cons, List.sum_cons, List.sum_cons, ih (by simpa using h)]
      ring

theorem sum_bump (h : ∀ i ∈ served, i < qs.length) :
    (bump qs served).sum = qs.sum + served.length := by
  induction served using List.reverseRecOn with
  | nil => simp [bump]
  | append_singleton served i ih =>
    have hi : i < (bump qs served).length := by
      rw [bump_length]
      exact h i (by simp)
    rw [bump_append_singleton, sum_modify hi, ih fun j hj => h j (List.mem_append_left _ hj),
      List.length_append, List.length_singleton]
    push_cast
    ring

omit [LinearOrder K] [IsStrictOrderedRing K] [FloorRing K] in
theorem sum_remainders (h : xs.length = qs.length) :
    (remainders xs qs).sum = xs.sum - qs.sum := by
  induction xs generalizing qs with
  | nil =>
    cases qs with
    | nil => simp [remainders]
    | cons q qs => simp at h
  | cons x xs ih =>
    cases qs with
    | nil => simp at h
    | cons q qs =>
      have hrest := ih (by simpa using h)
      unfold remainders at hrest ⊢
      rw [List.zipWith_cons_cons, List.sum_cons, List.sum_cons, List.sum_cons, hrest, Int.cast_add]
      ring

/-- Rounding down leaves less than a unit a share. -/
theorem floors_sum_bounds (xs : List K) :
    ((floors xs).sum : K) ≤ xs.sum ∧ xs.sum ≤ (floors xs).sum + xs.length := by
  induction xs with
  | nil => simp [floors]
  | cons x xs ih =>
    have hle := Int.floor_le x
    have hlt := (Int.lt_floor_add_one x).le
    unfold floors at ih ⊢
    rw [List.map_cons, List.sum_cons, List.sum_cons, List.length_cons, Int.cast_add,
      Nat.cast_add_one]
    constructor <;> linarith

/-- Slots with a remainder, each of them once. -/
structure Served (xs : List K) (served : List ℕ) : Prop where
  nodup : served.Nodup
  remainder : ∀ i ∈ served, ∃ x, xs[i]? = some x ∧ 0 < Int.fract x

omit [IsStrictOrderedRing K] in
theorem served_nil : Served xs [] := ⟨List.nodup_nil, fun _ h => by simp at h⟩

omit [IsStrictOrderedRing K] in
theorem Served.lt_length (hs : Served xs served) {i : ℕ} (hi : i ∈ served) : i < xs.length := by
  obtain ⟨x, hx, -⟩ := hs.remainder i hi
  exact (List.getElem?_eq_some_iff.mp hx).1

omit [IsStrictOrderedRing K] in
/-- A slot that was served is below zero until the end. -/
theorem Served.getElem?_remainders (hs : Served xs served) (i : ℕ) :
    (remainders xs (bump (floors xs) served))[i]? =
      xs[i]?.map fun x => Int.fract x - if i ∈ served then 1 else 0 := by
  rw [remainders, List.getElem?_zipWith, getElem?_bump hs.nodup, floors, List.getElem?_map]
  cases hx : xs[i]? with
  | none => rfl
  | some x =>
    simp only [Option.map_some, Int.fract]
    split_ifs <;> push_cast <;> ring_nf

theorem Served.append (hs : Served xs served) {i : ℕ} {m : K}
    (hm : (remainders xs (bump (floors xs) served))[i]? = some m) (hpos : 0 < m) :
    Served xs (served ++ [i]) := by
  rw [hs.getElem?_remainders] at hm
  obtain ⟨x, hx, rfl⟩ := Option.map_eq_some_iff.mp hm
  have hlt := Int.fract_lt_one x
  have hfresh : i ∉ served := by
    intro hi
    rw [if_pos hi] at hpos
    linarith
  rw [if_neg hfresh, sub_zero] at hpos
  constructor
  · rw [List.nodup_append]
    refine ⟨hs.nodup, List.nodup_singleton i, ?_⟩
    rintro j hj k hk rfl
    exact hfresh (List.mem_singleton.mp hk ▸ hj)
  · intro j hj
    rcases List.mem_append.mp hj with hj | hj
    · exact hs.remainder j hj
    · rw [List.mem_singleton.mp hj]
      exact ⟨x, hx, hpos⟩

theorem ceil_of_fract_pos {x : K} (h : 0 < Int.fract x) : ⌈x⌉ = ⌊x⌋ + 1 := by
  rw [Int.ceil_eq_iff]
  have hx := Int.self_sub_floor x
  have hlt := Int.fract_lt_one x
  push_cast
  constructor <;> linarith

/-- Every share is rounded down or up, and an integral share is kept. -/
theorem Served.rounded (hs : Served xs served) :
    List.Forall₂ (fun x q => (q = ⌊x⌋ ∨ q = ⌈x⌉) ∧ (Int.fract x = 0 → q = ⌊x⌋)) xs
      (bump (floors xs) served) := by
  rw [List.forall₂_iff_get]
  have hlength : xs.length = (bump (floors xs) served).length := by
    rw [bump_length, floors, List.length_map]
  refine ⟨hlength, ?_⟩
  intro i hi hi'
  have hfloor : (floors xs)[i]? = some ⌊xs[i]⌋ := by
    rw [floors, List.getElem?_map, List.getElem?_eq_getElem hi]
    rfl
  have hq := getElem?_bump hs.nodup (floors xs) i
  rw [hfloor, List.getElem?_eq_getElem hi'] at hq
  simp only [Option.map_some, Option.some.injEq] at hq
  simp only [List.get_eq_getElem]
  rw [hq]
  by_cases hserved : i ∈ served
  · obtain ⟨x, hx, hpos⟩ := hs.remainder i hserved
    obtain rfl : xs[i] = x := Option.some.inj ((List.getElem?_eq_getElem hi).symm.trans hx)
    rw [if_pos hserved, ceil_of_fract_pos hpos]
    exact ⟨.inr rfl, fun hzero => absurd hzero hpos.ne'⟩
  · rw [if_neg hserved, Int.add_zero]
    exact ⟨.inl rfl, fun _ => rfl⟩

omit [IsStrictOrderedRing K] in
theorem Served.sum (hs : Served xs served) :
    (bump (floors xs) served).sum = (floors xs).sum + served.length :=
  sum_bump fun i hi => by
    rw [floors, List.length_map]
    exact hs.lt_length hi

/-- Slot `i` has the larger remainder, or the same one and comes first. -/
def Ahead (xs : List K) (i j : ℕ) : Prop :=
  ∃ x y, xs[i]? = some x ∧ xs[j]? = some y ∧
    (Int.fract y < Int.fract x ∨ Int.fract x = Int.fract y ∧ i < j)

omit [IsStrictOrderedRing K] in
theorem Ahead.asymm {i j : ℕ} (h : Ahead xs i j) : ¬ Ahead xs j i := by
  rintro ⟨y', x', hy', hx', hback⟩
  obtain ⟨x, y, hx, hy, hlead⟩ := h
  obtain rfl := Option.some.inj (hx.symm.trans hx')
  obtain rfl := Option.some.inj (hy.symm.trans hy')
  rcases hlead with hlt | ⟨heq, hij⟩ <;> rcases hback with hlt' | ⟨heq', hji⟩
  · exact lt_asymm hlt hlt'
  · exact hlt.ne heq'
  · exact hlt'.ne heq
  · exact lt_asymm hij hji

/-- The slots that were served are ahead of all others. -/
structure TopServed (xs : List K) (served : List ℕ) : Prop extends Served xs served where
  top : ∀ i ∈ served, ∀ j < xs.length, j ∉ served → Ahead xs i j

omit [IsStrictOrderedRing K] in
theorem topServed_nil : TopServed xs [] := ⟨served_nil, fun _ h => by simp at h⟩

omit [IsStrictOrderedRing K] in
/-- Two ways to serve the slots that are ahead, each as many, serve the same ones. -/
theorem TopServed.subset {served' : List ℕ} (hs : TopServed xs served) (ht : TopServed xs served')
    (hlength : served.length = served'.length) : served ⊆ served' := by
  intro i hi
  by_contra hout
  have hother : ∃ j ∈ served', j ∉ served := by
    by_contra hsub
    push Not at hsub
    have hperm := (ht.nodup.subperm hsub).perm_of_length_le hlength.le
    exact hout (hperm.mem_iff.mpr hi)
  obtain ⟨j, hj, hj'⟩ := hother
  exact (hs.top i hi j (ht.lt_length hj) hj').asymm (ht.top j hj i (hs.lt_length hi) hout)

omit [IsStrictOrderedRing K] in
theorem TopServed.bump_eq {served' : List ℕ} (hs : TopServed xs served)
    (ht : TopServed xs served') (hlength : served.length = served'.length) (qs : List ℤ) :
    bump qs served = bump qs served' := by
  refine List.ext_getElem? fun i => ?_
  have hmem : i ∈ served ↔ i ∈ served' :=
    ⟨fun h => hs.subset ht hlength h, fun h => ht.subset hs hlength.symm h⟩
  rw [getElem?_bump hs.nodup, getElem?_bump ht.nodup]
  simp only [hmem]

end HftExercises.Apportionment
