import HftExercises.Core.ListFacts
import HftExercises.Core.MachineWord
import Mathlib.Order.Bounds.Defs
import Mathlib.Order.Fin.Basic
import Mathlib.Order.MinMax

/-! # Pairs, triples and areas by two pointers

Elements are `int`s, sums `long long`s. Which pointer moves tells what can be left out: with
the larger elements on the one side every sum is too large, with the smaller ones too small,
and with every bar in between the shorter bar spans no more than it does now.
-/
namespace HftExercises.TwoPointer

/-- `while (lo < hi)`, over the sums of two of `n` elements. -/
def opposing {n : ℕ} (sum : Fin n → Fin n → Int64) (target : Int64) (lo hi : ℕ) (hhi : hi < n) :
    Bool :=
  if h : lo < hi then
    let total := sum ⟨lo, h.trans hhi⟩ ⟨hi, hhi⟩
    if total = target then true
    else if total < target then opposing sum target (lo + 1) hi hhi
    else opposing sum target lo (hi - 1) (Nat.lt_of_le_of_lt (Nat.sub_le hi 1) hhi)
  else false
termination_by hi - lo

def hasSumPair (sorted : Array Int32) (target : Int32) : Bool :=
  if h : sorted.size < 2 then false
  else opposing (fun lo hi : Fin sorted.size => sorted[lo].toInt64 + sorted[hi].toInt64)
    target.toInt64 0 (sorted.size - 1) (by omega)

/-- `while (i < a.size())` -/
def parallel (a b : Array Int32) (target : Int32) (i j : ℕ) (hj : j < b.size) : Bool :=
  if h : i < a.size then
    let sum := a[i].toInt64 + b[j].toInt64
    if sum = target.toInt64 then true
    else if sum < target.toInt64 then parallel a b target (i + 1) j hj
    else if j = 0 then false
    else parallel a b target i (j - 1) (Nat.lt_of_le_of_lt (Nat.sub_le j 1) hj)
  else false
termination_by a.size - i + j

/-- `has_sum_pair` of two vectors. -/
def hasSumPairOf (a b : Array Int32) (target : Int32) : Bool :=
  if h : 0 < a.size ∧ 0 < b.size then parallel a b target 0 (b.size - 1) (by omega) else false

/-- `for (; i + 2 < n; ++i)` -/
def tripleFrom (v : Array Int32) (target : Int32) (i : ℕ) : Bool :=
  if h : i + 2 < v.size then
    let sum := fun lo hi : Fin v.size => v[i].toInt64 + v[lo].toInt64 + v[hi].toInt64
    if opposing sum target.toInt64 (i + 1) (v.size - 1) (by omega) then true
    else tripleFrom v target (i + 1)
  else false
termination_by v.size - i

def hasTripleSum (values : Array Int32) (target : Int32) : Bool :=
  tripleFrom (values.toList.mergeSort fun x y => x ≤ y).toArray target 0

/-! ## Sums -/

section Sums
variable (x y z : Int32)

theorem toInt_bounds : -2 ^ 31 ≤ x.toInt ∧ x.toInt < 2 ^ 31 := ⟨x.le_toInt, x.toInt_lt⟩

/-- Two `int`s never overflow a `long long`. -/
theorem toInt_add : (x.toInt64 + y.toInt64).toInt = x.toInt + y.toInt := by
  have hx := toInt_bounds x
  have hy := toInt_bounds y
  have hfits : SignedWord.Fits (x.toInt64.toInt + y.toInt64.toInt) := by
    rw [Int32.toInt_toInt64, Int32.toInt_toInt64]
    exact ⟨by omega, by omega⟩
  rw [SignedWord.toInt_add hfits, Int32.toInt_toInt64, Int32.toInt_toInt64]

theorem toInt_add_add :
    (x.toInt64 + y.toInt64 + z.toInt64).toInt = x.toInt + y.toInt + z.toInt := by
  have hx := toInt_bounds x
  have hy := toInt_bounds y
  have hz := toInt_bounds z
  have hfits : SignedWord.Fits ((x.toInt64 + y.toInt64).toInt + z.toInt64.toInt) := by
    rw [toInt_add, Int32.toInt_toInt64]
    exact ⟨by omega, by omega⟩
  rw [SignedWord.toInt_add hfits, toInt_add, Int32.toInt_toInt64]

end Sums

def Ascending (v : Array Int32) : Prop := ∀ i j : Fin v.size, i ≤ j → v[i].toInt ≤ v[j].toInt

/-! ## Opposing pointers -/

/-- A sum that grows with both of its positions. -/
structure Monotone {n : ℕ} (sum : Fin n → Fin n → Int64) : Prop where
  left : ∀ i i' j, i ≤ i' → (sum i j).toInt ≤ (sum i' j).toInt
  right : ∀ i j j', j ≤ j' → (sum i j).toInt ≤ (sum i j').toInt

variable {n : ℕ} {sum : Fin n → Fin n → Int64} {target : Int64}

theorem opposing_iff (hsum : Monotone sum) (target : Int64) (lo hi : ℕ) (hhi : hi < n) :
    opposing sum target lo hi hhi = true ↔
      ∃ i j : Fin n, lo ≤ i ∧ i < j ∧ j ≤ hi ∧ (sum i j).toInt = target.toInt := by
  induction lo, hi, hhi using opposing.induct sum target with
  | case1 lo hi' hhi h total heq =>
    have hfound : opposing sum target lo hi' hhi = true := by
      rw [opposing, dif_pos h]
      exact if_pos heq
    exact iff_of_true hfound ⟨⟨lo, h.trans hhi⟩, ⟨hi', hhi⟩, le_rfl, h, le_rfl,
      congrArg _ heq⟩
  | case2 lo hi' hhi h total hne hlt ih =>
    have hstep : opposing sum target lo hi' hhi = opposing sum target (lo + 1) hi' hhi := by
      rw [opposing, dif_pos h]
      exact (if_neg hne).trans (if_pos hlt)
    rw [hstep, ih]
    constructor
    · rintro ⟨i, j, hlo, hrest⟩
      exact ⟨i, j, Nat.le_of_succ_le hlo, hrest⟩
    · rintro ⟨i, j, hlo, hij, hjhi, heq⟩
      refine ⟨i, j, Nat.lt_of_le_of_ne hlo fun hi => ?_, hij, hjhi, heq⟩
      -- with its largest partner the lower element is too small
      obtain rfl : i = ⟨lo, h.trans hhi⟩ := Fin.ext hi.symm
      have hle : (sum _ j).toInt ≤ total.toInt := hsum.right _ j ⟨hi', hhi⟩ hjhi
      have hsmall := Int64.lt_iff_toInt_lt.mp hlt
      omega
  | case3 lo hi' hhi h total hne hge ih =>
    have hstep : opposing sum target lo hi' hhi =
        opposing sum target lo (hi' - 1) (Nat.lt_of_le_of_lt (Nat.sub_le hi' 1) hhi) := by
      rw [opposing, dif_pos h]
      exact (if_neg hne).trans (if_neg hge)
    rw [hstep, ih]
    constructor
    · rintro ⟨i, j, hlo, hij, hjhi, heq⟩
      exact ⟨i, j, hlo, hij, hjhi.trans (Nat.sub_le hi' 1), heq⟩
    · rintro ⟨i, j, hlo, hij, hjhi, heq⟩
      refine ⟨i, j, hlo, hij, Nat.le_sub_one_of_lt (Nat.lt_of_le_of_ne hjhi fun hj => ?_), heq⟩
      -- with its smallest partner the upper element is too large
      obtain rfl : j = ⟨hi', hhi⟩ := Fin.ext hj
      have hle : total.toInt ≤ (sum i _).toInt := hsum.left ⟨lo, h.trans hhi⟩ i _ hlo
      have hlarge := mt Int64.lt_iff_toInt_lt.mpr hge
      have hother := mt Int64.toInt_inj.mp hne
      omega
  | case4 lo hi' hhi h =>
    have hstop : opposing sum target lo hi' hhi = false := by rw [opposing, dif_neg h]
    rw [hstop]
    refine iff_of_false Bool.false_ne_true ?_
    rintro ⟨i, j, hlo, hij, hjhi, -⟩
    exact h (hlo.trans_lt (Nat.lt_of_lt_of_le hij hjhi))

theorem hasSumPair_iff {sorted : Array Int32} (h : Ascending sorted) (target : Int32) :
    hasSumPair sorted target = true ↔ ∃ i j : Fin sorted.size, i ≠ j ∧
      sorted[i].toInt + sorted[j].toInt = target.toInt := by
  have hsum : Monotone fun lo hi : Fin sorted.size => sorted[lo].toInt64 + sorted[hi].toInt64 := by
    constructor
    · intro i i' j hi
      rw [toInt_add, toInt_add]
      exact Int.add_le_add_right (h i i' hi) _
    · intro i j j' hj
      rw [toInt_add, toInt_add]
      exact Int.add_le_add_left (h j j' hj) _
  rw [hasSumPair]
  split_ifs with hsmall
  · refine iff_of_false not_false ?_
    rintro ⟨i, j, hij, -⟩
    exact hij (Fin.ext (by omega))
  · rw [opposing_iff hsum]
    simp only [toInt_add, Int32.toInt_toInt64]
    constructor
    · rintro ⟨i, j, -, hij, -, heq⟩
      exact ⟨i, j, hij.ne, heq⟩
    · rintro ⟨i, j, hij, heq⟩
      rcases lt_or_gt_of_ne hij with hij | hij
      · exact ⟨i, j, Nat.zero_le _, hij, Nat.le_sub_one_of_lt j.isLt, heq⟩
      · exact ⟨j, i, Nat.zero_le _, hij, Nat.le_sub_one_of_lt i.isLt, by omega⟩

/-! ## Parallel pointers -/

/-- With every later element the sum is too large as well. -/
theorem too_large {a : Array Int32} (ha : Ascending a) {i : ℕ} {h : i < a.size} {y target : Int32}
    (hne : ¬a[i].toInt64 + y.toInt64 = target.toInt64)
    (hge : ¬a[i].toInt64 + y.toInt64 < target.toInt64) {k : Fin a.size} (hk : i ≤ k) :
    ¬a[k].toInt + y.toInt = target.toInt := by
  have hle : a[i].toInt ≤ a[k].toInt := ha ⟨i, h⟩ k hk
  have hlarge := mt Int64.lt_iff_toInt_lt.mpr hge
  have hother := mt Int64.toInt_inj.mp hne
  rw [toInt_add, Int32.toInt_toInt64] at hlarge hother
  omega

theorem parallel_iff {a b : Array Int32} (ha : Ascending a) (hb : Ascending b) (target : Int32)
    (i j : ℕ) (hj : j < b.size) : parallel a b target i j hj = true ↔
      ∃ (k : Fin a.size) (l : Fin b.size), i ≤ k ∧ l ≤ j ∧
        a[k].toInt + b[l].toInt = target.toInt := by
  induction i, j, hj using parallel.induct a b target with
  | case1 i j hj h sum heq =>
    have hfound : parallel a b target i j hj = true := by
      rw [parallel, dif_pos h]
      exact if_pos heq
    refine iff_of_true hfound ⟨⟨i, h⟩, ⟨j, hj⟩, le_rfl, le_rfl, ?_⟩
    exact (toInt_add a[i] b[j]).symm.trans ((congrArg _ heq).trans target.toInt_toInt64)
  | case2 i j hj h sum hne hlt ih =>
    have hstep : parallel a b target i j hj = parallel a b target (i + 1) j hj := by
      rw [parallel, dif_pos h]
      exact (if_neg hne).trans (if_pos hlt)
    rw [hstep, ih]
    constructor
    · rintro ⟨k, l, hk, hrest⟩
      exact ⟨k, l, Nat.le_of_succ_le hk, hrest⟩
    · rintro ⟨k, l, hk, hl, heq⟩
      refine ⟨k, l, Nat.lt_of_le_of_ne hk fun hki => ?_, hl, heq⟩
      obtain rfl : k = ⟨i, h⟩ := Fin.ext hki.symm
      have hle : b[l].toInt ≤ b[j].toInt := hb l ⟨j, hj⟩ hl
      have hsmall := Int64.lt_iff_toInt_lt.mp hlt
      have hsum : a[i].toInt + b[l].toInt = target.toInt := heq
      rw [toInt_add, Int32.toInt_toInt64] at hsmall
      omega
  | case3 i h hj sum hne hge =>
    have hstop : parallel a b target i 0 hj = false := by
      rw [parallel, dif_pos h]
      exact (if_neg hne).trans ((if_neg hge).trans (if_pos rfl))
    rw [hstop]
    refine iff_of_false Bool.false_ne_true ?_
    rintro ⟨k, l, hk, hl, heq⟩
    obtain rfl : l = ⟨0, hj⟩ := Fin.ext (Nat.le_zero.mp hl)
    exact too_large ha hne hge hk heq
  | case4 i j hj h sum hne hge hzero ih =>
    have hstep : parallel a b target i j hj =
        parallel a b target i (j - 1) (Nat.lt_of_le_of_lt (Nat.sub_le j 1) hj) := by
      rw [parallel, dif_pos h]
      exact (if_neg hne).trans ((if_neg hge).trans (if_neg hzero))
    rw [hstep, ih]
    constructor
    · rintro ⟨k, l, hk, hl, heq⟩
      exact ⟨k, l, hk, hl.trans (Nat.sub_le j 1), heq⟩
    · rintro ⟨k, l, hk, hl, heq⟩
      refine ⟨k, l, hk, Nat.le_sub_one_of_lt (Nat.lt_of_le_of_ne hl fun hlj => ?_), heq⟩
      obtain rfl : l = ⟨j, hj⟩ := Fin.ext hlj
      exact too_large ha hne hge hk heq
  | case5 i j hj h =>
    have hstop : parallel a b target i j hj = false := by rw [parallel, dif_neg h]
    rw [hstop]
    refine iff_of_false Bool.false_ne_true ?_
    rintro ⟨k, l, hk, -⟩
    exact h (hk.trans_lt k.isLt)

theorem hasSumPairOf_iff {a b : Array Int32} (ha : Ascending a) (hb : Ascending b)
    (target : Int32) : hasSumPairOf a b target = true ↔
      ∃ (i : Fin a.size) (j : Fin b.size), a[i].toInt + b[j].toInt = target.toInt := by
  rw [hasSumPairOf]
  split_ifs with h
  · rw [parallel_iff ha hb]
    constructor
    · rintro ⟨i, j, -, -, heq⟩
      exact ⟨i, j, heq⟩
    · rintro ⟨i, j, heq⟩
      exact ⟨i, j, Nat.zero_le _, Nat.le_sub_one_of_lt j.isLt, heq⟩
  · refine iff_of_false not_false ?_
    rintro ⟨i, j, -⟩
    exact h ⟨Nat.zero_lt_of_lt i.isLt, Nat.zero_lt_of_lt j.isLt⟩

/-! ## Triples -/

/-- Three distinct positions sum to `t`. -/
def HasTriple (v : Array Int32) (t : ℤ) : Prop :=
  ∃ i j k : Fin v.size, i ≠ j ∧ i ≠ k ∧ j ≠ k ∧ v[i].toInt + v[j].toInt + v[k].toInt = t

/-- The sweep for one first element. -/
theorem opposing_triple_iff {v : Array Int32} (h : Ascending v) (target : Int32) {m : ℕ}
    (hm : m < v.size) (hhi : v.size - 1 < v.size) :
    opposing (fun lo hi : Fin v.size => v[m].toInt64 + v[lo].toInt64 + v[hi].toInt64)
      target.toInt64 (m + 1) (v.size - 1) hhi = true ↔ ∃ j k : Fin v.size, m < j ∧ j < k ∧
        v[m].toInt + v[j].toInt + v[k].toInt = target.toInt := by
  have hsum : Monotone fun lo hi : Fin v.size =>
      v[m].toInt64 + v[lo].toInt64 + v[hi].toInt64 := by
    constructor
    · intro i i' j hi
      have hle := h i i' hi
      rw [toInt_add_add, toInt_add_add]
      omega
    · intro i j j' hj
      have hle := h j j' hj
      rw [toInt_add_add, toInt_add_add]
      omega
  rw [opposing_iff hsum]
  simp only [toInt_add_add, Int32.toInt_toInt64]
  constructor
  · rintro ⟨j, k, hj, hjk, -, heq⟩
    exact ⟨j, k, hj, hjk, heq⟩
  · rintro ⟨j, k, hj, hjk, heq⟩
    exact ⟨j, k, hj, hjk, Nat.le_sub_one_of_lt k.isLt, heq⟩

theorem tripleFrom_iff {v : Array Int32} (h : Ascending v) (target : Int32) (m : ℕ) :
    tripleFrom v target m = true ↔ ∃ i j k : Fin v.size, m ≤ i ∧ i < j ∧ j < k ∧
      v[i].toInt + v[j].toInt + v[k].toInt = target.toInt := by
  induction m using tripleFrom.induct v target with
  | case1 m hm sum hfound =>
    have htrue : tripleFrom v target m = true := by
      rw [tripleFrom, dif_pos hm]
      exact if_pos hfound
    obtain ⟨j, k, hj, hjk, heq⟩ := (opposing_triple_iff h target _ _).mp hfound
    exact iff_of_true htrue ⟨⟨m, by omega⟩, j, k, le_rfl, hj, hjk, heq⟩
  | case2 m hm sum hnot ih =>
    have hstep : tripleFrom v target m = tripleFrom v target (m + 1) := by
      rw [tripleFrom, dif_pos hm]
      exact if_neg hnot
    rw [hstep, ih]
    constructor
    · rintro ⟨i, j, k, hi, hrest⟩
      exact ⟨i, j, k, Nat.le_of_succ_le hi, hrest⟩
    · rintro ⟨i, j, k, hi, hij, hjk, heq⟩
      refine ⟨i, j, k, Nat.lt_of_le_of_ne hi fun him => hnot ?_, hij, hjk, heq⟩
      obtain rfl : i = ⟨m, Nat.lt_of_le_of_lt (Nat.le_add_right m 2) hm⟩ := Fin.ext him.symm
      exact (opposing_triple_iff h target _ _).mpr ⟨j, k, hij, hjk, heq⟩
  | case3 m hm =>
    have hstop : tripleFrom v target m = false := by rw [tripleFrom, dif_neg hm]
    rw [hstop]
    refine iff_of_false Bool.false_ne_true ?_
    rintro ⟨i, j, k, hi, hij, hjk, -⟩
    have hk := k.isLt
    rw [Fin.lt_def] at hij hjk
    omega

/-- Three distinct positions may be taken in ascending order. -/
theorem hasTriple_iff {v : Array Int32} {t : ℤ} : HasTriple v t ↔ ∃ i j k : Fin v.size,
    i < j ∧ j < k ∧ v[i].toInt + v[j].toInt + v[k].toInt = t := by
  constructor
  · rintro ⟨i, j, k, hij, hik, hjk, heq⟩
    rcases lt_or_gt_of_ne hij with hij | hij <;> rcases lt_or_gt_of_ne hik with hik | hik <;>
      rcases lt_or_gt_of_ne hjk with hjk | hjk
    · exact ⟨i, j, k, hij, hjk, heq⟩
    · exact ⟨i, k, j, hik, hjk, by omega⟩
    · exact absurd (hij.trans hjk) (not_lt.mpr hik.le)
    · exact ⟨k, i, j, hik, hij, by omega⟩
    · exact ⟨j, i, k, hij, hik, by omega⟩
    · exact absurd (hjk.trans hij) (not_lt.mpr hik.le)
    · exact ⟨j, k, i, hjk, hik, by omega⟩
    · exact ⟨k, j, i, hjk, hij, by omega⟩
  · rintro ⟨i, j, k, hij, hjk, heq⟩
    exact ⟨i, j, k, hij.ne, (hij.trans hjk).ne, hjk.ne, heq⟩

theorem hasTriple_of_perm {v w : Array Int32} (h : v.toList.Perm w.toList) {t : ℤ}
    (hv : HasTriple v t) : HasTriple w t := by
  obtain ⟨f, hf, hget⟩ := exists_injective_of_perm h
  have hmove : ∀ i : Fin v.size, ∃ k : Fin w.size, k.val = f i ∧ w[k] = v[i] := by
    intro i
    have hi : w[f i]? = some v[i] := by
      rw [← Array.getElem?_toList, hget, Array.getElem?_toList]
      exact Array.getElem?_eq_getElem i.isLt
    obtain ⟨hlt, heq⟩ := Array.getElem?_eq_some_iff.mp hi
    exact ⟨⟨f i, hlt⟩, rfl, heq⟩
  obtain ⟨i, j, k, hij, hik, hjk, hsum⟩ := hv
  obtain ⟨i', hi, hvi⟩ := hmove i
  obtain ⟨j', hj, hvj⟩ := hmove j
  obtain ⟨k', hk, hvk⟩ := hmove k
  have hne : ∀ {a b : Fin v.size} {a' b' : Fin w.size}, a'.val = f a → b'.val = f b → a ≠ b →
      a' ≠ b' := by
    rintro a b a' b' ha hb hab rfl
    exact hab (Fin.ext (hf (ha.symm.trans hb)))
  exact ⟨i', j', k', hne hi hj hij, hne hi hk hik, hne hj hk hjk, by rw [hvi, hvj, hvk, hsum]⟩

theorem ascending_mergeSort (l : List Int32) :
    Ascending (l.mergeSort fun x y => x ≤ y).toArray := by
  have hsorted : (l.mergeSort fun x y => x ≤ y).Pairwise fun x y => decide (x ≤ y) = true := by
    refine List.pairwise_mergeSort ?_ ?_ l
    · intro x y z hxy hyz
      rw [decide_eq_true_eq, Int32.le_iff_toInt_le] at *
      exact hxy.trans hyz
    · intro x y
      rw [Bool.or_eq_true, decide_eq_true_eq, decide_eq_true_eq, Int32.le_iff_toInt_le,
        Int32.le_iff_toInt_le]
      exact le_total _ _
  intro i j hij
  rcases hij.eq_or_lt with rfl | hlt
  · exact le_rfl
  · have hpair := List.pairwise_iff_getElem.mp hsorted i j i.isLt j.isLt hlt
    exact Int32.le_iff_toInt_le.mp (of_decide_eq_true hpair)

theorem hasTripleSum_iff (values : Array Int32) (target : Int32) :
    hasTripleSum values target = true ↔ HasTriple values target.toInt := by
  have hperm : (values.toList.mergeSort fun x y => x ≤ y).Perm values.toList :=
    List.mergeSort_perm _ _
  rw [hasTripleSum, tripleFrom_iff (ascending_mergeSort _)]
  constructor
  · rintro ⟨i, j, k, -, hrest⟩
    exact hasTriple_of_perm hperm (hasTriple_iff.mpr ⟨i, j, k, hrest⟩)
  · intro h
    obtain ⟨i, j, k, hrest⟩ := hasTriple_iff.mp (hasTriple_of_perm hperm.symm h)
    exact ⟨i, j, k, Nat.zero_le _, hrest⟩

/-- The three searches find what there is. -/
theorem twoPointerSums_iff :
    (∀ (sorted : Array Int32) (target : Int32), Ascending sorted →
      (hasSumPair sorted target = true ↔ ∃ i j : Fin sorted.size, i ≠ j ∧
        sorted[i].toInt + sorted[j].toInt = target.toInt)) ∧
    (∀ (a b : Array Int32) (target : Int32), Ascending a → Ascending b →
      (hasSumPairOf a b target = true ↔ ∃ (i : Fin a.size) (j : Fin b.size),
        a[i].toInt + b[j].toInt = target.toInt)) ∧
    ∀ (values : Array Int32) (target : Int32),
      hasTripleSum values target = true ↔ HasTriple values target.toInt :=
  ⟨fun _ target h => hasSumPair_iff h target, fun _ _ target ha hb => hasSumPairOf_iff ha hb target,
    hasTripleSum_iff⟩

theorem twoPointerSums_iff_small : hasSumPair #[1, 3, 4] 5 = true :=
  (twoPointerSums_iff.1 #[1, 3, 4] 5 (by rw [Ascending]; decide)).mpr
    ⟨⟨0, by decide⟩, ⟨2, by decide⟩, by decide, by decide⟩

/-! ## The largest area between two bars -/

section MaxArea

/-- `int` multiplication. -/
def mulInt (w h : Int32) : Option Int32 :=
  if -2 ^ 31 ≤ w.toInt * h.toInt ∧ w.toInt * h.toInt < 2 ^ 31 then some (w * h) else none

/-- `while (i < j)` -/
def maxAreaFrom (heights : Array Int32) (i j : ℕ) (hj : j < heights.size) (best : Int32) :
    Option Int32 :=
  if h : i < j then
    let w := Int32.ofNat (j - i)
    let height := min heights[i] heights[j]
    match mulInt w height with
    | none => none
    | some area =>
      if heights[i] < heights[j] then maxAreaFrom heights (i + 1) j hj (max best area)
      else maxAreaFrom heights i (j - 1) (Nat.lt_of_le_of_lt (Nat.sub_le j 1) hj) (max best area)
  else some best
termination_by j - i

def maxArea (heights : Array Int32) : Option Int32 :=
  if h : heights.size < 2 then some 0
  else maxAreaFrom heights 0 (heights.size - 1) (by omega) 0

/-! ## Areas -/

variable {heights : Array Int32}

/-- The exact area between two bars. -/
def area (heights : Array Int32) (i j : Fin heights.size) : ℤ :=
  (j.val - i.val : ℤ) * min heights[i].toInt heights[j].toInt

theorem toInt_min (x y : Int32) : (min x y).toInt = min x.toInt y.toInt := by
  change (if x ≤ y then x else y).toInt = _
  rw [apply_ite Int32.toInt, min_def]
  simp only [Int32.le_iff_toInt_le]

theorem toInt_max (x y : Int32) : (max x y).toInt = max x.toInt y.toInt := by
  change (if x ≤ y then y else x).toInt = _
  rw [apply_ite Int32.toInt, max_def]
  simp only [Int32.le_iff_toInt_le]

/-- The product of the code is the exact area. -/
theorem mulInt_area (hlen : heights.size < 2 ^ 31) {i j : Fin heights.size} (hij : i < j)
    (hle : 0 ≤ area heights i j) (hlt : area heights i j < 2 ^ 31) :
    ∃ a, mulInt (Int32.ofNat (j - i)) (min heights[i] heights[j]) = some a ∧
      a.toInt = area heights i j := by
  have hj := j.isLt
  have hwidth : (Int32.ofNat (j - i)).toInt = (j.val - i.val : ℤ) := by
    rw [Int32.toInt_ofNat_of_lt (by omega), Nat.cast_sub hij.le]
  have hprod : (Int32.ofNat (j - i)).toInt * (min heights[i] heights[j]).toInt =
      area heights i j := by
    rw [hwidth, toInt_min, area]
  refine ⟨_, if_pos (by rw [hprod]; omega), ?_⟩
  rw [Int32.toInt_mul, hprod, Int.bmod_eq_of_le (by omega) (by omega)]

/-- Bars are not below the ground. -/
def Standing (heights : Array Int32) : Prop := ∀ k : Fin heights.size, 0 ≤ heights[k].toInt

theorem Standing.area_nonneg (h : Standing heights) {i j : Fin heights.size} (hij : i < j) :
    0 ≤ area heights i j :=
  Int.mul_nonneg (by omega) (le_min (h i) (h j))

/-- Between the same or closer bars, the lower one of which is no higher, the area is no larger. -/
theorem Standing.area_le (h : Standing heights) {i j x y : Fin heights.size} (hij : i < j)
    (hx : i ≤ x) (hy : y ≤ j)
    (hmin : min heights[x].toInt heights[y].toInt ≤ min heights[i].toInt heights[j].toInt) :
    area heights x y ≤ area heights i j := by
  refine Int.mul_le_mul ?_ hmin (le_min (h x) (h y)) ?_ <;> omega

/-! ## The walk inward -/

/-- What has been left out spans no more than the best area, and that is one of the areas. -/
structure Walked (heights : Array Int32) (i j : ℕ) (best : ℤ) : Prop where
  passed : ∀ x y : Fin heights.size, x < y → x < i ∨ j < y → area heights x y ≤ best
  attained : best = 0 ∨ ∃ x y : Fin heights.size, x < y ∧ area heights x y = best

section Walk
variable {i j : Fin heights.size} {best : ℤ}

theorem Walked.attained_max (h : Walked heights i j best) (hij : i < j) :
    max best (area heights i j) = 0 ∨
      ∃ x y : Fin heights.size, x < y ∧ area heights x y = max best (area heights i j) := by
  rcases max_choice best (area heights i j) with hmax | hmax
  · rw [hmax]
    exact h.attained
  · rw [hmax]
    exact .inr ⟨i, j, hij, rfl⟩

/-- The left bar is the shorter one, and spans no more with any bar before `j`. -/
theorem Walked.left (h : Walked heights i j best) (hstand : Standing heights) (hij : i < j)
    (hlow : heights[i].toInt < heights[j].toInt) :
    Walked heights (i + 1) j (max best (area heights i j)) where
  attained := h.attained_max hij
  passed x y hxy hout := by
    by_cases hpassed : x < i ∨ j < y
    · exact (h.passed x y hxy hpassed).trans (le_max_left _ _)
    · obtain rfl : x = i := Fin.ext (by omega)
      refine (hstand.area_le hij le_rfl (by omega) ?_).trans (le_max_right _ _)
      rw [min_eq_left hlow.le]
      exact min_le_left _ _

/-- The right bar is not the higher one, and spans no more with any bar after `i`. -/
theorem Walked.right (h : Walked heights i j best) (hstand : Standing heights) (hij : i < j)
    (hlow : heights[j].toInt ≤ heights[i].toInt) :
    Walked heights i (j - 1) (max best (area heights i j)) where
  attained := h.attained_max hij
  passed x y hxy hout := by
    by_cases hpassed : x < i ∨ j < y
    · exact (h.passed x y hxy hpassed).trans (le_max_left _ _)
    · obtain rfl : y = j := Fin.ext (by omega)
      refine (hstand.area_le hij (by omega) le_rfl ?_).trans (le_max_right _ _)
      rw [min_eq_right hlow]
      exact min_le_right _ _

end Walk

/-- The largest area is an `int`. -/
def AreasFit (heights : Array Int32) : Prop :=
  ∀ i j : Fin heights.size, i < j → area heights i j < 2 ^ 31

/-- No round overflows. -/
theorem AreasFit.mulInt_eq (h : AreasFit heights) (hlen : heights.size < 2 ^ 31)
    (hstand : Standing heights) {i j : ℕ} (hij : i < j) (hj : j < heights.size) :
    ∃ a, mulInt (Int32.ofNat (j - i)) (min heights[i] heights[j]) = some a ∧
      a.toInt = area heights ⟨i, hij.trans hj⟩ ⟨j, hj⟩ :=
  mulInt_area (i := ⟨i, hij.trans hj⟩) (j := ⟨j, hj⟩) hlen hij (hstand.area_nonneg hij)
    (h _ _ hij)

theorem maxAreaFrom_spec (hlen : heights.size < 2 ^ 31) (hstand : Standing heights)
    (hfit : AreasFit heights) (i j : ℕ) (hj : j < heights.size) (best : Int32)
    (h : Walked heights i j best.toInt) :
    ∃ r, maxAreaFrom heights i j hj best = some r ∧
      (∀ x y : Fin heights.size, x < y → area heights x y ≤ r.toInt) ∧
      (r.toInt = 0 ∨ ∃ x y : Fin heights.size, x < y ∧ area heights x y = r.toInt) := by
  induction i, j, hj, best using maxAreaFrom.induct heights with
  | case1 i j hj best hij w height hnone =>
    obtain ⟨a, ha, -⟩ := hfit.mulInt_eq hlen hstand hij hj
    cases hnone.symm.trans ha
  | case2 i j hj best hij w height a harea hlow ih =>
    obtain ⟨a', ha, hexact⟩ := hfit.mulInt_eq hlen hstand hij hj
    obtain rfl : a = a' := Option.some.inj (harea.symm.trans ha)
    have hstep : maxAreaFrom heights i j hj best =
        maxAreaFrom heights (i + 1) j hj (max best a) := by
      rw [maxAreaFrom, dif_pos hij]
      simp only [ha]
      exact if_pos hlow
    rw [hstep]
    refine ih ?_
    rw [toInt_max, hexact]
    exact h.left (i := ⟨i, hij.trans hj⟩) (j := ⟨j, hj⟩) hstand hij (Int32.lt_iff_toInt_lt.mp hlow)
  | case3 i j hj best hij w height a harea hlow ih =>
    obtain ⟨a', ha, hexact⟩ := hfit.mulInt_eq hlen hstand hij hj
    obtain rfl : a = a' := Option.some.inj (harea.symm.trans ha)
    have hstep : maxAreaFrom heights i j hj best = maxAreaFrom heights i (j - 1)
        (Nat.lt_of_le_of_lt (Nat.sub_le j 1) hj) (max best a) := by
      rw [maxAreaFrom, dif_pos hij]
      simp only [ha]
      exact if_neg hlow
    rw [hstep]
    refine ih ?_
    rw [toInt_max, hexact]
    refine h.right (i := ⟨i, hij.trans hj⟩) (j := ⟨j, hj⟩) hstand hij ?_
    exact not_lt.mp (mt Int32.lt_iff_toInt_lt.mpr hlow)
  | case4 i j hj best hij =>
    refine ⟨best, ?_, fun x y hxy => h.passed x y hxy (by omega), h.attained⟩
    rw [maxAreaFrom, dif_neg hij]

/-- No product overflows, and the result is the maximum. -/
theorem maxArea_isGreatest (heights : Array Int32) (hlen : heights.size < 2 ^ 31)
    (hstand : Standing heights) (hfit : AreasFit heights) :
    ∃ r, maxArea heights = some r ∧ (heights.size < 2 → r = 0) ∧ (2 ≤ heights.size →
      IsGreatest {a | ∃ i j : Fin heights.size, i < j ∧ area heights i j = a} r.toInt) := by
  by_cases hsmall : heights.size < 2
  · exact ⟨0, dif_pos hsmall, fun _ => rfl, fun h => absurd hsmall (not_lt.mpr h)⟩
  · have hstart : Walked heights 0 (heights.size - 1) (0 : Int32).toInt := by
      refine ⟨fun x y _ hout => ?_, .inl rfl⟩
      have hy := y.isLt
      omega
    obtain ⟨r, hr, hall, hattained⟩ := maxAreaFrom_spec hlen hstand hfit 0 _ (by omega) 0 hstart
    refine ⟨r, (dif_neg hsmall).trans hr, fun h => absurd h hsmall, fun _ => ⟨?_, ?_⟩⟩
    · rcases hattained with hzero | hattained
      · -- two bars span nothing, so any two do
        let x : Fin heights.size := ⟨0, by omega⟩
        let y : Fin heights.size := ⟨1, by omega⟩
        have hxy : x < y := Nat.zero_lt_one
        have hle := hall x y hxy
        have hge := hstand.area_nonneg hxy
        exact ⟨x, y, hxy, by omega⟩
      · exact hattained
    · rintro a ⟨i, j, hij, rfl⟩
      exact hall i j hij

theorem maxArea_isGreatest_small : ∃ r, maxArea #[1, 8, 6] = some r ∧ 6 ≤ r.toInt := by
  obtain ⟨r, hr, -, hmax⟩ := maxArea_isGreatest #[1, 8, 6] (by decide) (by rw [Standing]; decide)
    (by rw [AreasFit]; decide)
  exact ⟨r, hr, (hmax (by decide)).2 ⟨⟨1, by decide⟩, ⟨2, by decide⟩, by decide, by decide⟩⟩

end MaxArea

end HftExercises.TwoPointer
