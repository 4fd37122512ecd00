import HftExercises.Core.Execution
import HftExercises.Core.ListFacts
import Mathlib.Data.List.Basic

/-! # Merging two feeds and dropping repeated prints

The merge walks both vectors with one index each and takes the smaller front. The
duplicates are dropped in place: a slow index writes what a fast one reads.
-/
namespace HftExercises.TwoPointer

/-- The indices of a merge and its output. -/
structure Merge where
  i : ℕ
  j : ℕ
  out : List Int32

/-- `while (i < a.size() && j < b.size())` -/
def mergeGuard (a b : List Int32) (m : Merge) : Bool := m.i < a.length && m.j < b.length

def mergeBody (a b : List Int32) (m : Merge) : Option Merge := do
  let x ← a[m.i]?
  let y ← b[m.j]?
  if x ≤ y then return { m with i := m.i + 1, out := m.out ++ [x] }
  else return { m with j := m.j + 1, out := m.out ++ [y] }

/-- `while (i < a.size()) out.push_back(a[i++])` -/
def drain (v : List Int32) (s : ℕ × List Int32) : Option (ℕ × List Int32) :=
  whileLoop (fun s => s.1 < v.length) (fun s => v[s.1]?.map fun x => (s.1 + 1, s.2 ++ [x])) v.length s

def mergeSorted (a b : List Int32) : Option (List Int32) := do
  let m ← whileLoop (mergeGuard a b) (mergeBody a b) (a.length + b.length) ⟨0, 0, []⟩
  let left ← drain a (m.i, m.out)
  let right ← drain b (m.j, left.2)
  return right.2

/-- The vector and the size of what is written of it. -/
structure Compaction where
  sorted : List Int32
  w : ℕ

/-- One round of `for (r = 1; r < sorted.size(); ++r)`. -/
def compactRound (c : Compaction) (r : ℕ) : Option Compaction := do
  let x ← c.sorted[r]?
  let y ← c.sorted[c.w - 1]?
  if x ≠ y then
    if c.w < c.sorted.length then return ⟨c.sorted.set c.w x, c.w + 1⟩ else none
  else return c

/-- The vector after the call, with the new logical size. -/
def removeDuplicates (sorted : List Int32) : Option (List Int32 × ℕ) :=
  if sorted.length = 0 then some (sorted, 0)
  else ((List.range (sorted.length - 1)).foldlM (fun c i => compactRound c (i + 1)) ⟨sorted, 1⟩).map
    fun c => (c.sorted, c.w)

/-- `while (i < j)`, over the characters of a text. -/
def mirrored (text : List UInt8) (i j : ℕ) : Option Bool :=
  if i < j then do
    let x ← text[i]?
    let y ← text[j]?
    if x ≠ y then return false else mirrored text (i + 1) (j - 1)
  else some true
termination_by j - i

def isPalindrome (text : List UInt8) : Option Bool :=
  if text.length < 2 then some true else mirrored text 0 (text.length - 1)

/-! ## The merge -/

section Merging
variable {a b : List Int32} {m : Merge}

/-- What is written and what is left make up the merge of the two vectors. -/
structure Merge.Splits (a b : List Int32) (m : Merge) : Prop where
  out : m.out ++ (a.drop m.i).merge (b.drop m.j) (fun x y => decide (x ≤ y)) =
    a.merge b fun x y => decide (x ≤ y)
  left : m.i ≤ a.length
  right : m.j ≤ b.length

theorem mergeBody_splits (h : m.Splits a b) (hg : mergeGuard a b m = true) :
    ∃ m', (∀ _ : Unit, mergeBody a b m = some m') ∧ m'.Splits a b ∧
      a.length + b.length - (m'.i + m'.j) < a.length + b.length - (m.i + m.j) := by
  obtain ⟨hout, hia, hjb⟩ := h
  simp only [mergeGuard, Bool.and_eq_true, decide_eq_true_eq] at hg
  obtain ⟨hi, hj⟩ := hg
  rw [List.drop_eq_getElem_cons hi, List.drop_eq_getElem_cons hj] at hout
  by_cases hle : a[m.i] ≤ b[m.j]
  · refine ⟨⟨m.i + 1, m.j, m.out ++ [a[m.i]]⟩, fun _ => ?_, ⟨?_, hi, hjb⟩, by dsimp only; omega⟩
    · simp [mergeBody, List.getElem?_eq_getElem hi, List.getElem?_eq_getElem hj, hle]
    · rw [List.cons_merge_cons_pos _ _ _ (by simpa using hle)] at hout
      rw [List.drop_eq_getElem_cons hj, ← hout, List.append_assoc]
      rfl
  · refine ⟨⟨m.i, m.j + 1, m.out ++ [b[m.j]]⟩, fun _ => ?_, ⟨?_, hia, hj⟩, by dsimp only; omega⟩
    · simp [mergeBody, List.getElem?_eq_getElem hi, List.getElem?_eq_getElem hj, hle]
    · rw [List.cons_merge_cons_neg _ _ _ (by simpa using hle)] at hout
      rw [List.drop_eq_getElem_cons hi, ← hout, List.append_assoc]
      rfl

theorem drainStep (v out : List Int32) (s : ℕ × List Int32)
    (h : s.1 ≤ v.length ∧ s.2 ++ v.drop s.1 = out) (hg : decide (s.1 < v.length) = true) :
    ∃ s', (∀ _ : Unit, (v[s.1]?.map fun x => (s.1 + 1, s.2 ++ [x])) = some s') ∧
      (s'.1 ≤ v.length ∧ s'.2 ++ v.drop s'.1 = out) ∧ v.length - s'.1 < v.length - s.1 := by
  have hlt : s.1 < v.length := by simpa using hg
  refine ⟨(s.1 + 1, s.2 ++ [v[s.1]]), fun _ => ?_, ⟨hlt, ?_⟩, by dsimp only; omega⟩
  · rw [List.getElem?_eq_getElem hlt, Option.map_some]
  · rw [← h.2, List.drop_eq_getElem_cons hlt, List.append_assoc]
    rfl

/-- A drain copies the rest of its vector. -/
theorem drain_eq {v out : List Int32} {i : ℕ} (hi : i ≤ v.length) :
    drain v (i, out) = some (v.length, out ++ v.drop i) := by
  obtain ⟨⟨i', out'⟩, hrun, ⟨hle, hout⟩, hstop⟩ := whileLoop_total (n := v.length)
    (fun _ : Unit => fun s => v[s.1]?.map fun x => (s.1 + 1, s.2 ++ [x]))
    (fun s => s.1 ≤ v.length ∧ s.2 ++ v.drop s.1 = out ++ v.drop i) (fun s => v.length - s.1)
    (drainStep v _) (s := (i, out)) (Nat.sub_le _ _) ⟨hi, rfl⟩
  have hend : i' = v.length := by
    simp only [decide_eq_false_iff_not] at hstop
    omega
  rw [hend, List.drop_length, List.append_nil] at hout
  rw [drain, hrun (), hend]
  exact congrArg (fun out => some (v.length, out)) hout

/-- The code computes the merge of two lists, sorted or not. -/
theorem mergeSorted_eq (a b : List Int32) :
    mergeSorted a b = some (a.merge b fun x y => decide (x ≤ y)) := by
  obtain ⟨m, hrun, hsplits, hstop⟩ := whileLoop_total (fun _ : Unit => mergeBody a b)
    (Merge.Splits a b) (fun m => a.length + b.length - (m.i + m.j))
    (fun m hm hg => mergeBody_splits hm hg) (n := a.length + b.length) (s := ⟨0, 0, []⟩)
    (Nat.sub_le _ _) ⟨rfl, Nat.zero_le _, Nat.zero_le _⟩
  simp only [mergeSorted, hrun (), Option.bind_eq_bind, Option.bind_some, drain_eq hsplits.left,
    drain_eq hsplits.right]
  have hend : (a.drop m.i).merge (b.drop m.j) (fun x y => decide (x ≤ y)) =
      a.drop m.i ++ b.drop m.j := by
    simp only [mergeGuard, Bool.and_eq_false_iff, decide_eq_false_iff_not, not_lt] at hstop
    rcases hstop with hstop | hstop
    · rw [List.drop_eq_nil_of_le hstop, List.nil_merge, List.nil_append]
    · rw [List.drop_eq_nil_of_le hstop, List.merge_right, List.append_nil]
  rw [← hsplits.out, hend, List.append_assoc]
  rfl

end Merging

/-! ## The duplicates -/

section Compacting
variable {v : List Int32} {r : ℕ} {c : Compaction} {x y z : Int32}

def Ascends (v : List Int32) : Prop := v.Pairwise (· ≤ ·)

theorem lt_of_le_of_ne (h : x ≤ y) (hne : x ≠ y) : x < y := by
  rw [Int32.le_iff_toInt_le] at h
  rw [ne_eq, ← Int32.toInt_inj] at hne
  rw [Int32.lt_iff_toInt_lt]
  omega

theorem lt_of_le_of_lt' (h : x ≤ y) (h' : y < z) : x < z := by
  rw [Int32.le_iff_toInt_le] at h
  rw [Int32.lt_iff_toInt_lt] at h' ⊢
  omega

/-- The elements before index `r` have been read: those written ascend strictly, are the
same values and end in the last value read. -/
structure Compaction.Compact (v : List Int32) (r : ℕ) (c : Compaction) : Prop where
  pos : 0 < c.w
  le : c.w ≤ r
  length : c.sorted.length = v.length
  rest : c.sorted.drop c.w = v.drop c.w
  strict : (c.sorted.take c.w).Pairwise (· < ·)
  mem : ∀ x, x ∈ c.sorted.take c.w ↔ x ∈ v.take r
  last : c.sorted[c.w - 1]? = v[r - 1]?
  top : ∀ x ∈ c.sorted.take c.w, ∀ y ∈ v[r - 1]?, x ≤ y

theorem take_succ_set {A : Type*} {l : List A} {w : ℕ} (h : w < l.length) (x : A) :
    (l.set w x).take (w + 1) = l.take w ++ [x] := by
  rw [List.take_succ_eq_append_getElem (by rwa [List.length_set]), List.getElem_set_self,
    List.take_set, List.set_eq_of_length_le (by rw [List.length_take]; omega)]

theorem Ascends.adjacent (hv : Ascends v) (hr : 0 < r) (hlt : r < v.length) :
    v[r - 1] ≤ v[r] :=
  List.pairwise_iff_getElem.mp hv (r - 1) r (by omega) hlt (by omega)

theorem Compaction.Compact.next (h : c.Compact v r) (hv : Ascends v) (hr : 0 < r)
    (hlt : r < v.length) : ∃ c', compactRound c r = some c' ∧ c'.Compact v (r + 1) := by
  have hread : c.sorted[r]? = some v[r] := by
    have hdrop := congrArg (fun l => l[r - c.w]?) h.rest
    simp only [List.getElem?_drop, Nat.add_sub_cancel' h.le] at hdrop
    rw [hdrop, List.getElem?_eq_getElem hlt]
  have hlast : c.sorted[c.w - 1]? = some (v[r - 1]) := by
    rw [h.last, List.getElem?_eq_getElem (by omega)]
  have hup : ∀ x ∈ c.sorted.take c.w, x ≤ v[r - 1] :=
    fun x hx => h.top x hx _ (List.getElem?_eq_getElem (by omega))
  have hadj := hv.adjacent hr hlt
  have htake : v.take (r + 1) = v.take r ++ [v[r]] := List.take_succ_eq_append_getElem hlt
  by_cases hne : v[r] ≠ v[r - 1]
  · have hw : c.w < c.sorted.length := by
      have hle := h.le
      have hlength := h.length
      omega
    refine ⟨⟨c.sorted.set c.w v[r], c.w + 1⟩, ?_, ?_⟩
    · simp [compactRound, hread, hlast, hne, hw]
    · have hlt' : v[r - 1] < v[r] := lt_of_le_of_ne hadj (Ne.symm hne)
      refine ⟨c.w.succ_pos, Nat.succ_le_succ h.le, ?_, ?_, ?_, ?_, ?_, ?_⟩
      · rw [List.length_set, h.length]
      · have hrest := congrArg (List.drop 1) h.rest
        rw [List.drop_drop, List.drop_drop] at hrest
        rw [List.drop_set_of_lt (Nat.lt_succ_self c.w)]
        exact hrest
      · rw [take_succ_set hw, List.pairwise_append]
        refine ⟨h.strict, List.pairwise_singleton _ _, fun x hx y hy => ?_⟩
        rw [List.mem_singleton.mp hy]
        exact lt_of_le_of_lt' (hup x hx) hlt'
      · intro x
        rw [take_succ_set hw, htake, List.mem_append, List.mem_append, h.mem]
      · rw [Nat.add_sub_cancel, Nat.add_sub_cancel, List.getElem?_set_self hw,
          List.getElem?_eq_getElem hlt]
      · intro x hx y hy
        rw [Nat.add_sub_cancel, List.getElem?_eq_getElem hlt] at hy
        cases hy
        rw [take_succ_set hw] at hx
        rcases List.mem_append.mp hx with hx | hx
        · exact Int32.le_trans (hup x hx) hadj
        · exact List.mem_singleton.mp hx ▸ Int32.le_refl _
  · have heq : v[r] = v[r - 1] := not_not.mp hne
    refine ⟨c, ?_, h.pos, Nat.le_succ_of_le h.le, h.length, h.rest, h.strict, ?_, ?_, ?_⟩
    · simp [compactRound, hread, hlast, heq]
    · intro x
      rw [h.mem, htake, List.mem_append, List.mem_singleton, heq]
      refine ⟨.inl, fun hx => hx.elim id ?_⟩
      rintro rfl
      exact List.mem_take_iff_getElem.mpr ⟨r - 1, by omega, rfl⟩
    · rw [Nat.add_sub_cancel, hlast, List.getElem?_eq_getElem hlt, heq]
    · intro x hx y hy
      rw [Nat.add_sub_cancel, List.getElem?_eq_getElem hlt, heq] at hy
      cases hy
      exact hup x hx

/-- An ascending vector is reduced to its distinct values, in order, at the front. -/
theorem removeDuplicates_of_ascends (hv : Ascends v) : ∃ v' w, removeDuplicates v = some (v', w) ∧
    w ≤ v.length ∧ v'.length = v.length ∧ v'.drop w = v.drop w ∧
    (v'.take w).Pairwise (· < ·) ∧ ∀ x, x ∈ v'.take w ↔ x ∈ v := by
  unfold removeDuplicates
  split_ifs with hzero
  · have hnil : v = [] := List.length_eq_zero_iff.mp hzero
    subst hnil
    exact ⟨[], 0, rfl, le_rfl, rfl, rfl, List.Pairwise.nil, fun x => Iff.rfl⟩
  · have hstart : Compaction.Compact v 1 ⟨v, 1⟩ := by
      refine ⟨Nat.one_pos, le_rfl, rfl, rfl, ?_, fun _ => Iff.rfl, rfl, ?_⟩
      · cases v with
        | nil => exact List.Pairwise.nil
        | cons x v => exact List.pairwise_singleton _ _
      · intro x hx y hy
        cases v with
        | nil => cases hx
        | cons z v =>
          cases hy
          exact List.mem_singleton.mp hx ▸ Int32.le_refl _
    obtain ⟨c, hc, hcompact⟩ := foldlM_range (fun _ : Unit => fun c i => compactRound c (i + 1))
      (fun i => Compaction.Compact v (i + 1)) (r := v.length - 1)
      (fun i c hi h => (h.next hv i.succ_pos (by omega)).imp fun c' h' => ⟨fun _ => h'.1, h'.2⟩)
      hstart
    have hall : v.length - 1 + 1 = v.length := by omega
    rw [hall] at hcompact
    refine ⟨c.sorted, c.w, by rw [hc (), Option.map_some], hcompact.le, hcompact.length,
      hcompact.rest, hcompact.strict, fun x => ?_⟩
    rw [hcompact.mem, List.take_length]

end Compacting

/-- Two ascending feeds are merged into one ascending feed of the same elements, and
dropping its repeated prints leaves the values of both, each once, in ascending order at
the front of the vector and its tail as it was. -/
theorem mergedFeeds_spec {a b : List Int32} (ha : Ascends a) (hb : Ascends b) :
    ∃ merged v w, mergeSorted a b = some merged ∧ Ascends merged ∧ merged.Perm (a ++ b) ∧
      removeDuplicates merged = some (v, w) ∧ w ≤ merged.length ∧ v.length = merged.length ∧
      v.drop w = merged.drop w ∧ (v.take w).Pairwise (· < ·) ∧
      ∀ x, x ∈ v.take w ↔ x ∈ a ∨ x ∈ b := by
  have hmerged : Ascends (a.merge b fun x y => decide (x ≤ y)) := by
    have hsorted := @List.pairwise_merge Int32 (fun x y => decide (x ≤ y))
      (fun x y z => by simpa using Int32.le_trans) (fun x y => by simpa using Int32.le_total x y)
      a b (ha.imp fun h => by simpa using h) (hb.imp fun h => by simpa using h)
    exact hsorted.imp fun h => by simpa using h
  obtain ⟨v, w, hrun, hle, hlength, hrest, hstrict, hmem⟩ := removeDuplicates_of_ascends hmerged
  refine ⟨_, v, w, mergeSorted_eq a b, hmerged, List.merge_perm_append _, hrun, hle, hlength, hrest,
    hstrict, fun x => ?_⟩
  rw [hmem, List.mem_merge]

theorem mergedFeeds_spec_overlap :
    ∃ merged v w, mergeSorted [1, 3, 3] [2, 3] = some merged ∧
      removeDuplicates merged = some (v, w) ∧ (v.take w).Pairwise (· < ·) ∧
      ∀ x, x ∈ v.take w ↔ x ∈ [1, 3, 3] ∨ x ∈ ([2, 3] : List Int32) := by
  obtain ⟨merged, v, w, hmerge, -, -, hdrop, -, -, -, hstrict, hmem⟩ :=
    mergedFeeds_spec (a := [1, 3, 3]) (b := [2, 3]) (by unfold Ascends; decide)
      (by unfold Ascends; decide)
  exact ⟨merged, v, w, hmerge, hdrop, hstrict, hmem⟩

/-! ## The palindromes -/

section Palindromes
variable {text : List UInt8}

theorem mirrored_spec {i j : ℕ} (h : i + j + 1 = text.length) :
    ∃ r, mirrored text i j = some r ∧
      (r = true ↔ ∀ k, i ≤ k → k ≤ j → text[k]? = text[i + j - k]?) := by
  induction hn : j - i using Nat.strongRecOn generalizing i j with
  | _ n ih =>
    rw [mirrored]
    split_ifs with hij
    · have hi : text[i]? = some text[i] := List.getElem?_eq_getElem (by omega)
      have hj : text[j]? = some text[j] := List.getElem?_eq_getElem (by omega)
      simp only [hi, hj, Option.bind_eq_bind, Option.bind_some]
      by_cases heq : text[i] = text[j]
      · obtain ⟨r, hr, hiff⟩ := ih (j - 1 - (i + 1)) (by omega) (i := i + 1) (j := j - 1) (by omega)
          rfl
        refine ⟨r, by rw [if_neg (not_not.mpr heq), hr], hiff.trans ⟨fun hin k hk hkj => ?_, ?_⟩⟩
        · rcases Nat.lt_or_eq_of_le hk with hlt | rfl
          · rcases Nat.lt_or_eq_of_le hkj with hlt' | rfl
            · rw [hin k hlt (by omega), show i + 1 + (j - 1) - k = i + j - k by omega]
            · rw [Nat.add_sub_cancel, hi, hj, heq]
          · rw [Nat.add_sub_cancel_left, hi, hj, heq]
        · intro hout k hk hkj
          rw [hout k (by omega) (by omega), show i + 1 + (j - 1) - k = i + j - k by omega]
      · refine ⟨false, if_pos heq, iff_of_false Bool.false_ne_true fun hall => heq ?_⟩
        have hends := hall i le_rfl hij.le
        rw [Nat.add_sub_cancel_left, hi, hj] at hends
        exact Option.some.inj hends
    · refine ⟨true, rfl, iff_of_true rfl fun k hk hkj => ?_⟩
      rw [show i + j - k = k by omega]

/-- A text is accepted if and only if it reads the same backwards. -/
theorem isPalindrome_iff (text : List UInt8) :
    ∃ r, isPalindrome text = some r ∧ (r = true ↔ text.reverse = text) := by
  have hreverse : text.reverse = text ↔
      ∀ k, 0 ≤ k → k ≤ text.length - 1 → text[k]? = text[0 + (text.length - 1) - k]? := by
    rw [List.ext_getElem?_iff]
    refine ⟨fun h k _ hk => ?_, fun h k => ?_⟩
    · by_cases hlt : k < text.length
      · rw [← h k, List.getElem?_reverse hlt, Nat.zero_add]
      · rw [show k = 0 by omega, show text.length = 0 by omega]
    · by_cases hlt : k < text.length
      · rw [List.getElem?_reverse hlt, h k k.zero_le (by omega), Nat.zero_add]
      · rw [List.getElem?_eq_none (by rw [List.length_reverse]; omega),
          List.getElem?_eq_none (by omega)]
  unfold isPalindrome
  split_ifs with hshort
  · refine ⟨true, rfl, iff_of_true rfl ?_⟩
    match text, hshort with
    | [], _ => rfl
    | [_], _ => rfl
  · rw [hreverse]
    exact mirrored_spec (by omega)

end Palindromes
end HftExercises.TwoPointer
