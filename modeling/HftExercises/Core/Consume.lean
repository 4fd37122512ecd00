import Mathlib.Data.Int.Basic
import Mathlib.Algebra.Order.Ring.Int

/-! # Consuming a list of lots in order

A lot is a quantity under a label. A demand takes the lots from the front, each
one as far as it can; it stops in the middle of a lot once it is met. A loop that
takes from the front lot, and drops it when nothing is left of it, computes this
function one iteration at a time.
-/
namespace HftExercises
variable {α : Type*}

/-- What a demand took, which lots it left and how much it still wants. -/
structure Consumed (α : Type*) where
  fills : List (α × ℤ)
  left : List (α × ℤ)
  want : ℤ

/-- What stays of a lot, nothing once its quantity is used up. -/
def remainder (a : α) (q : ℤ) : List (α × ℤ) := if q = 0 then [] else [(a, q)]

def Consumed.after (c : Consumed α) (fills : List (α × ℤ)) : Consumed α :=
  { c with fills := fills ++ c.fills }

def consume (want : ℤ) : List (α × ℤ) → Consumed α
  | [] => ⟨[], [], want⟩
  | (a, q) :: rest =>
    if 0 < want then
      if q ≤ want then (consume (want - q) rest).after [(a, q)]
      else ⟨[(a, want)], (a, q - want) :: rest, 0⟩
    else ⟨[], (a, q) :: rest, want⟩

theorem Consumed.after_after (c : Consumed α) (ts us : List (α × ℤ)) :
    (c.after us).after ts = c.after (ts ++ us) := by
  simp [Consumed.after]

theorem consume_of_not_pos {want : ℤ} (h : ¬ 0 < want) (l : List (α × ℤ)) :
    consume want l = ⟨[], l, want⟩ := by
  cases l with
  | nil => rfl
  | cons e rest => exact if_neg h

/-- One iteration: the front lot gives what it can and its remainder stays. -/
theorem consume_cons {want : ℤ} (h : 0 < want) (a : α) (q : ℤ) (rest : List (α × ℤ)) :
    consume want ((a, q) :: rest) =
      (consume (want - min want q) (remainder a (q - min want q) ++ rest)).after
        [(a, min want q)] := by
  simp only [consume, if_pos h]
  split_ifs with hq
  · rw [min_eq_right hq, sub_self]
    rfl
  · have hlt : want ≤ q := by omega
    have hrest : remainder a (q - want) = [(a, q - want)] := if_neg (by omega)
    rw [min_eq_left hlt, hrest, sub_self, consume_of_not_pos (lt_irrefl 0)]
    rfl

/-- What was taken and what is still wanted add up to the demand. -/
theorem consume_spent (want : ℤ) (l : List (α × ℤ)) :
    (consume want l).want + ((consume want l).fills.map Prod.snd).sum = want := by
  fun_induction consume want l with
  | case1 want => simp
  | case2 want a q rest hw hq ih =>
    simp only [Consumed.after, List.cons_append, List.nil_append, List.map_cons, List.sum_cons]
    omega
  | case3 want a q rest hw hq => simp
  | case4 want a q rest hw => simp

/-- A demand empties the lots of a prefix, and then it stops between two lots or inside one. -/
theorem consume_cases {want : ℤ} (hw : 0 ≤ want) (l : List (α × ℤ)) :
    ∃ done rest, l = done ++ rest ∧
      ((consume want l = ⟨done, rest, want - (done.map Prod.snd).sum⟩ ∧
          (rest ≠ [] → want = (done.map Prod.snd).sum)) ∨
        ∃ a q r tail, rest = (a, q) :: tail ∧ 0 < r ∧ r < q ∧
          consume want l = ⟨done ++ [(a, r)], (a, q - r) :: tail, 0⟩) := by
  fun_induction consume want l with
  | case1 want => exact ⟨[], [], rfl, .inl ⟨by simp, fun h => absurd rfl h⟩⟩
  | case2 want a q rest hpos hq ih =>
    obtain ⟨done, left, rfl, ⟨heq, hend⟩ | ⟨a', q', r, tail, rfl, hr, hrq, heq⟩⟩ := ih (by omega)
    · refine ⟨(a, q) :: done, left, rfl, .inl ⟨?_, fun hne => ?_⟩⟩
      · rw [heq, List.map_cons, List.sum_cons, ← sub_sub]
        rfl
      · have hsum := hend hne
        rw [List.map_cons, List.sum_cons]
        omega
    · refine ⟨(a, q) :: done, (a', q') :: tail, rfl, .inr ⟨a', q', r, tail, rfl, hr, hrq, ?_⟩⟩
      rw [heq]
      rfl
  | case3 want a q rest hpos hq =>
    exact ⟨[], (a, q) :: rest, rfl, .inr ⟨a, q, want, rest, rfl, hpos, by omega, rfl⟩⟩
  | case4 want a q rest hpos =>
    refine ⟨[], (a, q) :: rest, rfl, .inl ⟨by simp, fun _ => ?_⟩⟩
    rw [List.map_nil, List.sum_nil]
    omega

/-! ## Lots with different labels -/

section Labels
variable {want : ℤ} {l : List (α × ℤ)} {a : α} {q r : ℤ}

/-- A fill empties its lot, or takes a part of it and leaves the rest. -/
theorem consume_filled (hw : 0 ≤ want) (hl : (l.map Prod.fst).Nodup)
    (h : (a, r) ∈ (consume want l).fills) :
    ∃ q, (a, q) ∈ l ∧ (r = q ∧ a ∉ (consume want l).left.map Prod.fst ∨
      r < q ∧ (a, q - r) ∈ (consume want l).left) := by
  obtain ⟨done, rest, rfl, ⟨heq, -⟩ | ⟨a', q', r', tail, rfl, -, hrq, heq⟩⟩ := consume_cases hw l
  · rw [heq] at h ⊢
    rw [List.map_append, List.nodup_append] at hl
    exact ⟨r, List.mem_append_left _ h,
      .inl ⟨rfl, fun hmem => hl.2.2 a (List.mem_map_of_mem h) a hmem rfl⟩⟩
  · rw [heq] at h ⊢
    rw [List.map_append, List.nodup_append] at hl
    rcases List.mem_append.mp h with h | h
    · exact ⟨r, List.mem_append_left _ h,
        .inl ⟨rfl, fun hmem => hl.2.2 a (List.mem_map_of_mem h) a hmem rfl⟩⟩
    · cases List.mem_singleton.mp h
      exact ⟨q', List.mem_append_right _ List.mem_cons_self, .inr ⟨hrq, List.mem_cons_self⟩⟩

/-- Only the last lot that gave anything can have something left. -/
theorem consume_dropLast (hw : 0 ≤ want) (hl : (l.map Prod.fst).Nodup)
    (h : (a, r) ∈ (consume want l).fills.dropLast) :
    a ∉ (consume want l).left.map Prod.fst := by
  obtain ⟨done, rest, rfl, ⟨heq, -⟩ | ⟨a', q', r', tail, rfl, -, -, heq⟩⟩ := consume_cases hw l
  all_goals
    rw [heq] at h ⊢
    rw [List.map_append, List.nodup_append] at hl
  · exact fun hmem => hl.2.2 a (List.mem_map_of_mem (List.dropLast_subset _ h)) a hmem rfl
  · rw [List.dropLast_concat] at h
    exact fun hmem => hl.2.2 a (List.mem_map_of_mem h) a hmem rfl

theorem consume_untouched (hw : 0 ≤ want) (h : (a, q) ∈ l)
    (hfree : a ∉ (consume want l).fills.map Prod.fst) : (a, q) ∈ (consume want l).left := by
  obtain ⟨done, rest, rfl, ⟨heq, -⟩ | ⟨a', q', r', tail, rfl, -, -, heq⟩⟩ := consume_cases hw l
  · rw [heq] at hfree ⊢
    refine (List.mem_append.mp h).resolve_left fun hd => hfree ?_
    exact List.mem_map_of_mem hd
  · rw [heq] at hfree ⊢
    rw [List.map_append, List.mem_append, not_or] at hfree
    have hrest := (List.mem_append.mp h).resolve_left fun hd => hfree.1 (List.mem_map_of_mem hd)
    refine List.mem_cons_of_mem _ ((List.mem_cons.mp hrest).resolve_left fun he => hfree.2 ?_)
    cases he
    exact List.mem_cons_self

theorem consume_fills_sublist (hw : 0 ≤ want) (l : List (α × ℤ)) :
    ((consume want l).fills.map Prod.fst).Sublist (l.map Prod.fst) := by
  obtain ⟨done, rest, rfl, ⟨heq, -⟩ | ⟨a', q', r', tail, rfl, -, -, heq⟩⟩ := consume_cases hw l
  · rw [heq, List.map_append]
    exact List.sublist_append_left _ _
  · rw [heq, List.map_append, List.map_append, List.map_cons]
    exact (List.Sublist.refl _).append (List.singleton_sublist.mpr List.mem_cons_self)

theorem consume_left_nil (hw : 0 ≤ want) (h : (consume want l).want ≠ 0) :
    (consume want l).left = [] := by
  obtain ⟨done, rest, rfl, ⟨heq, hend⟩ | ⟨a', q', r', tail, rfl, -, -, heq⟩⟩ := consume_cases hw l
  · rw [heq] at h ⊢
    by_contra hne
    exact h (sub_eq_zero.mpr (hend hne))
  · rw [heq] at h
    exact absurd rfl h

end Labels

end HftExercises
