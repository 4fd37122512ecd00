import HftExercises.Core.Execution
import Mathlib.Algebra.BigOperators.Group.Finset.Basic
import Mathlib.Data.Finset.Filter
import Mathlib.Logic.Relation

/-! # Marking with a worklist

A node is popped, skipped when it is not alive or already marked, and otherwise
marked with its successors pushed. When the worklist is empty the marked nodes
are exactly the alive ones that a path of alive nodes joins to a seed.
-/
namespace HftExercises.Worklist
variable {N : Type*}

/-- A path of alive nodes from an alive seed. -/
def Reachable (alive : Finset N) (succ : N → List N) (seeds : List N) (n : N) : Prop :=
  ∃ s ∈ seeds, s ∈ alive ∧ Relation.ReflTransGen (fun a b => b ∈ succ a ∧ b ∈ alive) s n

theorem Reachable.next {alive : Finset N} {succ : N → List N} {seeds : List N} {a b : N}
    (h : Reachable alive succ seeds a) (hb : b ∈ succ a) (hlive : b ∈ alive) :
    Reachable alive succ seeds b := by
  obtain ⟨s, hs, hsl, hpath⟩ := h
  exact ⟨s, hs, hsl, hpath.tail ⟨hb, hlive⟩⟩

/-- A set that has every alive seed and every alive successor has every reachable node. -/
theorem Reachable.mem_of_closed {alive : Finset N} {succ : N → List N} {seeds : List N}
    {P : N → Prop} (hseeds : ∀ s ∈ seeds, s ∈ alive → P s)
    (hclosed : ∀ a ∈ alive, P a → ∀ b ∈ succ a, b ∈ alive → P b) {n : N}
    (h : Reachable alive succ seeds n) : P n := by
  obtain ⟨s, hs, hsl, hpath⟩ := h
  suffices hboth : n ∈ alive ∧ P n from hboth.2
  induction hpath with
  | refl => exact ⟨hsl, hseeds s hs hsl⟩
  | tail _ hlast ih => exact ⟨hlast.2, hclosed _ ih.1 ih.2 _ hlast.1 hlast.2⟩

section Loop
variable [DecidableEq N]

/-- One round on the marks and the worklist, whose head is its back end. -/
def visit (alive : Finset N) (succ : N → List N) (s : (N → Bool) × List N) :
    (N → Bool) × List N :=
  match s.2 with
  | [] => s
  | n :: rest =>
    if n ∉ alive then (s.1, rest)
    else if s.1 n then (s.1, rest)
    else (Function.update s.1 n true, (succ n).reverse ++ rest)

def visitAll (alive : Finset N) (succ : N → List N) (fuel : ℕ) (s : (N → Bool) × List N) :
    Option ((N → Bool) × List N) :=
  whileLoop (fun s => !s.2.isEmpty) (fun s => some (visit alive succ s)) fuel s

/-- Every round takes one entry off, and a node pushes its successors once. -/
def work (alive : Finset N) (succ : N → List N) (s : (N → Bool) × List N) : ℕ :=
  s.2.length + ∑ n ∈ alive.filter (fun n => s.1 n = false), (succ n).length

theorem work_visit {alive : Finset N} {succ : N → List N} {s : (N → Bool) × List N}
    (h : s.2 ≠ []) : work alive succ (visit alive succ s) < work alive succ s := by
  obtain ⟨marks, stack⟩ := s
  cases stack with
  | nil => exact absurd rfl h
  | cons n rest =>
    simp only [visit]
    split_ifs with hn hm
    · simp [work]
    · have hmem : n ∈ alive.filter (fun x => marks x = false) :=
        Finset.mem_filter.mpr ⟨hn, by simpa using hm⟩
      have hrest : alive.filter (fun x => Function.update marks n true x = false) =
          (alive.filter (fun x => marks x = false)).erase n := by
        ext x
        by_cases hx : x = n
        · simp [hx]
        · simp [hx]
      have hsum := Finset.sum_erase_add _ (fun x => (succ x).length) hmem
      simp only [work, hrest, List.length_append, List.length_reverse, List.length_cons]
      omega
    · simp [work]

/-- Between the rounds: marks and worklist lie on paths from the seeds, and what
the seeds and the marked nodes lead to is marked or waiting. -/
structure Marking (alive : Finset N) (succ : N → List N) (seeds : List N)
    (s : (N → Bool) × List N) : Prop where
  sound : ∀ n ∈ alive, s.1 n = true → Reachable alive succ seeds n
  waiting : ∀ n ∈ s.2, n ∈ alive → Reachable alive succ seeds n
  seeded : ∀ n ∈ seeds, n ∈ alive → s.1 n = true ∨ n ∈ s.2
  closed : ∀ a ∈ alive, s.1 a = true → ∀ b ∈ succ a, b ∈ alive → s.1 b = true ∨ b ∈ s.2

omit [DecidableEq N] in
theorem marking_init {alive : Finset N} {succ : N → List N} {marks : N → Bool} {seeds : List N}
    (h : ∀ n ∈ alive, marks n = false) : Marking alive succ seeds (marks, seeds) where
  sound n hn hm := absurd hm (by simp [h n hn])
  waiting n hn hl := ⟨n, hn, hl, .refl⟩
  seeded n hn _ := .inr hn
  closed a ha hm := absurd hm (by simp [h a ha])

omit [DecidableEq N] in
/-- The popped node is dropped where it stays covered: not alive, or marked. -/
theorem Marking.skip {alive : Finset N} {succ : N → List N} {seeds rest : List N} {n : N}
    {marks : N → Bool} (h : Marking alive succ seeds (marks, n :: rest))
    (hn : n ∈ alive → marks n = true) : Marking alive succ seeds (marks, rest) where
  sound := h.sound
  waiting x hx := h.waiting x (List.mem_cons_of_mem n hx)
  seeded x hx hl := by
    rcases h.seeded x hx hl with hm | hm
    · exact .inl hm
    · rcases List.mem_cons.mp hm with rfl | hm
      · exact .inl (hn hl)
      · exact .inr hm
  closed a ha hm b hb hl := by
    rcases h.closed a ha hm b hb hl with hm | hm
    · exact .inl hm
    · rcases List.mem_cons.mp hm with rfl | hm
      · exact .inl (hn hl)
      · exact .inr hm

theorem Marking.mark {alive : Finset N} {succ : N → List N} {seeds rest : List N} {n : N}
    {marks : N → Bool} (h : Marking alive succ seeds (marks, n :: rest)) (hn : n ∈ alive) :
    Marking alive succ seeds (Function.update marks n true, (succ n).reverse ++ rest) := by
  have hreach : Reachable alive succ seeds n := h.waiting n List.mem_cons_self hn
  -- what was covered before is covered by the new marks and the longer worklist
  have hcover : ∀ x, marks x = true ∨ x ∈ n :: rest →
      Function.update marks n true x = true ∨ x ∈ (succ n).reverse ++ rest := by
    intro x hx
    by_cases hxn : x = n
    · exact .inl (by simp [hxn])
    · rw [Function.update_of_ne hxn]
      exact hx.imp_right fun hx =>
        List.mem_append_right _ ((List.mem_cons.mp hx).resolve_left hxn)
  constructor
  case sound =>
    intro x hx hm
    by_cases hxn : x = n
    · exact hxn ▸ hreach
    · exact h.sound x hx (by simpa [Function.update_of_ne hxn] using hm)
  case waiting =>
    intro x hx hl
    rcases List.mem_append.mp hx with hx | hx
    · exact hreach.next (List.mem_reverse.mp hx) hl
    · exact h.waiting x (List.mem_cons_of_mem n hx) hl
  case seeded => exact fun x hx hl => hcover x (h.seeded x hx hl)
  case closed =>
    intro a ha hm b hb hl
    by_cases han : a = n
    · exact .inr (List.mem_append_left _ (List.mem_reverse.mpr (han ▸ hb)))
    · exact hcover b (h.closed a ha (by simpa [Function.update_of_ne han] using hm) b hb hl)

theorem Marking.visit {alive : Finset N} {succ : N → List N} {seeds : List N}
    {s : (N → Bool) × List N} (h : Marking alive succ seeds s) :
    Marking alive succ seeds (visit alive succ s) := by
  obtain ⟨marks, stack⟩ := s
  cases stack with
  | nil => exact h
  | cons n rest =>
    simp only [Worklist.visit]
    split_ifs with hn hm
    · exact h.skip fun _ => hm
    · exact h.mark hn
    · exact h.skip fun hl => absurd hl hn

omit [DecidableEq N] in
theorem Marking.done {alive : Finset N} {succ : N → List N} {seeds : List N} {marks : N → Bool}
    (h : Marking alive succ seeds (marks, [])) {n : N} (hn : n ∈ alive) :
    marks n = true ↔ Reachable alive succ seeds n := by
  constructor
  · exact h.sound n hn
  · intro hr
    refine Reachable.mem_of_closed (P := (marks · = true)) (fun s hs hl => ?_)
      (fun a ha hm b hb hl => ?_) hr
    · exact (h.seeded s hs hl).resolve_right List.not_mem_nil
    · exact (h.closed a ha hm b hb hl).resolve_right List.not_mem_nil

/-- Nodes that are not alive keep the mark they have. -/
theorem visit_off {alive : Finset N} {succ : N → List N} (s : (N → Bool) × List N) {n : N}
    (hn : n ∉ alive) : (visit alive succ s).1 n = s.1 n := by
  obtain ⟨marks, stack⟩ := s
  cases stack with
  | nil => rfl
  | cons m rest =>
    simp only [visit]
    split_ifs with hm hmark
    · rfl
    · have hne : n ≠ m := fun heq => hn (heq ▸ hm)
      exact Function.update_of_ne hne _ _
    · rfl

/-- The loop ends on every graph, with exactly the reachable nodes marked. -/
theorem visitAll_spec {alive : Finset N} (succ : N → List N) {marks : N → Bool} (seeds : List N)
    (h : ∀ n ∈ alive, marks n = false) {fuel : ℕ} (hfuel : work alive succ (marks, seeds) ≤ fuel) :
    ∃ marks', visitAll alive succ fuel (marks, seeds) = some (marks', []) ∧
      (∀ n ∈ alive, marks' n = true ↔ Reachable alive succ seeds n) ∧
      ∀ n ∉ alive, marks' n = marks n := by
  have hround : ∀ s : (N → Bool) × List N,
      (Marking alive succ seeds s ∧ ∀ n ∉ alive, s.1 n = marks n) → (!s.2.isEmpty) = true →
      ∃ s', (∀ _ : Unit, some (visit alive succ s) = some s') ∧
        (Marking alive succ seeds s' ∧ ∀ n ∉ alive, s'.1 n = marks n) ∧
        work alive succ s' < work alive succ s := by
    intro s hs hg
    exact ⟨visit alive succ s, fun _ => rfl,
      ⟨hs.1.visit, fun n hn => (visit_off s hn).trans (hs.2 n hn)⟩, work_visit (by simpa using hg)⟩
  obtain ⟨⟨marks', stack⟩, hrun, ⟨hmark, hoff⟩, hstop⟩ := whileLoop_total
    (fun _ s => some (visit alive succ s))
    (fun s => Marking alive succ seeds s ∧ ∀ n ∉ alive, s.1 n = marks n) (work alive succ)
    hround hfuel ⟨marking_init h, fun _ _ => rfl⟩
  obtain rfl : stack = [] := by simpa using hstop
  exact ⟨marks', hrun (), fun n hn => hmark.done hn, hoff⟩

end Loop
end HftExercises.Worklist
