import HftExercises.Core.ListFacts
import Mathlib.Data.List.Lemmas
import Mathlib.Data.Nat.Notation

/-! # Lists of labelled nodes

A list whose nodes keep their labels while they are moved, so that a label serves as an
iterator. Using a label that no node has is `none`.
-/
namespace HftExercises
variable {A : Type*}

/-- The nodes with their labels, and the label of the next node. -/
@[ext]
structure NodeList (A : Type*) where
  nodes : List (ℕ × A)
  next : ℕ
  nodup : (nodes.map Prod.fst).Nodup
  fresh : ∀ n ∈ nodes, n.1 < next

namespace NodeList
variable {l l' : NodeList A} {i : ℕ} {a b : A}

def empty : NodeList A := ⟨[], 0, List.nodup_nil, by simp⟩

def contents (l : NodeList A) : List A := l.nodes.map Prod.snd

def node? (l : NodeList A) (i : ℕ) : Option A := (l.nodes.find? fun n => n.1 == i).map Prod.snd

def front? (l : NodeList A) : Option A := l.nodes.head?.map Prod.snd

/-- Nodes that are some of those of the list. -/
def restrict (l : NodeList A) (nodes : List (ℕ × A)) (h : nodes.Sublist l.nodes) : NodeList A where
  nodes := nodes
  next := l.next
  nodup := l.nodup.sublist (h.map Prod.fst)
  fresh n hn := l.fresh n (h.subset hn)

def popFront (l : NodeList A) : NodeList A := l.restrict l.nodes.tail (List.tail_sublist _)

def pushBack (l : NodeList A) (a : A) : NodeList A where
  nodes := l.nodes ++ [(l.next, a)]
  next := l.next + 1
  nodup := by
    have hnew : l.next ∉ l.nodes.map Prod.fst := by
      intro h
      obtain ⟨n, hn, heq⟩ := List.mem_map.mp h
      exact Nat.lt_irrefl _ (heq ▸ l.fresh n hn)
    rw [List.map_append, List.map_singleton]
    exact List.nodup_append_comm.mp (List.nodup_cons.mpr ⟨hnew, l.nodup⟩)
  fresh n hn := by
    rcases List.mem_append.mp hn with hn | hn
    · exact Nat.lt_succ_of_lt (l.fresh n hn)
    · rw [List.mem_singleton.mp hn]
      exact Nat.lt_succ_self _

@[simp] theorem nodes_popFront (l : NodeList A) : l.popFront.nodes = l.nodes.tail := rfl

@[simp] theorem contents_popFront (l : NodeList A) : l.popFront.contents = l.contents.tail :=
  List.map_tail

@[simp] theorem nodes_pushBack (l : NodeList A) (a : A) :
    (l.pushBack a).nodes = l.nodes ++ [(l.next, a)] := rfl

@[simp] theorem contents_pushBack (l : NodeList A) (a : A) :
    (l.pushBack a).contents = l.contents ++ [a] := List.map_append

/-- The label of the last node. -/
def back? (l : NodeList A) : Option ℕ := l.nodes.getLast?.map Prod.fst

theorem back?_pushBack (l : NodeList A) (a : A) : (l.pushBack a).back? = some l.next := by
  rw [back?, nodes_pushBack, List.getLast?_concat]
  rfl

/-- The nodes with another label. -/
def others (l : NodeList A) (i : ℕ) : List (ℕ × A) := l.nodes.filter fun n => !(n.1 == i)

theorem notMem_others : i ∉ (l.others i).map Prod.fst := by
  intro h
  obtain ⟨n, hn, rfl⟩ := List.mem_map.mp h
  simpa using (List.mem_filter.mp hn).2

/-- The node goes to the back, keeping its label. -/
def spliceBack (l : NodeList A) (i : ℕ) : Option (NodeList A) :=
  match h : l.node? i with
  | none => none
  | some a => some
    { nodes := l.others i ++ [(i, a)]
      next := l.next
      nodup := by
        rw [List.map_append, List.map_singleton]
        refine List.nodup_append_comm.mp (List.nodup_cons.mpr ⟨notMem_others, ?_⟩)
        exact l.nodup.sublist (List.filter_sublist.map Prod.fst)
      fresh := by
        intro n hn
        rcases List.mem_append.mp hn with hn | hn
        · exact l.fresh n (List.mem_of_mem_filter hn)
        · obtain ⟨m, hm, -⟩ := Option.map_eq_some_iff.mp h
          have hlt := l.fresh m (List.mem_of_find?_eq_some hm)
          have hlabel := List.find?_some hm
          rw [List.mem_singleton.mp hn]
          simpa using beq_iff_eq.mp hlabel ▸ hlt }

/-- A node gets another value. -/
def replace (i : ℕ) (a : A) (n : ℕ × A) : ℕ × A := if n.1 = i then (i, a) else n

theorem fst_replace (i : ℕ) (a : A) (n : ℕ × A) : (replace i a n).1 = n.1 := by
  rw [replace]
  split_ifs with h
  · exact h.symm
  · rfl

theorem map_fst_replace (i : ℕ) (a : A) (nodes : List (ℕ × A)) :
    (nodes.map (replace i a)).map Prod.fst = nodes.map Prod.fst := by
  rw [List.map_map]
  exact List.map_congr_left fun n _ => fst_replace i a n

def assign (l : NodeList A) (i : ℕ) (a : A) : Option (NodeList A) :=
  if (l.node? i).isSome then some
    { nodes := l.nodes.map (replace i a)
      next := l.next
      nodup := by
        rw [map_fst_replace]
        exact l.nodup
      fresh := by
        intro n hn
        obtain ⟨m, hm, rfl⟩ := List.mem_map.mp hn
        rw [fst_replace]
        exact l.fresh m hm }
  else none

/-! ## A label and its node -/

theorem node?_eq_some_iff : l.node? i = some a ↔ (i, a) ∈ l.nodes := by
  rw [node?, Option.map_eq_some_iff]
  constructor
  · rintro ⟨n, hn, rfl⟩
    have hlabel : n.1 = i := by simpa using List.find?_some hn
    exact hlabel ▸ List.mem_of_find?_eq_some hn
  · exact fun h => ⟨(i, a), find?_key_of_mem (f := Prod.fst) l.nodup h, rfl⟩

theorem ne_of_split {before after : List (ℕ × A)} (h : l.nodes = before ++ (i, a) :: after) :
    ∀ n ∈ before ++ after, n.1 ≠ i := by
  have hnodup := l.nodup
  rw [h, List.map_append, List.map_cons, List.nodup_middle, List.nodup_cons, ← List.map_append]
    at hnodup
  intro n hn heq
  have hmem : n.1 ∈ (before ++ after).map Prod.fst := List.mem_map_of_mem hn
  exact hnodup.1 (heq ▸ hmem)

theorem others_of_split {before after : List (ℕ × A)} (h : l.nodes = before ++ (i, a) :: after) :
    l.others i = before ++ after := by
  have hkeep : (before ++ after).filter (fun n => !(n.1 == i)) = before ++ after := by
    rw [List.filter_eq_self]
    intro n hn
    simpa using ne_of_split h n hn
  rw [others, h, List.filter_append, List.filter_cons_of_neg (by simp), ← List.filter_append, hkeep]

theorem spliceBack_of_split {before after : List (ℕ × A)}
    (h : l.nodes = before ++ (i, a) :: after) :
    ∃ l', l.spliceBack i = some l' ∧ l'.nodes = before ++ after ++ [(i, a)] ∧ l'.next = l.next := by
  have hnode : l.node? i = some a := node?_eq_some_iff.mpr (by simp [h])
  rw [spliceBack]
  split
  case h_1 hnone =>
    rw [hnone] at hnode
    cases hnode
  case h_2 a' hsome =>
    obtain rfl := Option.some.inj (hsome.symm.trans hnode)
    exact ⟨_, rfl, congrArg (· ++ [(i, a')]) (others_of_split h), rfl⟩

theorem assign_of_split {before after : List (ℕ × A)} (h : l.nodes = before ++ (i, a) :: after)
    (b : A) :
    ∃ l', l.assign i b = some l' ∧ l'.nodes = before ++ (i, b) :: after ∧ l'.next = l.next := by
  have hnode : l.node? i = some a := node?_eq_some_iff.mpr (by simp [h])
  have hkeep : ∀ ns : List (ℕ × A), ns ⊆ before ++ after → ns.map (replace i b) = ns := by
    intro ns hsub
    refine (List.map_congr_left fun n hn => ?_).trans (List.map_id ns)
    rw [replace, if_neg (ne_of_split h n (hsub hn))]
    rfl
  refine ⟨_, if_pos (by simp [hnode]), ?_, rfl⟩
  change l.nodes.map (replace i b) = _
  rw [h, List.map_append, List.map_cons, hkeep before (List.subset_append_left _ _),
    hkeep after (List.subset_append_right _ _), replace, if_pos rfl]

theorem exists_split (h : (i, a) ∈ l.nodes) :
    ∃ before after, l.nodes = before ++ (i, a) :: after := List.append_of_mem h

end NodeList
end HftExercises
