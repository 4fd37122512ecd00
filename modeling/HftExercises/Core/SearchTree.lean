import Mathlib.Data.Finset.Sort
import Mathlib.Data.Tree.Basic
import Mathlib.Order.Monotone.Defs

/-! # Binary search trees

The operations on binary trees of values, and what they do to the values listed from left
to right.
-/
namespace HftExercises.SearchTree

section Shape
variable {α β : Type*}

def inorder : BinaryTree α → List α
  | .nil => []
  | .node v l r => inorder l ++ v :: inorder r

@[simp] theorem inorder_nil : inorder (.nil : BinaryTree α) = [] := rfl

@[simp] theorem inorder_node (v : α) (l r : BinaryTree α) :
    inorder (.node v l r) = inorder l ++ v :: inorder r := rfl

theorem length_inorder (t : BinaryTree α) : (inorder t).length = t.numNodes := by
  induction t with
  | nil => rfl
  | node v l r ihl ihr => simp [ihl, ihr, Nat.add_assoc]

/-- The leftmost value of a node with value `w` and left subtree `l`. -/
def leftmost : α → BinaryTree α → α
  | w, .nil => w
  | _, .node v l _ => leftmost v l

/-- The rightmost value of a node with value `w` and right subtree `r`. -/
def rightmost : α → BinaryTree α → α
  | w, .nil => w
  | _, .node v _ r => rightmost v r

/-- A node without its leftmost value. -/
def dropLeftmost : α → BinaryTree α → BinaryTree α → BinaryTree α
  | _, .nil, r => r
  | w, .node v l m, r => .node w (dropLeftmost v l m) r

/-- The left subtree with the right one in its place, the root taken by the leftmost value
of the right subtree. -/
def join : BinaryTree α → BinaryTree α → BinaryTree α
  | .nil, r => r
  | l, .nil => l
  | l, .node w m r => .node (leftmost w m) l (dropLeftmost w m r)

theorem inorder_dropLeftmost (w : α) (l r : BinaryTree α) :
    leftmost w l :: inorder (dropLeftmost w l r) = inorder (.node w l r) := by
  induction l generalizing w r with
  | nil => rfl
  | node v l m ihl _ =>
    rw [leftmost, dropLeftmost, inorder_node, inorder_node, ← ihl v m]
    rfl

theorem inorder_rightmost (w : α) (l r : BinaryTree α) :
    ∃ xs, inorder (.node w l r) = xs ++ [rightmost w r] := by
  induction r generalizing w l with
  | nil => exact ⟨inorder l, rfl⟩
  | node v m r _ ihr =>
    obtain ⟨xs, hxs⟩ := ihr v m
    exact ⟨inorder l ++ w :: xs, by rw [inorder_node, hxs, rightmost, List.append_assoc]; rfl⟩

theorem leftmost_mem (w : α) (l r : BinaryTree α) : leftmost w l ∈ inorder (.node w l r) := by
  rw [← inorder_dropLeftmost]
  exact List.mem_cons_self

theorem rightmost_mem (w : α) (l r : BinaryTree α) : rightmost w r ∈ inorder (.node w l r) := by
  obtain ⟨xs, hxs⟩ := inorder_rightmost w l r
  rw [hxs]
  exact List.mem_append_right _ (List.mem_singleton_self _)

theorem inorder_join (l r : BinaryTree α) : inorder (join l r) = inorder l ++ inorder r := by
  cases l with
  | nil => rfl
  | node v l₁ l₂ =>
    cases r with
    | nil => simp [join]
    | node w m r =>
      change inorder (.node (leftmost w m) _ (dropLeftmost w m r)) = _
      rw [inorder_node, inorder_dropLeftmost]

theorem map_leftmost (f : α → β) (w : α) (l : BinaryTree α) :
    leftmost (f w) (l.map f) = f (leftmost w l) := by
  induction l generalizing w with
  | nil => rfl
  | node v l m ihl _ => exact ihl v

theorem map_rightmost (f : α → β) (w : α) (r : BinaryTree α) :
    rightmost (f w) (r.map f) = f (rightmost w r) := by
  induction r generalizing w with
  | nil => rfl
  | node v m r _ ihr => exact ihr v

theorem map_dropLeftmost (f : α → β) (w : α) (l r : BinaryTree α) :
    dropLeftmost (f w) (l.map f) (r.map f) = (dropLeftmost w l r).map f := by
  induction l generalizing w r with
  | nil => rfl
  | node v l m ihl _ => rw [BinaryTree.map, dropLeftmost, dropLeftmost, BinaryTree.map, ihl]

end Shape

variable {α β : Type*} [LinearOrder α] {t l r : BinaryTree α} {k v x : α}

/-- Every value is above those to its left and below those to its right. -/
def Ordered : BinaryTree α → Prop
  | .nil => True
  | .node v l r => Ordered l ∧ Ordered r ∧ (∀ x ∈ inorder l, x < v) ∧ ∀ x ∈ inorder r, v < x

theorem ordered_iff : Ordered t ↔ (inorder t).Pairwise (· < ·) := by
  induction t with
  | nil => simp [Ordered]
  | node v l r ihl ihr =>
    rw [Ordered, inorder_node, List.pairwise_append, List.pairwise_cons, ihl, ihr]
    constructor
    · rintro ⟨hl, hr, hlv, hvr⟩
      refine ⟨hl, ⟨hvr, hr⟩, fun x hx y hy => ?_⟩
      rcases List.mem_cons.mp hy with rfl | hy
      · exact hlv x hx
      · exact (hlv x hx).trans (hvr y hy)
    · rintro ⟨hl, ⟨hvr, hr⟩, hlr⟩
      exact ⟨hl, hr, fun x hx => hlr x hx v List.mem_cons_self, hvr⟩

theorem Ordered.mem_left (h : Ordered (.node v l r)) (hx : x < v) :
    x ∈ inorder (.node v l r) ↔ x ∈ inorder l := by
  obtain ⟨-, -, -, hr⟩ := h
  have hnot : x ∉ inorder r := fun hmem => lt_asymm hx (hr x hmem)
  simp [hx.ne, hnot]

theorem Ordered.mem_right (h : Ordered (.node v l r)) (hx : v < x) :
    x ∈ inorder (.node v l r) ↔ x ∈ inorder r := by
  obtain ⟨-, -, hl, -⟩ := h
  have hnot : x ∉ inorder l := fun hmem => lt_asymm hx (hl x hmem)
  simp [hx.ne', hnot]

theorem Ordered.leftmost_le (h : Ordered (.node v l r)) (hx : x ∈ inorder (.node v l r)) :
    leftmost v l ≤ x := by
  rw [ordered_iff, ← inorder_dropLeftmost, List.pairwise_cons] at h
  rw [← inorder_dropLeftmost] at hx
  rcases List.mem_cons.mp hx with rfl | hx
  · exact le_rfl
  · exact (h.1 x hx).le

theorem Ordered.le_rightmost (h : Ordered (.node v l r)) (hx : x ∈ inorder (.node v l r)) :
    x ≤ rightmost v r := by
  obtain ⟨xs, hxs⟩ := inorder_rightmost v l r
  rw [ordered_iff, hxs, List.pairwise_append] at h
  rw [hxs] at hx
  rcases List.mem_append.mp hx with hx | hx
  · exact (h.2.2 x hx _ (List.mem_singleton_self _)).le
  · exact (List.mem_singleton.mp hx).le

/-! ## Searching -/

def search (k : α) : BinaryTree α → Bool
  | .nil => false
  | .node v l r => if k = v then true else if k < v then search k l else search k r

theorem Ordered.search_iff (h : Ordered t) : search k t = true ↔ k ∈ inorder t := by
  induction t with
  | nil => simp [search]
  | node v l r ihl ihr =>
    rw [search]
    split_ifs with heq hlt
    · simp [heq]
    · rw [h.mem_left hlt, ihl h.1]
    · have hgt : v < k := lt_of_le_of_ne (not_lt.mp hlt) (Ne.symm heq)
      rw [h.mem_right hgt, ihr h.2.1]

/-! ## Inserting -/

def insert (k : α) : BinaryTree α → BinaryTree α
  | .nil => .node k .nil .nil
  | .node v l r =>
    if k = v then .node v l r
    else if k < v then .node v (insert k l) r
    else .node v l (insert k r)

theorem mem_inorder_insert : x ∈ inorder (insert k t) ↔ x = k ∨ x ∈ inorder t := by
  induction t with
  | nil => simp [insert]
  | node v l r ihl ihr =>
    rw [insert]
    split_ifs with heq hlt
    · exact (or_iff_right_of_imp (by rintro rfl; simp [heq])).symm
    · simp [ihl, or_assoc]
    · simp [ihr, or_left_comm]

theorem Ordered.insert (h : Ordered t) (k : α) : Ordered (insert k t) := by
  induction t with
  | nil => simp [SearchTree.insert, Ordered]
  | node v l r ihl ihr =>
    obtain ⟨hl, hr, hlv, hvr⟩ := id h
    rw [SearchTree.insert]
    split_ifs with heq hlt
    · exact h
    · refine ⟨ihl hl, hr, fun x hx => ?_, hvr⟩
      rcases mem_inorder_insert.mp hx with rfl | hx
      · exact hlt
      · exact hlv x hx
    · refine ⟨hl, ihr hr, hlv, fun x hx => ?_⟩
      rcases mem_inorder_insert.mp hx with rfl | hx
      · exact lt_of_le_of_ne (not_lt.mp hlt) (Ne.symm heq)
      · exact hvr x hx

/-! ## Erasing -/

def erase (k : α) : BinaryTree α → BinaryTree α
  | .nil => .nil
  | .node v l r =>
    if k < v then .node v (erase k l) r
    else if v < k then .node v l (erase k r)
    else join l r

theorem Ordered.inorder_erase (h : Ordered t) :
    inorder (erase k t) = (inorder t).filter (· ≠ k) := by
  have hkeep : ∀ xs : List α, (∀ x ∈ xs, x ≠ k) → xs.filter (· ≠ k) = xs :=
    fun xs hxs => List.filter_eq_self.mpr fun x hx => decide_eq_true (hxs x hx)
  induction t with
  | nil => rfl
  | node v l r ihl ihr =>
    obtain ⟨hl, hr, hlv, hvr⟩ := h
    rw [erase, inorder_node, List.filter_append]
    split_ifs with hlt hgt
    · have hright : ∀ x ∈ v :: inorder r, x ≠ k := by
        intro x hx
        rcases List.mem_cons.mp hx with rfl | hx
        · exact hlt.ne'
        · exact (hlt.trans (hvr x hx)).ne'
      rw [hkeep _ hright, inorder_node, ihl hl]
    · have hleft : ∀ x ∈ inorder l, x ≠ k := fun x hx => ((hlv x hx).trans hgt).ne
      rw [hkeep _ hleft, inorder_node, ihr hr, List.filter_cons, if_pos (decide_eq_true hgt.ne)]
    · obtain rfl : k = v := le_antisymm (not_lt.mp hgt) (not_lt.mp hlt)
      rw [List.filter_cons_of_neg (by simp), hkeep _ fun x hx => (hlv x hx).ne,
        hkeep _ fun x hx => (hvr x hx).ne', inorder_join]

theorem Ordered.erase (h : Ordered t) (k : α) : Ordered (erase k t) := by
  rw [ordered_iff, h.inorder_erase]
  exact (ordered_iff.mp h).filter _

/-! ## The values as a set -/

def keys (t : BinaryTree α) : Finset α := (inorder t).toFinset

@[simp] theorem mem_keys : x ∈ keys t ↔ x ∈ inorder t := List.mem_toFinset

theorem keys_insert : keys (insert k t) = Insert.insert k (keys t) := by
  ext x
  rw [mem_keys, mem_inorder_insert, Finset.mem_insert, mem_keys]

theorem Ordered.keys_erase (h : Ordered t) : keys (SearchTree.erase k t) = (keys t).erase k := by
  ext x
  rw [mem_keys, h.inorder_erase, Finset.mem_erase, mem_keys, List.mem_filter, and_comm]
  simp

theorem Ordered.nodup (h : Ordered t) : (inorder t).Nodup :=
  (ordered_iff.mp h).imp ne_of_lt

theorem Ordered.sort_keys (h : Ordered t) : (keys t).sort (· ≤ ·) = inorder t := by
  refine (List.toFinset_sort (· ≤ ·) h.nodup).mpr ?_
  exact (ordered_iff.mp h).imp le_of_lt

/-! ## The value of the least rank

A rank that falls up to `x` and rises from there on, such as a distance to `x`, is least at
one of the values that the search for `x` visits. -/

section Closest
variable [LinearOrder β] {rank : α → β} {best : α}

def closer (rank : α → β) (best v : α) : α := if rank v < rank best then v else best

def closest (rank : α → β) (x : α) : α → BinaryTree α → α
  | best, .nil => best
  | best, .node v l r =>
    if x = v then x
    else if x < v then closest rank x (closer rank best v) l
    else closest rank x (closer rank best v) r

omit [LinearOrder α] in
theorem rank_closer_le (rank : α → β) (best v : α) : rank (closer rank best v) ≤ rank best ∧ rank (closer rank best v) ≤ rank v := by
  rw [closer]
  split_ifs with h
  · exact ⟨h.le, le_rfl⟩
  · exact ⟨le_rfl, not_lt.mp h⟩

omit [LinearOrder α] in
theorem closer_eq : closer rank best v = v ∨ closer rank best v = best := by
  rw [closer]
  split_ifs with h
  · exact .inl rfl
  · exact .inr rfl

theorem closest_mem : closest rank x best t = best ∨ closest rank x best t ∈ inorder t := by
  have hstep : ∀ {w v b : α} {xs : List α}, w = closer rank b v ∨ w ∈ xs → w = b ∨ w = v ∨ w ∈ xs := by
    rintro w v b xs (rfl | hmem)
    · exact closer_eq.symm.imp_right .inl
    · exact .inr (.inr hmem)
  induction t generalizing best with
  | nil => exact .inl rfl
  | node v l r ihl ihr =>
    rw [closest]
    split_ifs with heq hlt
    · exact .inr (by simp [heq])
    · refine (hstep ihl).imp_right fun h => ?_
      rw [inorder_node, List.mem_append, List.mem_cons]
      exact h.elim (fun hv => .inr (.inl hv)) .inl
    · refine (hstep ihr).imp_right fun h => ?_
      rw [inorder_node, List.mem_append, List.mem_cons]
      exact .inr h

theorem Ordered.rank_closest_le (h : Ordered t) (hfall : AntitoneOn rank (Set.Iic x))
    (hrise : MonotoneOn rank (Set.Ici x)) (best : α) :
    rank (closest rank x best t) ≤ rank best ∧
      ∀ k ∈ inorder t, rank (closest rank x best t) ≤ rank k := by
  have hleast : ∀ k, rank x ≤ rank k := by
    intro k
    rcases le_total k x with hk | hk
    · exact hfall hk Set.self_mem_Iic hk
    · exact hrise Set.self_mem_Ici hk hk
  induction t generalizing best with
  | nil => exact ⟨le_rfl, by simp⟩
  | node v l r ihl ihr =>
    obtain ⟨hl, hr, hlv, hvr⟩ := h
    obtain ⟨hbest, hv⟩ := rank_closer_le rank best v
    rw [closest]
    split_ifs with heq hlt
    · exact ⟨hleast best, fun k _ => hleast k⟩
    · obtain ⟨hle, hkeys⟩ := ihl hl (closer rank best v)
      refine ⟨hle.trans hbest, fun k hk => ?_⟩
      -- the values that are not searched lie behind the root
      rcases List.mem_append.mp hk with hk | hk
      · exact hkeys k hk
      · have hvk : v ≤ k := (List.mem_cons.mp hk).elim ge_of_eq fun hk => (hvr k hk).le
        exact (hle.trans hv).trans (hrise hlt.le (hlt.le.trans hvk) hvk)
    · have hgt : v < x := lt_of_le_of_ne (not_lt.mp hlt) (Ne.symm heq)
      obtain ⟨hle, hkeys⟩ := ihr hr (closer rank best v)
      refine ⟨hle.trans hbest, fun k hk => ?_⟩
      have hcases : k ≤ v ∨ k ∈ inorder r := by
        rcases List.mem_append.mp hk with hk | hk
        · exact .inl (hlv k hk).le
        · exact (List.mem_cons.mp hk).imp_left le_of_eq
      rcases hcases with hkv | hk
      · exact (hle.trans hv).trans (hfall (hkv.trans hgt.le) hgt.le hkv)
      · exact hkeys k hk

end Closest
end HftExercises.SearchTree
