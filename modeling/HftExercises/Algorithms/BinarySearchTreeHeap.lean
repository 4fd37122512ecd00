import HftExercises.Algorithms.BinarySearchTree
import HftExercises.Core.MachineWord
import Mathlib.Data.Prod.Lex

/-! # Trees in the heap

A pointer represents a tree whose values are the addresses of the nodes with their keys.
The operations that write nothing compute what the searches of the tree compute.
-/
namespace HftExercises.Bst
open SearchTree (inorder)

abbrev Shape := BinaryTree (ℕ × Int32)

def addrs (t : Shape) : List ℕ := (inorder t).map Prod.fst

def values (t : Shape) : BinaryTree Int32 := t.map Prod.snd

section Shape
variable {x : ℕ × Int32} {t l r : Shape} {a : ℕ}

@[simp] theorem addrs_nil : addrs .nil = [] := rfl

@[simp] theorem values_nil : values .nil = .nil := rfl

@[simp] theorem values_node : values (.node x l r) = .node x.2 (values l) (values r) := rfl

theorem mem_addrs_node : a ∈ addrs (.node x l r) ↔ a = x.1 ∨ a ∈ addrs l ∨ a ∈ addrs r := by
  simp [addrs, or_left_comm]

theorem nodup_addrs_node : (addrs (.node x l r)).Nodup ↔
    ((addrs l).Nodup ∧ x.1 ∉ addrs l) ∧ ((addrs r).Nodup ∧ x.1 ∉ addrs r) ∧
      ∀ a ∈ addrs l, a ∉ addrs r := by
  have hsplit : addrs (.node x l r) = addrs l ++ x.1 :: addrs r := by simp [addrs]
  rw [hsplit, List.nodup_middle, List.nodup_cons, List.nodup_append', List.mem_append,
    List.disjoint_left]
  tauto

/-- The fuel left at the children of a node. -/
theorem exists_fuel {fuel : ℕ} (hfuel : (BinaryTree.node x l r).numNodes < fuel) :
    ∃ n, fuel = n + 1 ∧ l.numNodes < n ∧ r.numNodes < n := by
  rw [BinaryTree.numNodes] at hfuel
  exact ⟨fuel - 1, by omega, by omega, by omega⟩

theorem length_addrs (t : Shape) : (addrs t).length = t.numNodes := by
  rw [addrs, List.length_map, SearchTree.length_inorder]

end Shape

variable {ι : Type} {h h' : Heap ι} {p : Option ℕ} {s : Slot ι} {x : ℕ × Int32} {t l r : Shape}
variable {a fuel : ℕ} {k key : Int32}

/-- The pointer is the root of the tree. -/
def Rep (h : Heap ι) : Option ℕ → Shape → Prop
  | p, .nil => p = none
  | p, .node x l r => p = some x.1 ∧ h.key x.1 = some x.2 ∧
      Rep h (h.slot (.left x.1)) l ∧ Rep h (h.slot (.right x.1)) r

theorem Rep.key_eq (hrep : Rep h p t) (hx : x ∈ inorder t) : h.key x.1 = some x.2 := by
  induction t generalizing p with
  | nil => simp at hx
  | node y l r ihl ihr =>
    obtain ⟨-, hkey, hl, hr⟩ := hrep
    rcases List.mem_append.mp hx with hx | hx
    · exact ihl hl hx
    · rcases List.mem_cons.mp hx with rfl | hx
      · exact hkey
      · exact ihr hr hx

theorem Rep.lt_fresh (hrep : Rep h p t) (ha : a ∈ addrs t) : a < h.fresh := by
  obtain ⟨x, hx, rfl⟩ := List.mem_map.mp ha
  exact Heap.lt_fresh (by rw [hrep.key_eq hx]; rfl)

/-- The fuel of the operations suffices. -/
theorem Rep.numNodes_le (hrep : Rep h p t) (ht : (addrs t).Nodup) : t.numNodes ≤ h.fresh := by
  have hsub : addrs t ⊆ List.range h.fresh := fun a ha => List.mem_range.mpr (hrep.lt_fresh ha)
  have hle := (List.subperm_of_subset ht hsub).length_le
  rwa [length_addrs, List.length_range] at hle

/-- The node has the same key and the same children. -/
structure SameNode (h h' : Heap ι) (a : ℕ) : Prop where
  key : h'.key a = h.key a
  left : h'.slot (.left a) = h.slot (.left a)
  right : h'.slot (.right a) = h.slot (.right a)

theorem SameNode.trans {h₂ : Heap ι} (hs : SameNode h h' a) (hs₂ : SameNode h' h₂ a) :
    SameNode h h₂ a :=
  ⟨hs₂.key.trans hs.key, hs₂.left.trans hs.left, hs₂.right.trans hs.right⟩

theorem Rep.congr (hrep : Rep h p t) (hsame : ∀ a ∈ addrs t, SameNode h h' a) : Rep h' p t := by
  induction t generalizing p with
  | nil => exact hrep
  | node x l r ihl ihr =>
    obtain ⟨hp, hkey, hl, hr⟩ := hrep
    have hroot := hsame x.1 (mem_addrs_node.mpr (.inl rfl))
    refine ⟨hp, hroot.key.trans hkey, ?_, ?_⟩
    · rw [hroot.left]
      exact ihl hl fun a ha => hsame a (mem_addrs_node.mpr (.inr (.inl ha)))
    · rw [hroot.right]
      exact ihr hr fun a ha => hsame a (mem_addrs_node.mpr (.inr (.inr ha)))

theorem load_left (hkey : h.key a = some k) : h.load (.left a) = some (h.slot (.left a)) := by
  simp [Heap.load, Heap.live, hkey]

theorem load_right (hkey : h.key a = some k) : h.load (.right a) = some (h.slot (.right a)) := by
  simp [Heap.load, Heap.live, hkey]

/-- One descent of a search. -/
theorem load_side (hkey : h.key a = some k) {c : Prop} [Decidable c] :
    h.load (if c then .left a else .right a) = some (h.slot (if c then .left a else .right a)) := by
  split_ifs
  · exact load_left hkey
  · exact load_right hkey

/-! ## Readers -/

theorem containsFrom_eq (hrep : Rep h p t) (hfuel : t.numNodes < fuel) :
    h.containsFrom key fuel p = some (SearchTree.search key (values t)) := by
  induction t generalizing p fuel with
  | nil =>
    obtain ⟨fuel, rfl⟩ := Nat.exists_eq_add_one.mpr hfuel
    rw [Rep] at hrep
    subst hrep
    rfl
  | node x l r ihl ihr =>
    obtain ⟨fuel, rfl, hlfuel, hrfuel⟩ := exists_fuel hfuel
    obtain ⟨rfl, hkey, hl, hr⟩ := hrep
    simp only [Heap.containsFrom, hkey, Option.bind_eq_bind, Option.bind_some, load_side hkey,
      Option.pure_def, values_node, SearchTree.search]
    split_ifs with heq hlt
    · rfl
    · exact ihl hl hlfuel
    · exact ihr hr hrfuel

theorem findMin_eq (hrep : Rep h (some a) (.node x l r)) (hfuel : l.numNodes < fuel) :
    h.findMin fuel a = some (SearchTree.leftmost x l).1 := by
  induction l generalizing a x r fuel with
  | nil =>
    obtain ⟨fuel, rfl⟩ := Nat.exists_eq_add_one.mpr hfuel
    obtain ⟨⟨⟩, hkey, hl, -⟩ := hrep
    rw [Rep] at hl
    rw [Heap.findMin, load_left hkey, hl]
    rfl
  | node y l m ihl _ =>
    obtain ⟨fuel, rfl, hlfuel, hrfuel⟩ := exists_fuel hfuel
    obtain ⟨⟨⟩, hkey, hl, -⟩ := hrep
    rw [Heap.findMin, load_left hkey, hl.1]
    rw [hl.1] at hl
    exact ihl hl hlfuel

theorem findMax_eq (hrep : Rep h (some a) (.node x l r)) (hfuel : r.numNodes < fuel) :
    h.findMax fuel a = some (SearchTree.rightmost x r).1 := by
  induction r generalizing a x l fuel with
  | nil =>
    obtain ⟨fuel, rfl⟩ := Nat.exists_eq_add_one.mpr hfuel
    obtain ⟨⟨⟩, hkey, -, hr⟩ := hrep
    rw [Rep] at hr
    rw [Heap.findMax, load_right hkey, hr]
    rfl
  | node y m r _ ihr =>
    obtain ⟨fuel, rfl, hlfuel, hrfuel⟩ := exists_fuel hfuel
    obtain ⟨⟨⟩, hkey, -, hr⟩ := hrep
    rw [Heap.findMax, load_right hkey, hr.1]
    rw [hr.1] at hr
    exact ihr hr hrfuel

theorem collectInOrder_eq (hrep : Rep h p t) (hfuel : t.numNodes < fuel) (out : List Int32) :
    h.collectInOrder fuel p out = some (out ++ inorder (values t)) := by
  induction t generalizing p fuel out with
  | nil =>
    obtain ⟨fuel, rfl⟩ := Nat.exists_eq_add_one.mpr hfuel
    rw [Rep] at hrep
    subst hrep
    simp [Heap.collectInOrder]
  | node x l r ihl ihr =>
    obtain ⟨fuel, rfl, hlfuel, hrfuel⟩ := exists_fuel hfuel
    obtain ⟨rfl, hkey, hl, hr⟩ := hrep
    rw [Heap.collectInOrder, load_left hkey, load_right hkey, hkey]
    simp [ihl hl hlfuel, ihr hr hrfuel]

/-! ## The distance to a key -/

theorem toInt_llabs {d : Int64} (hd : -2 ^ 63 < d.toInt) : (llabs d).toInt = |d.toInt| := by
  have hneg : d < 0 ↔ d.toInt < 0 := Int64.lt_iff_toInt_lt
  rw [llabs]
  split_ifs with hlt
  · have hlt := hneg.mp hlt
    have hfits : SignedWord.Fits (-d.toInt) := ⟨by omega, by omega⟩
    rw [Int64.toInt_neg, hfits.bmod_eq, abs_of_neg hlt]
  · have hge := mt hneg.mpr hlt
    rw [abs_of_nonneg (not_lt.mp hge)]

/-- The subtraction of two `int` values as `long long` is exact. -/
theorem toInt_distance (k key : Int32) :
    (llabs (k.toInt64 - key.toInt64)).toInt = |k.toInt - key.toInt| := by
  have hk := k.le_toInt
  have hk' := k.toInt_lt
  have hkey := key.le_toInt
  have hkey' := key.toInt_lt
  have hfits : SignedWord.Fits (k.toInt - key.toInt) := ⟨by omega, by omega⟩
  have hsub : (k.toInt64 - key.toInt64).toInt = k.toInt - key.toInt := by
    rw [Int64.toInt_sub, Int32.toInt_toInt64, Int32.toInt_toInt64, hfits.bmod_eq]
  rw [toInt_llabs (by rw [hsub]; omega), hsub]

/-- The distance to `key`, then the key itself. -/
def rank (key k : Int32) : ℤ ×ₗ Int32 := toLex (|k.toInt - key.toInt|, k)

theorem rank_lt_iff {best : Int32} : rank key k < rank key best ↔
    llabs (k.toInt64 - key.toInt64) < llabs (best.toInt64 - key.toInt64) ∨
      (llabs (k.toInt64 - key.toInt64) = llabs (best.toInt64 - key.toInt64) ∧ k < best) := by
  rw [rank, rank, Prod.Lex.toLex_lt_toLex, Int64.lt_iff_toInt_lt, ← Int64.toInt_inj, toInt_distance,
    toInt_distance]

theorem rank_le_of_le_key {key j k : Int32} (hk : k ≤ key) (hjk : j ≤ k) :
    rank key k ≤ rank key j := by
  rcases hjk.eq_or_lt with rfl | hjk
  · exact le_rfl
  · have hle := Int32.le_iff_toInt_le.mp hk
    have hlt := Int32.lt_iff_toInt_lt.mp hjk
    refine le_of_lt (Prod.Lex.toLex_lt_toLex.mpr (.inl ?_))
    rw [abs_of_nonpos (by omega), abs_of_nonpos (by omega)]
    omega

theorem rank_le_of_key_le {key j k : Int32} (hj : key ≤ j) (hjk : j ≤ k) :
    rank key j ≤ rank key k := by
  rcases hjk.eq_or_lt with rfl | hjk
  · exact le_rfl
  · have hle := Int32.le_iff_toInt_le.mp hj
    have hlt := Int32.lt_iff_toInt_lt.mp hjk
    refine le_of_lt (Prod.Lex.toLex_lt_toLex.mpr (.inl ?_))
    rw [abs_of_nonneg (by omega), abs_of_nonneg (by omega)]
    omega

theorem nearestFrom_eq (hrep : Rep h p t) (hfuel : t.numNodes < fuel) (key best : Int32) :
    h.nearestFrom key fuel p best = some (SearchTree.closest (rank key) key best (values t)) := by
  induction t generalizing p fuel best with
  | nil =>
    obtain ⟨fuel, rfl⟩ := Nat.exists_eq_add_one.mpr hfuel
    rw [Rep] at hrep
    subst hrep
    rfl
  | node x l r ihl ihr =>
    obtain ⟨fuel, rfl, hlfuel, hrfuel⟩ := exists_fuel hfuel
    obtain ⟨rfl, hkey, hl, hr⟩ := hrep
    simp only [Heap.nearestFrom, hkey, Option.bind_eq_bind, Option.bind_some, load_side hkey,
      Option.pure_def, values_node, SearchTree.closest, ← rank_lt_iff]
    change (if key = x.2 then some key else h.nearestFrom key fuel _
      (SearchTree.closer (rank key) best x.2)) = _
    split_ifs with heq hlt
    · rfl
    · exact ihl hl hlfuel _
    · exact ihr hr hrfuel _

end HftExercises.Bst
