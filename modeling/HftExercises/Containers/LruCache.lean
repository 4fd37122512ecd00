import HftExercises.Core.Execution
import HftExercises.Core.HashTable
import HftExercises.Core.NodeList

/-! # The LRU cache

The recency list has its least recent entry in front; the table maps keys to iterators into
it, which are the labels of its nodes. Dereferencing an iterator that is in no list, and
the front of an empty list, are `none`.
-/
namespace HftExercises.Lru

structure LruCache (K V : Type) where
  capacity : ℕ
  order : NodeList (K × V)
  map : AList fun _ : K => ℕ

inductive Call (K V : Type) where
  | get (key : K)
  | put (key : K) (value : V)
  deriving Repr

inductive Result (V : Type) where
  | got (value : Option V)
  | done
  deriving DecidableEq, Repr

namespace LruCache
variable {K V : Type} [DecidableEq K]

def create (capacity : ℕ) : LruCache K V := ⟨capacity, .empty, ∅⟩

omit [DecidableEq K] in
def size (c : LruCache K V) : ℕ := c.map.entries.length

def get (c : LruCache K V) (key : K) : Option (Option V × LruCache K V) :=
  match c.map.lookup key with
  | none => some (none, c)
  | some it => do
    let order ← c.order.spliceBack it
    let e ← order.node? it
    return (some e.2, { c with order := order })

def evictLru (c : LruCache K V) : Option (LruCache K V) := do
  let e ← c.order.front?
  return { c with map := c.map.erase e.1, order := c.order.popFront }

/-- `if (size() == capacity_) evict_lru();` -/
def makeRoom (c : LruCache K V) : Option (LruCache K V) :=
  if c.size = c.capacity then c.evictLru else some c

def put (c : LruCache K V) (key : K) (value : V) : Option (LruCache K V) :=
  match c.map.lookup key with
  | some it => do
    let e ← c.order.node? it
    let order ← c.order.assign it (e.1, value)
    let order ← order.spliceBack it
    return { c with order := order }
  | none => do
    let c ← c.makeRoom
    let order := c.order.pushBack (key, value)
    let it ← order.back?
    return { c with order := order, map := c.map.insert key it }

def step (c : LruCache K V) : Call K V → Option (Result V × LruCache K V)
  | .get key => (c.get key).map fun p => (.got p.1, p.2)
  | .put key value => (c.put key value).map fun c => (.done, c)

end LruCache

/-! ## The recency list

What the cache is for: the entries by recency, the least recent one first. -/

section Recency
variable {K V : Type} [DecidableEq K]

def without (l : List (K × V)) (key : K) : List (K × V) := l.filter fun e => !(e.1 == key)

def touch (capacity : ℕ) (l : List (K × V)) : Call K V → Result V × List (K × V)
  | .get key =>
    match l.find? fun e => e.1 == key with
    | none => (.got none, l)
    | some e => (.got (some e.2), without l key ++ [e])
  | .put key value =>
    if key ∈ l.map Prod.fst then (.done, without l key ++ [(key, value)])
    else (.done, (if l.length = capacity then l.tail else l) ++ [(key, value)])

def specStep (capacity : ℕ) (l : List (K × V)) (c : Call K V) :
    Option (Result V × List (K × V)) := some (touch capacity l c)

omit [DecidableEq K] in
theorem entries_ne_of_split {l before after : List (K × V)} (hl : (l.map Prod.fst).Nodup)
    {e : K × V} (h : l = before ++ e :: after) : ∀ x ∈ before ++ after, x.1 ≠ e.1 := by
  rw [h, List.map_append, List.map_cons, List.nodup_middle, List.nodup_cons, ← List.map_append] at hl
  intro x hx heq
  have hmem : x.1 ∈ (before ++ after).map Prod.fst := List.mem_map_of_mem hx
  exact hl.1 (heq ▸ hmem)

theorem without_of_split {l before after : List (K × V)} (hl : (l.map Prod.fst).Nodup) {e : K × V}
    (h : l = before ++ e :: after) : without l e.1 = before ++ after := by
  have hkeep : (before ++ after).filter (fun x => !(x.1 == e.1)) = before ++ after := by
    rw [List.filter_eq_self]
    intro x hx
    simpa using entries_ne_of_split hl h x hx
  rw [without, h, List.filter_append, List.filter_cons_of_neg (by simp), ← List.filter_append, hkeep]

end Recency

/-! ## The table and the list -/

variable {K V : Type} [DecidableEq K]

/-- The table maps exactly the keys in the list to their own nodes, and no key is in the
list twice. -/
structure Coherent (c : LruCache K V) : Prop where
  keys : (c.order.contents.map Prod.fst).Nodup
  map : ∀ k i, c.map.lookup k = some i ↔ ∃ v, (i, k, v) ∈ c.order.nodes

section Coherent
variable {c : LruCache K V} {k : K} {i : ℕ} {v : V}

theorem Coherent.lookup_eq_none (h : Coherent c) :
    c.map.lookup k = none ↔ k ∉ c.order.contents.map Prod.fst := by
  rw [Option.eq_none_iff_forall_ne_some]
  simp only [ne_eq, h.map, NodeList.contents, List.map_map, List.mem_map, Function.comp_apply]
  constructor
  · rintro hnone ⟨⟨i, k', v⟩, hn, rfl⟩
    exact hnone i ⟨v, hn⟩
  · rintro hnot i ⟨v, hn⟩
    exact hnot ⟨(i, k, v), hn, rfl⟩

theorem Coherent.size_eq (h : Coherent c) : c.size = c.order.nodes.length := by
  have hperm : c.map.keys.Perm (c.order.contents.map Prod.fst) := by
    refine (List.perm_ext_iff_of_nodup c.map.nodupKeys h.keys).mpr fun k => ?_
    change k ∈ c.map ↔ _
    rw [← AList.lookup_isSome, Option.isSome_iff_ne_none, ne_eq, h.lookup_eq_none,
      not_not]
  have hlen := hperm.length_eq
  simpa [LruCache.size, AList.keys, List.keys, NodeList.contents] using hlen

/-- The list is rearranged and the value of a node replaced. -/
theorem Coherent.rearrange (h : Coherent c) {before after : List (ℕ × K × V)} {w : V}
    (hsplit : c.order.nodes = before ++ (i, k, v) :: after) {order : NodeList (K × V)}
    (horder : order.nodes = before ++ after ++ [(i, k, w)]) :
    Coherent { c with order := order } := by
  have hkeys : (order.contents.map Prod.fst).Perm (c.order.contents.map Prod.fst) := by
    simp only [NodeList.contents, horder, hsplit, List.map_append, List.map_cons, List.map_nil]
    refine (List.perm_append_singleton _ _).trans ?_
    exact List.perm_middle.symm
  refine ⟨hkeys.nodup_iff.mpr h.keys, fun k' j => ?_⟩
  have hmem : (∃ u, (j, k', u) ∈ order.nodes) ↔ ∃ u, (j, k', u) ∈ c.order.nodes := by
    simp only [horder, hsplit, List.mem_append, List.mem_cons, List.not_mem_nil, or_false,
      Prod.mk.injEq]
    constructor
    · rintro ⟨u, (hb | ha) | ⟨rfl, rfl, rfl⟩⟩
      · exact ⟨u, .inl hb⟩
      · exact ⟨u, .inr (.inr ha)⟩
      · exact ⟨v, .inr (.inl ⟨rfl, rfl, rfl⟩)⟩
    · rintro ⟨u, hb | ⟨rfl, rfl, rfl⟩ | ha⟩
      · exact ⟨u, .inl (.inl hb)⟩
      · exact ⟨w, .inr ⟨rfl, rfl, rfl⟩⟩
      · exact ⟨u, .inl (.inr ha)⟩
  rw [hmem]
  exact h.map k' j

/-- A new key is entered at the back. -/
theorem Coherent.enter (h : Coherent c) (hk : k ∉ c.order.contents.map Prod.fst) (v : V) :
    Coherent { c with
      order := c.order.pushBack (k, v), map := c.map.insert k c.order.next } := by
  have hkeys : ((c.order.pushBack (k, v)).contents.map Prod.fst).Nodup := by
    rw [NodeList.contents_pushBack, List.map_append, List.map_singleton]
    exact List.nodup_append_comm.mp (List.nodup_cons.mpr ⟨hk, h.keys⟩)
  refine ⟨hkeys, fun k' j => ?_⟩
  have hmem : (∃ u, (j, k', u) ∈ (c.order.pushBack (k, v)).nodes) ↔
      (∃ u, (j, k', u) ∈ c.order.nodes) ∨ j = c.order.next ∧ k' = k := by
    simp [exists_or]
  change (c.map.insert k c.order.next).lookup k' = some j ↔ _
  rw [hmem]
  by_cases hkk : k' = k
  · subst hkk
    have hold : ¬∃ u, (j, k', u) ∈ c.order.nodes := by
      rintro ⟨u, hu⟩
      have hne := h.lookup_eq_none.mpr hk
      rw [(h.map k' j).mpr ⟨u, hu⟩] at hne
      cases hne
    rw [AList.lookup_insert]
    simp [hold, eq_comm]
  · rw [AList.lookup_insert_ne hkk, h.map]
    simp [hkk]

/-- The least recent key goes, from the table and from the list. -/
theorem Coherent.evict (h : Coherent c) {rest : List (ℕ × K × V)}
    (hnodes : c.order.nodes = (i, k, v) :: rest) :
    Coherent { c with map := c.map.erase k, order := c.order.popFront } := by
  have hpop : c.order.popFront.nodes = rest := by
    rw [NodeList.nodes_popFront, hnodes, List.tail_cons]
  have hkeys := h.keys
  rw [NodeList.contents, hnodes, List.map_cons, List.map_cons, List.nodup_cons] at hkeys
  refine ⟨by rw [NodeList.contents, hpop]; exact hkeys.2, fun k' j => ?_⟩
  change (c.map.erase k).lookup k' = some j ↔ _
  rw [hpop]
  by_cases hkk : k' = k
  · subst hkk
    rw [AList.lookup_erase]
    refine iff_of_false (by simp) ?_
    rintro ⟨u, hu⟩
    exact hkeys.1 (List.mem_map.mpr ⟨(k', u), List.mem_map.mpr ⟨_, hu, rfl⟩, rfl⟩)
  · rw [AList.lookup_erase_ne hkk, h.map, hnodes]
    simp [hkk]

end Coherent

/-! ## The calls -/

/-- The cache stands for the recency list. -/
structure StandsFor (capacity : ℕ) (c : LruCache K V) (l : List (K × V)) : Prop where
  coherent : Coherent c
  contents : c.order.contents = l
  bound : c.capacity = capacity
  size : l.length ≤ capacity

section Steps
variable {capacity : ℕ} {c : LruCache K V} {l : List (K × V)} {k : K} {v : V}

theorem StandsFor.keys (h : StandsFor capacity c l) : (l.map Prod.fst).Nodup :=
  h.contents ▸ h.coherent.keys

theorem StandsFor.size_eq (h : StandsFor capacity c l) : c.size = l.length := by
  rw [h.coherent.size_eq, ← h.contents, NodeList.contents, List.length_map]

/-- A key that is in the list is found at its node. -/
theorem StandsFor.find_some (h : StandsFor capacity c l) (hk : k ∈ l.map Prod.fst) :
    ∃ (i : ℕ) (v : V) (before after : List (ℕ × K × V)), c.map.lookup k = some i ∧
      c.order.nodes = before ++ (i, k, v) :: after ∧
      l = before.map Prod.snd ++ (k, v) :: after.map Prod.snd := by
  obtain ⟨⟨k', v⟩, he, rfl⟩ := List.mem_map.mp hk
  rw [← h.contents, NodeList.contents, List.mem_map] at he
  obtain ⟨⟨i, e⟩, hn, rfl⟩ := he
  obtain ⟨before, after, hsplit⟩ := NodeList.exists_split hn
  refine ⟨i, v, before, after, (h.coherent.map _ _).mpr ⟨v, hn⟩, hsplit, ?_⟩
  rw [← h.contents, NodeList.contents, hsplit, List.map_append, List.map_cons]

/-- The list after a hit: the other entries, then the one that was touched. -/
theorem StandsFor.hit (h : StandsFor capacity c l) {i : ℕ} {w : V}
    {before after : List (ℕ × K × V)} (hsplit : c.order.nodes = before ++ (i, k, v) :: after)
    (hl : l = before.map Prod.snd ++ (k, v) :: after.map Prod.snd) {order : NodeList (K × V)}
    (horder : order.nodes = before ++ after ++ [(i, k, w)]) :
    StandsFor capacity { c with order := order } (without l k ++ [(k, w)]) := by
  have hrest := without_of_split h.keys hl
  refine ⟨h.coherent.rearrange hsplit horder, ?_, h.bound, ?_⟩
  · rw [hrest, NodeList.contents, horder]
    simp
  · have hsize := h.size
    rw [hl, List.length_append, List.length_cons] at hsize
    rw [hrest, List.length_append, List.length_append, List.length_singleton]
    omega

theorem StandsFor.get (h : StandsFor capacity c l) (k : K) :
    ∃ c', c.step (.get k) = some ((touch capacity l (.get k)).1, c') ∧
      StandsFor capacity c' (touch capacity l (.get k)).2 := by
  by_cases hk : k ∈ l.map Prod.fst
  · obtain ⟨i, v, before, after, hlookup, hsplit, hl⟩ := h.find_some hk
    obtain ⟨order, hsplice, horder, -⟩ := NodeList.spliceBack_of_split hsplit
    have hnode : order.node? i = some (k, v) := NodeList.node?_eq_some_iff.mpr (by simp [horder])
    have hfind : l.find? (fun e => e.1 == k) = some (k, v) :=
      find?_key_of_mem (f := Prod.fst) (a := (k, v)) h.keys (by simp [hl])
    refine ⟨{ c with order := order }, ?_, ?_⟩
    · simp [LruCache.step, LruCache.get, hlookup, hsplice, hnode, touch, hfind]
    · have hafter : (touch capacity l (.get k)).2 = without l k ++ [(k, v)] := by
        simp [touch, hfind]
      rw [hafter]
      exact h.hit hsplit hl horder
  · have hlookup : c.map.lookup k = none := h.coherent.lookup_eq_none.mpr (h.contents.symm ▸ hk)
    have hfind : l.find? (fun e => e.1 == k) = none := by
      rw [List.find?_eq_none]
      intro e he
      simpa using fun heq : e.1 = k => hk (heq ▸ List.mem_map_of_mem he)
    refine ⟨c, ?_, ?_⟩
    · simp [LruCache.step, LruCache.get, hlookup, touch, hfind]
    · simpa [touch, hfind] using h

/-- A full cache makes room for one entry. -/
theorem StandsFor.makeRoom (hcapacity : 1 ≤ capacity) (h : StandsFor capacity c l) :
    ∃ c', c.makeRoom = some c' ∧
      StandsFor capacity c' (if l.length = capacity then l.tail else l) ∧
      (if l.length = capacity then l.tail else l).length < capacity := by
  have hsize := h.size
  rw [LruCache.makeRoom, h.size_eq, h.bound]
  split_ifs with hfull
  · -- the front exists, as a full cache has an entry
    cases hnodes : c.order.nodes with
    | nil =>
      have hnil : l = [] := by rw [← h.contents, NodeList.contents, hnodes, List.map_nil]
      rw [hnil, List.length_nil] at hfull
      omega
    | cons n rest =>
      obtain ⟨i, k, v⟩ := n
      have hl : l = (k, v) :: rest.map Prod.snd := by
        rw [← h.contents, NodeList.contents, hnodes, List.map_cons]
      have hevict : c.evictLru =
          some { c with map := c.map.erase k, order := c.order.popFront } := by
        simp [LruCache.evictLru, NodeList.front?, hnodes]
      have hcontents : c.order.popFront.contents = rest.map Prod.snd := by
        rw [NodeList.contents_popFront, NodeList.contents, hnodes, List.map_cons, List.tail_cons]
      have hlen : (rest.map Prod.snd).length < capacity := by
        rw [hl, List.length_cons] at hfull
        omega
      refine ⟨_, hevict, ?_, ?_⟩
      · rw [hl, List.tail_cons]
        exact ⟨h.coherent.evict hnodes, hcontents, h.bound, hlen.le⟩
      · rw [hl, List.tail_cons]
        exact hlen
  · exact ⟨c, rfl, h, by omega⟩

theorem StandsFor.enter (h : StandsFor capacity c l) (hk : k ∉ l.map Prod.fst)
    (hroom : l.length < capacity) (v : V) :
    StandsFor capacity { c with
      order := c.order.pushBack (k, v), map := c.map.insert k c.order.next } (l ++ [(k, v)]) := by
  have hk' : k ∉ c.order.contents.map Prod.fst := h.contents.symm ▸ hk
  refine ⟨h.coherent.enter hk' v, ?_, h.bound, ?_⟩
  · rw [← h.contents]
    exact NodeList.contents_pushBack ..
  · rw [List.length_append, List.length_singleton]
    exact hroom

theorem StandsFor.put (hcapacity : 1 ≤ capacity) (h : StandsFor capacity c l) (k : K) (w : V) :
    ∃ c', c.step (.put k w) = some ((touch capacity l (.put k w)).1, c') ∧
      StandsFor capacity c' (touch capacity l (.put k w)).2 := by
  by_cases hk : k ∈ l.map Prod.fst
  · obtain ⟨i, v, before, after, hlookup, hsplit, hl⟩ := h.find_some hk
    have hnode : c.order.node? i = some (k, v) := NodeList.node?_eq_some_iff.mpr (by simp [hsplit])
    obtain ⟨updated, hassign, hupdated, -⟩ := NodeList.assign_of_split hsplit (k, w)
    obtain ⟨order, hsplice, horder, -⟩ := NodeList.spliceBack_of_split hupdated
    refine ⟨{ c with order := order }, ?_, ?_⟩
    · simp [LruCache.step, LruCache.put, hlookup, hnode, hassign, hsplice, touch, hk]
    · have hafter : (touch capacity l (.put k w)).2 = without l k ++ [(k, w)] := by
        rw [touch, if_pos hk]
      rw [hafter]
      exact h.hit hsplit hl horder
  · have hlookup : c.map.lookup k = none := h.coherent.lookup_eq_none.mpr (h.contents.symm ▸ hk)
    obtain ⟨c', hroom, h', hlen⟩ := h.makeRoom hcapacity
    have hk' : k ∉ (if l.length = capacity then l.tail else l).map Prod.fst := by
      split_ifs
      · exact fun hmem => hk (((List.tail_sublist l).map Prod.fst).subset hmem)
      · exact hk
    have hput : c.put k w = some { c' with
        order := c'.order.pushBack (k, w), map := c'.map.insert k c'.order.next } := by
      simp [LruCache.put, hlookup, hroom, NodeList.back?_pushBack]
    refine ⟨{ c' with
      order := c'.order.pushBack (k, w), map := c'.map.insert k c'.order.next }, ?_, ?_⟩
    · rw [LruCache.step, hput, touch, if_neg hk]
      rfl
    · rw [touch, if_neg hk]
      exact h'.enter hk' hlen w

end Steps

/-- Every run is defined and answers as the recency list does; the table maps exactly the keys
of the list, none of them twice, to their own nodes; and the size is at most the capacity. -/
theorem lruCache_refines {capacity : ℕ} (hcapacity : 1 ≤ capacity) (calls : List (Call K V)) :
    ∃ es fs c l, exec LruCache.step (LruCache.create capacity) calls = some (es, c) ∧
      exec (specStep capacity) [] calls = some (fs, l) ∧
      es.map Event.result = fs.map Event.result ∧ c.order.contents = l ∧
      (l.map Prod.fst).Nodup ∧
      (∀ k i, c.map.lookup k = some i ↔ ∃ v, (i, k, v) ∈ c.order.nodes) ∧
      c.size = l.length ∧ c.size ≤ capacity := by
  have hstart : StandsFor capacity (LruCache.create capacity : LruCache K V) [] := by
    refine ⟨⟨List.nodup_nil, ?_⟩, rfl, rfl, Nat.zero_le capacity⟩
    intro k i
    simp [LruCache.create, NodeList.empty]
  have hstep : ∀ (es : List (Event (LruCache K V) (Call K V) (Result V))) (c : LruCache K V)
      (l : List (K × V)) (i : Call K V), StandsFor capacity c l → True →
      ∃ o c' l', c.step i = some (o, c') ∧ specStep capacity l i = some (o, l') ∧
        StandsFor capacity c' l' := by
    intro es c l i h _
    cases i with
    | get k =>
      obtain ⟨c', hc, h'⟩ := h.get k
      exact ⟨_, c', _, hc, rfl, h'⟩
    | put k v =>
      obtain ⟨c', hc, h'⟩ := h.put hcapacity k v
      exact ⟨_, c', _, hc, rfl, h'⟩
  have hcalls : Admissible (fun _ _ => True) calls := fun _ _ _ _ => trivial
  obtain ⟨es, fs, c, l, hexec, hspec, hresults, h⟩ :=
    exec_lockstep (fun _ c l => StandsFor capacity c l) hstep hstart hcalls
  refine ⟨es, fs, c, l, hexec, hspec, hresults, h.contents, h.keys, h.coherent.map, h.size_eq, ?_⟩
  rw [h.size_eq]
  exact h.size

/-- A read saves an entry from the next eviction. -/
theorem lruCache_refines_touched :
    ∃ es fs c l, exec LruCache.step (LruCache.create 2 : LruCache Char ℕ)
        [.put 'a' 1, .put 'b' 2, .get 'a', .put 'c' 3, .get 'b'] = some (es, c) ∧
      exec (specStep 2) [] [.put 'a' 1, .put 'b' 2, .get 'a', .put 'c' 3, .get 'b'] = some (fs, l) ∧
      es.map Event.result = fs.map Event.result ∧ c.order.contents = l ∧
      fs.map Event.result = [.done, .done, .got (some 1), .done, .got none] ∧
      l = [('a', 1), ('c', 3)] := by
  obtain ⟨es, fs, c, l, hexec, hspec, hresults, hcontents, -⟩ := lruCache_refines (K := Char)
    (V := ℕ) (show 1 ≤ 2 by decide) [.put 'a' 1, .put 'b' 2, .get 'a', .put 'c' 3, .get 'b']
  have hrun : exec (specStep 2) ([] : List (Char × ℕ))
      [.put 'a' 1, .put 'b' 2, .get 'a', .put 'c' 3, .get 'b'] = some (_, _) := rfl
  obtain ⟨rfl, rfl⟩ := Prod.mk.inj (Option.some.inj (hrun.symm.trans hspec))
  exact ⟨es, _, c, _, hexec, hrun, hresults, hcontents, rfl, rfl⟩

end HftExercises.Lru

/-! ## Caches of two capacities

Under the same calls, what a small cache holds a larger one holds too, in the same
order of recency: a read that the small one answers is answered by the larger one.
-/
namespace HftExercises.Lru
variable {K V : Type} [DecidableEq K]

/-- The recency list of a cache of `m` entries beside that of a larger one. They differ
only once the small cache is full. -/
structure Includes (m : ℕ) (small large : List (K × V)) : Prop where
  sublist : small.Sublist large
  full : small.length < m → small = large

theorem without_sublist {small large : List (K × V)} (h : small.Sublist large) (k : K) :
    (without small k).Sublist (without large k) :=
  h.filter _

theorem without_of_notMem {l : List (K × V)} {k : K} (hk : k ∉ l.map Prod.fst) :
    without l k = l := by
  rw [without, List.filter_eq_self]
  intro e he
  simpa using fun heq : e.1 = k => hk (heq ▸ List.mem_map_of_mem he)

theorem find_of_notMem {l : List (K × V)} {k : K} (hk : k ∉ l.map Prod.fst) :
    l.find? (fun e => e.1 == k) = none := by
  rw [List.find?_eq_none]
  intro e he
  simpa using fun heq : e.1 = k => hk (heq ▸ List.mem_map_of_mem he)

theorem length_without {l : List (K × V)} (hl : (l.map Prod.fst).Nodup) {k : K}
    (hk : k ∈ l.map Prod.fst) : (without l k).length + 1 = l.length := by
  obtain ⟨e, he, rfl⟩ := List.mem_map.mp hk
  obtain ⟨before, after, hsplit⟩ := List.append_of_mem he
  rw [without_of_split hl hsplit, hsplit, List.length_append, List.length_append, List.length_cons]
  omega

section Touch
variable {m n : ℕ} {small large : List (K × V)} {k : K}

/-- The same entry comes to the back of both. -/
theorem Includes.hit (h : Includes m small large) (hkeys : (small.map Prod.fst).Nodup)
    (hk : k ∈ small.map Prod.fst) (e : K × V) :
    Includes m (without small k ++ [e]) (without large k ++ [e]) := by
  have hlength := length_without hkeys hk
  refine ⟨(without_sublist h.sublist k).append_right [e], fun hlen => ?_⟩
  rw [List.length_append, List.length_singleton, hlength] at hlen
  rw [h.full hlen]

/-- An entry comes to the back of the larger list only. -/
theorem Includes.refresh (h : Includes m small large) (hk : k ∉ small.map Prod.fst)
    (hmem : k ∈ large.map Prod.fst) (e : K × V) :
    Includes m small (without large k ++ [e]) := by
  refine ⟨?_, fun hlen => absurd hmem (h.full hlen ▸ hk)⟩
  have hrest := without_sublist h.sublist k
  rw [without_of_notMem hk] at hrest
  exact hrest.trans (List.sublist_append_left ..)

omit [DecidableEq K] in
/-- A new entry comes to the back of a full small list, without its least recent one. -/
theorem Includes.replace (hm : 1 ≤ m) (hfull : small.length = m) {rest : List (K × V)}
    (hrest : small.tail.Sublist rest) (e : K × V) :
    Includes m (small.tail ++ [e]) (rest ++ [e]) := by
  refine ⟨hrest.append_right [e], fun hlen => ?_⟩
  rw [List.length_append, List.length_singleton, List.length_tail] at hlen
  omega

/-- A call keeps the inclusion, and what the small cache answers the larger one answers. -/
theorem Includes.touch (h : Includes m small large) (hm : 1 ≤ m) (hmn : m ≤ n)
    (hsmall : (small.map Prod.fst).Nodup) (hlarge : (large.map Prod.fst).Nodup)
    (hsize : small.length ≤ m) (call : Call K V) :
    (∀ v, (touch m small call).1 = .got (some v) → (touch n large call).1 = .got (some v)) ∧
      Includes m (touch m small call).2 (touch n large call).2 := by
  cases call with
  | get k =>
    by_cases hk : k ∈ small.map Prod.fst
    · obtain ⟨e, he, rfl⟩ := List.mem_map.mp hk
      have hs := find?_key_of_mem (f := Prod.fst) hsmall he
      have hl := find?_key_of_mem (f := Prod.fst) hlarge (h.sublist.subset he)
      simp only [Lru.touch, hs, hl]
      exact ⟨fun v hv => hv, h.hit hsmall hk e⟩
    · have hs := find_of_notMem hk
      by_cases hmem : k ∈ large.map Prod.fst
      · obtain ⟨e, he, rfl⟩ := List.mem_map.mp hmem
        have hl := find?_key_of_mem (f := Prod.fst) hlarge he
        simp only [Lru.touch, hs, hl]
        exact ⟨by simp, h.refresh hk hmem e⟩
      · simp only [Lru.touch, hs, find_of_notMem hmem]
        exact ⟨by simp, h⟩
  | put k v =>
    refine ⟨fun w hw => ?_, ?_⟩
    · simp only [Lru.touch] at hw
      split_ifs at hw
    by_cases hk : k ∈ small.map Prod.fst
    · have hmem : k ∈ large.map Prod.fst := (h.sublist.map Prod.fst).subset hk
      simp only [Lru.touch, if_pos hk, if_pos hmem]
      exact h.hit hsmall hk (k, v)
    · by_cases hmem : k ∈ large.map Prod.fst
      · -- the larger cache knows a key that the small one does not: the small one is full
        have hfull : small.length = m := by
          by_contra hne
          exact hk (h.full (by omega) ▸ hmem)
        have hrest := without_sublist h.sublist k
        rw [without_of_notMem hk] at hrest
        simp only [Lru.touch, if_neg hk, if_pos hmem, if_pos hfull]
        exact .replace hm hfull ((List.tail_sublist small).trans hrest) (k, v)
      · simp only [Lru.touch, if_neg hk, if_neg hmem]
        by_cases hfull : small.length = m
        · rw [if_pos hfull]
          split_ifs
          · exact .replace hm hfull h.sublist.tail (k, v)
          · exact .replace hm hfull ((List.tail_sublist small).trans h.sublist) (k, v)
        · have heq : small = large := h.full (by omega)
          have hroom : large.length ≠ n := by
            rw [← heq]
            omega
          rw [if_neg hfull, if_neg hroom, heq]
          exact ⟨List.Sublist.refl _, fun _ => rfl⟩

end Touch

/-- The two caches stand for recency lists of which one includes the other. -/
def Beside (m n : ℕ) (c d : LruCache K V) : Prop :=
  ∃ small large, StandsFor m c small ∧ StandsFor n d large ∧ Includes m small large

theorem StandsFor.step {capacity : ℕ} {c : LruCache K V} {l : List (K × V)}
    (h : StandsFor capacity c l) (hcapacity : 1 ≤ capacity) (call : Call K V) :
    ∃ c', c.step call = some ((touch capacity l call).1, c') ∧
      StandsFor capacity c' (touch capacity l call).2 := by
  cases call with
  | get k => exact h.get k
  | put k v => exact h.put hcapacity k v

theorem standsFor_create (capacity : ℕ) :
    StandsFor capacity (LruCache.create capacity : LruCache K V) [] := by
  refine ⟨⟨List.nodup_nil, fun k i => ?_⟩, rfl, rfl, Nat.zero_le capacity⟩
  simp [LruCache.create, NodeList.empty]

theorem Beside.step {m n : ℕ} (hm : 1 ≤ m) (hmn : m ≤ n) {c d : LruCache K V}
    (h : Beside m n c d) (call : Call K V) :
    ∃ o c' w d', c.step call = some (o, c') ∧ d.step call = some (w, d') ∧
      (∀ v, o = .got (some v) → w = .got (some v)) ∧ Beside m n c' d' := by
  obtain ⟨small, large, hc, hd, hincl⟩ := h
  obtain ⟨c', hcstep, hc'⟩ := hc.step hm call
  obtain ⟨d', hdstep, hd'⟩ := hd.step (hm.trans hmn) call
  obtain ⟨hanswer, hincl'⟩ := hincl.touch hm hmn hc.keys hd.keys hc.size call
  exact ⟨_, c', _, d', hcstep, hdstep, hanswer, _, _, hc', hd', hincl'⟩

/-- A larger cache answers every read that a smaller one answers, with the same value,
and holds its entries in the same order of recency; until the smaller one is full the two
hold the same. -/
theorem lruCache_inclusion {m n : ℕ} (hm : 1 ≤ m) (hmn : m ≤ n) (calls : List (Call K V)) :
    ∃ es fs c d, exec LruCache.step (LruCache.create m) calls = some (es, c) ∧
      exec LruCache.step (LruCache.create n) calls = some (fs, d) ∧
      List.Forall₂ (fun e f => ∀ v, e.result = .got (some v) → f.result = .got (some v)) es fs ∧
      c.order.contents.Sublist d.order.contents ∧
      (c.size < m → c.order.contents = d.order.contents) := by
  have hstart : Beside m n (LruCache.create m : LruCache K V) (LruCache.create n) :=
    ⟨[], [], standsFor_create m, standsFor_create n, List.Sublist.refl _, fun _ => rfl⟩
  obtain ⟨es, fs, c, d, hc, hd, hall, small, large, hsmall, hlarge, hincl⟩ :=
    exec_related (Beside m n) (fun _ (o w : Result V) => ∀ v, o = .got (some v) → w = .got (some v))
      (fun _ _ call h => h.step hm hmn call) hstart calls
  refine ⟨es, fs, c, d, hc, hd, hall, ?_, ?_⟩
  · rw [hsmall.contents, hlarge.contents]
    exact hincl.sublist
  · rw [hsmall.size_eq, hsmall.contents, hlarge.contents]
    exact hincl.full

/-- A read refreshes an entry that only the larger cache still holds. -/
theorem lruCache_inclusion_refreshed :
    ∃ es fs c d, exec LruCache.step (LruCache.create 1 : LruCache Char ℕ)
        [.put 'a' 1, .put 'b' 2, .get 'a', .put 'c' 3, .get 'c'] = some (es, c) ∧
      exec LruCache.step (LruCache.create 2)
        [.put 'a' 1, .put 'b' 2, .get 'a', .put 'c' 3, .get 'c'] = some (fs, d) ∧
      c.order.contents.Sublist d.order.contents := by
  obtain ⟨es, fs, c, d, hc, hd, -, hsub, -⟩ := lruCache_inclusion (K := Char) (V := ℕ)
    (show 1 ≤ 1 by decide) (show 1 ≤ 2 by decide)
    [.put 'a' 1, .put 'b' 2, .get 'a', .put 'c' 3, .get 'c']
  exact ⟨es, fs, c, d, hc, hd, hsub⟩

end HftExercises.Lru
