import HftExercises.Algorithms.BinarySearchTreeObjects
import HftExercises.Core.Execution

/-! # Runs of the binary search tree

A run of calls on tree objects is compared with the same calls on sets of keys.
-/
namespace HftExercises.Bst
open SearchTree (Ordered keys)

variable {ι : Type} {h h' : Heap ι} {d : Directory ι} {shape : ι → Shape}
variable {t other : ι} {S T : Finset Int32} {key : Int32}

theorem Represents.size_eq (hr : Represents h d shape) (ht : d t = some S) :
    h.size t = some (UInt64.ofNat S.card) := by
  rw [hr.size, ht]
  rfl

theorem Represents.size_eq_none (hr : Represents h d shape) (ht : d t = none) :
    (h.size t).isSome = false := by
  rw [hr.size, ht]
  rfl

/-- The trees are still there when the heap has only grown. -/
theorem Represents.grows (hr : Represents h d shape) (hg : Grows h h') (ht : d t = some S) :
    h'.slot (.root t) = h.slot (.root t) ∧ ∀ a ∈ addrs (shape t), SameNode h h' a :=
  ⟨hg.slots _ nofun, fun _ ha => hg.sameNode ((hr.stands t S ht).rep.lt_fresh ha)⟩

theorem Represents.lt_fresh (hr : Represents h d shape) (ht : d t = some S) :
    ∀ a ∈ addrs (shape t), a < h.fresh := fun _ ha => (hr.stands t S ht).rep.lt_fresh ha

section Step
variable [DecidableEq ι]

theorem resize_self {n : Option UInt64} (hn : h.size t = n) : h.resize t n = h := by
  subst hn
  rw [Heap.resize, Function.update_eq_self]

/-- The copy that a copy constructor or an assignment makes. -/
theorem clone_root (hr : Represents h d shape) (ho : d other = some S) :
    ∃ q h' u, Heap.clone (h.fresh + 1) h (h.slot (.root other)) = some (q, h') ∧ Grows h h' ∧
      Rep h' q u ∧ (addrs u).Nodup ∧ Ordered (values u) ∧ keys (values u) = S ∧
      ∀ a ∈ addrs u, h.fresh ≤ a := by
  obtain ⟨hrep, -, hordered, hkeys⟩ := hr.stands other S ho
  obtain ⟨q, h', u, hclone, hg, hq, hvalues, hu, hnew⟩ := clone_spec hrep (hr.fuel ho)
  exact ⟨q, h', u, hclone, hg, hq, hu, hvalues ▸ hordered, hvalues ▸ hkeys, hnew⟩

theorem construct_spec (hr : Represents h d shape) (ht : d t = none) :
    ∃ h' shape', h.construct t = some h' ∧ Represents h' (Function.update d t (some ∅)) shape' := by
  have hinstall := hr.install (t := t) (q := none) (u := .nil) rfl
    (fun v S _ hv => hr.grows (.refl h) hv) rfl List.nodup_nil trivial rfl fun _ _ _ _ => by simp
  refine ⟨_, _, ?_, hinstall⟩
  rw [Heap.construct, hr.size_eq_none ht]
  rfl

theorem copyConstruct_spec (hr : Represents h d shape) (ht : d t = none) (ho : d other = some S) :
    ∃ h' shape', h.copyConstruct t other = some h' ∧
      Represents h' (Function.update d t (some S)) shape' := by
  obtain ⟨q, h', u, hclone, hg, hq, hu, hordered, hkeys, hnew⟩ := clone_root hr ho
  have hinstall := hr.install (t := t) hg.size (fun v T _ hv => hr.grows hg hv) hq hu hordered hkeys
    fun v T _ hv a ha hav => absurd (hr.lt_fresh hv a hav) (not_lt.mpr (hnew a ha))
  refine ⟨_, _, ?_, hinstall⟩
  have hsize : h'.size other = some (UInt64.ofNat S.card) := by rw [hg.size, hr.size_eq ho]
  simp [Heap.copyConstruct, hr.size_eq_none ht, hr.load ho, hclone, hsize, Heap.link, Heap.resize]

theorem assign_spec (hr : Represents h d shape) (ht : d t = some T) (ho : d other = some S) :
    ∃ h' shape', h.assign t other = some h' ∧
      Represents h' (Function.update d t (some S)) shape' := by
  by_cases heq : t = other
  · subst heq
    refine ⟨h, shape, by simp [Heap.assign], ?_⟩
    rwa [← ho, Function.update_eq_self]
  obtain ⟨q, h₁, u, hclone, hg, hq, hu, hordered, hkeys, hnew⟩ := clone_root hr ho
  obtain ⟨hroot, hsame⟩ := hr.grows hg ht
  have hrep : Rep h₁ (h₁.slot (.root t)) (shape t) := hroot ▸ (hr.stands t T ht).rep.grows hg
  have hfuel : (shape t).numNodes < h₁.fresh + 1 :=
    Nat.lt_succ_of_le (hrep.numNodes_le (hr.holds ht).nodup)
  obtain ⟨h₂, hdestroy, hkept, hslots, hsize, -⟩ := destroyNode_spec hrep (hr.holds ht).nodup hfuel
  have hstays : ∀ a, a ∉ addrs (shape t) → SameNode h₁ h₂ a :=
    fun a ha => ⟨hkept a ha, by rw [hslots], by rw [hslots]⟩
  have hq₂ : Rep h₂ q u := by
    refine hq.congr fun a ha => hstays a fun hat => ?_
    exact absurd (hr.lt_fresh ht a hat) (not_lt.mpr (hnew a ha))
  have hsize₂ : h₂.size = h.size := hsize.trans hg.size
  have hinstall := hr.install (t := t) hsize₂ (fun v U hv hd => ?_) hq₂ hu hordered hkeys
    fun v U _ hv a ha hav => absurd (hr.lt_fresh hv a hav) (not_lt.mpr (hnew a ha))
  · refine ⟨_, _, ?_, hinstall⟩
    have hload : h₁.load (.root t) = some (h₁.slot (.root t)) := by
      rw [hg.load (c := .root t) nofun, hr.load ht, hroot]
    have hstore : h₂.store (.root t) q = some (h₂.link (.root t) q) :=
      store_of_live (by rw [Heap.live, hsize₂, hr.size_eq ht]; rfl)
    have hcard : (h₂.link (.root t) q).size other = some (UInt64.ofNat S.card) := by
      rw [Heap.link_size, hsize₂, hr.size_eq ho]
    simp only [Heap.assign, if_neg heq, hr.load ho, Option.bind_eq_bind, Option.bind_some, hclone,
      hload, hdestroy, hstore, hcard, Option.pure_def]
  · obtain ⟨hslot, hold⟩ := hr.grows hg hd
    refine ⟨by rw [hslots, hslot], fun a ha => (hold a ha).trans (hstays a ?_)⟩
    exact hr.disjoint v t U T hd ht hv a ha

theorem destroy_spec (hr : Represents h d shape) (ht : d t = some S) :
    ∃ h' shape', h.destroy t = some h' ∧ Represents h' (Function.update d t none) shape' := by
  have hs := hr.stands t S ht
  obtain ⟨h₁, hdestroy, hkept, hslots, hsize, -⟩ := destroyNode_spec hs.rep hs.nodup (hr.fuel ht)
  have hnone : (h₁.resize t none).size = Function.update h.size t none := by
    rw [Heap.resize, hsize]
  have hupdate := hr.update (D := none) (u := .nil) hnone
    (fun v U hv hd => ⟨?_, fun a ha => ⟨?_, ?_, ?_⟩⟩) nofun nofun
  · exact ⟨_, _, by simp [Heap.destroy, hr.load ht, hdestroy], hupdate⟩
  · rw [Heap.resize_slot, hslots]
  · exact hkept a (hr.disjoint v t U S hd ht hv a ha)
  · rw [Heap.resize_slot, hslots]
  · rw [Heap.resize_slot, hslots]

theorem insert_spec (hr : Represents h d shape) (ht : d t = some S) (key : Int32) :
    ∃ h' shape', h.insert t key = some (decide (key ∉ S), h') ∧
      Represents h' (Function.update d t (some (insert key S))) shape' := by
  have hs := hr.stands t S ht
  obtain ⟨h', u, hcall, hb, hvalues⟩ := insertNode_spec (hr.holds ht) (hr.fuel ht) key
  have hend := hr.becomes (T := insert key S) ht hb (hvalues ▸ hs.ordered.insert key)
    (by rw [hvalues, SearchTree.keys_insert, hs.keys])
  have hsize : h'.size t = some (UInt64.ofNat S.card) := by rw [hb.size, hr.size_eq ht]
  rw [hs.search_eq] at hcall
  refine ⟨_, _, ?_, hend⟩
  by_cases hmem : key ∈ S
  · rw [Finset.insert_eq_of_mem hmem, resize_self hsize]
    simp [Heap.insert, hcall, hmem]
  · rw [Finset.card_insert_of_notMem hmem, UInt64.ofNat_add]
    simp [Heap.insert, hcall, hmem, hsize]

theorem erase_spec (hr : Represents h d shape) (ht : d t = some S) (key : Int32) :
    ∃ h' shape', h.erase t key = some (decide (key ∈ S), h') ∧
      Represents h' (Function.update d t (some (S.erase key))) shape' := by
  have hs := hr.stands t S ht
  obtain ⟨h', u, hcall, hb, hvalues⟩ := eraseNode_spec (hr.holds ht) (hr.fuel ht) key
  have hend := hr.becomes (T := S.erase key) ht hb (hvalues ▸ hs.ordered.erase key)
    (by rw [hvalues, hs.ordered.keys_erase, hs.keys])
  have hsize : h'.size t = some (UInt64.ofNat S.card) := by rw [hb.size, hr.size_eq ht]
  rw [hs.search_eq] at hcall
  refine ⟨_, _, ?_, hend⟩
  by_cases hmem : key ∈ S
  · rw [← Finset.card_erase_add_one hmem, UInt64.ofNat_add] at hsize
    simp [Heap.erase, hcall, hmem, hsize]
  · rw [Finset.erase_eq_of_notMem hmem, resize_self hsize]
    simp [Heap.erase, hcall, hmem]

/-- What a call does to the objects, it does to their sets, with the same answer. -/
theorem Represents.step (hr : Represents h d shape) {c : Command ι} (hc : d.Allowed c) :
    ∃ h' shape', h.step c = some ((d.step c).1, h') ∧ Represents h' (d.step c).2 shape' := by
  have hget : ∀ {t S}, d t = some S → d.get t = S := by
    intro t S ht
    rw [Directory.get, ht]
    rfl
  cases c with
  | construct t =>
    obtain ⟨h', shape', hcall, hend⟩ := construct_spec hr hc
    exact ⟨h', shape', by rw [Heap.step, hcall]; rfl, hend⟩
  | copyConstruct t other =>
    obtain ⟨S, ho⟩ := Option.isSome_iff_exists.mp hc.2
    obtain ⟨h', shape', hcall, hend⟩ := copyConstruct_spec hr hc.1 ho
    exact ⟨h', shape', by rw [Heap.step, hcall]; rfl, by rwa [Directory.step, ho]⟩
  | assign t other =>
    obtain ⟨T, ht⟩ := Option.isSome_iff_exists.mp hc.1
    obtain ⟨S, ho⟩ := Option.isSome_iff_exists.mp hc.2
    obtain ⟨h', shape', hcall, hend⟩ := assign_spec hr ht ho
    exact ⟨h', shape', by rw [Heap.step, hcall]; rfl, by rwa [Directory.step, ho]⟩
  | destroy t =>
    obtain ⟨S, ht⟩ := Option.isSome_iff_exists.mp hc
    obtain ⟨h', shape', hcall, hend⟩ := destroy_spec hr ht
    exact ⟨h', shape', by rw [Heap.step, hcall]; rfl, hend⟩
  | insert t key =>
    obtain ⟨S, ht⟩ := Option.isSome_iff_exists.mp hc
    obtain ⟨h', shape', hcall, hend⟩ := insert_spec hr ht key
    refine ⟨h', shape', ?_, by rwa [Directory.step, hget ht]⟩
    rw [Heap.step, hcall, Directory.step, hget ht]
    rfl
  | erase t key =>
    obtain ⟨S, ht⟩ := Option.isSome_iff_exists.mp hc
    obtain ⟨h', shape', hcall, hend⟩ := erase_spec hr ht key
    refine ⟨h', shape', ?_, by rwa [Directory.step, hget ht]⟩
    rw [Heap.step, hcall, Directory.step, hget ht]
    rfl
  | contains t key =>
    obtain ⟨S, ht⟩ := Option.isSome_iff_exists.mp hc
    refine ⟨h, shape, ?_, hr⟩
    rw [Heap.step, contains_eq hr ht, Directory.step, hget ht]
    rfl
  | size t =>
    obtain ⟨S, ht⟩ := Option.isSome_iff_exists.mp hc
    refine ⟨h, shape, ?_, hr⟩
    rw [Heap.step, hr.size_eq ht, Directory.step, hget ht, Option.map_some, toNat_card]
  | empty t =>
    obtain ⟨S, ht⟩ := Option.isSome_iff_exists.mp hc
    refine ⟨h, shape, ?_, hr⟩
    have hempty : (UInt64.ofNat S.card == 0) = decide (S = ∅) := by
      rw [Bool.eq_iff_iff, beq_iff_eq, decide_eq_true_iff, ← UInt64.toNat_inj, toNat_card,
        ← Finset.card_eq_zero]
      rfl
    rw [Heap.step, hr.size_eq ht, Directory.step, hget ht, Option.map_some, hempty]
  | min t =>
    obtain ⟨S, ht⟩ := Option.isSome_iff_exists.mp hc
    obtain ⟨k, hcall, hk⟩ := min_eq hr ht
    refine ⟨h, shape, ?_, hr⟩
    rw [Heap.step, hcall, Directory.step, hget ht, Option.map_some, hk]
  | max t =>
    obtain ⟨S, ht⟩ := Option.isSome_iff_exists.mp hc
    obtain ⟨k, hcall, hk⟩ := max_eq hr ht
    refine ⟨h, shape, ?_, hr⟩
    rw [Heap.step, hcall, Directory.step, hget ht, Option.map_some, hk]
  | nearest t key =>
    obtain ⟨S, ht⟩ := Option.isSome_iff_exists.mp hc
    obtain ⟨k, hcall, hk⟩ := nearest_eq hr ht key
    refine ⟨h, shape, ?_, hr⟩
    rw [Heap.step, hcall, Directory.step, hget ht, Option.map_some, hk]
  | inOrder t =>
    obtain ⟨S, ht⟩ := Option.isSome_iff_exists.mp hc
    refine ⟨h, shape, ?_, hr⟩
    rw [Heap.step, inOrder_eq hr ht, Directory.step, hget ht]
    rfl

end Step

/-! ## Runs -/

section Runs
variable [DecidableEq ι]

theorem contents_concat (calls : List (Command ι)) (c : Command ι) :
    contents (calls ++ [c]) = ((contents calls).step c).2 := by
  rw [contents, stateAfter_append]
  rfl

theorem represents_empty : Represents (Heap.empty : Heap ι) (contents []) fun _ => .nil := by
  refine ⟨fun t => rfl, ?_, ?_⟩
  · rintro t S ⟨⟩
  · rintro t v S T ⟨⟩

/-- The heap after a run, with what the calls returned. -/
structure Refines (es : List (Event (Heap ι) (Command ι) Answer)) (h : Heap ι) : Prop where
  represents : ∃ shape, Represents h (contents (es.map Event.call)) shape
  results : es.map Event.result = answers Directory.step (fun _ => none) (es.map Event.call)

theorem Refines.step {es : List (Event (Heap ι) (Command ι) Answer)} (hr : Refines es h)
    {c : Command ι} (hc : (contents (es.map Event.call)).Allowed c) :
    ∃ o h', h.step c = some (o, h') ∧ Refines (es ++ [⟨h, c, o⟩]) h' := by
  obtain ⟨⟨shape, hrep⟩, hresults⟩ := hr
  obtain ⟨h', shape', hcall, hrep'⟩ := hrep.step hc
  refine ⟨_, h', hcall, ⟨shape', ?_⟩, ?_⟩
  · rw [List.map_append, List.map_singleton, contents_concat]
    exact hrep'
  · rw [List.map_append, List.map_append, hresults, answers_append]
    rfl

/-- Every run of constructions, copies, assignments, edits and queries of any number of tree
objects answers as the same run on sets of keys does. In its end every object is a search
tree of its set, with its size, and no node belongs to two of them. -/
theorem binarySearchTree_refines {calls : List (Command ι)}
    (hcalls : Admissible (fun l c => (contents l).Allowed c) calls) :
    ∃ es h shape, exec Heap.step Heap.empty calls = some (es, h) ∧
      es.map Event.result = answers Directory.step (fun _ => none) calls ∧
      Represents h (contents calls) shape := by
  obtain ⟨es, h, hrun, ⟨shape, hrep⟩, hresults⟩ := exec_total Refines (fun es h c hr hc => hr.step hc)
    ⟨⟨_, represents_empty⟩, rfl⟩ hcalls
  rw [exec_calls hrun] at hrep hresults
  exact ⟨es, h, shape, hrun, hresults, hrep⟩

/-- The root of a copy has two children when it is erased, and the original keeps it. -/
theorem binarySearchTree_refines_copied :
    ∃ es h u v, exec Heap.step Heap.empty [.construct (0 : Fin 2), .insert 0 20, .insert 0 10,
        .insert 0 30, .copyConstruct 1 0, .erase 1 20, .contains 0 20, .nearest 0 25,
        .nearest 1 20] = some (es, h) ∧
      es.map Event.result = [.done, .flag true, .flag true, .flag true, .done, .flag true,
        .flag true, .key 20, .key 10] ∧
      Stands h 0 u {10, 20, 30} ∧ Stands h 1 v {10, 30} := by
  have hcalls : Admissible (fun l c => (contents l).Allowed c) [.construct (0 : Fin 2),
      .insert 0 20, .insert 0 10, .insert 0 30, .copyConstruct 1 0, .erase 1 20, .contains 0 20,
      .nearest 0 25, .nearest 1 20] := by
    simp only [admissible_cons, admissible_nil, and_true]
    exact ⟨rfl, rfl, rfl, rfl, ⟨rfl, rfl⟩, rfl, rfl, rfl, rfl⟩
  obtain ⟨es, h, shape, hrun, hresults, hrep⟩ := binarySearchTree_refines hcalls
  refine ⟨es, h, shape 0, shape 1, hrun, hresults.trans (by decide +kernel), ?_, ?_⟩
  · exact hrep.stands 0 _ (by decide +kernel)
  · exact hrep.stands 1 _ (by decide +kernel)

end Runs
end HftExercises.Bst
