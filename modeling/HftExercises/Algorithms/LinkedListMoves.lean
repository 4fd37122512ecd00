import HftExercises.Algorithms.LinkedListEdits

/-! # Moves, swaps and assignments of lists

The sentinels are part of the list objects, so a list that is stolen from while it is
empty hands its own sentinels over. The operations that steal are exact when no region
that they steal is empty.
-/
namespace HftExercises.LinkedList
open Links
variable {T : Type} {h h' : Heap T} {q : Contents T} {this other k : ℕ} {a b : Addr}
variable {xs ys : List (ℕ × T)}

/-- A list object from sentinel to sentinel, in both directions. -/
structure Holds (h : Heap T) (l : ℕ) (xs : List (ℕ × T)) : Prop where
  size : h.size l = some xs.length
  linked : h.links.Linked (region l xs)
  nodup : (xs.map Prod.fst).Nodup
  value : ∀ x ∈ xs, h.value x.1 = some x.2

theorem Represents.holds (hr : Represents h q) {l : ℕ} (hl : q l = some xs) : Holds h l xs :=
  ⟨hr.size_eq hl, hr.linked l xs hl, hr.nodup l xs hl, fun _ hx => hr.value_of_mem hl hx⟩

/-- A list does not begin with a sentinel of another one. -/
theorem Holds.next_head_ne {l l' : ℕ} (hh : Holds h l xs) (hne : l' ≠ l) :
    h.links.next (.head l) ≠ some (.tail l') := by
  have hnext : h.links.next (.head l) = some (after l xs) := by
    cases xs with
    | nil => exact (List.isChain_cons_cons.mp hh.linked).1.1
    | cons x xs => exact (List.isChain_cons_cons.mp hh.linked).1.1
  rw [hnext]
  cases xs with
  | nil => simpa using hne.symm
  | cons x xs => simp [addr]

/-- The heap after a region between `a` and `b` was stolen. -/
def stolen (h : Heap T) (this other k : ℕ) (a b : Addr) : Heap T where
  links := (((((h.links.setNext (.head this) (some a)).setPrev (.tail this) (some b)).setPrev a
    (some (.head this))).setNext b (some (.tail this))).setNext (.head other)
      (some (.tail other))).setPrev (.tail other) (some (.head other))
  value := h.value
  size := Function.update (Function.update h.size this (some k)) other (some 0)

theorem stolen_next (x : Addr) : (stolen h this other k a b).links.next x =
    if x = .head other then some (.tail other) else if x = b then some (.tail this)
    else if x = .head this then some a else h.links.next x := by
  simp [stolen]

theorem stolen_prev (x : Addr) : (stolen h this other k a b).links.prev x =
    if x = .tail other then some (.head other) else if x = a then some (.head this)
    else if x = .tail this then some b else h.links.prev x := by
  simp [stolen]

theorem live_setSize (L : Links Addr) {l : ℕ} (ha : h.live a = true) :
    Heap.live ⟨L, h.value, Function.update h.size l (some k)⟩ a = true := by
  have hsome : ∀ m, (h.size m).isSome = true →
      (Function.update h.size l (some k) m).isSome = true := by
    intro m hm
    by_cases hml : m = l
    · simp [hml]
    · rwa [Function.update_of_ne hml]
  cases a with
  | head m => exact hsome m ha
  | tail m => exact hsome m ha
  | node m => exact ha

theorem live_sentinels {l : ℕ} (hl : h.size l = some k) :
    h.live (.head l) = true ∧ h.live (.tail l) = true := by
  simp [Heap.live, hl]

theorem steal_eq {k' : ℕ} (hthis : h.size this = some k') (hother : Ends h other k a b)
    (hne : this ≠ other) (hempty : a = .tail this → b = .head this) :
    h.steal this other = some (stolen h this other k a b) := by
  obtain ⟨hsize, hfirst, hlast, ha, hb⟩ := hother
  obtain ⟨hhead, htail⟩ := live_sentinels hthis
  obtain ⟨hhead', htail'⟩ := live_sentinels hsize
  have hlinks := fun L x => h.live_congr x ⟨L, h.value, h.size⟩ rfl rfl
  have hsized := fun L x (hx : h.live x = true) => @live_setSize T h k x L this hx
  have hs := fun L => hsized L _ hhead
  have hs₁ := fun L => hsized L _ htail
  have hs₂ := fun L => hsized L _ hhead'
  have hs₃ := fun L => hsized L _ htail'
  have hs₄ := fun L => hsized L _ ha
  have hs₅ := fun L => hsized L _ hb
  rcases eq_or_ne a (.tail this) with hat | hat
  · obtain rfl := hempty hat
    subst hat
    simp [Heap.steal, Heap.setSize, hlinks, hhead, htail, hhead', htail', hs, hs₁, hs₂, hs₃,
      hfirst, hlast, hthis, hsize, hne.symm, stolen]
  · simp [Heap.steal, Heap.setSize, hlinks, hhead, htail, hhead', htail', hs, hs₁, hs₂, hs₃, hs₄,
      hs₅, hfirst, hlast, hthis, hsize, hne.symm, hat.symm, stolen]

/-- The ends of a region that is not empty are the addresses of its first and last nodes. -/
theorem region_ends {l : ℕ} (hne : xs ≠ []) :
    (xs.map addr).head? = some (after l xs) ∧ (xs.map addr).getLast? = some (before l xs) := by
  constructor
  · obtain ⟨x, xs, rfl⟩ := List.exists_cons_of_ne_nil hne
    rfl
  · rcases List.eq_nil_or_concat xs with rfl | ⟨xs, x, rfl⟩
    · exact absurd rfl hne
    · rw [List.concat_eq_append, before_concat, List.map_append, List.map_singleton,
        List.getLast?_concat]

theorem after_ne_tail {l l' : ℕ} (hne : l ≠ l') : after l xs ≠ .tail l' := by
  cases xs with
  | nil => simpa using hne
  | cons x xs => simp [addr]

theorem before_ne_head {l l' : ℕ} (hne : l ≠ l' ∨ xs ≠ []) : before l xs ≠ .head l' := by
  rcases List.eq_nil_or_concat xs with rfl | ⟨xs, x, rfl⟩
  · simpa using hne
  · rw [List.concat_eq_append, before_concat]
    simp [addr]

theorem steal_of_represents (hr : Represents h q) (hthis : q this = some xs)
    (hother : q other = some ys) (hne : this ≠ other) : h.steal this other =
      some (stolen h this other ys.length (after other ys) (before other ys)) :=
  steal_eq (hr.size_eq hthis) (hr.ends hother) hne
    fun hat => absurd hat (after_ne_tail hne.symm)

/-- An empty list takes over the elements of one that is not empty. -/
theorem steal_spec (hr : Represents h q) (hthis : q this = some []) (hother : q other = some ys)
    (hne : this ≠ other) (hys : ys ≠ []) :
    ∃ h', h.steal this other = some h' ∧
      Represents h' (Function.update (Function.update q other (some [])) this (some ys)) := by
  refine ⟨_, steal_of_represents hr hthis hother hne, ?_⟩
  have hr₁ := represents_emptied hr hother
  have hthis₁ : Function.update q other (some []) this = some [] := by
    rw [Function.update_of_ne hne, hthis]
  have hnodup := hr.nodup other ys hother
  have hnodes : (ys.map addr).Nodup := by
    have hregion := region_nodup (l := other) hnodup
    rw [region, List.nodup_cons, List.nodup_append] at hregion
    exact hregion.2.1
  obtain ⟨hfirst, hlast⟩ := @region_ends T ys other hys
  obtain ⟨first, hfirst'⟩ : ∃ a, a = after other ys := ⟨_, rfl⟩
  obtain ⟨last, hlast'⟩ : ∃ b, b = before other ys := ⟨_, rfl⟩
  rw [← hfirst'] at hfirst ⊢
  rw [← hlast'] at hlast ⊢
  have hends : ∀ a ∈ ys.map addr, ∀ l, a ≠ .head l ∧ a ≠ .tail l := by
    intro a ha l
    obtain ⟨y, -, rfl⟩ := List.mem_map.mp ha
    simp [addr]
  have hfirstmem : first ∈ ys.map addr := List.mem_of_mem_head? hfirst
  have hlastmem : last ∈ ys.map addr := List.mem_of_mem_getLast? hlast
  have hinner := ((linked_between (by simpa using hys)).mp (hr.linked other ys hother)).1
  refine hr₁.edit hthis₁ ?_ ?_ hnodup ?_ ?_ ?_ ?_
  · rw [stolen, emptied]
    exact Function.update_comm hne _ _ _
  · refine hinner.attach hnodes hfirst hlast ⟨?_, ?_⟩ ⟨?_, ?_⟩ ?_ ?_
    · rw [stolen_next]
      simp [hne, Ne.symm (hends last hlastmem this).1]
    · rw [stolen_prev]
      simp [hends first hfirstmem other]
    · rw [stolen_next]
      simp [hends last hlastmem other]
    · rw [stolen_prev]
      simp [hne, Ne.symm (hends first hfirstmem this).2]
    · intro a ha hne'
      rw [stolen_next]
      simp [hends a ha, hne']
    · intro a ha hne'
      rw [stolen_prev]
      simp [hends a ha, hne']
  · intro n hn
    right
    simp [emptied, without, hn]
  · intro a _ ha
    simp only [region, List.mem_cons, List.mem_append, List.not_mem_nil, or_false, not_or] at ha
    have halast : a ≠ last := fun he => ha.2.1 (he ▸ hlastmem)
    rw [stolen_next]
    simp [emptied, ha.1, halast]
  · intro a _ ha
    simp only [region, List.mem_cons, List.mem_append, List.not_mem_nil, or_false, not_or] at ha
    have hafirst : a ≠ first := fun he => ha.2.1 (he ▸ hfirstmem)
    rw [stolen_prev]
    simp [emptied, ha.2.2, hafirst]
  · intro n v
    refine (hr.value_split hother n v).trans (or_congr_right ?_)
    by_cases hn : n ∈ ys.map Prod.fst
    · simp [emptied, without, hn]
    · simp [emptied, without, hn]

/-- A list that steals from an empty one begins with the sentinel of that one. -/
theorem steal_empty (hr : Represents h q) (hthis : q this = some xs) (hother : q other = some [])
    (hne : this ≠ other) (hsteal : h.steal this other = some h') :
    h'.links.next (.head this) = some (.tail other) := by
  obtain rfl := Option.some.inj ((steal_of_represents hr hthis hother hne).symm.trans hsteal)
  rw [stolen_next]
  simp [hne]

/-- A moved-to object does not need its links before it steals. -/
theorem moveConstruct_eq (hr : Represents h q) (hthis : q this = none) (hother : q other = some ys) :
    h.moveConstruct this other = (h.construct this).bind fun h => h.steal this other := by
  have hne : this ≠ other := by
    rintro rfl
    rw [hthis] at hother
    cases hother
  have hnone : h.size this = none := by rw [hr.size, hthis, Option.map_none]
  obtain ⟨h₂, hconstruct, hr₂⟩ := construct_spec hr hthis
  have hthis₂ : Function.update q this (some []) this = some [] := Function.update_self ..
  have hother₂ : Function.update q this (some []) other = some ys := by
    rw [Function.update_of_ne hne.symm, hother]
  obtain ⟨h₁, hallocate⟩ : ∃ h₁, h.allocate this = some h₁ := by simp [Heap.allocate, hnone]
  have hlinks : h₂.links =
      (h₁.links.setNext (.head this) (some (.tail this))).setPrev (.tail this) (some (.head this)) ∧
        h₂.value = h₁.value ∧ h₂.size = h₁.size := by
    simp [Heap.allocate, hnone] at hallocate
    subst hallocate
    simp [Heap.construct, Heap.allocate, Heap.live, hnone] at hconstruct
    subst hconstruct
    exact ⟨rfl, rfl, rfl⟩
  obtain ⟨hlinks, hvalue, hsize⟩ := hlinks
  have hsteal₂ := steal_of_represents hr₂ hthis₂ hother₂ hne
  obtain ⟨hsize₂, hfirst, hlast, hafter, hbefore⟩ := hr₂.ends hother₂
  rw [hlinks] at hfirst hlast
  have hlive := fun a => h₂.live_congr a h₁ hvalue.symm hsize.symm
  have hsize₁ : h₁.size this = some 0 := by
    rw [← hsize, hr₂.size_eq hthis₂]
    rfl
  have hsteal₁ : h₁.steal this other =
      some (stolen h₁ this other ys.length (after other ys) (before other ys)) := by
    refine steal_eq hsize₁ ⟨?_, ?_, ?_, ?_, ?_⟩ hne ?_
    · rw [← hsize, hsize₂]
    · simpa [hne.symm] using hfirst
    · simpa [hne.symm] using hlast
    · rw [hlive, hafter]
    · rw [hlive, hbefore]
    · exact fun hat => absurd hat (after_ne_tail hne.symm)
  rw [Heap.moveConstruct, hallocate, hconstruct]
  refine hsteal₁.trans (Eq.trans ?_ hsteal₂.symm)
  rw [stolen, stolen, hlinks, hvalue, hsize]
  simp [setNext, setPrev]

/-- What a move leaves: the elements of `other` in `this`. -/
def moved (q : Contents T) (this other : ℕ) (ys : List (ℕ × T)) : Contents T :=
  Function.update (Function.update q other (some [])) this (some ys)

theorem moveConstruct_spec (hr : Represents h q) (hthis : q this = none)
    (hother : q other = some ys) :
    (ys ≠ [] → ∃ h', h.moveConstruct this other = some h' ∧ Represents h' (moved q this other ys)) ∧
      (ys = [] → ∀ h', h.moveConstruct this other = some h' →
        h'.links.next (.head this) = some (.tail other)) := by
  have hne : this ≠ other := by
    rintro rfl
    rw [hthis] at hother
    cases hother
  obtain ⟨h₁, hconstruct, hr₁⟩ := construct_spec hr hthis
  have hother₁ : Function.update q this (some []) other = some ys := by
    rw [Function.update_of_ne hne.symm, hother]
  rw [moveConstruct_eq hr hthis hother, hconstruct, Option.bind_some]
  constructor
  · intro hys
    obtain ⟨h', hsteal, hr'⟩ := steal_spec hr₁ (Function.update_self ..) hother₁ hne hys
    refine ⟨h', hsteal, ?_⟩
    rwa [Function.update_comm hne, Function.update_idem] at hr'
  · rintro rfl h' hsteal
    exact steal_empty hr₁ (Function.update_self ..) hother₁ hne hsteal

theorem moveAssign_spec {fuel : ℕ} (hr : Represents h q) (hthis : q this = some xs)
    (hother : q other = some ys) (hne : this ≠ other) (hfuel : xs.length ≤ fuel) :
    (ys ≠ [] → ∃ h', Heap.moveAssign fuel h this other = some h' ∧
        Represents h' (moved q this other ys)) ∧
      (ys = [] → ∀ h', Heap.moveAssign fuel h this other = some h' →
        h'.links.next (.head this) = some (.tail other)) := by
  obtain ⟨h₁, hclear, hr₁⟩ := clear_spec hr hthis hfuel
  have hother₁ : Function.update q this (some []) other = some ys := by
    rw [Function.update_of_ne hne.symm, hother]
  have hassign : Heap.moveAssign fuel h this other = h₁.steal this other := by
    rw [Heap.moveAssign, if_pos hne, hclear]
    rfl
  rw [hassign]
  constructor
  · intro hys
    obtain ⟨h', hsteal, hr'⟩ := steal_spec hr₁ (Function.update_self ..) hother₁ hne hys
    refine ⟨h', hsteal, ?_⟩
    rwa [Function.update_comm hne, Function.update_idem] at hr'
  · rintro rfl h' hsteal
    exact steal_empty hr₁ (Function.update_self ..) hother₁ hne hsteal

theorem deleteNode_links {p : Option Addr} (hdelete : h.deleteNode p = some h') :
    h'.links = h.links := by
  rcases p with _ | l | l | n
  · obtain rfl := Option.some.inj hdelete
    rfl
  · cases hdelete
  · cases hdelete
  · rw [Heap.deleteNode_node] at hdelete
    split at hdelete
    · obtain rfl := Option.some.inj hdelete
      rfl
    · cases hdelete

theorem writeNext_next {p : Option Addr} {x : Addr} (hwrite : h.writeNext (some a) p = some h')
    (hx : x ≠ a) : h'.links.next x = h.links.next x := by
  rw [Heap.writeNext_some] at hwrite
  split at hwrite
  · obtain rfl := Option.some.inj hwrite
    simp [hx]
  · cases hwrite

theorem writePrev_next {p : Option Addr} (hwrite : h.writePrev (some a) p = some h') :
    h'.links.next = h.links.next := by
  rw [Heap.writePrev_some] at hwrite
  split at hwrite
  · obtain rfl := Option.some.inj hwrite
    rfl
  · cases hwrite

theorem setSize_links {l : ℕ} (hset : h.setSize l k = some h') : h'.links = h.links := by
  rw [Heap.setSize] at hset
  split at hset
  · obtain rfl := Option.some.inj hset
    rfl
  · cases hset

/-- The destructor writes no link but those of its own sentinels. -/
theorem destroy_next {fuel l : ℕ} (hdestroy : Heap.destroy fuel h l = some h') {x : Addr}
    (hx : x ≠ .head l) : h'.links.next x = h.links.next x := by
  obtain ⟨h₁, hclear, hrest⟩ := Option.bind_eq_some_iff.mp hdestroy
  obtain rfl := Option.some.inj hrest
  obtain ⟨cur, -, hclear⟩ := Option.bind_eq_some_iff.mp hclear
  obtain ⟨w, hloop, hclear⟩ := Option.bind_eq_some_iff.mp hclear
  have hw : w.heap.links = h.links := by
    refine (whileLoop_invariant (fun w => w.heap.links = h.links) ?_ rfl hloop).1
    intro w w' hw _ hnode
    obtain ⟨next, -, hnode⟩ := Option.bind_eq_some_iff.mp hnode
    obtain ⟨h₂, hdelete, hnode⟩ := Option.bind_eq_some_iff.mp hnode
    obtain rfl := Option.some.inj hnode
    exact (deleteNode_links hdelete).trans hw
  obtain ⟨h₂, hnext, hclear⟩ := Option.bind_eq_some_iff.mp hclear
  obtain ⟨h₃, hprev, hsize⟩ := Option.bind_eq_some_iff.mp hclear
  calc h₁.links.next x
      = h₃.links.next x := by rw [setSize_links hsize]
    _ = h₂.links.next x := by rw [writePrev_next hprev]
    _ = w.heap.links.next x := writeNext_next hnext hx
    _ = h.links.next x := by rw [hw]

end HftExercises.LinkedList
