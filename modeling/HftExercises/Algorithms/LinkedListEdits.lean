import HftExercises.Algorithms.LinkedListRegions

/-! # What the operations do to a sequence -/
namespace HftExercises.LinkedList
open Links
variable {T : Type} {h : Heap T} {q : Contents T} {l n : ℕ} {v : T} {xs us ws : List (ℕ × T)}

theorem live_newNode (L : Links Addr) {a : Addr} (ha : h.live a = true) :
    Heap.live ⟨L, Function.update h.value n (some v), h.size⟩ a = true := by
  cases a with
  | head l => exact ha
  | tail l => exact ha
  | node m =>
    by_cases hm : m = n
    · simp [Heap.live, hm]
    · simpa [Heap.live, Function.update_of_ne hm] using ha

theorem ne_node_of_live {a : Addr} (ha : h.live a = true) (hn : h.value n = none) : a ≠ .node n := by
  rintro rfl
  simp [Heap.live, hn] at ha

theorem pushBack_spec (hr : Represents h q) (hl : q l = some xs) (hn : h.value n = none) :
    ∃ h', h.pushBack l n v = some h' ∧
      Represents h' (Function.update q l (some (xs ++ [(n, v)]))) := by
  rw [← List.append_nil xs] at hl
  have hsize := hr.size_eq hl
  have hprev := (hr.adjacent hl).2
  have hlast := hr.live_before hl
  have hne := ne_node_of_live hlast hn
  have hlast' := fun L => @live_newNode T h n v L _ hlast
  have htail := fun L => @live_newNode T h n v L _ (hr.live_after hl)
  have hnode : ∀ L, Heap.live ⟨L, Function.update h.value n (some v), h.size⟩ (.node n) = true := by
    simp [Heap.live]
  rw [after_nil] at hprev htail
  cases hp : h.pushBack l n v with
  | none =>
    simp [Heap.pushBack, Heap.newNode, Heap.linkBack, Heap.setSize, hn, htail, hnode, hlast', hprev,
      hsize] at hp
  | some h' =>
    simp [Heap.pushBack, Heap.newNode, Heap.linkBack, Heap.setSize, hn, htail, hnode, hlast', hprev,
      hsize] at hp
    subst hp
    refine ⟨_, rfl, hr.insert hl hn ?_ rfl ?_⟩
    · constructor <;> simp +contextual [hne.symm]
    · simp

theorem pushFront_spec (hr : Represents h q) (hl : q l = some xs) (hn : h.value n = none) :
    ∃ h', h.pushFront l n v = some h' ∧
      Represents h' (Function.update q l (some ((n, v) :: xs))) := by
  have hsize := hr.size_eq hl
  have hnext := (hr.ends hl).first
  have hfirst := (hr.ends hl).live_first
  have hne := ne_node_of_live hfirst hn
  have hfirst' := fun L => @live_newNode T h n v L _ hfirst
  have hlive := hr.live_head hl
  have hhead := fun L => @live_newNode T h n v L _ hlive
  cases hp : h.pushFront l n v with
  | none =>
    simp [Heap.pushFront, Heap.newNode, Heap.setSize, hn, hlive, hhead, hfirst', hnext, hsize] at hp
  | some h' =>
    simp [Heap.pushFront, Heap.newNode, Heap.setSize, hn, hlive, hhead, hfirst', hnext, hsize] at hp
    subst hp
    have hnil : q l = some ([] ++ xs) := hl
    refine ⟨_, rfl, hr.insert hnil hn ?_ rfl rfl⟩
    constructor <;> simp +contextual [hne.symm]

/-- An erased element leaves the others in their order, and its successor is returned. -/
theorem erase_spec {x : ℕ × T} (hr : Represents h q) (hl : q l = some (us ++ x :: ws)) :
    ∃ h', h.erase l (some (addr x)) = some (some (after l ws), h') ∧
      Represents h' (Function.update q l (some (us ++ ws))) := by
  have hsize := hr.size_eq hl
  have hprev := (hr.adjacent_left hl).2
  have hnext := (hr.adjacent_right hl).1
  have hleft := hr.live_before hl
  have hmid := hr.live_after hl
  have hl' := hl
  rw [List.append_cons] at hl'
  have hright := hr.live_after hl'
  have hvalue := hr.value_of_mem hl (List.mem_append_right us List.mem_cons_self)
  rw [after_cons] at hmid
  simp only [addr] at hprev hnext hmid
  have hlinks := fun L a => h.live_congr a ⟨L, h.value, h.size⟩ rfl rfl
  have hcount : (us ++ x :: ws).length - 1 = (us ++ ws).length := by
    rw [List.length_append, List.length_append, List.length_cons]
    omega
  simp only [addr]
  cases hp : h.erase l (some (.node x.1)) with
  | none =>
    simp [Heap.erase, Heap.setSize, hlinks, hprev, hnext, hleft, hmid, hright, hvalue, hsize] at hp
  | some r =>
    simp [Heap.erase, Heap.setSize, hlinks, hprev, hnext, hleft, hmid, hright, hvalue, hsize] at hp
    subst hp
    refine ⟨_, rfl, hr.erase hl ?_ rfl ?_⟩
    · constructor <;> simp +contextual
    · rw [← hcount]
      simp

theorem popFront_spec (hr : Represents h q) (hl : q l = some xs) :
    ∃ h', h.popFront l = some h' ∧ Represents h' (Function.update q l (some xs.tail)) := by
  have hsize := hr.size_eq hl
  cases xs with
  | nil =>
    refine ⟨h, by simp [Heap.popFront, hsize], ?_⟩
    rwa [List.tail_nil, ← hl, Function.update_eq_self]
  | cons x xs =>
    have hnil : q l = some ([] ++ x :: xs) := hl
    obtain ⟨h', herase, hr'⟩ := erase_spec hr hnil
    have hfirst := (hr.ends hl).first
    have hhead := hr.live_head hl
    rw [after_cons] at hfirst
    exact ⟨h', by simp [Heap.popFront, hsize, hhead, hfirst, herase], hr'⟩

theorem popBack_spec (hr : Represents h q) (hl : q l = some xs) :
    ∃ h', h.popBack l = some h' ∧ Represents h' (Function.update q l (some xs.dropLast)) := by
  have hsize := hr.size_eq hl
  rcases List.eq_nil_or_concat xs with rfl | ⟨xs, x, rfl⟩
  · refine ⟨h, by simp [Heap.popBack, hsize], ?_⟩
    rwa [List.dropLast_nil, ← hl, Function.update_eq_self]
  · rw [List.concat_eq_append] at hl hsize ⊢
    obtain ⟨h', herase, hr'⟩ := erase_spec hr hl
    have hlast := (hr.adjacent_right hl).2
    have htail : h.live (.tail l) = true := by simp [Heap.live, hsize]
    rw [after_nil] at hlast
    rw [List.append_nil] at hr'
    rw [List.dropLast_concat]
    exact ⟨h', by simp [Heap.popBack, hsize, htail, hlast, herase], hr'⟩

/-- The rest of a list, from one of its elements on. -/
theorem linked_cons {L : Links Addr} {w : ℕ × T}
    (hlinked : L.Linked ((w :: ws).map addr ++ [.tail l])) :
    L.next (addr w) = some (after l ws) ∧ L.Linked (ws.map addr ++ [.tail l]) := by
  cases ws with
  | nil => exact ⟨(List.isChain_cons_cons.mp hlinked).1.1, List.isChain_singleton _⟩
  | cons w' ws =>
    exact ⟨(List.isChain_cons_cons.mp hlinked).1.1, (List.isChain_cons_cons.mp hlinked).2⟩

/-- The values once the nodes of some elements are gone. -/
def without (value : ℕ → Option T) (ws : List (ℕ × T)) (n : ℕ) : Option T :=
  if n ∈ ws.map Prod.fst then none else value n

/-- The loop deletes the nodes one after the other. -/
theorem clear_loop {fuel : ℕ} (hlinked : h.links.Linked (ws.map addr ++ [.tail l]))
    (hnodup : (ws.map Prod.fst).Nodup) (hvalue : ∀ w ∈ ws, h.value w.1 = some w.2)
    (hfuel : ws.length ≤ fuel) :
    whileLoop (Heap.Walk.goesOn (some (.tail l))) Heap.clearNode fuel
        ⟨h, some (after l ws)⟩ =
      some ⟨{ h with value := without h.value ws }, some (.tail l)⟩ := by
  induction ws generalizing h fuel with
  | nil =>
    have hnone : without h.value [] = h.value := by
      funext n
      simp [without]
    rw [hnone]
    exact whileLoop_stop (by simp [Heap.Walk.goesOn]) fuel
  | cons w ws ih =>
    obtain ⟨fuel, rfl⟩ : ∃ k, fuel = k + 1 := ⟨fuel - 1, by simp at hfuel; omega⟩
    rw [List.map_cons, List.nodup_cons] at hnodup
    obtain ⟨hw, hws⟩ := List.forall_mem_cons.mp hvalue
    have hnext := linked_cons hlinked
    have hlive : h.live (.node w.1) = true := by simp [Heap.live, hw]
    have hbody : Heap.clearNode ⟨h, some (after l (w :: ws))⟩ =
        some ⟨{ h with value := Function.update h.value w.1 none }, some (after l ws)⟩ := by
      have hnext' := hnext.1
      simp only [addr] at hnext'
      simp [Heap.clearNode, addr, hlive, hnext', hw]
    have hkeep : ∀ u ∈ ws, Function.update h.value w.1 none u.1 = some u.2 := by
      intro u hu
      have hne : u.1 ≠ w.1 := fun he => hnodup.1 (he ▸ List.mem_map.mpr ⟨u, hu, rfl⟩)
      rw [Function.update_of_ne hne, hws u hu]
    refine (whileLoop_next (by simp [Heap.Walk.goesOn, addr]) fuel).trans ?_
    rw [hbody, Option.bind_some]
    refine (ih (h := { h with value := Function.update h.value w.1 none }) hnext.2 hnodup.2 hkeep
      (Nat.le_of_succ_le_succ hfuel)).trans ?_
    have hsame : without (Function.update h.value w.1 none) ws = without h.value (w :: ws) := by
      funext m
      unfold without
      by_cases hm : m = w.1
      · simp [hm]
      · simp only [Function.update_of_ne hm, List.map_cons, List.mem_cons, hm, false_or]
    rw [hsame]

/-- A list without its nodes, between reset sentinels. -/
def emptied (h : Heap T) (l : ℕ) (xs : List (ℕ × T)) : Heap T where
  links := (h.links.setNext (.head l) (some (.tail l))).setPrev (.tail l) (some (.head l))
  value := without h.value xs
  size := Function.update h.size l (some 0)

theorem represents_emptied (hr : Represents h q) (hl : q l = some xs) :
    Represents (emptied h l xs) (Function.update q l (some [])) := by
  refine hr.edit hl rfl ?_ List.nodup_nil (by simp) ?_ ?_ ?_
  · exact List.isChain_cons_cons.mpr ⟨⟨by simp [emptied], by simp [emptied]⟩,
      List.isChain_singleton _⟩
  · intro a ha _
    simp only [mem_region, not_or] at ha
    simp [emptied, ha.1]
  · intro a ha _
    simp only [mem_region, not_or] at ha
    simp [emptied, ha.2.1]
  · intro n v
    simp only [emptied, without]
    split_ifs with hn
    · simp [hn]
    · simp [hn]

theorem clear_eq {fuel : ℕ} (hr : Represents h q) (hl : q l = some xs) (hfuel : xs.length ≤ fuel) :
    Heap.clear fuel h l = some (emptied h l xs) := by
  have hsize := hr.size_eq hl
  have hfirst := (hr.ends hl).first
  have hhead : ∀ L (value : ℕ → Option T), Heap.live ⟨L, value, h.size⟩ (.head l) = true := by
    simp [Heap.live, hsize]
  have htail : ∀ L (value : ℕ → Option T), Heap.live ⟨L, value, h.size⟩ (.tail l) = true := by
    simp [Heap.live, hsize]
  have hloop := clear_loop (List.isChain_cons.mp (hr.linked l xs hl)).2 (hr.nodup l xs hl)
    (fun w hw => hr.value_of_mem hl hw) hfuel
  simp [Heap.clear, Heap.setSize, hsize, hhead, htail, hfirst, hloop, emptied]

theorem clear_spec {fuel : ℕ} (hr : Represents h q) (hl : q l = some xs)
    (hfuel : xs.length ≤ fuel) :
    ∃ h', Heap.clear fuel h l = some h' ∧ Represents h' (Function.update q l (some [])) :=
  ⟨_, clear_eq hr hl hfuel, represents_emptied hr hl⟩

/-- Exchange the two links of an address. -/
def turn (L : Links Addr) (a : Addr) : Links Addr :=
  (L.setPrev a (L.next a)).setNext a (L.prev a)

/-- The links once those of some addresses are exchanged. -/
structure Turned (L L' : Links Addr) (as : List Addr) : Prop where
  next : ∀ a ∈ as, L'.next a = L.prev a
  prev : ∀ a ∈ as, L'.prev a = L.next a
  next_other : ∀ a, a ∉ as → L'.next a = L.next a
  prev_other : ∀ a, a ∉ as → L'.prev a = L.prev a

theorem turned_nil (L : Links Addr) : Turned L L [] :=
  ⟨fun a ha => by simp at ha, fun a ha => by simp at ha, fun _ _ => rfl, fun _ _ => rfl⟩

theorem Turned.cons {L L' : Links Addr} {a : Addr} {as : List Addr} (ha : a ∉ as)
    (ht : Turned (turn L a) L' as) : Turned L L' (a :: as) := by
  have hne : ∀ b ∈ as, b ≠ a := fun b hb he => ha (he ▸ hb)
  refine ⟨?_, ?_, ?_, ?_⟩
  · intro b hb
    rcases List.mem_cons.mp hb with rfl | hb
    · rw [ht.next_other b ha]
      simp [turn]
    · rw [ht.next b hb]
      simp [turn, hne b hb]
  · intro b hb
    rcases List.mem_cons.mp hb with rfl | hb
    · rw [ht.prev_other b ha]
      simp [turn]
    · rw [ht.prev b hb]
      simp [turn, hne b hb]
  · intro b hb
    rw [List.mem_cons, not_or] at hb
    rw [ht.next_other b hb.2]
    simp [turn, hb.1]
  · intro b hb
    rw [List.mem_cons, not_or] at hb
    rw [ht.prev_other b hb.2]
    simp [turn, hb.1]

/-- The loop turns the links of the nodes one after the other. -/
theorem reverse_loop {fuel : ℕ} {L : Links Addr} (hlinked : L.Linked (ws.map addr ++ [.tail l]))
    (hnodup : (ws.map addr).Nodup) (hlive : ∀ w ∈ ws, h.live (addr w) = true)
    (hfuel : ws.length ≤ fuel) :
    ∃ L', whileLoop (Heap.Walk.goesOn (some (.tail l))) Heap.reverseNode fuel
        ⟨{ h with links := L }, some (after l ws)⟩ = some ⟨{ h with links := L' }, some (.tail l)⟩ ∧
      Turned L L' (ws.map addr) := by
  induction ws generalizing L fuel with
  | nil => exact ⟨L, whileLoop_stop (by simp [Heap.Walk.goesOn]) fuel, turned_nil _⟩
  | cons w ws ih =>
    obtain ⟨fuel, rfl⟩ : ∃ k, fuel = k + 1 := ⟨fuel - 1, by simp at hfuel; omega⟩
    rw [List.map_cons, List.nodup_cons] at hnodup
    obtain ⟨hw, hws⟩ := List.forall_mem_cons.mp hlive
    obtain ⟨hnext, hrest⟩ := linked_cons hlinked
    have hw' := fun L => (h.live_congr (addr w) ⟨L, h.value, h.size⟩ rfl rfl).trans hw
    have hbody : Heap.reverseNode ⟨{ h with links := L }, some (after l (w :: ws))⟩ =
        some ⟨{ h with links := turn L (addr w) }, some (after l ws)⟩ := by
      simp [Heap.reverseNode, hw', hnext, turn]
    have hout : ∀ a ∈ ws.map addr ++ [Addr.tail l], a ≠ addr w := by
      intro a ha
      rcases List.mem_append.mp ha with ha | ha
      · exact fun he => hnodup.1 (he ▸ ha)
      · rw [List.mem_singleton.mp ha]
        simp [addr]
    have hframe : (turn L (addr w)).Linked (ws.map addr ++ [.tail l]) := by
      refine hrest.frame ?_ ?_
      · exact fun a ha => by simp [turn, hout a ha]
      · exact fun a ha => by simp [turn, hout a ha]
    obtain ⟨L', hloop, hturned⟩ := ih hframe hnodup.2 hws (Nat.le_of_succ_le_succ hfuel)
    refine ⟨L', ?_, hturned.cons hnodup.1⟩
    refine (whileLoop_next (by simp [Heap.Walk.goesOn, addr]) fuel).trans ?_
    rw [hbody, Option.bind_some, hloop]

/-- Two elements or more, from the first to the last. -/
theorem exists_ends (h2 : 2 ≤ xs.length) : ∃ x mid y, xs = x :: (mid ++ [y]) := by
  cases xs with
  | nil => simp at h2
  | cons x rest =>
    rcases List.eq_nil_or_concat rest with rfl | ⟨mid, y, rfl⟩
    · simp at h2
    · exact ⟨x, mid, y, by rw [List.concat_eq_append]⟩

/-- The turned nodes between the sentinels, which are attached to the other ends. -/
theorem linked_reattached {L L' : Links Addr} {x y : ℕ × T} {mid : List (ℕ × T)}
    (hlinked : L.Linked (region l (x :: (mid ++ [y]))))
    (hnodup : ((x :: (mid ++ [y])).map addr).Nodup)
    (ht : Turned L L' ((x :: (mid ++ [y])).map addr)) :
    ((((L'.setNext (.head l) (some (addr y))).setPrev (addr y) (some (.head l))).setPrev (.tail l)
      (some (addr x))).setNext (addr x) (some (.tail l))).Linked
        (region l (x :: (mid ++ [y])).reverse) := by
  have hturned := ((linked_between (by simp)).mp hlinked).1.reverse ht.next ht.prev
  have hsentinels : ∀ z : ℕ × T, addr z ≠ .head l ∧ addr z ≠ .tail l := by simp [addr]
  have hends : ∀ a ∈ ((x :: (mid ++ [y])).map addr).reverse, a ≠ .head l ∧ a ≠ .tail l := by
    intro a ha
    obtain ⟨z, -, rfl⟩ := List.mem_map.mp (List.mem_reverse.mp ha)
    exact hsentinels z
  unfold region
  rw [List.map_reverse]
  have hfirst : ((x :: (mid ++ [y])).map addr).reverse.head? = some (addr y) := by simp
  have hlast : ((x :: (mid ++ [y])).map addr).reverse.getLast? = some (addr x) := by
    rw [List.getLast?_reverse]
    rfl
  refine hturned.attach (List.nodup_reverse.mpr hnodup) hfirst hlast ⟨?_, ?_⟩ ⟨?_, ?_⟩ ?_ ?_
  · simp [Ne.symm (hsentinels x).1]
  · simp [hsentinels]
  · simp
  · simp
  · exact fun a ha hne => by simp [hne, hends a ha]
  · exact fun a ha hne => by simp [hne, hends a ha]

theorem reverse_spec {fuel : ℕ} (hr : Represents h q) (hl : q l = some xs)
    (hfuel : xs.length ≤ fuel) :
    ∃ h', Heap.reverse fuel h l = some h' ∧
      Represents h' (Function.update q l (some xs.reverse)) := by
  have hsize := hr.size_eq hl
  by_cases h2 : xs.length < 2
  · have hsame : xs.reverse = xs := by
      rcases xs with _ | ⟨x, _ | ⟨y, ys⟩⟩
      · rfl
      · rfl
      · simp only [List.length_cons] at h2
        omega
    have hshort : Heap.reverse fuel h l = some h := by
      rw [Heap.reverse, hsize]
      exact if_pos h2
    refine ⟨h, hshort, ?_⟩
    rwa [hsame, ← hl, Function.update_eq_self]
  · obtain ⟨x, mid, y, rfl⟩ := exists_ends (not_lt.mp h2)
    have hend : q l = some ((x :: mid) ++ y :: []) := hl
    have hfirst := (hr.ends hl).first
    have hlast := (hr.adjacent_right hend).2
    have hlinked := hr.linked l _ hl
    have hnodup : ((x :: (mid ++ [y])).map addr).Nodup := by
      have hregion := region_nodup (l := l) (hr.nodup l _ hl)
      rw [region, List.nodup_cons, List.nodup_append] at hregion
      exact hregion.2.1
    have hlive : ∀ a ∈ region l (x :: (mid ++ [y])), ∀ L,
        Heap.live ⟨L, h.value, h.size⟩ a = true := by
      intro a ha L
      exact (h.live_congr a _ rfl rfl).trans (hr.live_region hl ha)
    have hhead := hlive (.head l) (mem_region.mpr (.inl rfl))
    have htail := hlive (.tail l) (mem_region.mpr (.inr (.inl rfl)))
    have hlive' : ∀ z ∈ x :: (mid ++ [y]), ∀ L, Heap.live ⟨L, h.value, h.size⟩ (addr z) = true :=
      fun z hz => hlive _ (mem_region.mpr (.inr (.inr ⟨z.1, List.mem_map.mpr ⟨z, hz, rfl⟩, rfl⟩)))
    have hx := hlive' x (by simp)
    have hy := hlive' y (by simp)
    obtain ⟨L', hloop, hturned⟩ := @reverse_loop T h l _ fuel _ (List.isChain_cons.mp hlinked).2
      hnodup (fun z hz => hlive' z hz h.links) hfuel
    have hlong : ¬ mid.length + 1 + 1 < 2 := by omega
    rw [after_nil] at hlast
    rw [after_cons] at hfirst hloop
    cases hp : Heap.reverse fuel h l with
    | none =>
      simp [Heap.reverse, hsize, hhead, htail, hx, hy, hfirst, hlast, hloop, hlong] at hp
    | some h' =>
      simp [Heap.reverse, hsize, hhead, htail, hx, hy, hfirst, hlast, hloop, hlong] at hp
      subst hp
      refine ⟨_, rfl, hr.edit hl ?_ (linked_reattached hlinked hnodup hturned) ?_ ?_ ?_ ?_ ?_⟩
      · rw [List.length_reverse, ← hsize, Function.update_eq_self]
      · rw [List.map_reverse]
        exact List.nodup_reverse.mpr (hr.nodup l _ hl)
      · intro n hn
        rw [List.map_reverse, List.mem_reverse] at hn
        exact .inl hn
      · intro a ha _
        have hends : a ≠ .head l ∧ a ≠ addr x ∧ a ∉ (x :: (mid ++ [y])).map addr := by
          simp only [region, List.map_cons, List.mem_cons, List.mem_append, not_or] at ha ⊢
          exact ⟨ha.1, ha.2.1.1, ha.2.1⟩
        simp [hends.1, hends.2.1, hturned.next_other a hends.2.2]
      · intro a ha _
        have hends : a ≠ .tail l ∧ a ≠ addr y ∧ a ∉ (x :: (mid ++ [y])).map addr := by
          simp only [region, List.map_cons, List.map_append, List.map_nil, List.mem_cons,
            List.mem_append, List.not_mem_nil, or_false, not_or] at ha ⊢
          exact ⟨ha.2.2, ha.2.1.2.2, ha.2.1⟩
        simp [hends.1, hends.2.1, hturned.prev_other a hends.2.2]
      · intro n v
        rw [List.mem_reverse]
        exact hr.value_split hl n v

/-- A list object that is allocated has the addresses of its sentinels for itself. -/
theorem construct_spec (hr : Represents h q) (hl : q l = none) :
    ∃ h', h.construct l = some h' ∧ Represents h' (Function.update q l (some [])) := by
  have hsize : h.size l = none := by rw [hr.size, hl, Option.map_none]
  have hlive : ∀ L a, a = .head l ∨ a = .tail l →
      Heap.live ⟨L, h.value, Function.update h.size l (some 0)⟩ a = true := by
    rintro L a (rfl | rfl)
    · simp [Heap.live]
    · simp [Heap.live]
  have hhead := fun L => hlive L (.head l) (.inl rfl)
  have htail := fun L => hlive L (.tail l) (.inr rfl)
  cases hp : h.construct l with
  | none => simp [Heap.construct, Heap.allocate, hsize, hhead, htail] at hp
  | some h' =>
    simp [Heap.construct, Heap.allocate, hsize, hhead, htail] at hp
    subst hp
    refine ⟨_, rfl, hr.replace (by rw [hl, Option.getD_none]) rfl rfl ?_ List.nodup_nil (by simp)
      ?_ ?_ ?_⟩
    · rintro zs hz
      obtain rfl := Option.some.inj hz
      exact List.isChain_cons_cons.mpr ⟨⟨by simp, by simp⟩, List.isChain_singleton _⟩
    · intro a ha _
      simp only [mem_region, not_or] at ha
      simp [ha.1, ha.2.1]
    · intro a ha _
      simp only [mem_region, not_or] at ha
      simp [ha.1, ha.2.1]
    · simp

theorem destroy_spec {fuel : ℕ} (hr : Represents h q) (hl : q l = some xs)
    (hfuel : xs.length ≤ fuel) :
    ∃ h', Heap.destroy fuel h l = some h' ∧ Represents h' (Function.update q l none) := by
  obtain ⟨h₁, hclear, hr₁⟩ := clear_spec hr hl hfuel
  refine ⟨_, by rw [Heap.destroy, hclear]; rfl, ?_⟩
  have hempty : Function.update q l (some []) l = some [] := Function.update_self ..
  have hgone : Represents { h₁ with size := Function.update h₁.size l none }
      (Function.update (Function.update q l (some [])) l none) :=
    hr₁.replace (by rw [hempty, Option.getD_some]) rfl rfl (by simp) List.nodup_nil (by simp)
      (by simp) (by simp) (by simp)
  rwa [Function.update_idem] at hgone

/-- The loop appends a copy of each element that is left. -/
theorem copyNodes_spec {this other : ℕ} {pre rest done : List (ℕ × T)} {ns : List ℕ}
    (hr : Represents h q) (hthis : q this = some done) (hother : q other = some (pre ++ rest))
    (hne : this ≠ other) (hlength : ns.length = rest.length) (hnodup : ns.Nodup)
    (hfresh : ∀ n ∈ ns, h.value n = none) :
    ∃ h', Heap.copyNodes this other ns h (some (after other rest)) = some h' ∧
      Represents h' (Function.update q this (some (done ++ ns.zip (rest.map Prod.snd)))) := by
  induction rest generalizing h q pre done ns with
  | nil =>
    obtain rfl := List.eq_nil_of_length_eq_zero hlength
    refine ⟨h, by simp [Heap.copyNodes], ?_⟩
    rwa [List.map_nil, List.zip_nil_right, List.append_nil, ← hthis, Function.update_eq_self]
  | cons x rest ih =>
    obtain ⟨n, ns, rfl⟩ := List.exists_cons_of_length_eq_add_one hlength
    obtain ⟨hn, hns⟩ := List.forall_mem_cons.mp hfresh
    obtain ⟨hnew, hnodup⟩ := List.nodup_cons.mp hnodup
    have hx := hr.value_of_mem hother (List.mem_append_right pre List.mem_cons_self)
    obtain ⟨h₁, hpush, hr₁⟩ := pushBack_spec (v := x.2) hr hthis hn
    have hother₁ : Function.update q this (some (done ++ [(n, x.2)])) other =
        some ((pre ++ [x]) ++ rest) := by
      rw [Function.update_of_ne hne.symm, hother, List.append_cons]
    have hsplit : Function.update q this (some (done ++ [(n, x.2)])) other =
        some (pre ++ x :: rest) := by rw [hother₁, List.append_assoc, List.singleton_append]
    have hnext := (hr₁.adjacent_right hsplit).1
    have hlive : h₁.live (.node x.1) = true := by
      have hx₁ := hr₁.value_of_mem hother₁ (show x ∈ pre ++ [x] ++ rest by simp)
      simp [Heap.live, hx₁]
    have hns₁ : ∀ m ∈ ns, h₁.value m = none := by
      intro m hm
      refine hr₁.value_eq_none.mpr fun l' zs hl' hmem => ?_
      have hout := hr.value_eq_none.mp (hns m hm)
      by_cases hthis' : l' = this
      · subst hthis'
        rw [Function.update_self] at hl'
        obtain rfl := Option.some.inj hl'
        rw [List.map_append, List.mem_append] at hmem
        rcases hmem with hmem | hmem
        · exact hout l' done hthis hmem
        · obtain rfl : m = n := List.mem_singleton.mp hmem
          exact hnew hm
      · rw [Function.update_of_ne hthis'] at hl'
        exact hout l' zs hl' hmem
    obtain ⟨h', hcopy, hr'⟩ := ih hr₁ (Function.update_self ..) hother₁ (Nat.succ.inj hlength) hnodup hns₁
    refine ⟨h', ?_, ?_⟩
    · simp [Heap.copyNodes, addr] at hnext ⊢
      simp [hx, hpush, hlive, hnext, hcopy]
    · rw [Function.update_idem, List.append_assoc] at hr'
      exact hr'

theorem copyConstruct_spec {this other : ℕ} {ns : List ℕ} (hr : Represents h q)
    (hthis : q this = none) (hother : q other = some xs) (hlength : ns.length = xs.length)
    (hnodup : ns.Nodup) (hfresh : ∀ n ∈ ns, h.value n = none) :
    ∃ h', h.copyConstruct this other ns = some h' ∧
      Represents h' (Function.update q this (some (ns.zip (xs.map Prod.snd)))) := by
  have hne : this ≠ other := by
    rintro rfl
    rw [hthis] at hother
    cases hother
  obtain ⟨h₁, hconstruct, hr₁⟩ := construct_spec hr hthis
  have hother₁ : Function.update q this (some []) other = some xs := by
    rw [Function.update_of_ne hne.symm, hother]
  have hfresh₁ : ∀ n ∈ ns, h₁.value n = none := by
    intro n hn
    refine hr₁.value_eq_none.mpr fun l' zs hl' => ?_
    by_cases hthis' : l' = this
    · subst hthis'
      rw [Function.update_self] at hl'
      obtain rfl := Option.some.inj hl'
      simp
    · rw [Function.update_of_ne hthis'] at hl'
      exact hr.value_eq_none.mp (hfresh n hn) l' zs hl'
  have hnil : Function.update q this (some []) other = some ([] ++ xs) := hother₁
  obtain ⟨h', hcopy, hr'⟩ := copyNodes_spec hr₁ (Function.update_self ..) hnil hne hlength hnodup
    hfresh₁
  have hhead := hr₁.live_head hother₁
  have hfirst := (hr₁.ends hother₁).first
  refine ⟨h', by simp [Heap.copyConstruct, hconstruct, hhead, hfirst, hcopy], ?_⟩
  rwa [Function.update_idem, List.nil_append] at hr'

section Iteration

/-- From the first element that is left to the end. -/
theorem collect_loop {fuel : ℕ} {passed : List (ℕ × T)}
    (hlinked : h.links.Linked (ws.map addr ++ [.tail l])) (hvalue : ∀ w ∈ ws, h.value w.1 = some w.2)
    (hfuel : ws.length ≤ fuel) :
    whileLoop (Heap.Collecting.goesOn (some (.tail l))) h.collectNext fuel
      ⟨some (after l ws), passed⟩ = some ⟨some (.tail l), passed ++ ws⟩ := by
  induction ws generalizing passed fuel with
  | nil =>
    rw [List.append_nil]
    exact whileLoop_stop (by simp [Heap.Collecting.goesOn]) fuel
  | cons w ws ih =>
    obtain ⟨fuel, rfl⟩ : ∃ k, fuel = k + 1 := ⟨fuel - 1, by simp at hfuel; omega⟩
    obtain ⟨hw, hws⟩ := List.forall_mem_cons.mp hvalue
    obtain ⟨hnext, hrest⟩ := linked_cons hlinked
    have hlive : h.live (.node w.1) = true := by simp [Heap.live, hw]
    have hbody : h.collectNext ⟨some (after l (w :: ws)), passed⟩ =
        some ⟨some (after l ws), passed ++ [w]⟩ := by
      simp only [addr] at hnext
      simp [Heap.collectNext, addr, hw, hlive, hnext]
    refine (whileLoop_next (by simp [Heap.Collecting.goesOn, addr]) fuel).trans ?_
    rw [hbody, Option.bind_some, ih hrest hws (Nat.le_of_succ_le_succ hfuel), List.append_assoc,
      List.singleton_append]

theorem collect_spec {fuel : ℕ} (hr : Represents h q) (hl : q l = some xs)
    (hfuel : xs.length ≤ fuel) : Heap.collect fuel h l = some xs := by
  have hhead := hr.live_head hl
  have hfirst := (hr.ends hl).first
  have hloop := @collect_loop T h l xs fuel [] (List.isChain_cons.mp (hr.linked l xs hl)).2
    (fun w hw => hr.value_of_mem hl hw) hfuel
  simp [Heap.collect, hhead, hfirst, hloop]

/-- From the end back to the first element, when the elements `ws` were passed. -/
theorem collectBack_loop {fuel : ℕ} (hr : Represents h q) (hl : q l = some (us ++ ws))
    (hfuel : us.length ≤ fuel) :
    whileLoop (Heap.Collecting.goesOn (some (after l (us ++ ws)))) h.collectPrev fuel
      ⟨some (after l ws), ws.reverse⟩ =
        some ⟨some (after l (us ++ ws)), (us ++ ws).reverse⟩ := by
  induction us using List.reverseRecOn generalizing ws fuel with
  | nil => exact whileLoop_stop (by simp [Heap.Collecting.goesOn]) fuel
  | append_singleton us u ih =>
    obtain ⟨fuel, rfl⟩ : ∃ k, fuel = k + 1 := ⟨fuel - 1, by simp at hfuel; omega⟩
    rw [List.append_assoc, List.singleton_append] at hl ⊢
    have hprev := (hr.adjacent_right hl).2
    have hvalue := hr.value_of_mem hl (List.mem_append_right us List.mem_cons_self)
    have hlive : h.live (after l ws) = true := by
      rw [List.append_cons] at hl
      exact hr.live_after hl
    have hbody : h.collectPrev ⟨some (after l ws), ws.reverse⟩ =
        some ⟨some (after l (u :: ws)), (u :: ws).reverse⟩ := by
      simp [Heap.collectPrev, hlive, hprev, addr, hvalue]
    have hguard : after l ws ≠ after l (us ++ u :: ws) := by
      have hfirst : after l (us ++ u :: ws) ∈ (us ++ [u]).map addr := by cases us <;> simp
      have hrest : after l ws ∈ ws.map addr ++ [.tail l] := by cases ws <;> simp
      have hsplit : (us ++ u :: ws).map addr ++ [.tail l] =
          (us ++ [u]).map addr ++ (ws.map addr ++ [.tail l]) := by simp
      have hnodup := (List.nodup_cons.mp (region_nodup (l := l) (hr.nodup l _ hl))).2
      rw [hsplit, List.nodup_append] at hnodup
      exact (hnodup.2.2 _ hfirst _ hrest).symm
    refine (whileLoop_next (by simp [Heap.Collecting.goesOn, hguard]) fuel).trans ?_
    rw [hbody, Option.bind_some]
    exact ih hl (by simpa using hfuel)

theorem collectBack_spec {fuel : ℕ} (hr : Represents h q) (hl : q l = some xs)
    (hfuel : xs.length ≤ fuel) : Heap.collectBack fuel h l = some xs.reverse := by
  have hhead := hr.live_head hl
  have hfirst := (hr.ends hl).first
  have hall : q l = some (xs ++ []) := by rw [hl, List.append_nil]
  have hloop := collectBack_loop hr hall hfuel
  rw [List.append_nil, after_nil, List.reverse_nil] at hloop
  simp [Heap.collectBack, hhead, hfirst, hloop]

end Iteration

end HftExercises.LinkedList
