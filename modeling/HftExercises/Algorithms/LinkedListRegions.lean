import HftExercises.Algorithms.LinkedList

/-! # Lists as sequences

The elements of a list are its nodes with their values, in the order of the links. Every
operation edits the sequence of one list and leaves all others alone.
-/
namespace HftExercises.LinkedList
open Links
variable {T : Type}

/-- The sequence of every list object. -/
abbrev Contents (T : Type) := ℕ → Option (List (ℕ × T))

theorem update_eq_some {q : Contents T} {l l' : ℕ} {r : Option (List (ℕ × T))}
    {xs : List (ℕ × T)} (h : Function.update q l r l' = some xs) :
    l' = l ∧ r = some xs ∨ l' ≠ l ∧ q l' = some xs := by
  by_cases hl : l' = l
  · subst hl
    rw [Function.update_self] at h
    exact .inl ⟨rfl, h⟩
  · rw [Function.update_of_ne hl] at h
    exact .inr ⟨hl, h⟩

def addr (x : ℕ × T) : Addr := .node x.1

/-- The links of a list, from sentinel to sentinel. -/
def region (l : ℕ) (xs : List (ℕ × T)) : List Addr := .head l :: (xs.map addr ++ [.tail l])

/-- Every list is linked in both directions, and no node is in two lists or in none. -/
structure Represents (h : Heap T) (q : Contents T) : Prop where
  size : ∀ l, h.size l = (q l).map List.length
  linked : ∀ l xs, q l = some xs → h.links.Linked (region l xs)
  nodup : ∀ l xs, q l = some xs → (xs.map Prod.fst).Nodup
  apart : ∀ l l' xs ys n, q l = some xs → q l' = some ys → n ∈ xs.map Prod.fst →
    n ∈ ys.map Prod.fst → l = l'
  value : ∀ n v, h.value n = some v ↔ ∃ l xs, q l = some xs ∧ (n, v) ∈ xs

section Region
variable {l l' : ℕ} {xs : List (ℕ × T)} {a : Addr}

theorem mem_region : a ∈ region l xs ↔
    a = .head l ∨ a = .tail l ∨ ∃ n ∈ xs.map Prod.fst, a = .node n := by
  simp only [region, addr, List.mem_cons, List.mem_append, List.mem_map, List.not_mem_nil,
    or_false]
  constructor
  · rintro (rfl | ⟨x, hx, rfl⟩ | rfl)
    · exact .inl rfl
    · exact .inr (.inr ⟨x.1, ⟨x, hx, rfl⟩, rfl⟩)
    · exact .inr (.inl rfl)
  · rintro (rfl | rfl | ⟨n, ⟨x, hx, rfl⟩, rfl⟩)
    · exact .inl rfl
    · exact .inr (.inr rfl)
    · exact .inr (.inl ⟨x, hx, rfl⟩)

theorem node_mem_region {n : ℕ} : .node n ∈ region l xs ↔ n ∈ xs.map Prod.fst := by
  rw [mem_region]
  constructor
  · rintro (h | h | ⟨m, hm, h⟩)
    · cases h
    · cases h
    · cases h
      exact hm
  · exact fun h => .inr (.inr ⟨n, h, rfl⟩)

theorem region_nodup (h : (xs.map Prod.fst).Nodup) : (region l xs).Nodup := by
  have hnodes : (xs.map addr).Nodup := by
    have hmap : xs.map addr = (xs.map Prod.fst).map Addr.node := by
      rw [List.map_map]
      rfl
    rw [hmap]
    exact h.map fun a b hab => Addr.node.inj hab
  rw [region, List.nodup_cons, List.nodup_append]
  refine ⟨?_, hnodes, List.nodup_singleton _, ?_⟩
  · simp [addr]
  · rintro a ha b hb rfl
    obtain ⟨x, -, hx⟩ := List.mem_map.mp ha
    rw [List.mem_singleton.mp hb] at hx
    cases hx

end Region

namespace Represents
variable {h h' : Heap T} {q : Contents T} {l : ℕ} {xs ys : List (ℕ × T)}

theorem value_eq_none (hr : Represents h q) {n : ℕ} :
    h.value n = none ↔ ∀ l xs, q l = some xs → n ∉ xs.map Prod.fst := by
  constructor
  · intro hn l xs hl hmem
    obtain ⟨⟨m, v⟩, hx, rfl⟩ := List.mem_map.mp hmem
    have hv := (hr.value m v).mpr ⟨l, xs, hl, hx⟩
    rw [hn] at hv
    cases hv
  · intro hout
    refine Option.eq_none_iff_forall_ne_some.mpr fun v hv => ?_
    obtain ⟨l, xs, hl, hx⟩ := (hr.value n v).mp hv
    exact hout l xs hl (List.mem_map.mpr ⟨(n, v), hx, rfl⟩)

theorem value_of_mem (hr : Represents h q) (hl : q l = some xs) {x : ℕ × T} (hx : x ∈ xs) :
    h.value x.1 = some x.2 := (hr.value x.1 x.2).mpr ⟨l, xs, hl, hx⟩

/-- A node is an element of the list or it is none of its nodes. -/
theorem value_split (hr : Represents h q) (hl : q l = some xs) (n : ℕ) (v : T) :
    h.value n = some v ↔ (n, v) ∈ xs ∨ n ∉ xs.map Prod.fst ∧ h.value n = some v := by
  constructor
  · intro hv
    by_cases hn : n ∈ xs.map Prod.fst
    · obtain ⟨x, hx, rfl⟩ := List.mem_map.mp hn
      obtain rfl := Option.some.inj (hv.symm.trans (hr.value_of_mem hl hx))
      exact .inl hx
    · exact .inr ⟨hn, hv⟩
  · rintro (hx | ⟨-, hv⟩)
    · exact hr.value_of_mem hl hx
    · exact hv

theorem size_eq (hr : Represents h q) (hl : q l = some xs) : h.size l = some xs.length := by
  rw [hr.size, hl, Option.map_some]

theorem live_region (hr : Represents h q) (hl : q l = some xs) {a : Addr} (ha : a ∈ region l xs) :
    h.live a = true := by
  rcases mem_region.mp ha with rfl | rfl | ⟨n, hn, rfl⟩
  · simp [Heap.live, hr.size_eq hl]
  · simp [Heap.live, hr.size_eq hl]
  · obtain ⟨x, hx, rfl⟩ := List.mem_map.mp hn
    simp [Heap.live, hr.value_of_mem hl hx]

/-- One list is replaced, or it comes or goes: what has to be checked. -/
theorem replace (hr : Represents h q) {r : Option (List (ℕ × T))} (hold : (q l).getD [] = xs)
    (hnew : r.getD [] = ys) (hsize : h'.size = Function.update h.size l (r.map List.length))
    (hlinked : ∀ zs, r = some zs → h'.links.Linked (region l zs)) (hnodup : (ys.map Prod.fst).Nodup)
    (hfresh : ∀ n ∈ ys.map Prod.fst, n ∈ xs.map Prod.fst ∨ h.value n = none)
    (hnext : ∀ a, a ∉ region l xs → a ∉ region l ys → h'.links.next a = h.links.next a)
    (hprev : ∀ a, a ∉ region l xs → a ∉ region l ys → h'.links.prev a = h.links.prev a)
    (hvalue : ∀ n v, h'.value n = some v ↔
      (n, v) ∈ ys ∨ n ∉ xs.map Prod.fst ∧ h.value n = some v) :
    Represents h' (Function.update q l r) := by
  have hsome : ∀ n ∈ xs.map Prod.fst, q l = some xs := by
    intro n hn
    cases hq : q l with
    | none =>
      rw [← hold, hq] at hn
      simp at hn
    | some zs => rw [← hold, hq, Option.getD_some]
  have hout : ∀ l' zs n, l' ≠ l → q l' = some zs → n ∈ zs.map Prod.fst →
      n ∉ xs.map Prod.fst ∧ n ∉ ys.map Prod.fst := by
    intro l' zs n hne hl' hn
    have hxs : n ∉ xs.map Prod.fst := fun hx => hne (hr.apart _ _ _ _ n hl' (hsome n hx) hn hx)
    refine ⟨hxs, fun hy => ?_⟩
    rcases hfresh n hy with hx | hnone
    · exact hxs hx
    · exact hr.value_eq_none.mp hnone l' zs hl' hn
  have hcases : ∀ {l' zs}, Function.update q l r l' = some zs →
      l' = l ∧ r = some zs ∧ zs = ys ∨ l' ≠ l ∧ q l' = some zs := by
    intro l' zs hz
    rcases update_eq_some hz with ⟨rfl, hzs⟩ | hother
    · exact .inl ⟨rfl, hzs, by rw [← hnew, hzs, Option.getD_some]⟩
    · exact .inr hother
  refine ⟨?_, ?_, ?_, ?_, ?_⟩
  · intro l'
    rw [hsize]
    by_cases hll : l' = l
    · subst hll
      rw [Function.update_self, Function.update_self]
    · rw [Function.update_of_ne hll, Function.update_of_ne hll, hr.size]
  · intro l' zs hz
    rcases hcases hz with ⟨rfl, hzs, -⟩ | ⟨hne, hl'⟩
    · exact hlinked zs hzs
    · have hapart : ∀ a ∈ region l' zs, a ∉ region l xs ∧ a ∉ region l ys := by
        intro a ha
        rcases mem_region.mp ha with rfl | rfl | ⟨n, hn, rfl⟩
        · simp [mem_region, hne]
        · simp [mem_region, hne]
        · obtain ⟨hx, hy⟩ := hout l' zs n hne hl' hn
          exact ⟨fun h => hx (node_mem_region.mp h), fun h => hy (node_mem_region.mp h)⟩
      refine (hr.linked l' zs hl').frame ?_ ?_
      · exact fun a ha => hnext a (hapart a ha).1 (hapart a ha).2
      · exact fun a ha => hprev a (hapart a ha).1 (hapart a ha).2
  · intro l' zs hz
    rcases hcases hz with ⟨rfl, -, rfl⟩ | ⟨-, hl'⟩
    · exact hnodup
    · exact hr.nodup l' zs hl'
  · intro l₁ l₂ us vs n hu hv hnu hnv
    rcases hcases hu with ⟨rfl, -, rfl⟩ | ⟨hne, hl₁⟩ <;>
      rcases hcases hv with ⟨rfl, -, rfl⟩ | ⟨hne', hl₂⟩
    · rfl
    · exact absurd hnu (hout l₂ vs n hne' hl₂ hnv).2
    · exact absurd hnv (hout l₁ us n hne hl₁ hnu).2
    · exact hr.apart l₁ l₂ us vs n hl₁ hl₂ hnu hnv
  · intro n v
    rw [hvalue]
    constructor
    · rintro (hy | ⟨hx, hn⟩)
      · refine ⟨l, ys, ?_, hy⟩
        rw [Function.update_self]
        cases r with
        | none => simp [← hnew] at hy
        | some zs => rw [← hnew, Option.getD_some]
      · obtain ⟨l', zs, hl', hz⟩ := (hr.value n v).mp hn
        refine ⟨l', zs, ?_, hz⟩
        rw [Function.update_of_ne ?_, hl']
        rintro rfl
        rw [hl', Option.getD_some] at hold
        exact hx (List.mem_map.mpr ⟨(n, v), hold ▸ hz, rfl⟩)
    · rintro ⟨l', zs, hz, hmem⟩
      rcases hcases hz with ⟨rfl, -, rfl⟩ | ⟨hne, hl'⟩
      · exact .inl hmem
      · refine .inr ⟨?_, (hr.value n v).mpr ⟨l', zs, hl', hmem⟩⟩
        exact (hout l' zs n hne hl' (List.mem_map.mpr ⟨(n, v), hmem, rfl⟩)).1

/-- The sequence of one list is edited. -/
theorem edit (hr : Represents h q) (hl : q l = some xs)
    (hsize : h'.size = Function.update h.size l (some ys.length))
    (hlinked : h'.links.Linked (region l ys)) (hnodup : (ys.map Prod.fst).Nodup)
    (hfresh : ∀ n ∈ ys.map Prod.fst, n ∈ xs.map Prod.fst ∨ h.value n = none)
    (hnext : ∀ a, a ∉ region l xs → a ∉ region l ys → h'.links.next a = h.links.next a)
    (hprev : ∀ a, a ∉ region l xs → a ∉ region l ys → h'.links.prev a = h.links.prev a)
    (hvalue : ∀ n v, h'.value n = some v ↔
      (n, v) ∈ ys ∨ n ∉ xs.map Prod.fst ∧ h.value n = some v) :
    Represents h' (Function.update q l (some ys)) := by
  refine hr.replace (by rw [hl, Option.getD_some]) rfl hsize ?_ hnodup hfresh hnext hprev hvalue
  rintro zs hz
  obtain rfl := Option.some.inj hz
  exact hlinked

end Represents

/-- The link behind which a sequence ends. -/
def before (l : ℕ) (us : List (ℕ × T)) : Addr :=
  match us.getLast? with
  | none => .head l
  | some u => addr u

/-- The link with which a sequence begins. -/
def after (l : ℕ) : List (ℕ × T) → Addr
  | [] => .tail l
  | w :: _ => addr w

@[simp] theorem before_nil (l : ℕ) : before l ([] : List (ℕ × T)) = .head l := rfl

@[simp] theorem before_concat (l : ℕ) (us : List (ℕ × T)) (u : ℕ × T) :
    before l (us ++ [u]) = addr u := by
  rw [before, List.getLast?_concat]

@[simp] theorem after_nil (l : ℕ) : after l ([] : List (ℕ × T)) = .tail l := rfl

@[simp] theorem after_cons (l : ℕ) (w : ℕ × T) (ws : List (ℕ × T)) : after l (w :: ws) = addr w := rfl

/-- A region around a place in the sequence, with and without an element there. -/
theorem region_split (l : ℕ) (us ws : List (ℕ × T)) : ∃ pre post,
    region l (us ++ ws) = pre ++ before l us :: after l ws :: post ∧
      ∀ x, region l (us ++ x :: ws) = pre ++ before l us :: addr x :: after l ws :: post := by
  obtain ⟨pre, hpre⟩ : ∃ pre, Addr.head l :: us.map addr = pre ++ [before l us] := by
    rcases List.eq_nil_or_concat us with rfl | ⟨us, u, rfl⟩
    · exact ⟨[], rfl⟩
    · rw [List.concat_eq_append]
      exact ⟨.head l :: us.map addr, by simp⟩
  obtain ⟨post, hpost⟩ : ∃ post, ws.map addr ++ [.tail l] = after l ws :: post := by
    cases ws with
    | nil => exact ⟨[], rfl⟩
    | cons w ws => exact ⟨ws.map addr ++ [.tail l], rfl⟩
  refine ⟨pre, post, ?_, fun x => ?_⟩
  · calc region l (us ++ ws)
        = (.head l :: us.map addr) ++ (ws.map addr ++ [.tail l]) := by simp [region]
      _ = pre ++ before l us :: after l ws :: post := by
          rw [hpre, hpost, List.append_assoc, List.singleton_append]
  · calc region l (us ++ x :: ws)
        = (.head l :: us.map addr) ++ (addr x :: (ws.map addr ++ [.tail l])) := by simp [region]
      _ = pre ++ before l us :: addr x :: after l ws :: post := by
          rw [hpre, hpost, List.append_assoc, List.singleton_append]

/-- The size of a list object and the addresses at the ends of what it links. -/
structure Ends (h : Heap T) (l k : ℕ) (a b : Addr) : Prop where
  size : h.size l = some k
  first : h.links.next (.head l) = some a
  last : h.links.prev (.tail l) = some b
  live_first : h.live a = true
  live_last : h.live b = true

namespace Represents
variable {h h' : Heap T} {q : Contents T} {l n : ℕ} {v : T} {us ws : List (ℕ × T)} {x : ℕ × T}

theorem adjacent (hr : Represents h q) (hl : q l = some (us ++ ws)) :
    h.links.Adjacent (before l us) (after l ws) := by
  obtain ⟨pre, post, hsplit, -⟩ := region_split l us ws
  have hlinked := hr.linked l _ hl
  rw [hsplit] at hlinked
  exact (List.isChain_append_cons_cons.mp hlinked).2.1

theorem adjacent_left (hr : Represents h q) (hl : q l = some (us ++ x :: ws)) :
    h.links.Adjacent (before l us) (addr x) := hr.adjacent hl

theorem adjacent_right (hr : Represents h q) (hl : q l = some (us ++ x :: ws)) :
    h.links.Adjacent (addr x) (after l ws) := by
  rw [List.append_cons] at hl
  have hadj := hr.adjacent hl
  rwa [before_concat] at hadj

theorem live_before (hr : Represents h q) (hl : q l = some (us ++ ws)) :
    h.live (before l us) = true := by
  obtain ⟨pre, post, hsplit, -⟩ := region_split l us ws
  refine hr.live_region hl ?_
  rw [hsplit]
  simp

theorem live_after (hr : Represents h q) (hl : q l = some (us ++ ws)) :
    h.live (after l ws) = true := by
  obtain ⟨pre, post, hsplit, -⟩ := region_split l us ws
  refine hr.live_region hl ?_
  rw [hsplit]
  simp

theorem ends {xs : List (ℕ × T)} (hr : Represents h q) (hl : q l = some xs) :
    Ends h l xs.length (after l xs) (before l xs) := by
  have hnil : q l = some ([] ++ xs) := hl
  have hall : q l = some (xs ++ []) := by rw [hl, List.append_nil]
  exact ⟨hr.size_eq hl, (hr.adjacent hnil).1, (hr.adjacent hall).2, hr.live_after hnil,
    hr.live_before hall⟩

theorem live_head {xs : List (ℕ × T)} (hr : Represents h q) (hl : q l = some xs) :
    h.live (.head l) = true := hr.live_region hl (mem_region.mpr (.inl rfl))

theorem insert (hr : Represents h q) (hl : q l = some (us ++ ws)) (hn : h.value n = none)
    (hlinks : Inserted h.links h'.links (before l us) (.node n) (after l ws))
    (hvalue : h'.value = Function.update h.value n (some v))
    (hsize : h'.size = Function.update h.size l (some ((us ++ ws).length + 1))) :
    Represents h' (Function.update q l (some (us ++ (n, v) :: ws))) := by
  have hout : n ∉ (us ++ ws).map Prod.fst := hr.value_eq_none.mp hn l _ hl
  have hnodup := hr.nodup l _ hl
  obtain ⟨pre, post, hold, hput⟩ := region_split l us ws
  have hregion : region l (us ++ (n, v) :: ws) =
      pre ++ before l us :: .node n :: after l ws :: post := hput (n, v)
  have hnew : .node n ∉ region l (us ++ ws) := fun hmem => hout (node_mem_region.mp hmem)
  refine hr.edit hl ?_ ?_ ?_ ?_ ?_ ?_ ?_
  · rw [hsize]
    simp [Nat.add_assoc]
  · have hlinked := hr.linked l _ hl
    have hdistinct := region_nodup (l := l) hnodup
    rw [hold] at hlinked hdistinct hnew
    rw [hregion]
    exact hlinked.insert hdistinct hnew hlinks
  · rw [List.map_append, List.map_cons]
    rw [List.map_append] at hnodup hout
    exact (List.nodup_middle.mpr (List.nodup_cons.mpr ⟨hout, hnodup⟩))
  · intro m hm
    rw [List.map_append, List.map_cons, List.mem_append, List.mem_cons] at hm
    rw [List.map_append, List.mem_append]
    rcases hm with hm | rfl | hm
    · exact .inl (.inl hm)
    · exact .inr hn
    · exact .inl (.inr hm)
  · intro a ha ha'
    rw [hregion] at ha'
    simp only [List.mem_append, List.mem_cons, not_or] at ha'
    exact hlinks.next_other a ha'.2.1 ha'.2.2.1
  · intro a ha ha'
    rw [hregion] at ha'
    simp only [List.mem_append, List.mem_cons, not_or] at ha'
    exact hlinks.prev_other a ha'.2.2.2.1 ha'.2.2.1
  · intro m w
    rw [hvalue]
    by_cases hm : m = n
    · subst hm
      rw [Function.update_self]
      simp only [List.mem_append, List.mem_cons, Prod.mk.injEq, true_and, hn, reduceCtorEq,
        and_false, or_false, Option.some.injEq]
      refine ⟨fun h => .inr (.inl h.symm), ?_⟩
      rintro (hmem | rfl | hmem)
      · exact absurd (List.mem_map.mpr ⟨(m, w), List.mem_append_left _ hmem, rfl⟩) hout
      · rfl
      · exact absurd (List.mem_map.mpr ⟨(m, w), List.mem_append_right _ hmem, rfl⟩) hout
    · rw [Function.update_of_ne hm]
      refine (hr.value_split hl m w).trans ?_
      simp only [List.mem_append, List.mem_cons, Prod.mk.injEq, hm, false_and, false_or]

theorem erase (hr : Represents h q) (hl : q l = some (us ++ x :: ws))
    (hlinks : Erased h.links h'.links (before l us) (after l ws))
    (hvalue : h'.value = Function.update h.value x.1 none)
    (hsize : h'.size = Function.update h.size l (some (us ++ ws).length)) :
    Represents h' (Function.update q l (some (us ++ ws))) := by
  have hnodup := hr.nodup l _ hl
  have hsub : (us ++ ws).Sublist (us ++ x :: ws) :=
    List.Sublist.append (List.Sublist.refl _) (List.sublist_cons_self x ws)
  have hout : x.1 ∉ (us ++ ws).map Prod.fst := by
    rw [List.map_append, List.map_cons, List.nodup_middle, List.nodup_cons] at hnodup
    rw [List.map_append]
    exact hnodup.1
  obtain ⟨pre, post, hregion, hput⟩ := region_split l us ws
  have hold := hput x
  refine hr.edit hl hsize ?_ (hnodup.sublist (hsub.map _)) ?_ ?_ ?_ ?_
  · have hlinked := hr.linked l _ hl
    have hdistinct := region_nodup (l := l) hnodup
    rw [hold] at hlinked hdistinct
    rw [hregion]
    exact hlinked.erase hdistinct hlinks
  · exact fun m hm => .inl ((hsub.map _).subset hm)
  · intro a ha ha'
    rw [hregion] at ha'
    simp only [List.mem_append, List.mem_cons, not_or] at ha'
    exact hlinks.next_other a ha'.2.1
  · intro a ha ha'
    rw [hregion] at ha'
    simp only [List.mem_append, List.mem_cons, not_or] at ha'
    exact hlinks.prev_other a ha'.2.2.1
  · intro m w
    rw [hvalue]
    by_cases hm : m = x.1
    · subst hm
      rw [Function.update_self]
      refine iff_of_false (by simp) ?_
      rintro (hmem | ⟨hmem, -⟩)
      · exact hout (List.mem_map.mpr ⟨_, hmem, rfl⟩)
      · exact hmem (List.mem_map.mpr ⟨x, by simp, rfl⟩)
    · have hne : (m, w) ≠ x := fun he => hm (congrArg Prod.fst he)
      rw [Function.update_of_ne hm]
      refine (hr.value_split hl m w).trans ?_
      simp only [List.mem_append, List.mem_cons, hne, false_or]

end Represents

end HftExercises.LinkedList
