import HftExercises.Algorithms.LinkedListMoves

/-! # Exchanging lists

An exchange steals three times through a temporary that starts empty, so it is exact when
both lists have elements; a copy assignment exchanges with a copy.
-/
namespace HftExercises.LinkedList
open Links
variable {T : Type} {h h' : Heap T} {q : Contents T} {this other tmp k k' : ℕ} {a b : Addr}
variable {xs ys : List (ℕ × T)} {fuel : ℕ}

/-- Stealing keeps every object and every node alive. -/
theorem live_stolen (hthis : h.size this = some k) (hother : h.size other = some k') {n : ℕ}
    (x : Addr) : (stolen h this other n a b).live x = h.live x := by
  have hsize : ∀ l, ((stolen h this other n a b).size l).isSome = (h.size l).isSome := by
    intro l
    by_cases hlo : l = other
    · subst hlo
      simp [stolen, hother]
    · by_cases hlt : l = this
      · subst hlt
        simp [stolen, hlo, hthis]
      · simp [stolen, hlo, hlt]
  cases x with
  | head l => exact hsize l
  | tail l => exact hsize l
  | node n => rfl

/-- A list that took no part in a move keeps its ends. -/
theorem Ends.stolen {l m n : ℕ} {c d : Addr} (he : Ends h l m c d)
    (hthis : h.size this = some k) (hother : h.size other = some k') (hlt : l ≠ this)
    (hlo : l ≠ other) (ha : a ≠ .tail l) (hb : b ≠ .head l) :
    Ends (stolen h this other n a b) l m c d := by
  refine ⟨?_, ?_, ?_, ?_, ?_⟩
  · simp [LinkedList.stolen, hlt, hlo, he.size]
  · rw [stolen_next]
    simp [hlt, hlo, hb.symm, he.first]
  · rw [stolen_prev]
    simp [hlt, hlo, ha.symm, he.last]
  · rw [live_stolen hthis hother, he.live_first]
  · rw [live_stolen hthis hother, he.live_last]

/-- The list that stole has the ends that it stole. -/
theorem Ends.took (he : Ends h other k' a b) (hthis : h.size this = some k) (hne : this ≠ other)
    (ha : a ≠ .tail this) (hb : b ≠ .head this) :
    Ends (LinkedList.stolen h this other k' a b) this k' a b := by
  refine ⟨?_, ?_, ?_, ?_, ?_⟩
  · simp [LinkedList.stolen, hne]
  · rw [stolen_next]
    simp [hne, hb.symm]
  · rw [stolen_prev]
    simp [hne, ha.symm]
  · rw [live_stolen hthis he.size, he.live_first]
  · rw [live_stolen hthis he.size, he.live_last]

/-- A list that is linked to itself alone loses nothing to itself. -/
theorem steal_self (hsize : h.size this = some 0)
    (hnext : h.links.next (.head this) = some (.tail this))
    (hprev : h.links.prev (.tail this) = some (.head this)) : h.steal this this = some h := by
  obtain ⟨hhead, htail⟩ := live_sentinels hsize
  have hlive := fun L x => h.live_congr x ⟨L, h.value, h.size⟩ rfl rfl
  have hsame : Function.update h.size this (some 0) = h.size := by
    rw [← hsize, Function.update_eq_self]
  have hn : h.links.setNext (.head this) (some (.tail this)) = h.links := by
    rw [← hnext, setNext_self]
  have hp : h.links.setPrev (.tail this) (some (.head this)) = h.links := by
    rw [← hprev, setPrev_self]
  simp [Heap.steal, Heap.setSize, hhead, htail, hnext, hprev, hn, hp, hsize, hsame]

/-- What an exchange leaves. -/
def swapped (q : Contents T) (this other : ℕ) (xs ys : List (ℕ × T)) : Contents T :=
  Function.update (Function.update q this (some ys)) other (some xs)

theorem ne_of_contents {l l' : ℕ} (hl : q l = some xs) (hl' : q l' = none) : l ≠ l' := by
  rintro rfl
  rw [hl] at hl'
  cases hl'

theorem swap_spec (hr : Represents h q) (hthis : q this = some xs) (hother : q other = some ys)
    (htmp : q tmp = none) (hne : this ≠ other) (hxs : xs ≠ []) (hys : ys ≠ []) :
    ∃ h', Heap.swap fuel h this other tmp = some h' ∧
      Represents h' (swapped q this other xs ys) := by
  have htt := ne_of_contents hthis htmp
  have hot := ne_of_contents hother htmp
  obtain ⟨h₁, hconstruct, hr₁⟩ := construct_spec hr htmp
  have hthis₁ : Function.update q tmp (some []) this = some xs := by
    rw [Function.update_of_ne htt, hthis]
  obtain ⟨h₂, hfirst, hr₂⟩ := steal_spec hr₁ (Function.update_self ..) hthis₁ htt.symm hxs
  obtain ⟨q₂, hq₂⟩ : ∃ q₂, q₂ = moved (Function.update q tmp (some [])) tmp this xs := ⟨_, rfl⟩
  have hthis₂ : q₂ this = some [] := by simp [hq₂, moved, htt]
  have hother₂ : q₂ other = some ys := by simp [hq₂, moved, hot, hne.symm, hother]
  have htmp₂ : q₂ tmp = some xs := by simp [hq₂, moved]
  rw [← moved, ← hq₂] at hr₂
  obtain ⟨h₃, hsecond, hr₃⟩ := steal_spec hr₂ hthis₂ hother₂ hne hys
  obtain ⟨q₃, hq₃⟩ : ∃ q₃, q₃ = moved q₂ this other ys := ⟨_, rfl⟩
  have hother₃ : q₃ other = some [] := by simp [hq₃, moved, hne.symm]
  have htmp₃ : q₃ tmp = some xs := by simp [hq₃, moved, htt.symm, hot.symm, htmp₂]
  rw [← moved, ← hq₃] at hr₃
  obtain ⟨h₄, hthird, hr₄⟩ := steal_spec hr₃ hother₃ htmp₃ hot hxs
  have htmp₄ : moved q₃ other tmp xs tmp = some [] := by simp [moved, hot.symm]
  obtain ⟨h₅, hdestroy, hr₅⟩ := destroy_spec hr₄ htmp₄ (Nat.zero_le fuel)
  refine ⟨h₅, by simp [Heap.swap, hconstruct, hfirst, hsecond, hthird, hdestroy], ?_⟩
  convert hr₅ using 1
  funext l
  by_cases hlt : l = tmp
  · subst hlt
    simp [swapped, htt.symm, hot.symm, htmp]
  · by_cases hlo : l = other
    · subst hlo
      simp [swapped, hot]
    · by_cases hlh : l = this
      · subst hlh
        simp [swapped, moved, hq₃, hlo, htt]
      · simp [swapped, moved, hq₃, hq₂, hlt, hlo, hlh]

/-- Where the list `this` begins after an exchange. -/
theorem swap_next (hr : Represents h q) (hthis : q this = some xs) (hother : q other = some ys)
    (htmp : q tmp = none) (hne : this ≠ other)
    (hswap : Heap.swap fuel h this other tmp = some h') : h'.links.next (.head this) =
      if before this xs = .head this then some (.tail other) else some (after other ys) := by
  have htt := ne_of_contents hthis htmp
  have hot := ne_of_contents hother htmp
  obtain ⟨h₁, hconstruct, hr₁⟩ := construct_spec hr htmp
  have hthis' : Function.update q tmp (some []) this = some xs := by
    rw [Function.update_of_ne htt, hthis]
  have hother' : Function.update q tmp (some []) other = some ys := by
    rw [Function.update_of_ne hot, hother]
  have htmp₁ := hr₁.ends (Function.update_self tmp (some []) q)
  have hthis₁ := hr₁.ends hthis'
  have hother₁ := hr₁.ends hother'
  have hfirst := steal_eq htmp₁.size hthis₁ htt.symm fun hat => absurd hat (after_ne_tail htt)
  obtain ⟨h₂, hh₂⟩ : ∃ h₂, h₂ = stolen h₁ tmp this xs.length (after this xs) (before this xs) :=
    ⟨_, rfl⟩
  rw [← hh₂] at hfirst
  have htmp₂ : Ends h₂ tmp xs.length (after this xs) (before this xs) := by
    rw [hh₂]
    exact hthis₁.took htmp₁.size htt.symm (after_ne_tail htt) (before_ne_head (.inl htt))
  have hother₂ : Ends h₂ other ys.length (after other ys) (before other ys) := by
    rw [hh₂]
    exact hother₁.stolen htmp₁.size hthis₁.size hot hne.symm (after_ne_tail hne)
      (before_ne_head (.inl hne))
  have hthis₂ : h₂.size this = some 0 := by simp [hh₂, stolen]
  have hsecond := steal_eq hthis₂ hother₂ hne fun hat => absurd hat (after_ne_tail hne.symm)
  obtain ⟨h₃, hh₃⟩ : ∃ h₃, h₃ = stolen h₂ this other ys.length (after other ys) (before other ys) :=
    ⟨_, rfl⟩
  rw [← hh₃] at hsecond
  have htmp₃ : Ends h₃ tmp xs.length (after this xs) (before this xs) := by
    rw [hh₃]
    exact htmp₂.stolen hthis₂ hother₂.size htt.symm hot.symm (after_ne_tail hot)
      (before_ne_head (.inl hot))
  have hother₃ : h₃.size other = some 0 := by simp [hh₃, stolen]
  have hnext₃ : h₃.links.next (.head this) = some (after other ys) := by
    have hbefore : before other ys ≠ .head this := before_ne_head (.inl hne.symm)
    rw [hh₃, stolen_next]
    simp [hne, hbefore.symm]
  have hthird := steal_eq hother₃ htmp₃ hot fun hat => absurd hat (after_ne_tail hne)
  obtain ⟨h₄, hh₄⟩ :
    ∃ h₄, h₄ = stolen h₃ other tmp xs.length (after this xs) (before this xs) := ⟨_, rfl⟩
  rw [← hh₄] at hthird
  have hdestroy : Heap.destroy fuel h₄ tmp = some h' := by
    rw [← hswap]
    simp [Heap.swap, hconstruct, hfirst, hsecond, hthird]
  rw [destroy_next hdestroy (by simpa using htt), hh₄, stolen_next]
  simp [htt, hne, hnext₃, eq_comm]

theorem swap_empty (hr : Represents h q) (hthis : q this = some xs) (hother : q other = some ys)
    (htmp : q tmp = none) (hne : this ≠ other) (hempty : xs = [] ∨ ys = [])
    (hswap : Heap.swap fuel h this other tmp = some h') :
    h'.links.next (.head this) = some (.tail other) := by
  have hnext := swap_next hr hthis hother htmp hne hswap
  rcases hempty with rfl | rfl
  · simpa using hnext
  · simpa using hnext

/-- Two empty lists that steal from one another are as they were. -/
theorem stolen_back (hthis : Ends h this 0 (.tail this) (.head this))
    (htmp : Ends h tmp 0 (.tail tmp) (.head tmp)) (hne : this ≠ tmp) :
    stolen (stolen h tmp this 0 (.tail this) (.head this)) this tmp 0 (.tail this) (.head this) =
      h := by
  have hsize : ∀ l, Function.update (Function.update (Function.update (Function.update h.size tmp
      (some 0)) this (some 0)) this (some 0)) tmp (some 0) l = h.size l := by
    intro l
    by_cases hlm : l = tmp
    · subst hlm
      simp [htmp.size]
    · by_cases hlt : l = this
      · subst hlt
        simp [hlm, hthis.size]
      · simp [hlm, hlt]
  have hnext : ∀ x, (stolen (stolen h tmp this 0 (.tail this) (.head this)) this tmp 0
      (.tail this) (.head this)).links.next x = h.links.next x := by
    intro x
    rw [stolen_next, stolen_next]
    split_ifs with hm ht
    · rw [hm, htmp.first]
    · rw [ht, hthis.first]
    · rfl
  have hprev : ∀ x, (stolen (stolen h tmp this 0 (.tail this) (.head this)) this tmp 0
      (.tail this) (.head this)).links.prev x = h.links.prev x := by
    intro x
    rw [stolen_prev, stolen_prev]
    split_ifs with hm ht
    · rw [hm, htmp.last]
    · rw [ht, hthis.last]
    · rfl
  exact Heap.ext (Links.ext (funext hnext) (funext hprev)) rfl (funext hsize)

theorem swap_self (hr : Represents h q) (hthis : q this = some xs) (htmp : q tmp = none) :
    ∃ h', Heap.swap fuel h this this tmp = some h' ∧ Represents h' q := by
  have htt := ne_of_contents hthis htmp
  obtain ⟨h₁, hconstruct, hr₁⟩ := construct_spec hr htmp
  have hthis₁ : Function.update q tmp (some []) this = some xs := by
    rw [Function.update_of_ne htt, hthis]
  have htmp₁ : Function.update q tmp (some []) tmp = some [] := Function.update_self ..
  rcases eq_or_ne xs [] with rfl | hxs
  · have hends := hr₁.ends hthis₁
    have hempty := hr₁.ends htmp₁
    have hfirst := steal_eq hempty.size hends htt.symm fun hat => absurd hat (after_ne_tail htt)
    have htook := hends.took hempty.size htt.symm (after_ne_tail htt) (before_ne_head (.inl htt))
    rw [List.length_nil, after_nil, before_nil] at *
    obtain ⟨h₂, hh₂⟩ : ∃ h₂, h₂ = stolen h₁ tmp this 0 (.tail this) (.head this) := ⟨_, rfl⟩
    have hself : h₂.steal this this = some h₂ := by
      refine steal_self ?_ ?_ ?_
      · simp [hh₂, stolen]
      · simp [hh₂, stolen_next]
      · simp [hh₂, stolen_prev]
    have hsize₂ : h₂.size this = some 0 := by simp [hh₂, stolen]
    have hthird := steal_eq hsize₂ (hh₂ ▸ htook) htt fun _ => rfl
    rw [← hh₂] at hfirst
    rw [hh₂, stolen_back hends hempty htt, ← hh₂] at hthird
    obtain ⟨h', hdestroy, hr'⟩ := destroy_spec hr₁ htmp₁ (Nat.zero_le fuel)
    refine ⟨h', by simp [Heap.swap, hconstruct, hfirst, hself, hthird, hdestroy], ?_⟩
    rwa [Function.update_idem, ← htmp, Function.update_eq_self] at hr'
  · obtain ⟨h₂, hfirst, hr₂⟩ := steal_spec hr₁ htmp₁ hthis₁ htt.symm hxs
    have hthis₂ : moved (Function.update q tmp (some [])) tmp this xs this = some [] := by
      simp [moved, htt]
    have htmp₂ : moved (Function.update q tmp (some [])) tmp this xs tmp = some xs := by
      simp [moved]
    have hends := hr₂.ends hthis₂
    have hself := steal_self hends.size hends.first hends.last
    obtain ⟨h₃, hthird, hr₃⟩ := steal_spec hr₂ hthis₂ htmp₂ htt hxs
    have htmp₃ : moved (moved (Function.update q tmp (some [])) tmp this xs) this tmp xs tmp =
        some [] := by simp [moved, htt.symm]
    obtain ⟨h', hdestroy, hr'⟩ := destroy_spec hr₃ htmp₃ (Nat.zero_le fuel)
    refine ⟨h', by simp [Heap.swap, hconstruct, hfirst, hself, hthird, hdestroy], ?_⟩
    convert hr' using 1
    funext l
    by_cases hlm : l = tmp
    · subst hlm
      simp [htmp]
    · by_cases hlt : l = this
      · subst hlt
        simp [hlm, hthis]
      · simp [hlm, hlt]

end HftExercises.LinkedList
