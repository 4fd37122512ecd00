import HftExercises.Algorithms.LinkedListExchanges
import HftExercises.Algorithms.LinkedListRuns

/-! # When moves, assignments and exchanges keep the lists

A region that is stolen while it is empty brings the sentinels of its old list along. An
object that steals it begins with a sentinel that is not its own, whatever comes after it.
-/
namespace HftExercises.LinkedList
variable {T : Type} {h h' : Heap T} {q q' : Contents T} {this other tmp tmp' l : ℕ}
variable {xs ys zs : List (ℕ × T)} {op : Option (Heap T)} {p : Prop} {fuel : ℕ} {ns : List ℕ}

theorem copyAssign_spec (hr : Represents h q) (hthis : q this = some xs)
    (hother : q other = some ys) (htmp : q tmp = none) (htmp' : q tmp' = none) (hne : this ≠ other)
    (htmps : tmp ≠ tmp') (hlength : ns.length = ys.length) (hnodup : ns.Nodup)
    (hfresh : ∀ n ∈ ns, h.value n = none) (hfuel : xs.length ≤ fuel) :
    (xs ≠ [] ∧ ys ≠ [] → ∃ h', Heap.copyAssign fuel h this other tmp tmp' ns = some h' ∧
        Represents h' (Function.update q this (some (ns.zip (ys.map Prod.snd))))) ∧
      (xs = [] ∨ ys = [] → ∀ h', Heap.copyAssign fuel h this other tmp tmp' ns = some h' →
        h'.links.next (.head this) = some (.tail tmp)) := by
  have htt := ne_of_contents hthis htmp
  obtain ⟨h₁, hcopy, hr₁⟩ := copyConstruct_spec hr htmp hother hlength hnodup hfresh
  obtain ⟨zs, hzs⟩ : ∃ zs, zs = ns.zip (ys.map Prod.snd) := ⟨_, rfl⟩
  rw [← hzs] at hr₁ ⊢
  have hzs' : zs.length = ys.length := by simp [hzs, hlength]
  have hthis₁ : Function.update q tmp (some zs) this = some xs := by
    rw [Function.update_of_ne htt, hthis]
  have htmp₁ : Function.update q tmp (some zs) tmp = some zs := Function.update_self ..
  have htmp₁' : Function.update q tmp (some zs) tmp' = none := by
    rw [Function.update_of_ne htmps.symm, htmp']
  have hassign : Heap.copyAssign fuel h this other tmp tmp' ns =
      (Heap.swap fuel h₁ this tmp tmp').bind fun h => Heap.destroy fuel h tmp := by
    rw [Heap.copyAssign, if_pos hne, hcopy]
    rfl
  rw [hassign]
  constructor
  · rintro ⟨hxs, hys⟩
    have hzsne : zs ≠ [] := by
      rw [← List.length_pos_iff, hzs', List.length_pos_iff]
      exact hys
    obtain ⟨h₂, hswap, hr₂⟩ := swap_spec (T := T) hr₁ hthis₁ htmp₁ htmp₁' htt hxs hzsne
    have htmp₂ : swapped (Function.update q tmp (some zs)) this tmp xs zs tmp = some xs :=
      Function.update_self ..
    obtain ⟨h', hdestroy, hr'⟩ := destroy_spec hr₂ htmp₂ hfuel
    refine ⟨h', by rw [hswap, Option.bind_some, hdestroy], ?_⟩
    convert hr' using 1
    funext l
    by_cases hlm : l = tmp
    · subst hlm
      simp [htt.symm, htmp]
    · by_cases hlt : l = this
      · subst hlt
        simp [swapped, hlm]
      · simp [swapped, hlm, hlt]
  · intro hempty h' hrun
    obtain ⟨h₂, hswap, hdestroy⟩ := Option.bind_eq_some_iff.mp hrun
    have hempty' : xs = [] ∨ zs = [] := by
      refine hempty.imp_right fun hys => List.eq_nil_of_length_eq_zero ?_
      rw [hzs', hys, List.length_nil]
    rw [destroy_next hdestroy (by simpa using htt)]
    exact swap_empty hr₁ hthis₁ htmp₁ htmp₁' htt hempty' hswap

/-- An operation that leaves the lists `q'` exactly when `p` holds, and otherwise leaves an
object `l` that is no list. -/
structure Transfers (op : Option (Heap T)) (q' : Contents T) (l : ℕ) (p : Prop) : Prop where
  represents_iff : (∃ h', op = some h' ∧ Represents h' q') ↔ p
  broken : ¬p → ∀ h', op = some h' → ∀ zs, ¬Holds h' l zs

theorem transfers (hl : q' l = some zs) (hp : p → ∃ h', op = some h' ∧ Represents h' q')
    (hbroken : ¬p → ∀ h', op = some h' →
      ∃ l', l' ≠ l ∧ h'.links.next (.head l) = some (.tail l')) : Transfers op q' l p := by
  have hnot : ¬p → ∀ h', op = some h' → ∀ zs, ¬Holds h' l zs := by
    intro hnp h' hrun zs hholds
    obtain ⟨l', hne, hnext⟩ := hbroken hnp h' hrun
    exact hholds.next_head_ne hne hnext
  refine ⟨⟨?_, hp⟩, hnot⟩
  rintro ⟨h', hrun, hr'⟩
  by_contra hnp
  exact hnot hnp h' hrun zs (hr'.holds hl)

/-- Moves are exact when they take something, and exchanges and copy assignments when both
lists have elements: the lists are well formed, with the elements where they belong and no
node lost or shared. A list that steals an empty region is not well formed. -/
theorem linkedList_transfers_iff (hr : Represents h q) (hother : q other = some ys) :
    (∀ this, q this = none →
      Transfers (h.moveConstruct this other) (moved q this other ys) this (ys ≠ [])) ∧
    (∀ this xs, q this = some xs → ∀ fuel, xs.length ≤ fuel →
      Transfers (Heap.moveAssign fuel h this other)
        (if this = other then q else moved q this other ys) this (this = other ∨ ys ≠ [])) ∧
    (∀ this xs tmp, q this = some xs → q tmp = none → ∀ fuel,
      Transfers (Heap.swap fuel h this other tmp)
        (if this = other then q else swapped q this other xs ys) this
        (this = other ∨ xs ≠ [] ∧ ys ≠ [])) ∧
    ∀ this xs tmp tmp' ns, q this = some xs → q tmp = none → q tmp' = none → tmp ≠ tmp' →
      ns.length = ys.length → ns.Nodup → (∀ n ∈ ns, h.value n = none) →
      ∀ fuel, xs.length ≤ fuel →
      Transfers (Heap.copyAssign fuel h this other tmp tmp' ns)
        (if this = other then q else Function.update q this (some (ns.zip (ys.map Prod.snd))))
        this (this = other ∨ xs ≠ [] ∧ ys ≠ []) := by
  refine ⟨?_, ?_, ?_, ?_⟩
  · intro this hthis
    obtain ⟨hfull, hempty⟩ := moveConstruct_spec hr hthis hother
    refine transfers (Function.update_self ..) hfull fun hys h' hrun => ?_
    exact ⟨other, ne_of_contents hother hthis, hempty (not_ne_iff.mp hys) h' hrun⟩
  · intro this xs hthis fuel hfuel
    by_cases hne : this = other
    · have hsame : Heap.moveAssign fuel h this other = some h := by simp [Heap.moveAssign, hne]
      rw [if_pos hne]
      exact transfers hthis (fun _ => ⟨h, hsame, hr⟩) fun hnot => absurd (.inl hne) hnot
    · obtain ⟨hfull, hempty⟩ := moveAssign_spec hr hthis hother hne hfuel
      rw [if_neg hne]
      refine transfers (Function.update_self ..) (fun hp => hfull (hp.resolve_left hne)) ?_
      intro hnot h' hrun
      exact ⟨other, Ne.symm hne, hempty (not_ne_iff.mp fun hys => hnot (.inr hys)) h' hrun⟩
  · intro this xs tmp hthis htmp fuel
    by_cases hne : this = other
    · rw [if_pos hne, ← hne]
      exact transfers hthis (fun _ => swap_self hr hthis htmp) fun hnot => absurd (.inl rfl) hnot
    · have hkept : swapped q this other xs ys this = some ys := by simp [swapped, hne]
      rw [if_neg hne]
      refine transfers hkept (fun hp => ?_) fun hnot h' hrun => ?_
      · obtain ⟨hxs, hys⟩ := hp.resolve_left hne
        exact swap_spec hr hthis hother htmp hne hxs hys
      · have hempty : xs = [] ∨ ys = [] := by
          rw [not_or, not_and_or, not_ne_iff, not_ne_iff] at hnot
          exact hnot.2
        exact ⟨other, Ne.symm hne, swap_empty hr hthis hother htmp hne hempty hrun⟩
  · intro this xs tmp tmp' ns hthis htmp htmp' htmps hlength hnodup hfresh fuel hfuel
    by_cases hne : this = other
    · have hsame : Heap.copyAssign fuel h this other tmp tmp' ns = some h := by
        simp [Heap.copyAssign, hne]
      rw [if_pos hne]
      exact transfers hthis (fun _ => ⟨h, hsame, hr⟩) fun hnot => absurd (.inl hne) hnot
    · obtain ⟨hfull, hempty⟩ := copyAssign_spec hr hthis hother htmp htmp' hne htmps hlength hnodup
        hfresh hfuel
      rw [if_neg hne]
      refine transfers (Function.update_self ..) (fun hp => hfull (hp.resolve_left hne)) ?_
      intro hnot h' hrun
      rw [not_or, not_and_or, not_ne_iff, not_ne_iff] at hnot
      exact ⟨tmp, (ne_of_contents hthis htmp).symm, hempty hnot.2 h' hrun⟩

/-- One element, which is moved into a new list. -/
theorem linkedList_transfers_iff_moved :
    ∃ h h' : Heap Char, h.moveConstruct 2 1 = some h' ∧
      Heap.collect 1 h 1 = some [(5, 'a')] ∧ Heap.collect 1 h' 2 = some [(5, 'a')] ∧
      Heap.collect 1 h' 1 = some [] := by
  obtain ⟨h₁, -, hr₁⟩ := construct_spec (@represents_empty Char) (show contents [] 1 = none from rfl)
  have hnone : h₁.value 5 = none := by
    rw [hr₁.value_eq_none]
    intro l xs hl
    rcases update_eq_some hl with ⟨-, hxs⟩ | ⟨-, hxs⟩
    · obtain rfl := Option.some.inj hxs
      simp
    · cases hxs
  obtain ⟨h, -, hr⟩ := @pushBack_spec Char _ _ _ _ 'a' _ hr₁ (Function.update_self ..) hnone
  have hlist : Function.update (Function.update (contents []) 1 (some [])) 1
      (some ([] ++ [(5, 'a')])) 1 = some [(5, 'a')] := rfl
  obtain ⟨hmove, -⟩ := linkedList_transfers_iff hr hlist
  obtain ⟨h', hrun, hr'⟩ := (hmove 2 rfl).represents_iff.mpr (by simp)
  exact ⟨h, h', hrun, collect_spec hr hlist le_rfl, collect_spec hr' rfl le_rfl,
    collect_spec hr' rfl (Nat.zero_le 1)⟩

/-- A list that is moved from an empty one begins with the sentinel of that one. -/
theorem moveConstruct_empty :
    ∃ h h' : Heap Char, Represents h (Function.update (fun _ => none) 1 (some [])) ∧
      h.moveConstruct 0 1 = some h' ∧ h'.links.next (.head 0) = some (.tail 1) ∧
      ∀ zs, ¬Holds h' 0 zs := by
  obtain ⟨h, hconstruct, hr⟩ :=
    construct_spec (@represents_empty Char) (show contents [] 1 = none from rfl)
  have hnext : (Heap.empty.construct 1).bind (fun h : Heap Char =>
      (h.moveConstruct 0 1).map fun h' => h'.links.next (.head 0)) = some (some (.tail 1)) := rfl
  rw [hconstruct, Option.bind_some, Option.map_eq_some_iff] at hnext
  obtain ⟨h', hrun, hnext⟩ := hnext
  exact ⟨h, h', hr, hrun, hnext, fun zs hholds => hholds.next_head_ne (by decide) hnext⟩

end HftExercises.LinkedList
