import Mathlib.Data.List.Perm.Basic
import Mathlib.Data.List.Nodup
import Mathlib.Order.Lattice
import Mathlib.Order.RelClasses

/-! # Lists grouped, erased, ranked and cut

Concatenating the fibres of a list over the keys that occur in it rearranges the
list, erasing the only element with a key is filtering it out, a nonempty
list has an element that a strict order ranks no other one before, and the
infixes of a list are its slices.
-/
namespace HftExercises
variable {α β : Type*}

theorem exists_unoutranked (r : α → α → Prop) [IsStrictOrder α r] {l : List α} (hl : l ≠ []) :
    ∃ m ∈ l, ∀ x ∈ l, ¬ r x m := by
  induction l with
  | nil => exact absurd rfl hl
  | cons a rest ih =>
    by_cases hrest : rest = []
    · subst hrest
      exact ⟨a, List.mem_cons_self, by simp [irrefl_of r a]⟩
    · obtain ⟨m, hm, hmin⟩ := ih hrest
      by_cases ha : r a m
      · refine ⟨a, List.mem_cons_self, ?_⟩
        intro x hx hxa
        rcases List.mem_cons.mp hx with rfl | hx
        · exact irrefl_of r x hxa
        · exact hmin x hx (trans_of r hxa ha)
      · refine ⟨m, List.mem_cons_of_mem _ hm, ?_⟩
        intro x hx
        rcases List.mem_cons.mp hx with rfl | hx
        · exact ha
        · exact hmin x hx

/-- The first of the largest elements. -/
theorem exists_first_max [LinearOrder α] {l : List α} (hl : l ≠ []) :
    ∃ (j : ℕ) (m : α), l[j]? = some m ∧ (∀ x ∈ l, x ≤ m) ∧
      ∀ k < j, ∀ x, l[k]? = some x → x < m := by
  induction l with
  | nil => exact absurd rfl hl
  | cons a rest ih =>
    by_cases hrest : rest = []
    · subst hrest
      exact ⟨0, a, rfl, by simp, fun k hk => absurd hk (Nat.not_lt_zero k)⟩
    · obtain ⟨j, m, hj, hmax, hfirst⟩ := ih hrest
      by_cases ha : m ≤ a
      · refine ⟨0, a, rfl, ?_, fun k hk => absurd hk (Nat.not_lt_zero k)⟩
        exact List.forall_mem_cons.mpr ⟨le_rfl, fun x hx => (hmax x hx).trans ha⟩
      · have hlt : a < m := not_le.mp ha
        refine ⟨j + 1, m, hj, List.forall_mem_cons.mpr ⟨hlt.le, hmax⟩, ?_⟩
        rintro (_ | k) hk x hx
        · obtain rfl := Option.some.inj hx
          exact hlt
        · exact hfirst k (Nat.lt_of_succ_lt_succ hk) x hx

/-- What is at an index of a list is at an index of its own in the rearranged list. -/
theorem exists_injective_of_perm {l l' : List α} (h : l.Perm l') :
    ∃ f : ℕ → ℕ, Function.Injective f ∧ ∀ k, l'[f k]? = l[k]? := by
  induction h with
  | nil => exact ⟨id, Function.injective_id, fun _ => rfl⟩
  | cons x _ ih =>
    obtain ⟨f, hf, hget⟩ := ih
    refine ⟨fun | 0 => 0 | k + 1 => f k + 1, ?_, ?_⟩
    · rintro (_ | i) (_ | j) hij
      · rfl
      · cases hij
      · cases hij
      · exact congrArg Nat.succ (hf (Nat.succ.inj hij))
    · rintro (_ | k)
      · rfl
      · exact hget k
  | swap x y l =>
    refine ⟨fun | 0 => 1 | 1 => 0 | k + 2 => k + 2, ?_, ?_⟩
    · rintro (_ | _ | i) (_ | _ | j) hij <;> simp_all
    · rintro (_ | _ | k) <;> rfl
  | trans _ _ ih₁ ih₂ =>
    obtain ⟨f, hf, hget⟩ := ih₁
    obtain ⟨g, hg, hget'⟩ := ih₂
    exact ⟨g ∘ f, hg.comp hf, fun k => (hget' (f k)).trans (hget k)⟩

theorem exists_range_split {i n : ℕ} (h : i < n) :
    ∃ rest, List.range n = List.range i ++ i :: rest := by
  obtain ⟨k, rfl⟩ := Nat.exists_eq_add_of_le (Nat.succ_le_of_lt h)
  refine ⟨(List.range k).map (i + 1 + ·), ?_⟩
  rw [List.range_add, List.range_succ, List.append_assoc, List.singleton_append]

section Slices
variable {l : List α} {i j : ℕ}

/-- The elements from index `i` up to index `j`. -/
def slice (l : List α) (i j : ℕ) : List α := (l.take j).drop i

theorem length_slice (h : j ≤ l.length) : (slice l i j).length = j - i := by
  rw [slice, List.length_drop, List.length_take, Nat.min_eq_left h]

theorem slice_self (l : List α) (i : ℕ) : slice l i i = [] :=
  List.drop_eq_nil_of_le (List.length_take_le i l)

theorem slice_concat (hij : i ≤ j) (h : j < l.length) :
    slice l i (j + 1) = slice l i j ++ [l[j]] := by
  rw [slice, List.take_succ_eq_append_getElem h, List.drop_append_of_le_length]
  · rfl
  · rw [List.length_take, Nat.min_eq_left h.le]
    exact hij

theorem slice_cons (hij : i < j) (h : i < l.length) :
    slice l i j = l[i] :: slice l (i + 1) j := by
  have hlt : i < (l.take j).length := by
    rw [List.length_take]
    exact Nat.lt_min.mpr ⟨hij, h⟩
  rw [slice, List.drop_eq_getElem_cons hlt, List.getElem_take]
  rfl

/-- The infixes of a list are its slices. -/
theorem infix_iff_slice {span : List α} : span <:+: l ↔
    ∃ i j, i ≤ j ∧ j ≤ l.length ∧ span = slice l i j := by
  constructor
  · rintro ⟨s, t, rfl⟩
    refine ⟨s.length, s.length + span.length, Nat.le_add_right _ _, by simp, ?_⟩
    rw [slice, ← List.length_append, List.take_left, List.drop_left]
  · rintro ⟨i, j, -, -, rfl⟩
    exact (List.drop_suffix i _).isInfix.trans (List.take_prefix j l).isInfix

end Slices

section Keys
variable [DecidableEq β] {f : α → β}

theorem flatMap_fibres_perm {keys : List β} (hk : keys.Nodup) {l : List α}
    (hl : ∀ a ∈ l, f a ∈ keys) : (keys.flatMap (fun k => l.filter (fun a => f a = k))).Perm l := by
  induction keys generalizing l with
  | nil =>
    rw [List.eq_nil_iff_forall_not_mem.mpr (fun a ha => List.not_mem_nil (hl a ha))]
    simp
  | cons k keys ih =>
    obtain ⟨hnot, hk⟩ := List.nodup_cons.mp hk
    have hrest : ∀ a ∈ l.filter (fun a => !decide (f a = k)), f a ∈ keys := by
      intro a ha
      obtain ⟨ha, hne⟩ := List.mem_filter.mp ha
      exact List.mem_of_ne_of_mem (by simpa using hne) (hl a ha)
    have hsame : keys.flatMap (fun k' => l.filter (fun a => f a = k')) =
        keys.flatMap (fun k' => (l.filter (fun a => !decide (f a = k))).filter (fun a => f a = k')) := by
      apply List.flatMap_congr
      intro k' hk'
      rw [List.filter_filter]
      apply List.filter_congr
      intro a _
      have hne : f a = k' → f a ≠ k := fun he hke => hnot (hke ▸ he ▸ hk')
      by_cases he : f a = k'
      · simp [he, he ▸ hne he]
      · simp [he]
    rw [List.flatMap_cons, hsame]
    exact ((ih hk hrest).append_left _).trans (List.filter_append_perm _ l)

theorem eraseP_key_eq_filter {l : List α} (hl : (l.map f).Nodup) (k : β) :
    l.eraseP (fun a => f a == k) = l.filter (fun a => !(f a == k)) := by
  induction l with
  | nil => rfl
  | cons a rest ih =>
    obtain ⟨hne, hrest⟩ := List.nodup_cons.mp hl
    by_cases ha : f a = k
    · have hkeep : rest.filter (fun x => !(f x == k)) = rest := by
        rw [List.filter_eq_self]
        intro x hx
        have hxk : f x ≠ k := fun hxk => hne (ha ▸ hxk ▸ List.mem_map_of_mem hx)
        simpa using hxk
      simp [ha, hkeep]
    · simp [ha, ih hrest]

theorem find?_key_of_mem {l : List α} (hl : (l.map f).Nodup) {a : α} (ha : a ∈ l) :
    l.find? (fun x => f x == f a) = some a := by
  obtain ⟨l₁, l₂, rfl⟩ := List.append_of_mem ha
  refine List.find?_eq_some_iff_append.mpr ⟨beq_self_eq_true _, l₁, l₂, rfl, ?_⟩
  intro x hx
  rw [List.map_append, List.nodup_append] at hl
  have hne : f x ≠ f a :=
    hl.2.2 (f x) (List.mem_map_of_mem hx) (f a) (List.mem_map_of_mem List.mem_cons_self)
  simpa using hne

end Keys

/-- A sublist is the filter that its members tell. -/
theorem eq_filter_of_sublist {l l' : List α} {p : α → Bool} (hs : l'.Sublist l) (hl : l.Nodup)
    (hmem : ∀ a, a ∈ l' ↔ a ∈ l ∧ p a = true) : l' = l.filter p := by
  have hperm : l'.Perm (l.filter p) := by
    refine (List.perm_ext_iff_of_nodup (hl.sublist hs) (hl.filter p)).mpr ?_
    intro a
    rw [hmem, List.mem_filter]
  have hself : l'.filter p = l' := List.filter_eq_self.mpr (fun a ha => ((hmem a).mp ha).2)
  have hsub : l'.Sublist (l.filter p) := hself ▸ hs.filter p
  exact hsub.eq_of_length hperm.length_eq

theorem filterMap_append_singleton {γ : Type*} (f : α → Option γ) (l : List α) (a : α) :
    (l ++ [a]).filterMap f = l.filterMap f ++ (f a).toList := by
  rw [List.filterMap_append, List.filterMap_cons]
  cases f a <;> rfl

/-- What a place held is what it was given less what it gave on, one step later too. -/
theorem append_handover {given passed held held' new out : List α} (h : given = passed ++ held)
    (hmove : held ++ new = out ++ held') : given ++ new = passed ++ out ++ held' := by
  rw [h, List.append_assoc, hmove, List.append_assoc]

theorem notMem_filterMap_of_nodup_cons {γ : Type*} {f : α → Option γ} {l : List α} {e e' : α} {a : γ}
    (hl : ((e :: l).filterMap f).Nodup) (he : f e = some a) (he' : f e' = some a) : e' ∉ l := by
  rw [List.filterMap_cons_some he, List.nodup_cons] at hl
  intro hmem
  exact hl.1 (List.mem_filterMap.mpr ⟨e', hmem, he'⟩)

/-- An element picked out without repetition occurs at one place only. -/
theorem split_eq_of_nodup_filterMap {γ : Type*} {f : α → Option γ} {h h' r r' : List α} {e e' : α}
    {a : γ} (hl : ((h ++ e :: r).filterMap f).Nodup) (heq : h ++ e :: r = h' ++ e' :: r')
    (he : f e = some a) (he' : f e' = some a) : h = h' ∧ e = e' ∧ r = r' := by
  induction h generalizing h' with
  | nil =>
    cases h' with
    | nil =>
      obtain ⟨rfl, rfl⟩ := List.cons.inj heq
      exact ⟨rfl, rfl, rfl⟩
    | cons x h' =>
      obtain ⟨rfl, rfl⟩ := List.cons.inj heq
      exact absurd (List.mem_append_right h' List.mem_cons_self)
        (notMem_filterMap_of_nodup_cons hl he he')
  | cons x h ih =>
    cases h' with
    | nil =>
      obtain ⟨rfl, rfl⟩ := List.cons.inj heq
      exact absurd (List.mem_append_right h List.mem_cons_self)
        (notMem_filterMap_of_nodup_cons hl he' he)
    | cons y h' =>
      obtain ⟨rfl, htail⟩ := List.cons.inj heq
      have hsub : ((h ++ e :: r).filterMap f).Sublist ((x :: h ++ e :: r).filterMap f) :=
        (List.sublist_cons_self x _).filterMap f
      obtain ⟨rfl, rfl, rfl⟩ := ih (hl.sublist hsub) htail
      exact ⟨rfl, rfl, rfl⟩

theorem length_filter_lt_of_imp {l : List α} {p q : α → Bool}
    (himp : ∀ a ∈ l, p a = true → q a = true) {a : α} (ha : a ∈ l) (hq : q a = true)
    (hp : p a = false) : (l.filter p).length < (l.filter q).length := by
  have hsame : l.filter p = (l.filter q).filter p := by
    rw [List.filter_filter]
    apply List.filter_congr
    intro b hb
    cases hpb : p b with
    | false => simp
    | true => simp [himp b hb hpb]
  rw [hsame, List.length_filter_lt_length_iff_exists]
  exact ⟨a, List.mem_filter.mpr ⟨ha, hq⟩, by simp [hp]⟩

theorem length_filter_le_one {l : List α} {p : α → Bool}
    (h : l.Pairwise (fun a b => p a = true → p b = false)) : (l.filter p).length ≤ 1 := by
  have hp := h.filter p
  cases hf : l.filter p with
  | nil => exact Nat.zero_le 1
  | cons a rest =>
    cases rest with
    | nil => exact Nat.le_refl 1
    | cons b rest =>
      have ha : p a = true := (List.mem_filter.mp (hf ▸ List.mem_cons_self : a ∈ l.filter p)).2
      have hb : p b = true := by
        have hmem : b ∈ l.filter p := hf ▸ List.mem_cons_of_mem a List.mem_cons_self
        exact (List.mem_filter.mp hmem).2
      rw [hf] at hp
      have hne := (List.pairwise_cons.mp hp).1 b List.mem_cons_self ha
      rw [hb] at hne
      cases hne

end HftExercises
