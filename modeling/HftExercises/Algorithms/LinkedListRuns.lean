import HftExercises.Algorithms.LinkedListEdits
import HftExercises.Core.Answers

/-! # Runs of the linked list

Many list objects live in one heap. A run of calls is compared with the same calls on
sequences of nodes and values.
-/
namespace HftExercises.LinkedList
variable {T : Type}

/-- A call, with the objects and nodes that it allocates. -/
inductive Command (T : Type) where
  | construct (l : ℕ)
  | copy (this other : ℕ) (ns : List ℕ)
  | pushFront (l n : ℕ) (v : T)
  | pushBack (l n : ℕ) (v : T)
  | popFront (l : ℕ)
  | popBack (l : ℕ)
  | erase (l : ℕ) (pos : Addr)
  | reverse (l : ℕ)
  | clear (l : ℕ)
  | destroy (l : ℕ)
  deriving DecidableEq, Repr

/-- A call on the heap; only `erase` returns a position. -/
def Heap.step (fuel : ℕ) (h : Heap T) : Command T → Option (Option Addr × Heap T)
  | .construct l => (h.construct l).map fun h => (none, h)
  | .copy this other ns => (h.copyConstruct this other ns).map fun h => (none, h)
  | .pushFront l n v => (h.pushFront l n v).map fun h => (none, h)
  | .pushBack l n v => (h.pushBack l n v).map fun h => (none, h)
  | .popFront l => (h.popFront l).map fun h => (none, h)
  | .popBack l => (h.popBack l).map fun h => (none, h)
  | .erase l pos => h.erase l (some pos)
  | .reverse l => (Heap.reverse fuel h l).map fun h => (none, h)
  | .clear l => (Heap.clear fuel h l).map fun h => (none, h)
  | .destroy l => (Heap.destroy fuel h l).map fun h => (none, h)

namespace Contents

def edit (q : Contents T) (l : ℕ) (f : List (ℕ × T) → List (ℕ × T)) : Contents T :=
  Function.update q l ((q l).map f)

/-- The call on sequences. -/
def step (q : Contents T) : Command T → Option Addr × Contents T
  | .construct l => (none, Function.update q l (some []))
  | .copy this other ns =>
    (none, Function.update q this ((q other).map fun xs => ns.zip (xs.map Prod.snd)))
  | .pushFront l n v => (none, q.edit l fun xs => (n, v) :: xs)
  | .pushBack l n v => (none, q.edit l fun xs => xs ++ [(n, v)])
  | .popFront l => (none, q.edit l List.tail)
  | .popBack l => (none, q.edit l List.dropLast)
  | .erase l (.node n) =>
    (some (after l (((q l).getD []).dropWhile (·.1 ≠ n)).tail), q.edit l (List.eraseP (·.1 = n)))
  | .erase l _ => (some (.tail l), q)
  | .reverse l => (none, q.edit l List.reverse)
  | .clear l => (none, q.edit l fun _ => [])
  | .destroy l => (none, Function.update q l none)

def Fresh (q : Contents T) (n : ℕ) : Prop := ∀ l xs, q l = some xs → n ∉ xs.map Prod.fst

/-- The object exists, the position is one of its own, and what is allocated is new. -/
def Allowed (q : Contents T) : Command T → Prop
  | .construct l => q l = none
  | .copy this other ns =>
    q this = none ∧ (∃ xs, q other = some xs ∧ ns.length = xs.length) ∧ ns.Nodup ∧
      ∀ n ∈ ns, q.Fresh n
  | .pushFront l n _ => (∃ xs, q l = some xs) ∧ q.Fresh n
  | .pushBack l n _ => (∃ xs, q l = some xs) ∧ q.Fresh n
  | .popFront l => ∃ xs, q l = some xs
  | .popBack l => ∃ xs, q l = some xs
  | .erase l pos => ∃ xs, q l = some xs ∧ pos ∈ region l xs
  | .reverse l => ∃ xs, q l = some xs
  | .clear l => ∃ xs, q l = some xs
  | .destroy l => ∃ xs, q l = some xs

/-- The nodes that a call takes out. -/
def removed (q : Contents T) : Command T → List ℕ
  | .popFront l => ((q l).getD []).head?.toList.map Prod.fst
  | .popBack l => ((q l).getD []).getLast?.toList.map Prod.fst
  | .erase _ (.node n) => [n]
  | .clear l => ((q l).getD []).map Prod.fst
  | .destroy l => ((q l).getD []).map Prod.fst
  | _ => []

def Has (q : Contents T) (l : ℕ) (x : ℕ × T) : Prop := ∃ xs, q l = some xs ∧ x ∈ xs

theorem edit_of_some {q : Contents T} {l : ℕ} {xs : List (ℕ × T)} (hl : q l = some xs)
    (f : List (ℕ × T) → List (ℕ × T)) : q.edit l f = Function.update q l (some (f xs)) := by
  rw [edit, hl, Option.map_some]

end Contents

/-- The contents after some calls. -/
def contents (calls : List (Command T)) : Contents T :=
  stateAfter Contents.step (fun _ => none) calls

section Step
variable {h : Heap T} {q : Contents T} {c : Command T}

/-- Around an element, when no node occurs twice. -/
theorem erase_at {us ws : List (ℕ × T)} {x : ℕ × T} (hnodup : ((us ++ x :: ws).map Prod.fst).Nodup) :
    (us ++ x :: ws).dropWhile (·.1 ≠ x.1) = x :: ws ∧
      (us ++ x :: ws).eraseP (·.1 = x.1) = us ++ ws := by
  have hus : ∀ u ∈ us, u.1 ≠ x.1 := by
    intro u hu he
    rw [List.map_append, List.nodup_append] at hnodup
    exact hnodup.2.2 u.1 (List.mem_map.mpr ⟨u, hu, rfl⟩) x.1 (by simp) he
  constructor
  · rw [List.dropWhile_append_of_pos (by simpa using hus), List.dropWhile_cons_of_neg (by simp)]
  · rw [List.eraseP_append_right _ (by simpa using hus), List.eraseP_cons_of_pos (by simp)]

theorem Represents.step (hr : Represents h q) (hc : q.Allowed c) {fuel : ℕ}
    (hfuel : ∀ l xs, q l = some xs → xs.length ≤ fuel) :
    ∃ h', h.step fuel c = some ((q.step c).1, h') ∧ Represents h' (q.step c).2 := by
  cases c with
  | construct l =>
    obtain ⟨h', hcall, hr'⟩ := construct_spec hr hc
    exact ⟨h', by rw [Heap.step, hcall]; rfl, hr'⟩
  | copy this other ns =>
    obtain ⟨hthis, ⟨xs, hother, hlength⟩, hnodup, hfresh⟩ := hc
    obtain ⟨h', hcall, hr'⟩ := copyConstruct_spec hr hthis hother hlength hnodup
      fun n hn => hr.value_eq_none.mpr (hfresh n hn)
    refine ⟨h', by rw [Heap.step, hcall]; rfl, ?_⟩
    rw [Contents.step, hother]
    exact hr'
  | pushFront l n v =>
    obtain ⟨⟨xs, hl⟩, hfresh⟩ := hc
    obtain ⟨h', hcall, hr'⟩ := pushFront_spec (v := v) hr hl (hr.value_eq_none.mpr hfresh)
    exact ⟨h', by rw [Heap.step, hcall]; rfl, by rwa [Contents.step, Contents.edit_of_some hl]⟩
  | pushBack l n v =>
    obtain ⟨⟨xs, hl⟩, hfresh⟩ := hc
    obtain ⟨h', hcall, hr'⟩ := pushBack_spec (v := v) hr hl (hr.value_eq_none.mpr hfresh)
    exact ⟨h', by rw [Heap.step, hcall]; rfl, by rwa [Contents.step, Contents.edit_of_some hl]⟩
  | popFront l =>
    obtain ⟨xs, hl⟩ := hc
    obtain ⟨h', hcall, hr'⟩ := popFront_spec hr hl
    exact ⟨h', by rw [Heap.step, hcall]; rfl, by rwa [Contents.step, Contents.edit_of_some hl]⟩
  | popBack l =>
    obtain ⟨xs, hl⟩ := hc
    obtain ⟨h', hcall, hr'⟩ := popBack_spec hr hl
    exact ⟨h', by rw [Heap.step, hcall]; rfl, by rwa [Contents.step, Contents.edit_of_some hl]⟩
  | erase l pos =>
    obtain ⟨xs, hl, hpos⟩ := hc
    rcases mem_region.mp hpos with rfl | rfl | ⟨n, hn, rfl⟩
    · exact ⟨h, by simp [Heap.step, Heap.erase, Contents.step], hr⟩
    · exact ⟨h, by simp [Heap.step, Heap.erase, Contents.step], hr⟩
    · obtain ⟨x, hx, rfl⟩ := List.mem_map.mp hn
      obtain ⟨us, ws, rfl⟩ := List.append_of_mem hx
      obtain ⟨hdrop, herase⟩ := erase_at (hr.nodup l _ hl)
      obtain ⟨h', hcall, hr'⟩ := erase_spec hr hl
      refine ⟨h', ?_, ?_⟩
      · rw [Heap.step, Contents.step, hl, Option.getD_some, hdrop]
        exact hcall
      · rw [Contents.step, Contents.edit_of_some hl, herase]
        exact hr'
  | reverse l =>
    obtain ⟨xs, hl⟩ := hc
    obtain ⟨h', hcall, hr'⟩ := reverse_spec hr hl (hfuel l xs hl)
    exact ⟨h', by rw [Heap.step, hcall]; rfl, by rwa [Contents.step, Contents.edit_of_some hl]⟩
  | clear l =>
    obtain ⟨xs, hl⟩ := hc
    obtain ⟨h', hcall, hr'⟩ := clear_spec hr hl (hfuel l xs hl)
    exact ⟨h', by rw [Heap.step, hcall]; rfl, by rwa [Contents.step, Contents.edit_of_some hl]⟩
  | destroy l =>
    obtain ⟨xs, hl⟩ := hc
    obtain ⟨h', hcall, hr'⟩ := destroy_spec hr hl (hfuel l xs hl)
    exact ⟨h', by rw [Heap.step, hcall]; rfl, hr'⟩

end Step

namespace Contents
variable {q : Contents T} {c : Command T} {k l n : ℕ} {x : ℕ × T} {xs : List (ℕ × T)}
variable {f : List (ℕ × T) → List (ℕ × T)}

theorem edit_eq_some (h : q.edit n f l = some xs) : q l = some xs ∨ ∃ ys, q l = some ys ∧ xs = f ys := by
  rcases update_eq_some h with ⟨rfl, h⟩ | ⟨-, h⟩
  · obtain ⟨ys, hys, rfl⟩ := Option.map_eq_some_iff.mp h
    exact .inr ⟨ys, hys, rfl⟩
  · exact .inl h

theorem edit_length (hq : ∀ l xs, q l = some xs → xs.length ≤ k)
    (hf : ∀ ys : List (ℕ × T), (f ys).length ≤ ys.length + 1) :
    ∀ l xs, q.edit n f l = some xs → xs.length ≤ k + 1 := by
  intro l xs hxs
  rcases edit_eq_some hxs with hxs | ⟨ys, hys, rfl⟩
  · exact (hq l xs hxs).trans (Nat.le_succ k)
  · exact (hf ys).trans (Nat.succ_le_succ (hq l ys hys))

/-- No call makes a list longer than the longest one by more than an element. -/
theorem step_length (hc : q.Allowed c) (hq : ∀ l xs, q l = some xs → xs.length ≤ k) :
    ∀ l xs, (q.step c).2 l = some xs → xs.length ≤ k + 1 := by
  have hkeep : ∀ l xs, q l = some xs → xs.length ≤ k + 1 :=
    fun l xs hxs => (hq l xs hxs).trans (Nat.le_succ k)
  cases c with
  | construct m =>
    intro l xs hxs
    rcases update_eq_some hxs with ⟨-, hnew⟩ | ⟨-, hold⟩
    · obtain rfl := Option.some.inj hnew
      exact Nat.zero_le _
    · exact hkeep l xs hold
  | copy this other ns =>
    obtain ⟨-, ⟨ys, hother, hlength⟩, -⟩ := hc
    intro l xs hxs
    rcases update_eq_some hxs with ⟨-, hnew⟩ | ⟨-, hold⟩
    · rw [hother] at hnew
      obtain rfl := Option.some.inj hnew
      refine le_trans ?_ (hkeep other ys hother)
      rw [List.length_zip, List.length_map]
      exact Nat.min_le_right ..
    · exact hkeep l xs hold
  | pushFront m n v => exact edit_length hq fun ys => by simp
  | pushBack m n v => exact edit_length hq fun ys => by simp
  | popFront m => exact edit_length hq fun ys => by simp; omega
  | popBack m => exact edit_length hq fun ys => by simp; omega
  | erase m pos =>
    cases pos with
    | head i => exact hkeep
    | tail i => exact hkeep
    | node n => exact edit_length hq fun ys => List.eraseP_sublist.length_le.trans (Nat.le_succ _)
  | reverse m => exact edit_length hq fun ys => by simp
  | clear m => exact edit_length hq fun ys => by simp
  | destroy m =>
    intro l xs hxs
    rcases update_eq_some hxs with ⟨-, hnone⟩ | ⟨-, hold⟩
    · cases hnone
    · exact hkeep l xs hold

theorem Has.edit (h : q.Has l x) (hf : ∀ xs, q l = some xs → x ∈ xs → l = n → x ∈ f xs) :
    (q.edit n f).Has l x := by
  obtain ⟨xs, hl, hx⟩ := h
  by_cases hln : l = n
  · subst hln
    exact ⟨f xs, by rw [Contents.edit, Function.update_self, hl, Option.map_some], hf xs hl hx rfl⟩
  · exact ⟨xs, by rw [Contents.edit, Function.update_of_ne hln, hl], hx⟩

theorem Has.update (h : q.Has l x) (hl : l ≠ n) (r : Option (List (ℕ × T))) :
    Contents.Has (Function.update q n r) l x := by
  obtain ⟨xs, hxs, hx⟩ := h
  exact ⟨xs, by rw [Function.update_of_ne hl, hxs], hx⟩

/-- What a call does not take out stays in its list. -/
theorem Has.step (h : q.Has l x) (hc : q.Allowed c) (hx : x.1 ∉ q.removed c) :
    (q.step c).2.Has l x := by
  obtain ⟨xs, hl, hmem⟩ := id h
  cases c with
  | construct m =>
    refine Has.update h ?_ _
    rintro rfl
    rw [Contents.Allowed, hl] at hc
    cases hc
  | copy this other ns =>
    refine Has.update h ?_ _
    rintro rfl
    have hthis := hc.1
    rw [hl] at hthis
    cases hthis
  | pushFront m n v => exact h.edit fun ys _ hys _ => List.mem_cons_of_mem _ hys
  | pushBack m n v => exact h.edit fun ys _ hys _ => List.mem_append_left _ hys
  | popFront m =>
    refine h.edit fun ys hys hy hlm => ?_
    subst hlm
    cases ys with
    | nil => simp at hy
    | cons y ys =>
      rcases List.mem_cons.mp hy with rfl | hy
      · simp [removed, hys] at hx
      · exact hy
  | popBack m =>
    refine h.edit fun ys hys hy hlm => ?_
    subst hlm
    rcases List.eq_nil_or_concat ys with rfl | ⟨ys, y, rfl⟩
    · simp at hy
    · rw [List.concat_eq_append] at hys hy ⊢
      rw [List.dropLast_concat]
      rcases List.mem_append.mp hy with hy | hy
      · exact hy
      · obtain rfl := List.mem_singleton.mp hy
        simp [removed, hys] at hx
  | erase m pos =>
    cases pos with
    | head i => exact ⟨xs, hl, hmem⟩
    | tail i => exact ⟨xs, hl, hmem⟩
    | node n =>
      refine h.edit fun ys _ hy _ => ?_
      have hne : x.1 ≠ n := by simpa [removed] using hx
      exact (List.mem_eraseP_of_neg (by simpa using hne)).mpr hy
  | reverse m => exact h.edit fun ys _ hy _ => List.mem_reverse.mpr hy
  | clear m =>
    refine h.edit fun ys hys hy hlm => ?_
    subst hlm
    refine absurd ?_ hx
    rw [removed, hys, Option.getD_some]
    exact List.mem_map.mpr ⟨x, hy, rfl⟩
  | destroy m =>
    refine Has.update h ?_ _
    rintro rfl
    refine hx ?_
    rw [removed, hl, Option.getD_some]
    exact List.mem_map.mpr ⟨x, hmem, rfl⟩

end Contents

section Runs
variable {calls : List (Command T)} {fuel : ℕ}

theorem contents_concat (calls : List (Command T)) (c : Command T) :
    contents (calls ++ [c]) = ((contents calls).step c).2 := by
  rw [contents, stateAfter_append]
  rfl

theorem represents_empty : Represents (Heap.empty : Heap T) (contents []) := by
  refine ⟨fun l => rfl, ?_, ?_, ?_, ?_⟩
  · rintro l xs hl
    cases hl
  · rintro l xs hl
    cases hl
  · rintro l l' xs ys n hl
    cases hl
  · intro n v
    refine iff_of_false (fun h => by cases h) ?_
    rintro ⟨l, xs, hl, -⟩
    cases hl

/-- The heap after a run, with what the calls returned. -/
structure Refines (es : List (Event (Heap T) (Command T) (Option Addr))) (h : Heap T) : Prop where
  represents : Represents h (contents (es.map Event.call))
  results : es.map Event.result = answers Contents.step (fun _ => none) (es.map Event.call)
  lengths : ∀ l xs, contents (es.map Event.call) l = some xs → xs.length ≤ es.length

theorem exec_refines (hcalls : Admissible (fun l c => (contents l).Allowed c) calls)
    (hfuel : calls.length ≤ fuel) :
    ∃ es h, exec (Heap.step fuel) Heap.empty calls = some (es, h) ∧ Refines es h := by
  have hpre : Admissible (fun l c => (contents l).Allowed c ∧ l.length < fuel) calls := by
    intro l c r hsplit
    refine ⟨hcalls l c r hsplit, ?_⟩
    rw [hsplit, List.length_append, List.length_cons] at hfuel
    omega
  refine exec_total Refines ?_ ⟨represents_empty, rfl, fun l xs hl => by cases hl⟩ hpre
  rintro es h c ⟨hr, hresults, hlengths⟩ ⟨hc, hlt⟩
  rw [List.length_map] at hlt
  obtain ⟨h', hcall, hr'⟩ := hr.step hc fun l xs hl => (hlengths l xs hl).trans hlt.le
  refine ⟨_, h', hcall, ?_, ?_, ?_⟩
  · rw [List.map_append, List.map_singleton, contents_concat]
    exact hr'
  · rw [List.map_append, List.map_append, hresults, answers_append]
    rfl
  · rw [List.map_append, List.map_singleton, contents_concat, List.length_append]
    exact Contents.step_length hc hlengths

theorem Has.run {before after : List (Command T)} {l : ℕ} {x : ℕ × T}
    (hcalls : Admissible (fun l c => (contents l).Allowed c) (before ++ after))
    (hx : (contents before).Has l x)
    (hkept : ∀ mid c rest, after = mid ++ c :: rest → x.1 ∉ (contents (before ++ mid)).removed c) :
    (contents (before ++ after)).Has l x := by
  induction after using List.reverseRecOn with
  | nil => rwa [List.append_nil]
  | append_singleton mid c ih =>
    rw [← List.append_assoc] at hcalls ⊢
    obtain ⟨hbefore, hc⟩ := admissible_append_singleton.mp hcalls
    rw [contents_concat]
    refine (ih hbefore fun mid' c' rest hsplit => ?_).step hc (hkept mid c [] rfl)
    exact hkept mid' c' (rest ++ [c]) (by rw [hsplit, List.append_assoc, List.cons_append])

end Runs

/-- Every run does to the lists what the calls do to sequences: each list is linked in both
directions and holds its sequence, the positions returned are those of the successors, and
an element stays in its node until a call takes it out. -/
theorem linkedList_refines {calls : List (Command T)} {fuel : ℕ}
    (hcalls : Admissible (fun l c => (contents l).Allowed c) calls) (hfuel : calls.length ≤ fuel) :
    ∃ es h, exec (Heap.step fuel) Heap.empty calls = some (es, h) ∧
      es.map Event.result = answers Contents.step (fun _ => none) calls ∧
      Represents h (contents calls) ∧
      (∀ l xs, contents calls l = some xs →
        Heap.collect fuel h l = some xs ∧ Heap.collectBack fuel h l = some xs.reverse) ∧
      ∀ before after, calls = before ++ after → ∀ l x, (contents before).Has l x →
        (∀ mid c rest, after = mid ++ c :: rest →
          x.1 ∉ (contents (before ++ mid)).removed c) →
        (contents calls).Has l x ∧ h.read (some (.node x.1)) = some x := by
  obtain ⟨es, h, hrun, hrefines⟩ := exec_refines hcalls hfuel
  obtain ⟨hr, hresults, hlengths⟩ := hrefines
  have hcount : es.length = calls.length := by
    rw [← exec_calls hrun, List.length_map]
  rw [exec_calls hrun] at hr hresults hlengths
  refine ⟨es, h, hrun, hresults, hr, fun l xs hl => ?_, ?_⟩
  · have hlong : xs.length ≤ fuel := (hlengths l xs hl).trans (hcount.trans_le hfuel)
    exact ⟨collect_spec hr hl hlong, collectBack_spec hr hl hlong⟩
  · rintro before after rfl l x hx hkept
    have hend := Has.run hcalls hx hkept
    obtain ⟨xs, hl, hmem⟩ := id hend
    refine ⟨hend, ?_⟩
    rw [Heap.read_node, hr.value_of_mem hl hmem]
    rfl

/-- Two elements, reversed in their nodes. -/
theorem linkedList_refines_reversed :
    ∃ es h, exec (Heap.step 4) Heap.empty
        [.construct 0, .pushBack 0 1 'a', .pushBack 0 2 'b', .reverse 0] = some (es, h) ∧
      Heap.collect 4 h 0 = some [(2, 'b'), (1, 'a')] ∧
      Heap.collectBack 4 h 0 = some [(1, 'a'), (2, 'b')] := by
  have hcalls : Admissible (fun l c => (contents l).Allowed c)
      [.construct 0, .pushBack 0 1 'a', .pushBack 0 2 'b', .reverse 0] := by
    refine admissible_cons.mpr ⟨rfl, admissible_cons.mpr ⟨⟨⟨[], rfl⟩, ?_⟩,
      admissible_cons.mpr ⟨⟨⟨[(1, 'a')], rfl⟩, ?_⟩,
        admissible_cons.mpr ⟨⟨[(1, 'a'), (2, 'b')], rfl⟩, admissible_nil⟩⟩⟩⟩
    · intro l xs hl
      rcases @update_eq_some Char (fun _ => none) 0 l (some []) xs hl with ⟨-, hxs⟩ | ⟨-, hxs⟩
      · obtain rfl := Option.some.inj hxs
        simp
      · cases hxs
    · intro l xs hl
      rcases update_eq_some hl with ⟨-, hxs⟩ | ⟨hne, hxs⟩
      · obtain rfl : [(1, 'a')] = xs := Option.some.inj hxs
        simp
      · rcases @update_eq_some Char (fun _ => none) 0 l (some []) xs hxs with ⟨rfl, -⟩ | ⟨-, hxs⟩
        · exact absurd rfl hne
        · cases hxs
  obtain ⟨es, h, hrun, -, -, hlists, -⟩ := linkedList_refines hcalls (show _ ≤ 4 from le_rfl)
  obtain ⟨hforward, hbackward⟩ := hlists 0 [(2, 'b'), (1, 'a')] rfl
  exact ⟨es, h, hrun, hforward, hbackward⟩

end HftExercises.LinkedList
