import HftExercises.Patterns.ChainRisk
import Mathlib.Data.List.Infix
import Mathlib.Logic.Function.Basic

/-! # Risk chains over handlers that are shared

The `next_` pointer is a field of the handler object. It outlives `clear`, and a handler
that is appended again brings it along.
-/
namespace HftExercises.RiskChains.Shared

/-- The objects are named by numbers, and null is `none`. -/
structure RiskChain where
  next : ℕ → Option ℕ
  head : Option ℕ
  tail : Option ℕ

inductive Call where
  | append (handler : Option ℕ)
  | clear
  deriving DecidableEq

namespace RiskChain

def empty : RiskChain := ⟨fun _ => none, none, none⟩

/-- `head_` and `tail_` are null together. -/
def append (c : RiskChain) : Option ℕ → RiskChain
  | none => c
  | some h =>
    match c.head, c.tail with
    | some head, some tail =>
      { next := Function.update c.next tail (some h), head := some head, tail := some h }
    | _, _ => { c with head := some h, tail := some h }

def clear (c : RiskChain) : RiskChain := { c with head := none, tail := none }

def call (c : RiskChain) : Call → RiskChain
  | .append handler => c.append handler
  | .clear => c.clear

def run (calls : List Call) : RiskChain := calls.foldl call empty

/-- The loop of `size`, from `cur` on. -/
def count (next : ℕ → Option ℕ) : ℕ → Option ℕ → Option ℕ
  | _, none => some 0
  | 0, some _ => none
  | fuel + 1, some cur => (count next fuel (next cur)).map (· + 1)

def size (c : RiskChain) (fuel : ℕ) : Option ℕ := count c.next fuel c.head

section Validate
variable {H : Type*} (check : H → OrderCheck → CheckResult × H) (request : OrderCheck)

/-- `RiskHandler::handle` of the object `i`, with the objects whose `do_check` has run. -/
def handle (next : ℕ → Option ℕ) :
    ℕ → (ℕ → H) → ℕ → Option (CheckResult × List ℕ × (ℕ → H))
  | 0, _, _ => none
  | fuel + 1, objects, i =>
    let checked := check (objects i) request
    let objects := Function.update objects i checked.2
    if checked.1.ok = false then some (checked.1, [i], objects)
    else
      match next i with
      | none => some (⟨true, ""⟩, [i], objects)
      | some j => (handle next fuel objects j).map fun r => (r.1, i :: r.2.1, r.2.2)

def validate (c : RiskChain) (fuel : ℕ) (objects : ℕ → H) :
    Option (CheckResult × List ℕ × (ℕ → H)) :=
  match c.head with
  | none => some (⟨true, ""⟩, [], objects)
  | some head => handle check request c.next fuel objects head

end Validate
end RiskChain

/-! ## What the calls say -/

/-- The handlers appended since the last `clear`. -/
def since (calls : List Call) : List ℕ :=
  calls.foldl (fun l c => match c with
    | .append (some h) => l ++ [h]
    | .append none => l
    | .clear => []) []

/-- The checks of the listed objects, in order, up to the first one that refuses. -/
def runAll {H : Type*} (check : H → OrderCheck → CheckResult × H) (request : OrderCheck) :
    List ℕ → (ℕ → H) → CheckResult × List ℕ × (ℕ → H)
  | [], objects => (⟨true, ""⟩, [], objects)
  | i :: is, objects =>
    let checked := check (objects i) request
    let objects := Function.update objects i checked.2
    if checked.1.ok = false then (checked.1, [i], objects)
    else
      let r := runAll check request is objects
      (r.1, i :: r.2.1, r.2.2)

/-- The chain is the one of the listed handlers, whatever their checks do. -/
structure Faithful (c : RiskChain) (handlers : List ℕ) : Prop where
  size : ∃ fuel, c.size fuel = some handlers.length
  validate : ∀ (H : Type) (check : H → OrderCheck → CheckResult × H) (request : OrderCheck)
    (objects : ℕ → H), ∃ fuel,
      c.validate check request fuel objects = some (runAll check request handlers objects)

/-- The handler has been followed by another one in the chain, at some time. -/
def Followed (calls : List Call) (h : ℕ) : Prop :=
  ∃ g, [Call.append (some h), .append (some g)] <:+: calls.filter (· ≠ .append none)

/-! ## Paths along the pointers -/

/-- From `o` through the objects of the list to `e`. -/
def Path (next : ℕ → Option ℕ) : Option ℕ → List ℕ → Option ℕ → Prop
  | o, [], e => o = e
  | o, i :: l, e => o = some i ∧ Path next (next i) l e

section Paths
variable {next : ℕ → Option ℕ} {o e e' : Option ℕ} {l m : List ℕ}

theorem path_append : Path next o (l ++ m) e ↔ ∃ x, Path next o l x ∧ Path next x m e := by
  induction l generalizing o with
  | nil => simp [Path]
  | cons i l ih => simp [Path, ih, and_assoc]

theorem path_snoc {i : ℕ} : Path next o (l ++ [i]) e ↔ Path next o l (some i) ∧ next i = e := by
  simp [path_append, Path]

/-- Two paths from an object to the end of the chain are the same. -/
theorem Path.eq (h : Path next o l none) (h' : Path next o m none) : l = m := by
  induction l generalizing o m with
  | nil =>
    cases m with
    | nil => rfl
    | cons j m =>
      cases h
      cases h'.1
  | cons i l ih =>
    cases m with
    | nil =>
      cases h'
      cases h.1
    | cons j m =>
      obtain ⟨rfl, hl⟩ := h
      obtain ⟨hij, hm⟩ := h'
      cases hij
      rw [ih hl hm]

/-- A path that ends does not come back to an object. -/
theorem Path.nodup (h : Path next o l none) : l.Nodup := by
  induction l generalizing o with
  | nil => exact List.nodup_nil
  | cons i l ih =>
    obtain ⟨rfl, hl⟩ := h
    refine List.nodup_cons.mpr ⟨fun hi => ?_, ih hl⟩
    obtain ⟨a, b, rfl⟩ := List.append_of_mem hi
    obtain ⟨x, -, hx⟩ := path_append.mp hl
    obtain ⟨rfl, hb⟩ := hx
    have heq := congrArg List.length (Path.eq hl hb)
    simp only [List.length_append, List.length_cons] at heq
    omega

theorem Path.update (h : Path next o l e) {t : ℕ} (ht : t ∉ l) (x : Option ℕ) :
    Path (Function.update next t x) o l e := by
  induction l generalizing o with
  | nil => exact h
  | cons i l ih =>
    rw [List.mem_cons, not_or] at ht
    obtain ⟨rfl, hl⟩ := h
    refine ⟨rfl, ?_⟩
    rw [Function.update_of_ne (Ne.symm ht.1)]
    exact ih hl ht.2

theorem Path.count_eq (h : Path next o l none) {fuel : ℕ} (hf : l.length ≤ fuel) :
    RiskChain.count next fuel o = some l.length := by
  induction l generalizing o fuel with
  | nil =>
    cases h
    cases fuel <;> rfl
  | cons i l ih =>
    obtain ⟨rfl, hl⟩ := h
    cases fuel with
    | zero => simp at hf
    | succ fuel =>
      rw [List.length_cons] at hf
      rw [RiskChain.count, ih hl (Nat.le_of_succ_le_succ hf)]
      rfl

section Validate
variable {H : Type*} {check : H → OrderCheck → CheckResult × H} {request : OrderCheck}

theorem Path.handle_eq {i : ℕ} (h : Path next (some i) (i :: l) none) {fuel : ℕ}
    (hf : l.length < fuel) (objects : ℕ → H) :
    RiskChain.handle check request next fuel objects i =
      some (runAll check request (i :: l) objects) := by
  induction l generalizing i fuel objects with
  | nil =>
    obtain ⟨fuel, rfl⟩ := Nat.exists_eq_add_of_lt hf
    obtain ⟨-, hnext⟩ := h
    simp only [Path] at hnext
    simp only [RiskChain.handle, runAll, hnext]
    split_ifs <;> rfl
  | cons j l ih =>
    cases fuel with
    | zero => simp at hf
    | succ fuel =>
      obtain ⟨-, hnext, hl⟩ := h
      rw [RiskChain.handle, runAll]
      simp only [hnext]
      split_ifs
      · rfl
      · rw [ih ⟨rfl, hl⟩ (by simpa using hf), Option.map_some]

/-- Where every check lets the request pass, the objects that have run are a path. -/
theorem path_of_handle {fuel i : ℕ} {objects objects' : ℕ → H} {result : CheckResult}
    (hpass : ∀ h, (check h request).1.ok = true)
    (h : RiskChain.handle check request next fuel objects i = some (result, l, objects')) :
    Path next (some i) l none := by
  induction fuel generalizing i objects l with
  | zero => cases h
  | succ fuel ih =>
    simp only [RiskChain.handle, hpass, Bool.true_eq_false, if_false] at h
    cases hn : next i with
    | none =>
      simp only [hn] at h
      cases h
      exact ⟨rfl, hn⟩
    | some j =>
      simp only [hn] at h
      obtain ⟨⟨r, l', o⟩, hrest, heq⟩ := Option.map_eq_some_iff.mp h
      cases heq
      refine ⟨rfl, ?_⟩
      rw [hn]
      exact ih hrest

theorem runAll_objects (hpass : ∀ h, (check h request).1.ok = true) (objects : ℕ → H) :
    (runAll check request l objects).2.1 = l := by
  induction l generalizing objects with
  | nil => rfl
  | cons i l ih =>
    simp only [runAll, hpass, Bool.true_eq_false, if_false]
    rw [ih]

end Validate
end Paths

theorem faithful_iff_path {c : RiskChain} {l : List ℕ} :
    Faithful c l ↔ Path c.next c.head l none := by
  constructor
  · intro h
    obtain ⟨fuel, hv⟩ := h.validate Unit (fun h _ => (⟨true, ""⟩, h)) {} (fun _ => ())
    have hl : (runAll (fun (h : Unit) _ => (⟨true, ""⟩, h)) {} l (fun _ => ())).2.1 = l :=
      runAll_objects (fun _ => rfl) _
    unfold RiskChain.validate at hv
    split at hv
    · rename_i hhead
      rw [Option.some_inj.mp hv.symm] at hl
      cases hl
      exact hhead
    · rename_i i hhead
      rw [← Prod.mk.eta (p := runAll _ _ _ _), ← Prod.mk.eta (p := (runAll _ _ _ _).2), hl] at hv
      rw [hhead]
      exact path_of_handle (fun _ => rfl) hv
  · intro h
    refine ⟨⟨l.length, h.count_eq le_rfl⟩, fun H check request objects => ⟨l.length, ?_⟩⟩
    unfold RiskChain.validate
    cases l with
    | nil =>
      have hhead : c.head = none := h
      rw [hhead]
      rfl
    | cons i l =>
      have hhead := h.1
      rw [hhead] at h ⊢
      exact h.handle_eq (Nat.lt_succ_self _) objects

/-! ## The runs -/

theorem run_snoc (calls : List Call) (i : Call) :
    RiskChain.run (calls ++ [i]) = (RiskChain.run calls).call i := by
  rw [RiskChain.run, RiskChain.run, List.foldl_append]
  rfl

theorem since_append (calls : List Call) (h : ℕ) :
    since (calls ++ [.append (some h)]) = since calls ++ [h] := by
  rw [since, since, List.foldl_append]
  rfl

theorem since_null (calls : List Call) : since (calls ++ [.append none]) = since calls := by
  rw [since, since, List.foldl_append]
  rfl

theorem since_clear (calls : List Call) : since (calls ++ [.clear]) = [] := by
  rw [since, List.foldl_append]
  rfl

/-- What the chain is after a sequence of calls. -/
structure Linked (calls : List Call) (c : RiskChain) : Prop where
  head : c.head = (since calls).head?
  tail : c.tail = (since calls).getLast?
  last : ∀ h, (calls.filter (· ≠ .append none)).getLast? = some (.append (some h)) ↔ c.tail = some h
  followed : ∀ h, c.next h = none ↔ ¬ Followed calls h
  path : (since calls).Nodup →
    Path c.next c.head (since calls) ((since calls).getLast?.bind c.next)

theorem pair_infix_snoc {α : Type*} {a b c : α} {l : List α} :
    [a, b] <:+: l ++ [c] ↔ [a, b] <:+: l ∨ l.getLast? = some a ∧ c = b := by
  rw [List.infix_concat_iff, List.suffix_concat_iff, ← List.singleton_suffix_iff_getLast?_eq_some]
  constructor
  · rintro ((h | ⟨t, ht, hl⟩) | h)
    · cases h
    · obtain ⟨rfl, hb⟩ := List.append_inj' (show [a] ++ [b] = t ++ [c] from ht) rfl
      cases hb
      exact .inr ⟨hl, rfl⟩
    · exact .inl h
  · rintro (h | ⟨hl, rfl⟩)
    · exact .inr h
    · exact .inl (.inr ⟨[a], rfl, hl⟩)

theorem filter_snoc {calls : List Call} {i : Call} (hi : i ≠ .append none) :
    (calls ++ [i]).filter (· ≠ .append none) = calls.filter (· ≠ .append none) ++ [i] := by
  rw [List.filter_append, List.filter_cons_of_pos (by simpa using hi), List.filter_nil]

theorem followed_snoc {calls : List Call} {i : Call} (hi : i ≠ .append none) (h : ℕ) :
    Followed (calls ++ [i]) h ↔ Followed calls h ∨
      (calls.filter (· ≠ .append none)).getLast? = some (.append (some h)) ∧
        ∃ g, i = .append (some g) := by
  simp only [Followed, filter_snoc hi, pair_infix_snoc, exists_or, exists_and_left]

theorem Linked.null {calls : List Call} {c : RiskChain} (h : Linked calls c) :
    Linked (calls ++ [.append none]) c := by
  have hfilter : (calls ++ [Call.append none]).filter (· ≠ .append none) =
      calls.filter (· ≠ .append none) := by simp
  refine ⟨?_, ?_, ?_, ?_, ?_⟩
  · rw [since_null]
    exact h.head
  · rw [since_null]
    exact h.tail
  · rw [hfilter]
    exact h.last
  · intro x
    rw [Followed, hfilter]
    exact h.followed x
  · rw [since_null]
    exact h.path

theorem Linked.clear {calls : List Call} {c : RiskChain} (h : Linked calls c) :
    Linked (calls ++ [.clear]) c.clear := by
  refine ⟨?_, ?_, ?_, ?_, ?_⟩
  · rw [since_clear]
    rfl
  · rw [since_clear]
    rfl
  · intro x
    rw [filter_snoc (by decide), List.getLast?_concat]
    exact ⟨nofun, nofun⟩
  · intro x
    rw [followed_snoc (by decide)]
    simpa [RiskChain.clear] using h.followed x
  · rw [since_clear]
    exact fun _ => rfl

/-- The pointer of the tail is set, and every handler that is in the chain once keeps its own. -/
theorem Linked.append {calls : List Call} {c : RiskChain} (h : Linked calls c) (g : ℕ) :
    Linked (calls ++ [.append (some g)]) (c.append (some g)) := by
  have hne : Call.append (some g) ≠ .append none := by simp
  have hfollow : ∀ x, Followed (calls ++ [.append (some g)]) x ↔ _ := followed_snoc hne
  have hlast : ∀ x, (calls.filter (· ≠ .append none) ++ [Call.append (some g)]).getLast? =
      some (.append (some x)) ↔ some g = some x := by simp
  simp only [h.last, Call.append.injEq, Option.some.injEq, exists_eq', and_true] at hfollow
  rcases List.eq_nil_or_concat' (since calls) with hnil | ⟨l, t, hl⟩
  · have hhead : c.head = none := by rw [h.head, hnil]; rfl
    have htail : c.tail = none := by rw [h.tail, hnil]; rfl
    have hc : c.append (some g) = { c with head := some g, tail := some g } := by
      rw [RiskChain.append, hhead, htail]
    rw [hc]
    refine ⟨?_, ?_, ?_, ?_, ?_⟩
    · rw [since_append, hnil]
      rfl
    · rw [since_append, hnil]
      rfl
    · rw [filter_snoc hne]
      exact hlast
    · intro x
      rw [hfollow, htail]
      simpa using h.followed x
    · rw [since_append, hnil]
      exact fun _ => ⟨rfl, rfl⟩
  · have htail : c.tail = some t := by rw [h.tail, hl, List.getLast?_concat]
    obtain ⟨i, hhead⟩ : ∃ i, c.head = some i := by
      rw [h.head, hl]
      exact ⟨(l ++ [t]).head (by simp), List.head?_eq_some_head (by simp)⟩
    have hc : c.append (some g) =
        { next := Function.update c.next t (some g), head := c.head, tail := some g } := by
      rw [RiskChain.append, hhead, htail]
    rw [hc]
    refine ⟨?_, ?_, ?_, ?_, ?_⟩
    · rw [since_append, hl, List.head?_append_of_ne_nil _ (by simp), ← hl]
      exact h.head
    · rw [since_append, List.getLast?_concat]
    · rw [filter_snoc hne]
      exact hlast
    · intro x
      rw [hfollow, htail]
      by_cases hx : x = t
      · subst hx
        simp
      · simp only [Function.update_of_ne hx, h.followed x, Option.some.injEq, Ne.symm hx, or_false]
    · intro hnodup
      rw [since_append] at hnodup ⊢
      have hpath := h.path (List.Nodup.of_append_left hnodup)
      rw [hl] at hnodup hpath ⊢
      obtain ⟨hl', -⟩ := path_snoc.mp hpath
      have htl : t ∉ l := by
        intro ht
        exact (List.nodup_append.mp (List.Nodup.of_append_left hnodup)).2.2 t ht t (by simp) rfl
      rw [List.getLast?_concat, path_snoc, path_snoc]
      exact ⟨⟨hl'.update htl _, Function.update_self ..⟩, rfl⟩

theorem linked_run (calls : List Call) : Linked calls (RiskChain.run calls) := by
  induction calls using List.reverseRecOn with
  | nil =>
    refine ⟨rfl, rfl, ?_, ?_, fun _ => rfl⟩
    · exact fun _ => ⟨nofun, nofun⟩
    · intro x
      simp [Followed, RiskChain.run, RiskChain.empty]
  | append_singleton calls i ih =>
    rw [run_snoc]
    match i with
    | .append none => exact ih.null
    | .append (some g) => exact ih.append g
    | .clear => exact ih.clear

/-- The chain is the one that the calls say if and only if no handler has been appended twice
since the last `clear`, and the last one has never been followed by another. -/
theorem faithful_iff (calls : List Call) : Faithful (RiskChain.run calls) (since calls) ↔
    (since calls).Nodup ∧ ∀ h ∈ (since calls).getLast?, ¬ Followed calls h := by
  have hlinked := linked_run calls
  rw [faithful_iff_path]
  constructor
  · intro hpath
    refine ⟨hpath.nodup, fun h hh => (hlinked.followed h).mp ?_⟩
    obtain ⟨l, hl⟩ := List.getLast?_eq_some_iff.mp hh
    rw [hl, path_snoc] at hpath
    exact hpath.2
  · rintro ⟨hnodup, hlast⟩
    have hpath := hlinked.path hnodup
    have hend : (since calls).getLast?.bind (RiskChain.run calls).next = none := by
      rw [Option.bind_eq_none_iff]
      exact fun h hh => (hlinked.followed h).mpr (hlast h hh)
    rwa [hend] at hpath

/-- A handler that is appended twice closes a cycle, and one that is appended after a `clear`
brings the handlers behind it along. -/
theorem not_faithful :
    ¬ Faithful (RiskChain.run [.append (some 0), .append (some 0)])
        (since [.append (some 0), .append (some 0)]) ∧
      (RiskChain.run [.append (some 0), .append (some 1), .clear, .append (some 0)]).size 2 = some 2 ∧
      ¬ Faithful (RiskChain.run [.append (some 0), .append (some 1), .clear, .append (some 0)])
        (since [.append (some 0), .append (some 1), .clear, .append (some 0)]) := by
  refine ⟨fun h => ?_, rfl, fun h => ?_⟩
  · have hnodup := (faithful_iff_path.mp h).nodup
    exact absurd hnodup (by decide)
  · have hnext : (RiskChain.run [.append (some 0), .append (some 1), .clear,
        .append (some 0)]).next 0 = none := (faithful_iff_path.mp h).2
    exact absurd hnext (by decide)

end HftExercises.RiskChains.Shared
