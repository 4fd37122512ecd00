import HftExercises.Containers.DynamicVectorCalls
import HftExercises.Core.Execution

/-! # Runs of vectors

A run starts with no vector. Which vectors there are at a call depends on the exceptions of
the calls before it, so what is asked of a call is asked of the contents that it finds.
-/
namespace HftExercises.DynVector
open Throwing
variable {ι T : Type}

abbrev Call (ι T : Type) := Event (World ι T) (Command ι T) (Except Thrown (Option T))

/-- A constructor of elements that throws. -/
def Leaky (e : Call ι T) : Prop := e.call.MayLeak ∧ ∃ x, e.result = .error x

variable [DecidableEq ι]

def World.step (E : Element T) (w : World ι T) (c : Command ι T) :
    Option (Except Thrown (Option T) × World ι T) := c.run E w

/-- The contents after some calls, with what they returned or threw. -/
def contents (E : Element T) (es : List (Call ι T)) : Contents ι T :=
  es.foldl (fun q e => q.after E e.call e.result) fun _ => none

theorem contents_concat (E : Element T) (es : List (Call ι T)) (e : Call ι T) :
    contents E (es ++ [e]) = (contents E es).after E e.call e.result := by
  rw [contents, List.foldl_append]
  rfl

/-- A call is allowed after the calls before it, however they end. -/
def Follows (E : Element T) (l : List (Command ι T)) (c : Command ι T) : Prop :=
  ∀ es w, exec (World.step E) World.empty l = some (es, w) → (contents E es).Allowed c

/-- What an exception leaves: the sizes, the elements and the balance. -/
structure StrongGuarantee (w w' : World ι T) (q : Contents ι T) : Prop where
  represents : Represents w' q
  sizes : ∀ v, (w'.vec v).map Vec.size = (w.vec v).map Vec.size
  balance : w'.constructed + w.destroyed = w.constructed + w'.destroyed

section Guarantee
variable {E : Element T} {w w' : World ι T} {q : Contents ι T} {c : Command ι T} {x : Thrown}

omit [DecidableEq ι] in
theorem Represents.size (hr : Represents w q) (v : ι) :
    (w.vec v).map Vec.size = (q v).map List.length := by
  cases hq : q v with
  | none => rw [hr.gone hq]; rfl
  | some xs =>
    obtain ⟨f, hf, ho⟩ := hr.owns hq
    rw [hf, Option.map_some, Option.map_some, ho.size]

theorem Stepped.strong (hr : Represents w q) (h : Stepped E w w' q c (.error x))
    (hc : ¬c.MayLeak) : StrongGuarantee w w' q := by
  have hafter : Represents w' q := h.represents
  have hbalance := h.balance (.inr hc)
  refine ⟨hafter, fun v => (hafter.size v).trans (hr.size v).symm, ?_⟩
  rw [Contents.after] at hbalance
  omega

end Guarantee

section Runs
variable {E : Element T} {calls : List (Command ι T)} {es : List (Call ι T)} {w w' : World ι T}
variable {q : Contents ι T} {c : Command ι T} {v : ι}

omit [DecidableEq ι] in
theorem allowed_of_appends (hc : q.Allowed c) (happends : c.Appends v) : ∃ xs, q v = some xs := by
  cases c with
  | pushBack u x => exact happends ▸ hc
  | pushBackMove u x => exact happends ▸ hc
  | emplaceBack u x => exact happends ▸ hc
  | _ => exact happends.elim

/-- Appended to at most, since it was constructed. -/
def AppendOnly (es : List (Call ι T)) (v : ι) : Prop :=
  ∃ before e after, es = before ++ e :: after ∧ e.call = .construct v ∧
    ∀ e' ∈ after, e'.call.Appends v ∨ ¬e'.call.Edits v

/-- What holds after a run. -/
structure RunInv (E : Element T) (es : List (Call ι T)) (w : World ι T) : Prop where
  run : exec (World.step E) World.empty (es.map Event.call) = some (es, w)
  represents : Represents w (contents E es)
  balance : (∀ e ∈ es, ¬Leaky e) → w.constructed = w.destroyed + (contents E es).total
  doubled : ∀ v f, AppendOnly es v → w.vec v = some f → f.Doubled
  stepped : ∀ before e after, es = before ++ e :: after →
    Represents e.before (contents E before) ∧
      ∃ w', World.step E e.before e.call = some (e.result, w') ∧
        Stepped E e.before w' (contents E before) e.call e.result

theorem runInv_empty (E : Element T) : RunInv (ι := ι) E [] World.empty := by
  refine ⟨rfl, represents_empty, fun _ => ?_, ?_, ?_⟩
  · have hnone : (contents E ([] : List (Call ι T))).total = 0 :=
      Contents.total_eq_sum (s := ∅) fun v hv => absurd rfl hv
    rw [hnone]
    rfl
  · rintro v f ⟨before, e, after, hsplit, -⟩
    cases before <;> cases hsplit
  · intro before e after hsplit
    cases before <;> cases hsplit

/-- Appends keep the bound on the capacity of a vector, and so does what leaves it alone. -/
theorem RunInv.doubled_step {r : Except Thrown (Option T)} {f' : Vec} (h : RunInv E es w)
    (hc : (contents E es).Allowed c) (hrun : World.step E w c = some (r, w'))
    (hstepped : Stepped E w w' (contents E es) c r) (happends : AppendOnly (es ++ [⟨w, c, r⟩]) v)
    (hf' : w'.vec v = some f') : f'.Doubled := by
  obtain ⟨before, e, after, hsplit, hconstruct, hlater⟩ := happends
  rcases split_concat hsplit with ⟨rfl, rfl, rfl⟩ | ⟨after', rfl, hes⟩
  · -- the call that constructs the vector
    obtain rfl : c = .construct v := hconstruct
    have hbegin : World.step E w (.construct v) = some (.ok none, w.setVec v (some {})) :=
      bind_ok (beginObject_eq (h.represents.gone hc) {})
    rw [hbegin] at hrun
    cases hrun
    have hself : (w.setVec v (some {})).vec v = some {} := Function.update_self ..
    obtain rfl := Option.some.inj (hself.symm.trans hf')
    exact .inl (Nat.le_refl 0)
  · rw [List.forall_mem_append, List.forall_mem_singleton] at hlater
    have hbefore : AppendOnly es v := ⟨before, e, after', hes, hconstruct, hlater.1⟩
    rcases hlater.2 with happend | hother
    · obtain ⟨xs, hq⟩ := allowed_of_appends hc happend
      obtain ⟨f, hf, -⟩ := h.represents.owns hq
      exact hstepped.doubled v f f' hf hf' happend (h.doubled v f hbefore hf)
    · rw [hstepped.frame v hother] at hf'
      exact h.doubled v f' hbefore hf'

theorem RunInv.step (h : RunInv E es w) (hc : (contents E es).Allowed c) :
    ∃ r w', World.step E w c = some (r, w') ∧ RunInv E (es ++ [⟨w, c, r⟩]) w' := by
  obtain ⟨⟨r, w'⟩, hrun, hexit⟩ := h.represents.run_meets (E := E) hc
  have hstepped : Stepped E w w' (contents E es) c r := by
    cases r with
    | ok a => exact hexit
    | error e => exact hexit
  refine ⟨r, w', hrun, ?_, ?_, ?_, ?_, ?_⟩
  · rw [List.map_append]
    exact exec_snoc h.run hrun
  · rw [contents_concat]
    exact hstepped.represents
  · intro hgood
    rw [List.forall_mem_append, List.forall_mem_singleton] at hgood
    have hbefore := h.balance hgood.1
    have hcall : (∃ a, r = .ok a) ∨ ¬c.MayLeak := by
      cases r with
      | ok a => exact .inl ⟨a, rfl⟩
      | error e => exact .inr fun hleak => hgood.2 ⟨hleak, e, rfl⟩
    have hbalance := hstepped.balance hcall
    rw [contents_concat]
    change w'.constructed = w'.destroyed + ((contents E es).after E c r).total
    omega
  · exact fun v f => h.doubled_step hc hrun hstepped
  · intro before e after hsplit
    rcases split_concat hsplit with ⟨rfl, rfl, -⟩ | ⟨after', -, hes⟩
    · exact ⟨h.represents, w', hrun, hstepped⟩
    · exact h.stepped before e after' hes

theorem exec_runInv (hcalls : Admissible (Follows E) calls) :
    ∃ es w, exec (World.step E) World.empty calls = some (es, w) ∧ RunInv E es w := by
  refine exec_total (RunInv E) ?_ (runInv_empty E) hcalls
  exact fun es w c h hfollows => h.step (hfollows es w h.run)

end Runs

end HftExercises.DynVector
