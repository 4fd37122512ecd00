import HftExercises.Containers.DynamicVectorAssignments

/-! # Calls on vectors

A call does to the contents what the same call does to lists, or it ends in an exception and
the contents are as before.
-/
namespace HftExercises.DynVector
open Throwing
variable {ι T : Type}

/-- A call whose arguments do not refer to own elements. -/
inductive Command (ι T : Type) where
  | construct (this : ι)
  | constructSized (this : ι) (n : ℕ)
  | constructWith (this : ι) (n : ℕ) (x : T)
  | copyConstruct (this o : ι)
  | moveConstruct (this o : ι)
  | destruct (v : ι)
  | copyAssign (this o tmp : ι)
  | moveAssign (this o : ι)
  | pushBack (v : ι) (x : T)
  | pushBackMove (v : ι) (x : T)
  | emplaceBack (v : ι) (x : T)
  | popBack (v : ι)
  | clear (v : ι)
  | reserve (v : ι) (n : ℕ)
  | shrinkToFit (v : ι)
  | «at» (v : ι) (i : ℕ)

namespace Command

/-- The appends. -/
def Appends : Command ι T → ι → Prop
  | pushBack u _, v | pushBackMove u _, v | emplaceBack u _, v => v = u
  | _, _ => False

/-- The vectors that a call may change. -/
def Edits : Command ι T → ι → Prop
  | moveConstruct this o, v | moveAssign this o, v => v = this ∨ v = o
  | construct u, v | constructSized u _, v | constructWith u _ _, v | copyConstruct u _, v
  | destruct u, v | copyAssign u _ _, v | pushBack u _, v | pushBackMove u _, v
  | emplaceBack u _, v | popBack u, v | clear u, v | reserve u _, v | shrinkToFit u, v => v = u
  | «at» _ _, _ => False

/-- The vectors whose capacity a call may lower: shrunk, assigned to or moved from. -/
def MayLower : Command ι T → ι → Prop
  | shrinkToFit u, v | copyAssign u _ _, v | moveConstruct _ u, v => v = u
  | moveAssign this o, v => v = this ∨ v = o
  | _, _ => False

/-- The calls that construct elements. -/
def Constructs : Command ι T → Prop
  | constructSized .. | constructWith .. | copyConstruct .. | copyAssign .. | pushBack ..
  | pushBackMove .. | emplaceBack .. | reserve .. | shrinkToFit .. => True
  | _ => False

/-- The calls with a constructor that constructs elements. -/
def MayLeak : Command ι T → Prop
  | constructSized .. | constructWith .. | copyConstruct .. | copyAssign .. => True
  | _ => False

variable [DecidableEq ι]

/-- A call; what it returns is an element or nothing. -/
def run (E : Element T) : Command ι T → Throwing (World ι T) Thrown (Option T)
  | construct this => do defaultConstruct this; pure none
  | constructSized this n => do DynVector.constructSized E this n; pure none
  | constructWith this n x => do DynVector.constructWith E this n x; pure none
  | copyConstruct this o => do DynVector.copyConstruct E this o; pure none
  | moveConstruct this o => do DynVector.moveConstruct this o; pure none
  | destruct v => do DynVector.destruct v; pure none
  | copyAssign this o tmp => do DynVector.copyAssign E this o tmp; pure none
  | moveAssign this o => do DynVector.moveAssign this o; pure none
  | pushBack v x => do DynVector.pushBack E v (.value x); pure none
  | pushBackMove v x => do DynVector.pushBackMove E v x; pure none
  | emplaceBack v x => do let a ← DynVector.emplaceBack E v (.value x); pure (some a)
  | popBack v => do DynVector.popBack v; pure none
  | clear v => do DynVector.clear v; pure none
  | reserve v n => do DynVector.reserve E v n; pure none
  | shrinkToFit v => do DynVector.shrinkToFit E v; pure none
  | «at» v i => do let a ← DynVector.at v i; pure (some a)

end Command

namespace Contents

/-- The vectors that a call is made on exist, those that it makes do not, and a vector that is
popped from has an element. -/
def Allowed (q : Contents ι T) : Command ι T → Prop
  | .construct this | .constructSized this _ | .constructWith this _ _ => q this = none
  | .copyConstruct this o | .moveConstruct this o => q this = none ∧ ∃ ys, q o = some ys
  | .copyAssign this o tmp => (∃ xs, q this = some xs) ∧ (∃ ys, q o = some ys) ∧ q tmp = none
  | .moveAssign this o => (∃ xs, q this = some xs) ∧ ∃ ys, q o = some ys
  | .popBack v => ∃ xs x, q v = some (xs ++ [x])
  | .destruct v | .pushBack v _ | .pushBackMove v _ | .emplaceBack v _ | .clear v | .reserve v _
  | .shrinkToFit v | .at v _ => ∃ xs, q v = some xs

variable [DecidableEq ι]

def edit (q : Contents ι T) (v : ι) (f : List T → List T) : Contents ι T :=
  Function.update q v ((q v).map f)

/-- The call on lists. -/
def step (E : Element T) (q : Contents ι T) : Command ι T → Contents ι T
  | .construct this => Function.update q this (some [])
  | .constructSized this n => Function.update q this (some (List.replicate n E.value))
  | .constructWith this n x => Function.update q this (some (List.replicate n x))
  | .copyConstruct this o | .copyAssign this o _ => Function.update q this (q o)
  | .moveConstruct this o => Function.update (Function.update q this (q o)) o (some [])
  | .moveAssign this o =>
    if this = o then q else Function.update (Function.update q this (q o)) o (some [])
  | .destruct v => Function.update q v none
  | .pushBack v x | .pushBackMove v x | .emplaceBack v x => q.edit v fun xs => xs ++ [x]
  | .popBack v => q.edit v List.dropLast
  | .clear v => q.edit v fun _ => []
  | .reserve _ _ | .shrinkToFit _ | .at _ _ => q

/-- An exception leaves the contents as they are. -/
def after (E : Element T) (q : Contents ι T) (c : Command ι T) :
    Except Thrown (Option T) → Contents ι T
  | .ok _ => q.step E c
  | .error _ => q

omit [DecidableEq ι] in
/-- What a call returns or throws. -/
def Returns (q : Contents ι T) : Command ι T → Except Thrown (Option T) → Prop
  | .at v i, .ok a => ∃ xs x, q v = some xs ∧ xs[i]? = some x ∧ a = some x
  | .at v i, .error e => e = .outOfRange "Vector::at" ∧ ∃ xs, q v = some xs ∧ xs.length ≤ i
  | .emplaceBack _ x, .ok a => a = some x
  | _, .ok a => a = none
  | c, .error e => e = .element ∧ c.Constructs

end Contents

/-- The capacity is that of a vector made by appends: an exception of the first one leaves room
for it. -/
def Vec.Doubled (f : Vec) : Prop := f.capacity ≤ 2 * f.size ∨ f.size = 0 ∧ f.capacity ≤ 1

/-- What a call with its result does to the vectors. -/
structure Stepped [DecidableEq ι] (E : Element T) (w w' : World ι T) (q : Contents ι T)
    (c : Command ι T) (r : Except Thrown (Option T)) : Prop where
  returns : q.Returns c r
  represents : Represents w' (q.after E c r)
  /-- Nothing is lost, unless a constructor of elements throws. -/
  balance : (∃ a, r = .ok a) ∨ ¬c.MayLeak →
    w'.constructed + w.destroyed + q.total = w.constructed + w'.destroyed + (q.after E c r).total
  frame : ∀ v, ¬c.Edits v → w'.vec v = w.vec v
  capacity : ∀ v f f', w.vec v = some f → w'.vec v = some f' → ¬c.MayLower v →
    f.capacity ≤ f'.capacity
  doubled : ∀ v f f', w.vec v = some f → w'.vec v = some f' → c.Appends v → f.Doubled → f'.Doubled
  shrunk : ∀ v a f', c = .shrinkToFit v → r = .ok a → w'.vec v = some f' → f'.capacity = f'.size

section Steps
variable [DecidableEq ι] {E : Element T} {w w' : World ι T} {q : Contents ι T} {c : Command ι T}
variable {r : Except Thrown (Option T)} {v this o : ι} {f g : Vec} {xs ys : List T} {x : T}

theorem Contents.edit_of_some (hq : q v = some xs) (f : List T → List T) :
    q.edit v f = Function.update q v (some (f xs)) := by
  rw [Contents.edit, hq, Option.map_some]

/-- A call that leaves the members of all vectors as they are. -/
theorem stepped_of_vec (hvec : w'.vec = w.vec) (hreturns : q.Returns c r)
    (hrepresents : Represents w' (q.after E c r))
    (hbalance : (∃ a, r = .ok a) ∨ ¬c.MayLeak → w'.constructed + w.destroyed + q.total =
      w.constructed + w'.destroyed + (q.after E c r).total)
    (hshrunk : ∀ v, c ≠ .shrinkToFit v) : Stepped E w w' q c r := by
  refine ⟨hreturns, hrepresents, hbalance, fun v _ => congrFun hvec v, ?_, ?_, ?_⟩
  · intro v f f' hf hf' _
    rw [hvec, hf] at hf'
    cases hf'
    exact Nat.le_refl _
  · intro v f f' hf hf' _ hdoubled
    rw [hvec, hf] at hf'
    cases hf'
    exact hdoubled
  · intro v a f' hc
    exact absurd hc (hshrunk v)

/-- A call that changes one vector. -/
theorem stepped_of_one (hsteps : Steps w w' q (q.after E c r))
    (hother : ∀ u, u ≠ v → w'.vec u = w.vec u) (hreturns : q.Returns c r) (hedits : c.Edits v)
    (hcapacity : ∀ f g, w.vec v = some f → w'.vec v = some g → ¬c.MayLower v →
      f.capacity ≤ g.capacity)
    (hdoubled : ∀ f g, w.vec v = some f → w'.vec v = some g → c.Appends v → f.Doubled → g.Doubled)
    (hshrunk : ∀ u a g, c = .shrinkToFit u → r = .ok a → w'.vec u = some g → g.capacity = g.size) :
    Stepped E w w' q c r := by
  refine ⟨hreturns, hsteps.represents, fun _ => hsteps.balance, fun u hu => ?_, ?_, ?_, hshrunk⟩
  · refine hother u fun huv => hu ?_
    rw [huv]
    exact hedits
  · intro u f₁ f₂ h₁ h₂ hlower
    by_cases hu : u = v
    · subst hu
      exact hcapacity f₁ f₂ h₁ h₂ hlower
    · rw [hother u hu, h₁] at h₂
      cases h₂
      exact Nat.le_refl _
  · intro u f₁ f₂ h₁ h₂ happends hd
    by_cases hu : u = v
    · subst hu
      exact hdoubled f₁ f₂ h₁ h₂ happends hd
    · rw [hother u hu, h₁] at h₂
      cases h₂
      exact hd

theorem stepped_of_becomes (hr : Represents w q) (hv : w.vec v = some f) (hq : q v = some xs)
    (hbecomes : Becomes w w' v f g xs ys) (hreturns : q.Returns c r)
    (hafter : q.after E c r = Function.update q v (some ys)) (hedits : c.Edits v)
    (hcapacity : ¬c.MayLower v → f.capacity ≤ g.capacity)
    (hdoubled : c.Appends v → f.Doubled → g.Doubled)
    (hshrunk : ∀ u a, c = .shrinkToFit u → r = .ok a → u = v ∧ g.capacity = g.size) :
    Stepped E w w' q c r := by
  have hself : w'.vec v = some g := by rw [hbecomes.edits.vec, Function.update_self]
  refine stepped_of_one (hafter ▸ hr.becomes hv hq hbecomes) (fun u hu => ?_) hreturns hedits ?_ ?_ ?_
  · rw [hbecomes.edits.vec, Function.update_of_ne hu]
  · intro f₁ f₂ h₁ h₂
    obtain rfl := Option.some.inj (hv.symm.trans h₁)
    obtain rfl := Option.some.inj (hself.symm.trans h₂)
    exact hcapacity
  · intro f₁ f₂ h₁ h₂
    obtain rfl := Option.some.inj (hv.symm.trans h₁)
    obtain rfl := Option.some.inj (hself.symm.trans h₂)
    exact hdoubled
  · intro u a f' hc ha hf'
    obtain ⟨rfl, hcap⟩ := hshrunk u a hc ha
    obtain rfl := Option.some.inj (hself.symm.trans hf')
    exact hcap

/-- The constructor of an object. -/
theorem stepped_of_begin (hr : Represents w q) (hthis : q this = none)
    (hedits : DynVector.Edits w w' this {} (some g) 0 ys.length) (ho : Owns w' g ys)
    (hreturns : q.Returns c r) (hafter : q.after E c r = Function.update q this (some ys))
    (hc : c.Edits this) (hshrunk : ∀ v, c ≠ .shrinkToFit v) : Stepped E w w' q c r := by
  have hsteps : Steps w w' q (Function.update q this (some ys)) :=
    hr.steps (.inr rfl) (by rw [hthis]; exact hedits) (.some ho)
  have hgone : ∀ f, w.vec this ≠ some f := by
    intro f hf
    rw [hr.gone hthis] at hf
    cases hf
  refine stepped_of_one (hafter ▸ hsteps) (fun u hu => ?_) hreturns hc
    (fun f _ hf => absurd hf (hgone f)) (fun f _ hf => absurd hf (hgone f))
    fun u _ _ hcu => absurd hcu (hshrunk u)
  rw [hedits.vec, Function.update_of_ne hu]

/-- The exception of a constructor of elements. -/
theorem stepped_of_leak {j : ℕ} (hr : Represents w q) (hthis : q this = none)
    (hleak : Leaks w w' this j) (hreturns : q.Returns c (.error .element)) (hc : c.MayLeak)
    (hshrunk : ∀ v, c ≠ .shrinkToFit v) : Stepped E w w' q c (.error .element) := by
  have hrepresents := hr.edits (.inr rfl) hleak.edits (c := none) .none
  rw [← hthis, Function.update_eq_self] at hrepresents
  have hvec : w'.vec = w.vec := by
    rw [hleak.edits.vec, ← hr.gone hthis, Function.update_eq_self]
  refine stepped_of_vec hvec hreturns hrepresents ?_ hshrunk
  rintro (⟨a, ha⟩ | hnot)
  · cases ha
  · exact absurd hc hnot

end Steps

section Doubling
variable {f g : Vec}

theorem capacity_le_roomy : f.capacity ≤ f.roomy := by
  rw [Vec.roomy]
  split_ifs <;> omega

theorem Vec.Doubled.append (h : f.Doubled) (hsize : g.size = f.size + 1)
    (hcap : g.capacity = f.roomy) : g.Doubled := by
  rw [Vec.Doubled, hsize, hcap, Vec.roomy]
  rw [Vec.Doubled] at h
  split_ifs <;> omega

theorem Vec.Doubled.keep (h : f.Doubled) (hsize : g.size = f.size)
    (hcap : g.capacity = f.capacity ∨ g.capacity = f.roomy) : g.Doubled := by
  rw [Vec.roomy] at hcap
  rw [Vec.Doubled, hsize]
  rw [Vec.Doubled] at h
  split_ifs at hcap <;> omega

end Doubling

section Run
variable [DecidableEq ι] {E : Element T} {w w' : World ι T} {q : Contents ι T} {c : Command ι T}
variable {v this o tmp : ι} {f g : Vec} {xs ys : List T} {x : T}

omit [DecidableEq ι] in
theorem meets_void {A : Type} {op : Throwing (World ι T) Thrown Unit} {a : A}
    {Q : A → World ι T → Prop} {R : Thrown → World ι T → Prop}
    (h : Meets op w (fun _ w' => Q a w') R) : Meets (do op; pure a) w Q R :=
  h.bind fun _ _ => meets_pure

/-- The three appends are alike. -/
theorem stepped_of_append {A : Type} {op : Throwing (World ι T) Thrown A} {k : A → Option T}
    (hr : Represents w q) (hv : w.vec v = some f) (hq : q v = some xs) (ho : Owns w f xs)
    (hop : Meets op w
      (fun a w' => q.Returns c (.ok (k a)) ∧
        ∃ g, Becomes w w' v f g xs (xs ++ [x]) ∧ g.capacity = f.roomy)
      fun e w' => e = .element ∧ AppendFails w w' v f xs)
    (hstep : q.step E c = q.edit v fun xs => xs ++ [x])
    (hreturns : q.Returns c (.error .element)) (hedits : c.Edits v)
    (hshrunk : ∀ v, c ≠ .shrinkToFit v) :
    Meets (do let a ← op; pure (k a)) w (fun a w' => Stepped E w w' q c (.ok a))
      fun e w' => Stepped E w w' q c (.error e) := by
  refine (hop.imp (fun _ _ h => h) ?_).bind ?_
  · rintro e w' ⟨rfl, g, hbecomes, hcap⟩
    have hsize : g.size = f.size := by rw [hbecomes.owns.size, ho.size]
    refine stepped_of_becomes hr hv hq hbecomes hreturns ?_ hedits ?_ ?_ ?_
    · rw [← hq, Function.update_eq_self]
      rfl
    · intro _
      rcases hcap with hcap | hcap
      · exact Nat.le_of_eq hcap.symm
      · exact hcap ▸ capacity_le_roomy
    · exact fun _ hd => hd.keep hsize hcap
    · exact fun u a hc => absurd hc (hshrunk u)
  · rintro a w' ⟨hreturned, g, hbecomes, hcap⟩
    have hsize : g.size = f.size + 1 := by
      rw [hbecomes.owns.size, ho.size, List.length_append, List.length_singleton]
    refine meets_pure (stepped_of_becomes hr hv hq hbecomes hreturned ?_ hedits ?_ ?_ ?_)
    · exact hstep.trans (Contents.edit_of_some hq _)
    · exact fun _ => hcap ▸ capacity_le_roomy
    · exact fun _ hd => hd.append hsize hcap
    · exact fun u a hc => absurd hc (hshrunk u)

/-- The three constructors of elements are alike. -/
theorem stepped_of_constructor {op : Throwing (World ι T) Thrown Unit} {n : ℕ} {P : Prop}
    (hr : Represents w q) (hthis : q this = none) (hn : n = ys.length)
    (hop : Meets op w
      (fun _ w' => P ∧ ∃ g, DynVector.Edits w w' this {} (some g) 0 n ∧ Owns w' g ys ∧ g.capacity = n)
      fun e w' => e = .element ∧ ∃ j, FirstThrow E w n j ∧ Leaks w w' this j)
    (hstep : q.step E c = Function.update q this (some ys)) (hok : q.Returns c (.ok none))
    (herror : q.Returns c (.error .element)) (hedits : c.Edits this) (hleaks : c.MayLeak)
    (hshrunk : ∀ v, c ≠ .shrinkToFit v) :
    Meets (do op; pure none) w (fun a w' => Stepped E w w' q c (.ok a))
      fun e w' => Stepped E w w' q c (.error e) := by
  subst hn
  refine meets_void (hop.imp ?_ ?_)
  · rintro - w' ⟨-, g, hconstructed, howns, -⟩
    exact stepped_of_begin hr hthis hconstructed howns hok hstep hedits hshrunk
  · rintro e w' ⟨rfl, j, -, hleak⟩
    exact stepped_of_leak hr hthis hleak herror hleaks hshrunk

/-- A move to an object, whatever it held. -/
theorem stepped_of_move (hsteps : Steps w w' q (q.move this o ys)) (hq : q o = some ys)
    (hkept : ∀ u, u ≠ this → u ≠ o → w'.vec u = w.vec u)
    (hstep : q.step E c = Function.update (Function.update q this (q o)) o (some []))
    (hreturns : q.Returns c (.ok none)) (hedits : ∀ u, u = this ∨ u = o → c.Edits u)
    (hlower : ∀ u f, w.vec u = some f → u = this ∨ u = o → c.MayLower u)
    (happends : ∀ u, ¬c.Appends u) (hshrunk : ∀ v, c ≠ .shrinkToFit v) :
    Stepped E w w' q c (.ok none) := by
  rw [hq] at hstep
  have hafter : q.after E c (.ok none) = q.move this o ys := hstep
  rw [← hafter] at hsteps
  refine ⟨hreturns, hsteps.represents, fun _ => hsteps.balance, fun u hu => ?_, ?_, ?_, ?_⟩
  · exact hkept u (fun h => hu (hedits u (.inl h))) fun h => hu (hedits u (.inr h))
  · intro u f₁ f₂ h₁ h₂ hnot
    have hne := fun h => hnot (hlower u f₁ h₁ h)
    rw [hkept u (fun h => hne (.inl h)) (fun h => hne (.inr h)), h₁] at h₂
    cases h₂
    exact Nat.le_refl _
  · exact fun u _ _ _ _ ha => absurd ha (happends u)
  · exact fun u a f' hc => absurd hc (hshrunk u)

theorem Represents.run_meets (hr : Represents w q) (hc : q.Allowed c) :
    Meets (c.run E) w (fun a w' => Stepped E w w' q c (.ok a))
      fun e w' => Stepped E w w' q c (.error e) := by
  cases c with
  | construct this =>
    exact meets_void (meets_of_ok (beginObject_eq (hr.gone hc) {})
      (stepped_of_begin hr hc (edits_begin hr.fresh) owns_nil rfl rfl rfl (by simp)))
  | constructSized this n =>
    exact stepped_of_constructor hr hc (List.length_replicate ..).symm
      (constructSized_meets (hr.gone hc) hr.fresh n) rfl rfl ⟨rfl, trivial⟩ rfl trivial (by simp)
  | constructWith this n x =>
    exact stepped_of_constructor hr hc (List.length_replicate ..).symm
      (constructWith_meets (hr.gone hc) hr.fresh n x) rfl rfl ⟨rfl, trivial⟩ rfl trivial (by simp)
  | copyConstruct this o =>
    obtain ⟨hthis, ys, hq⟩ := hc
    obtain ⟨g, hg, howns⟩ := hr.owns hq
    refine stepped_of_constructor hr hthis rfl
      (copyConstruct_meets (hr.gone hthis) hg howns hr.fresh) ?_ rfl ⟨rfl, trivial⟩ rfl trivial
      (by simp)
    rw [Contents.step, hq]
  | moveConstruct this o =>
    obtain ⟨hthis, ys, hq⟩ := hc
    refine meets_void ((moveConstruct_meets hr hthis hq).imp ?_ fun _ _ h => h)
    rintro - w' ⟨hsteps, g, rfl⟩
    refine stepped_of_move hsteps hq (fun u => handOver_vec_of_ne) rfl rfl (fun u h => h) ?_
      (fun u h => h) (by simp)
    rintro u f hf (rfl | rfl)
    · rw [hr.gone hthis] at hf
      cases hf
    · rfl
  | destruct v =>
    obtain ⟨xs, hq⟩ := hc
    obtain ⟨f, hv, ho⟩ := hr.owns hq
    refine meets_void ((destruct_meets hv ho hr.fresh).imp ?_ fun _ _ h => h)
    rintro - w' hedits
    have hsteps := hr.steps (.inl hv) (c := none) (by rw [hq]; exact hedits) .none
    have hgone : ∀ g, w'.vec v ≠ some g := by
      intro g hg
      rw [hedits.vec, Function.update_self] at hg
      cases hg
    refine stepped_of_one hsteps (fun u hu => ?_) rfl rfl (fun _ g _ hg => absurd hg (hgone g))
      (fun _ _ _ _ h => h.elim) (by simp)
    rw [hedits.vec, Function.update_of_ne hu]
  | copyAssign this o tmp =>
    obtain ⟨⟨xs, hthis⟩, ⟨ys, hq⟩, htmp⟩ := hc
    by_cases hne : this = o
    · subst hne
      have hsame : q.after E (.copyAssign this this tmp) (.ok none) = q :=
        Function.update_eq_self this q
      have hpure : copyAssign E this this tmp w = some (.ok (), w) := by
        rw [copyAssign, if_neg (not_not_intro rfl)]
        rfl
      exact meets_void (meets_of_ok hpure (stepped_of_vec rfl rfl (by rw [hsame]; exact hr)
        (fun _ => by rw [hsame]) (by simp)))
    · refine meets_void ((copyAssign_meets hr hthis hq htmp hne).imp ?_ ?_)
      · rintro - w' ⟨-, hsteps, -, hother⟩
        rw [← hq] at hsteps
        exact stepped_of_one hsteps hother rfl rfl (fun _ _ _ _ h => absurd rfl h)
          (fun _ _ _ _ h => h.elim) (by simp)
      · rintro e w' ⟨rfl, j, -, hleak⟩
        exact stepped_of_leak hr htmp hleak ⟨rfl, trivial⟩ trivial (by simp)
  | moveAssign this o =>
    obtain ⟨⟨xs, hthis⟩, ys, hq⟩ := hc
    by_cases hne : this = o
    · have hpure : (moveAssign this o : Throwing (World ι T) Thrown Unit) w = some (.ok (), w) := by
        rw [moveAssign, if_neg (not_not_intro hne)]
        rfl
      have hsame : q.after E (.moveAssign this o) (.ok none) = q := if_pos hne
      exact meets_void (meets_of_ok hpure (stepped_of_vec rfl rfl (by rw [hsame]; exact hr)
        (fun _ => by rw [hsame]) (by simp)))
    · refine meets_void ((moveAssign_meets hr hthis hq hne).imp ?_ fun _ _ h => h)
      rintro - w' ⟨hsteps, -, -, hkept⟩
      refine stepped_of_move hsteps hq hkept (if_neg hne) rfl (fun u h => h) (fun u f _ h => h)
        (fun u h => h) (by simp)
  | pushBack v x =>
    obtain ⟨xs, hq⟩ := hc
    obtain ⟨f, hv, ho⟩ := hr.owns hq
    refine stepped_of_append hr hv hq ho ((pushBack_meets hv ho hr.fresh x).imp ?_ fun _ _ h => h)
      rfl ⟨rfl, trivial⟩ rfl (by simp)
    exact fun _ _ h => ⟨rfl, h⟩
  | pushBackMove v x =>
    obtain ⟨xs, hq⟩ := hc
    obtain ⟨f, hv, ho⟩ := hr.owns hq
    refine stepped_of_append hr hv hq ho
      ((pushBackMove_meets hv ho hr.fresh x).imp ?_ fun _ _ h => h) rfl ⟨rfl, trivial⟩ rfl (by simp)
    exact fun _ _ h => ⟨rfl, h⟩
  | emplaceBack v x =>
    obtain ⟨xs, hq⟩ := hc
    obtain ⟨f, hv, ho⟩ := hr.owns hq
    refine stepped_of_append hr hv hq ho
      ((emplaceBack_meets hv ho hr.fresh x).imp ?_ fun _ _ h => h) rfl ⟨rfl, trivial⟩ rfl (by simp)
    rintro a w' ⟨rfl, h⟩
    exact ⟨rfl, h⟩
  | popBack v =>
    obtain ⟨xs, x, hq⟩ := hc
    obtain ⟨f, hv, ho⟩ := hr.owns hq
    refine meets_void ((popBack_meets hv ho hr.fresh).imp ?_ fun _ _ h => h)
    rintro - w' ⟨g, hbecomes, hcap⟩
    refine stepped_of_becomes hr hv hq hbecomes rfl ?_ rfl (fun _ => Nat.le_of_eq hcap.symm)
      (fun h => h.elim) (by simp)
    exact (Contents.edit_of_some hq _).trans (by rw [List.dropLast_concat])
  | clear v =>
    obtain ⟨xs, hq⟩ := hc
    obtain ⟨f, hv, ho⟩ := hr.owns hq
    refine meets_void ((clear_meets hv ho hr.fresh).imp ?_ fun _ _ h => h)
    rintro - w' ⟨g, hbecomes, hcap⟩
    exact stepped_of_becomes hr hv hq hbecomes rfl (Contents.edit_of_some hq _) rfl
      (fun _ => Nat.le_of_eq hcap.symm) (fun h => h.elim) (by simp)
  | reserve v n =>
    obtain ⟨xs, hq⟩ := hc
    obtain ⟨f, hv, ho⟩ := hr.owns hq
    have hsame : q = Function.update q v (some xs) := by rw [← hq, Function.update_eq_self]
    refine meets_void ((reserve_meets hv ho hr.fresh).imp ?_ ?_)
    · rintro - w' ⟨g, hbecomes, hcap⟩
      exact stepped_of_becomes hr hv hq hbecomes rfl hsame rfl
        (fun _ => hcap ▸ Nat.le_max_left ..) (fun h => h.elim) (by simp)
    · rintro e w' ⟨rfl, hbecomes⟩
      exact stepped_of_becomes hr hv hq hbecomes ⟨rfl, trivial⟩ hsame rfl (fun _ => Nat.le_refl _)
        (fun h => h.elim) (by simp)
  | shrinkToFit v =>
    obtain ⟨xs, hq⟩ := hc
    obtain ⟨f, hv, ho⟩ := hr.owns hq
    have hsame : q = Function.update q v (some xs) := by rw [← hq, Function.update_eq_self]
    refine meets_void ((shrinkToFit_meets hv ho hr.fresh).imp ?_ ?_)
    · rintro - w' ⟨g, hbecomes, hcap⟩
      refine stepped_of_becomes hr hv hq hbecomes rfl hsame rfl (fun h => absurd rfl h)
        (fun h => h.elim) ?_
      rintro u a hu -
      cases hu
      exact ⟨rfl, by rw [hcap, hbecomes.owns.size]⟩
    · rintro e w' ⟨rfl, hbecomes⟩
      exact stepped_of_becomes hr hv hq hbecomes ⟨rfl, trivial⟩ hsame rfl (fun _ => Nat.le_refl _)
        (fun h => h.elim) (by simp)
  | «at» v i =>
    obtain ⟨xs, hq⟩ := hc
    obtain ⟨f, hv, ho⟩ := hr.owns hq
    refine ((at_meets hv ho i).imp (fun _ _ h => h) ?_).bind ?_
    · rintro e w' ⟨rfl, hle, rfl⟩
      exact stepped_of_vec rfl ⟨rfl, xs, hq, hle⟩ hr (fun _ => rfl) (by simp)
    · rintro a w' ⟨hx, rfl⟩
      exact meets_pure (stepped_of_vec rfl ⟨xs, a, hq, hx, rfl⟩ hr (fun _ => rfl) (by simp))

end Run

end HftExercises.DynVector
