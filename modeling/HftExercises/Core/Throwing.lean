import Mathlib.Data.Option.Basic

/-! # Computations that throw

A computation on a state is undefined, or it returns, or it throws and leaves the state as
it is at that point. What is proved of it is that it is defined, with a postcondition for
each exit; the rules follow the text of the program.
-/
namespace HftExercises

def Throwing (S E A : Type) : Type := S → Option (Except E A × S)

namespace Throwing
variable {S E F A B : Type}

/-- What comes after an exit: nothing after a throw. -/
def continueWith (k : A → Throwing S E B) : Except E A × S → Option (Except E B × S)
  | (.ok a, s) => k a s
  | (.error e, s) => some (.error e, s)

instance : Monad (Throwing S E) where
  pure a s := some (.ok a, s)
  bind c k s := (c s).bind (continueWith k)

/-- A step that does not throw. -/
def perform (f : S → Option (A × S)) : Throwing S E A := fun s => (f s).map fun p => (.ok p.1, p.2)

def throwing (e : E) : Throwing S E A := fun s => some (.error e, s)

def handleWith (handler : E → Throwing S F A) : Except E A × S → Option (Except F A × S)
  | (.ok a, s) => some (.ok a, s)
  | (.error e, s) => handler e s

/-- `try` and `catch (...)` -/
def catching (c : Throwing S E A) (handler : E → Throwing S F A) : Throwing S F A := fun s =>
  (c s).bind (handleWith handler)

variable {c : Throwing S E A} {k : A → Throwing S E B} {handler : E → Throwing S F A} {s t : S}
  {a : A} {e : E}

theorem bind_ok (h : c s = some (.ok a, t)) : (c >>= k) s = k a t := by
  change (c s).bind (continueWith k) = _
  rw [h]
  rfl

theorem bind_error (h : c s = some (.error e, t)) : (c >>= k) s = some (.error e, t) := by
  change (c s).bind (continueWith k) = _
  rw [h]
  rfl

theorem bind_none (h : c s = none) : (c >>= k) s = none := by
  change (c s).bind (continueWith k) = _
  rw [h]
  rfl

theorem perform_eq {f : S → Option (A × S)} (h : f s = some (a, t)) :
    (perform f : Throwing S E A) s = some (.ok a, t) := by
  rw [perform, h, Option.map_some]

theorem catching_ok (h : c s = some (.ok a, t)) : catching c handler s = some (.ok a, t) := by
  rw [catching, h]
  rfl

theorem catching_error (h : c s = some (.error e, t)) : catching c handler s = handler e t := by
  rw [catching, h]
  rfl

end Throwing

section Rules
open Throwing
variable {S E F A B : Type} {c : Throwing S E A} {s t : S} {a : A} {e : E}
variable {Q Q' : A → S → Prop} {R R' : E → S → Prop}

/-- What holds after each of the two exits. -/
def Exit (Q : A → S → Prop) (R : E → S → Prop) : Except E A × S → Prop
  | (.ok a, s) => Q a s
  | (.error e, s) => R e s

/-- The computation is defined and ends in one of the two ways. -/
def Meets (c : Throwing S E A) (s : S) (Q : A → S → Prop) (R : E → S → Prop) : Prop :=
  ∃ x, c s = some x ∧ Exit Q R x

/-- A computation ends in one way only. -/
theorem Meets.exit (h : Meets c s Q R) {x : Except E A × S} (hx : c s = some x) : Exit Q R x := by
  obtain ⟨y, hy, hexit⟩ := h
  obtain rfl := Option.some.inj (hx.symm.trans hy)
  exact hexit

theorem Meets.imp (h : Meets c s Q R) (hQ : ∀ a t, Q a t → Q' a t) (hR : ∀ e t, R e t → R' e t) :
    Meets c s Q' R' := by
  obtain ⟨⟨r, t⟩, hrun, hexit⟩ := h
  refine ⟨(r, t), hrun, ?_⟩
  cases r with
  | ok a => exact hQ a t hexit
  | error e => exact hR e t hexit

theorem meets_pure (h : Q a s) : Meets (pure a) s Q R := ⟨(.ok a, s), rfl, h⟩

theorem meets_throwing (h : R e s) : Meets (throwing e) s Q R := ⟨(.error e, s), rfl, h⟩

theorem meets_of_ok (hrun : c s = some (.ok a, t)) (h : Q a t) : Meets c s Q R := ⟨_, hrun, h⟩

theorem Meets.bind {P : B → S → Prop} {k : A → Throwing S E B} (h : Meets c s Q R)
    (hk : ∀ a t, Q a t → Meets (k a) t P R) : Meets (c >>= k) s P R := by
  obtain ⟨⟨r, t⟩, hrun, hexit⟩ := h
  cases r with
  | ok a =>
    obtain ⟨x, hrun', hexit'⟩ := hk a t hexit
    exact ⟨x, (bind_ok hrun).trans hrun', hexit'⟩
  | error e => exact ⟨(.error e, t), bind_error hrun, hexit⟩

theorem not_meets_of_none (h : c s = none) : ¬Meets c s Q R := by
  rintro ⟨x, hrun, -⟩
  rw [h] at hrun
  cases hrun

theorem meets_bind_ok {P : B → S → Prop} {k : A → Throwing S E B} (hrun : c s = some (.ok a, t))
    (h : Meets (k a) t P R) : Meets (c >>= k) s P R := by
  obtain ⟨x, hrun', hexit⟩ := h
  exact ⟨x, (bind_ok hrun).trans hrun', hexit⟩

theorem Meets.catching {P : F → S → Prop} {handler : E → Throwing S F A} (h : Meets c s Q R)
    (hhandler : ∀ e t, R e t → Meets (handler e) t Q P) : Meets (catching c handler) s Q P := by
  obtain ⟨⟨r, t⟩, hrun, hexit⟩ := h
  cases r with
  | ok a => exact ⟨(.ok a, t), catching_ok hrun, hexit⟩
  | error e =>
    obtain ⟨x, hrun', hexit'⟩ := hhandler e t hexit
    exact ⟨x, (catching_error hrun).trans hrun', hexit'⟩

end Rules

end HftExercises
