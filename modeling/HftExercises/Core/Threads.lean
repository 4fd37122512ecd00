import Mathlib.Logic.Function.Basic
import HftExercises.Core.Execution

/-! # Threads that share atomic words

A step of a thread is one atomic access with the local work that follows it. The
weak compare-exchange may fail for no reason. The steps of a thread since it last
started a call are what that call has done so far.
-/
namespace HftExercises
variable {σ ι ο T α : Type*}

/-- The new value of the word when the exchange succeeds. -/
def compareExchangeWeak [DecidableEq α] (current expected desired : α) (spurious : Bool) :
    Option α :=
  if current = expected ∧ spurious = false then some desired else none

theorem compareExchangeWeak_eq_some [DecidableEq α] {current expected desired new : α}
    {spurious : Bool} (h : compareExchangeWeak current expected desired spurious = some new) :
    current = expected ∧ new = desired := by
  unfold compareExchangeWeak at h
  split_ifs at h with hc
  cases h
  exact ⟨hc.1, rfl⟩

/-- Newest first, the steps thread `t` made since and including its last start. -/
def callSteps [DecidableEq T] (thread : ι → T) (starts : ι → Bool) (t : T) :
    List (Event σ ι ο) → List (Event σ ι ο) :=
  List.foldl (fun steps e =>
    if thread e.call = t then (if starts e.call then [e] else e :: steps) else steps) []

/-- How thread `t` started the call it is in, or has just finished. -/
def callStart [DecidableEq T] (thread : ι → T) (starts : ι → Bool) (t : T)
    (es : List (Event σ ι ο)) : Option ι :=
  (callSteps thread starts t es).getLast?.map Event.call

section CallSteps
variable [DecidableEq T] {thread : ι → T} {starts : ι → Bool} {t : T}
variable {es : List (Event σ ι ο)} {e : Event σ ι ο}

theorem callSteps_append_other (h : thread e.call ≠ t) :
    callSteps thread starts t (es ++ [e]) = callSteps thread starts t es := by
  simp [callSteps, h]

theorem callSteps_append_start (h : thread e.call = t) (hs : starts e.call = true) :
    callSteps thread starts t (es ++ [e]) = [e] := by
  simp [callSteps, h, hs]

theorem callSteps_append_next (h : thread e.call = t) (hs : starts e.call = false) :
    callSteps thread starts t (es ++ [e]) = e :: callSteps thread starts t es := by
  simp [callSteps, h, hs]

theorem callStart_append_other (h : thread e.call ≠ t) :
    callStart thread starts t (es ++ [e]) = callStart thread starts t es := by
  unfold callStart
  rw [callSteps_append_other h]

theorem callStart_append_start (h : thread e.call = t) (hs : starts e.call = true) :
    callStart thread starts t (es ++ [e]) = some e.call := by
  unfold callStart
  rw [callSteps_append_start h hs]
  rfl

theorem callStart_append_next (h : thread e.call = t) (hs : starts e.call = false) {a : ι}
    (ha : callStart thread starts t es = some a) :
    callStart thread starts t (es ++ [e]) = some a := by
  unfold callStart at *
  rw [callSteps_append_next h hs]
  cases hsteps : callSteps thread starts t es with
  | nil => simp [hsteps] at ha
  | cons x rest =>
    rw [List.getLast?_cons_cons, ← hsteps]
    exact ha

end CallSteps
end HftExercises
