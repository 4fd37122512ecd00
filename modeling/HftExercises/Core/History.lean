import HftExercises.Core.Execution

/-! # Calls allowed by what the calls before them returned

A caller may only hand back what it was given. What a call may be then depends on the
answers to the calls before it, and these on the run that made them.
-/
namespace HftExercises
variable {σ ι ο : Type*}

/-- Allowed after the calls before it, by the events that these were and the state they led to. -/
def AllowedAfter (step : σ → ι → Option (ο × σ)) (s : σ)
    (Pre : List (Event σ ι ο) → σ → ι → Prop) (l : List ι) (i : ι) : Prop :=
  ∀ es t, exec step s l = some (es, t) → Pre es t i

variable {step : σ → ι → Option (ο × σ)} {Pre : List (Event σ ι ο) → σ → ι → Prop}
variable {s t : σ} {calls : List ι} {es : List (Event σ ι ο)}

theorem allowedAfter_of_exec {i : ι} (h : exec step s calls = some (es, t)) (hi : Pre es t i) :
    AllowedAfter step s Pre calls i := by
  intro es' t' hrun
  rw [h] at hrun
  cases hrun
  exact hi

/-- No allowed call faults when each of them keeps the invariant. -/
theorem exec_allowed_total (P : List (Event σ ι ο) → σ → Prop)
    (hstep : ∀ h s i, P h s → Pre h s i → ∃ o s', step s i = some (o, s') ∧ P (h ++ [⟨s, i, o⟩]) s')
    (h₀ : P [] s) (hc : Admissible (AllowedAfter step s Pre) calls) :
    ∃ es t, exec step s calls = some (es, t) ∧ P es t := by
  have hkept : ∀ h u i, exec step s (h.map Event.call) = some (h, u) ∧ P h u →
      AllowedAfter step s Pre (h.map Event.call) i → ∃ o u', step u i = some (o, u') ∧
        exec step s ((h ++ [⟨u, i, o⟩] : List (Event σ ι ο)).map Event.call) =
          some (h ++ [⟨u, i, o⟩], u') ∧ P (h ++ [⟨u, i, o⟩]) u' := by
    rintro h u i ⟨hrun, hp⟩ hpre
    obtain ⟨o, u', hs, hp'⟩ := hstep h u i hp (hpre h u hrun)
    refine ⟨o, u', hs, ?_, hp'⟩
    rw [List.map_append]
    exact exec_snoc hrun hs
  obtain ⟨es, t, hrun, -, hp⟩ := exec_total (fun h u => exec step s (h.map Event.call) = some (h, u) ∧
    P h u) hkept ⟨rfl, h₀⟩ hc
  exact ⟨es, t, hrun, hp⟩

/-- What the allowed calls keep holds at the end of a run that did not fault. -/
theorem exec_allowed_invariant (P : List (Event σ ι ο) → σ → Prop)
    (hstep : ∀ h s i o s', P h s → Pre h s i → step s i = some (o, s') → P (h ++ [⟨s, i, o⟩]) s')
    (h₀ : P [] s) (hc : Admissible (AllowedAfter step s Pre) calls)
    (hrun : exec step s calls = some (es, t)) : P es t := by
  have hcalls := exec_calls hrun
  refine (exec_invariant (fun es t => exec step s (es.map Event.call) = some (es, t) ∧
    (Admissible (AllowedAfter step s Pre) (es.map Event.call) → P es t)) ?_ ⟨rfl, fun _ => h₀⟩
    hrun).2 (hcalls ▸ hc)
  rintro h u i o u' ⟨hexec, hp⟩ hs
  rw [List.map_append]
  refine ⟨exec_snoc hexec hs, fun hadm => ?_⟩
  obtain ⟨hadm, hi⟩ := admissible_append_singleton.mp hadm
  exact hstep h u i o u' (hp hadm) (hi h u hexec) hs

end HftExercises
