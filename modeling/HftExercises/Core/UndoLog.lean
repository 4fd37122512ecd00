import Mathlib.Tactic.SplitIfs

/-! # Commands that can be taken back

A command acts on a receiver and captures in itself what its undo needs. The
law asks for no more than one command on one state; that a log of such commands
tells how the receiver came about follows, and is kept when the last command is
undone.
-/
namespace HftExercises
variable {σ γ : Type*}

structure Undoable (σ γ : Type*) where
  execute : γ → σ → Bool × γ × σ
  undo : γ → σ → γ × σ
  /-- A refused command leaves the receiver alone. An executed one has captured what
  its undo needs, and what it had captured before does not matter to its execution. -/
  law : ∀ c s, ((execute c s).1 = false ∧ (execute c s).2.2 = s) ∨
    ∃ c' s', execute c s = (true, c', s') ∧ (undo c' s').2 = s ∧ execute c' s = (true, c', s')

namespace Undoable
variable (u : Undoable σ γ)

theorem refused {c : γ} {s : σ} (h : (u.execute c s).1 = false) : (u.execute c s).2.2 = s := by
  rcases u.law c s with ⟨_, hs⟩ | ⟨c', s', he, _⟩
  · exact hs
  · simp [he] at h

theorem executed {c : γ} {s : σ} (h : (u.execute c s).1 = true) :
    (u.undo (u.execute c s).2.1 (u.execute c s).2.2).2 = s ∧
      u.execute (u.execute c s).2.1 s = u.execute c s := by
  rcases u.law c s with ⟨hf, _⟩ | ⟨c', s', he, hundo, hagain⟩
  · simp [hf] at h
  · rw [he]
    exact ⟨hundo, hagain⟩

/-- The receiver after the commands have been executed in order, each with success. -/
def executeAll : List γ → σ → Option σ
  | [], s => some s
  | c :: cs, s => if (u.execute c s).1 then executeAll cs (u.execute c s).2.2 else none

theorem executeAll_append (cs ds : List γ) (s : σ) :
    u.executeAll (cs ++ ds) s = (u.executeAll cs s).bind (u.executeAll ds) := by
  induction cs generalizing s with
  | nil => rfl
  | cons c cs ih =>
    simp only [List.cons_append, executeAll]
    split_ifs with hc
    · exact ih _
    · rfl

/-- The log tells how the receiver came about, and each command in it has captured
the state it was executed in. -/
inductive Logged (s₀ : σ) : List γ → σ → Prop
  | nil : Logged s₀ [] s₀
  | snoc {log : List γ} {s : σ} {c : γ} (h : Logged s₀ log s) (hc : (u.execute c s).1 = true) :
      Logged s₀ (log ++ [(u.execute c s).2.1]) (u.execute c s).2.2

variable {u} {s₀ s : σ} {log : List γ}

theorem Logged.executeAll_eq (h : u.Logged s₀ log s) : u.executeAll log s₀ = some s := by
  induction h with
  | nil => rfl
  | snoc h hc ih =>
    rw [executeAll_append, ih, Option.bind_some, executeAll, (u.executed hc).2, if_pos hc]
    rfl

theorem Logged.eq_of_nil (h : u.Logged s₀ [] s) : s = s₀ := by
  simpa [executeAll] using h.executeAll_eq.symm

theorem Logged.undo_last {c : γ} (h : u.Logged s₀ (log ++ [c]) s) :
    u.Logged s₀ log (u.undo c s).2 := by
  generalize hl : log ++ [c] = l at h
  cases h with
  | nil => simp at hl
  | snoc h hc =>
    obtain ⟨rfl, hlast⟩ := List.append_inj' hl rfl
    cases hlast
    rwa [(u.executed hc).1]

end Undoable
end HftExercises
