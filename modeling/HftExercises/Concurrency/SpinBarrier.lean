import Mathlib.Algebra.Ring.Nat
import HftExercises.Core.ThreadCount

/-! # The reusable spin barrier

A thread notes the generation, adds itself to `count_` and spins until the
generation moves; the thread that brings the count to `n_` clears it and then
moves the generation, in two separate stores. With exactly `n_` threads nobody
can be missing from a round that completes, so a note is never older than the
round it is about.
-/
namespace HftExercises.SpinBarrier
variable {T : Type*}

/-- Where a thread is, with the round it noted. The last arriver is at `reset`
before its first store and at `publish` before its second one. -/
inductive Control where
  | idle
  | arrive (round : ℕ)
  | reset (round : ℕ)
  | publish (round : ℕ)
  | spin (round : ℕ)
  deriving DecidableEq, Repr

structure System (T : Type*) where
  n : UInt64
  count : UInt64
  generation : ℕ
  control : T → Control

/-- The constructor throws on zero. -/
def System.init (n : UInt64) : Except String (System T) :=
  if n = 0 then .error "SpinBarrier size must be > 0"
  else .ok
    { n := n
      count := 0
      generation := 0
      control := fun _ => .idle }

inductive Action (T : Type*) where
  | wait (thread : T)
  | proceed (thread : T)
  deriving DecidableEq, Repr

def Action.thread : Action T → T
  | .wait t => t
  | .proceed t => t

/-- `advanced` is the store that moves the generation, with which the wait of the
last arriver returns; `passed` is the return of a thread that was spinning. -/
inductive StepResult where
  | running
  | arrived
  | advanced
  | passed
  deriving DecidableEq, Repr

def System.setControl [DecidableEq T] (s : System T) (t : T) (c : Control) : System T :=
  { s with control := Function.update s.control t c }

def System.step [DecidableEq T] (s : System T) : Action T → Option (StepResult × System T)
  | .wait t =>
    match s.control t with
    | .idle => some (.running, s.setControl t (.arrive s.generation))
    | _ => none
  | .proceed t =>
    match s.control t with
    | .idle => none
    | .arrive round =>
      let arrived := s.count + 1
      some (.arrived,
        { s.setControl t (if arrived = s.n then .reset round else .spin round) with count := arrived })
    | .reset round => some (.running, { s.setControl t (.publish round) with count := 0 })
    | .publish round => some (.advanced, { s.setControl t .idle with generation := round + 1 })
    | .spin round =>
      if s.generation = round then some (.running, s) else some (.passed, s.setControl t .idle)

abbrev StepEvent (T : Type*) := Event (System T) (Action T) StepResult

/-- How many times thread `t` has performed its `fetch_add`. -/
def arrivals [DecidableEq T] (t : T) (es : List (StepEvent T)) : ℕ :=
  es.countP fun e => decide (e.call.thread = t) && decide (e.result = .arrived)

/-- How many calls of `wait` thread `t` has returned from. -/
def returns [DecidableEq T] (t : T) (es : List (StepEvent T)) : ℕ :=
  es.countP fun e => decide (e.call.thread = t) &&
    (decide (e.result = .advanced) || decide (e.result = .passed))

/-- How many rounds are complete: their last arriver has done both stores. -/
def rounds (es : List (StepEvent T)) : ℕ :=
  es.countP fun e => decide (e.result = .advanced)

/-- The last arriver before it has finished its two stores. -/
def Control.closing : Control → Bool
  | .reset _ | .publish _ => true
  | _ => false

/-- A thread that has arrived in the round that generation `g` is about. -/
def Control.here (g : ℕ) : Control → Bool
  | .spin round => decide (round = g)
  | .reset _ | .publish _ => true
  | _ => false

/-- What a step can do. -/
inductive StepSpec [DecidableEq T] (s : System T) : T → StepResult → System T → Prop
  | begin {t : T} (ht : s.control t = .idle) :
      StepSpec s t .running (s.setControl t (.arrive s.generation))
  | last {t : T} {round : ℕ} (ht : s.control t = .arrive round) (hn : s.count + 1 = s.n) :
      StepSpec s t .arrived { s.setControl t (.reset round) with count := s.count + 1 }
  | join {t : T} {round : ℕ} (ht : s.control t = .arrive round) (hn : s.count + 1 ≠ s.n) :
      StepSpec s t .arrived { s.setControl t (.spin round) with count := s.count + 1 }
  | clear {t : T} {round : ℕ} (ht : s.control t = .reset round) :
      StepSpec s t .running { s.setControl t (.publish round) with count := 0 }
  | advance {t : T} {round : ℕ} (ht : s.control t = .publish round) :
      StepSpec s t .advanced { s.setControl t .idle with generation := round + 1 }
  | spin {t : T} {round : ℕ} (ht : s.control t = .spin round) : StepSpec s t .running s
  | pass {t : T} {round : ℕ} (ht : s.control t = .spin round) (hg : s.generation ≠ round) :
      StepSpec s t .passed (s.setControl t .idle)

theorem System.step_spec [DecidableEq T] {s s' : System T} {a : Action T} {r : StepResult}
    (h : s.step a = some (r, s')) : StepSpec s a.thread r s' := by
  cases a with
  | wait t =>
    simp only [System.step] at h
    split at h
    · rename_i ht
      cases h
      exact .begin ht
    · cases h
  | proceed t =>
    simp only [System.step] at h
    split at h
    · cases h
    · rename_i round ht
      split_ifs at h with hn
      · cases h
        exact .last ht hn
      · cases h
        exact .join ht hn
    · rename_i round ht
      cases h
      exact .clear ht
    · rename_i round ht
      cases h
      exact .advance ht
    · rename_i round ht
      split_ifs at h with hg
      · cases h
        exact .spin ht
      · cases h
        exact .pass ht hg

/-- What a thread has done, by where it is: a thread that is not spinning in a
finished round is in the round of the current generation. -/
def Control.Placed (g arrived returned : ℕ) : Control → Prop
  | .idle => arrived = g ∧ returned = g
  | .arrive round => round = g ∧ arrived = g ∧ returned = g
  | .reset round => round = g ∧ arrived = g + 1 ∧ returned = g
  | .publish round => round = g ∧ arrived = g + 1 ∧ returned = g
  | .spin round => arrived = round + 1 ∧ returned = round ∧ (g = round ∨ g = round + 1)

/-- The round is still open, or its last arriver is before its first or its
second store and everybody else spins. -/
inductive Phase [Fintype T] (s : System T) : Prop
  | gathering (hopen : ∀ t, (s.control t).closing = false)
      (hcount : s.count.toNat = countAt (Control.here s.generation) s.control)
      (hlt : s.count.toNat < s.n.toNat)
  | full (t : T) (ht : s.control t = .reset s.generation)
      (hothers : ∀ u, u ≠ t → s.control u = .spin s.generation) (hcount : s.count = s.n)
  | cleared (t : T) (ht : s.control t = .publish s.generation)
      (hothers : ∀ u, u ≠ t → s.control u = .spin s.generation) (hcount : s.count = 0)

structure BarrierInv [Fintype T] [DecidableEq T] (n : UInt64) (es : List (StepEvent T))
    (s : System T) : Prop where
  size : s.n = n
  completed : s.generation = rounds es
  placed : ∀ t, (s.control t).Placed s.generation (arrivals t es) (returns t es)
  phase : Phase s

section History
variable [DecidableEq T] {t u : T} {es : List (StepEvent T)} {e : StepEvent T}

theorem arrivals_append_other (h : e.call.thread ≠ t) : arrivals t (es ++ [e]) = arrivals t es := by
  simp [arrivals, h]

theorem returns_append_other (h : e.call.thread ≠ t) : returns t (es ++ [e]) = returns t es := by
  simp [returns, h]

theorem arrivals_append_self (es : List (StepEvent T)) (h : e.call.thread = t) :
    arrivals t (es ++ [e]) = arrivals t es + if e.result = .arrived then 1 else 0 := by
  simp [arrivals, h]

theorem returns_append_self (es : List (StepEvent T)) (h : e.call.thread = t) :
    returns t (es ++ [e]) =
      returns t es + if e.result = .advanced ∨ e.result = .passed then 1 else 0 := by
  simp [returns, h]

omit [DecidableEq T] in
theorem rounds_append (es : List (StepEvent T)) (e : StepEvent T) :
    rounds (es ++ [e]) = rounds es + if e.result = .advanced then 1 else 0 := by
  simp [rounds]

/-- Only the thread that moves changes its place and its history. -/
theorem placed_update {control : T → Control} {g : ℕ} {c : Control} (he : e.call.thread = t)
    (hself : c.Placed g (arrivals t (es ++ [e])) (returns t (es ++ [e])))
    (hothers : ∀ u, u ≠ t → (control u).Placed g (arrivals u es) (returns u es)) (u : T) :
    (Function.update control t c u).Placed g (arrivals u (es ++ [e])) (returns u (es ++ [e])) := by
  by_cases heq : u = t
  · subst heq
    rwa [Function.update_self]
  · have hne : e.call.thread ≠ u := fun h => heq (h.symm.trans he)
    rw [Function.update_of_ne heq, arrivals_append_other hne, returns_append_other hne]
    exact hothers u heq

end History

section Rounds
variable [Fintype T] {s s' : System T} {t : T} {round : ℕ}

/-- Before the last arriver is in, a thread that is not at its stores finds the round open. -/
theorem Phase.gathering_of (h : Phase s) (hclosing : (s.control t).closing = false)
    (hspin : s.control t ≠ .spin s.generation) :
    (∀ u, (s.control u).closing = false) ∧
      s.count.toNat = countAt (Control.here s.generation) s.control ∧
      s.count.toNat < s.n.toNat := by
  cases h with
  | gathering hopen hcount hlt => exact ⟨hopen, hcount, hlt⟩
  | full u hu hothers _ =>
    exfalso
    by_cases heq : t = u
    · rw [heq, hu] at hclosing
      cases hclosing
    · exact hspin (hothers t heq)
  | cleared u hu hothers _ =>
    exfalso
    by_cases heq : t = u
    · rw [heq, hu] at hclosing
      cases hclosing
    · exact hspin (hothers t heq)

theorem Phase.full_of (h : Phase s) (ht : s.control t = .reset round) :
    round = s.generation ∧ (∀ u, u ≠ t → s.control u = .spin s.generation) ∧ s.count = s.n := by
  cases h with
  | gathering hopen _ _ =>
    have hfalse := hopen t
    rw [ht] at hfalse
    cases hfalse
  | full u hu hothers hcount =>
    by_cases heq : t = u
    · subst heq
      rw [ht] at hu
      cases hu
      exact ⟨rfl, hothers, hcount⟩
    · have hspin := hothers t heq
      rw [ht] at hspin
      cases hspin
  | cleared u hu hothers _ =>
    by_cases heq : t = u
    · rw [← heq, ht] at hu
      cases hu
    · have hspin := hothers t heq
      rw [ht] at hspin
      cases hspin

theorem Phase.cleared_of (h : Phase s) (ht : s.control t = .publish round) :
    round = s.generation ∧ (∀ u, u ≠ t → s.control u = .spin s.generation) ∧ s.count = 0 := by
  cases h with
  | gathering hopen _ _ =>
    have hfalse := hopen t
    rw [ht] at hfalse
    cases hfalse
  | full u hu hothers _ =>
    by_cases heq : t = u
    · rw [← heq, ht] at hu
      cases hu
    · have hspin := hothers t heq
      rw [ht] at hspin
      cases hspin
  | cleared u hu hothers hcount =>
    by_cases heq : t = u
    · subst heq
      rw [ht] at hu
      cases hu
      exact ⟨rfl, hothers, hcount⟩
    · have hspin := hothers t heq
      rw [ht] at hspin
      cases hspin

theorem Phase.count_le (h : Phase s) : s.count.toNat ≤ s.n.toNat := by
  cases h with
  | gathering _ _ hlt => exact hlt.le
  | full _ _ _ hcount => rw [hcount]
  | cleared _ _ _ hcount =>
    rw [hcount]
    exact Nat.zero_le _

/-- The count never wraps: an arriver finds fewer than `n_` threads in. -/
theorem Phase.toNat_arrive (h : Phase s) (ht : s.control t = .arrive round) :
    (s.count + 1).toNat = s.count.toNat + 1 := by
  obtain ⟨_, _, hlt⟩ := h.gathering_of (t := t) (by rw [ht]; rfl) (by rw [ht]; exact nofun)
  have hn := s.n.toNat_lt
  rw [UInt64.toNat_add, UInt64.toNat_one, Nat.mod_eq_of_lt (by omega)]

variable [DecidableEq T]

/-- A move outside the count leaves an open round open. -/
theorem Phase.setControl (h : Phase s) {c : Control} (hs : (s.control t).closing = false)
    (hspin : s.control t ≠ .spin s.generation)
    (hhere : (s.control t).here s.generation = false) (hc : c.closing = false)
    (hchere : c.here s.generation = false) : Phase (s.setControl t c) := by
  obtain ⟨hopen, hcount, hlt⟩ := h.gathering_of hs hspin
  refine .gathering ?_ ?_ hlt
  · exact update_forall (fun c => Control.closing c = false) hopen hc
  · exact hcount.trans (countAt_update_same (by rw [hchere, hhere])).symm

theorem Phase.join (h : Phase s) (ht : s.control t = .arrive s.generation)
    (hn : s.count + 1 ≠ s.n) :
    Phase { s.setControl t (.spin s.generation) with count := s.count + 1 } := by
  have hnat := h.toNat_arrive ht
  obtain ⟨hopen, hcount, hlt⟩ := h.gathering_of (t := t) (by rw [ht]; rfl) (by rw [ht]; exact nofun)
  have hne : (s.count + 1).toNat ≠ s.n.toNat := fun he => hn (UInt64.toNat_inj.mp he)
  refine .gathering ?_ ?_ ?_
  · exact update_forall (fun c => Control.closing c = false) hopen rfl
  · have henter : countAt (Control.here s.generation)
        (Function.update s.control t (.spin s.generation)) =
        countAt (Control.here s.generation) s.control + 1 :=
      countAt_update_enter (by rw [ht]; rfl) (by simp [Control.here])
    change (s.count + 1).toNat = countAt (Control.here s.generation)
      (Function.update s.control t (.spin s.generation))
    rw [hnat, henter, hcount]
  · change (s.count + 1).toNat < s.n.toNat
    omega

/-- With the last arriver every thread is in, so all the others spin. -/
theorem Phase.last (h : Phase s) (hcard : Fintype.card T = s.n.toNat)
    (ht : s.control t = .arrive s.generation) (hn : s.count + 1 = s.n) :
    Phase { s.setControl t (.reset s.generation) with count := s.count + 1 } := by
  have hnat := h.toNat_arrive ht
  obtain ⟨hopen, hcount, _⟩ := h.gathering_of (t := t) (by rw [ht]; rfl) (by rw [ht]; exact nofun)
  have henter : countAt (Control.here s.generation)
      (Function.update s.control t (.reset s.generation)) =
      countAt (Control.here s.generation) s.control + 1 :=
    countAt_update_enter (by rw [ht]; rfl) rfl
  have hall : countAt (Control.here s.generation)
      (Function.update s.control t (.reset s.generation)) = Fintype.card T := by
    rw [henter, ← hcount, ← hnat, hn, hcard]
  refine .full t (Function.update_self _ _ _) ?_ hn
  intro u hu
  change Function.update s.control t (.reset s.generation) u = .spin s.generation
  have hhere := countAt_eq_card.mp hall u
  rw [Function.update_of_ne hu] at hhere ⊢
  have hclosing := hopen u
  cases hc : s.control u with
  | idle => rw [hc] at hhere; cases hhere
  | arrive round => rw [hc] at hhere; cases hhere
  | reset round => rw [hc] at hclosing; cases hclosing
  | publish round => rw [hc] at hclosing; cases hclosing
  | spin round =>
    rw [hc] at hhere
    rw [show round = s.generation by simpa [Control.here] using hhere]

/-- The next round starts with nobody in. -/
theorem Phase.advance (h : Phase s) (hpos : 0 < s.n.toNat) (ht : s.control t = .publish round) :
    Phase { s.setControl t .idle with generation := round + 1 } := by
  obtain ⟨rfl, hothers, hcount⟩ := h.cleared_of ht
  have hempty : ∀ u, (Function.update s.control t .idle u).closing = false ∧
      (Function.update s.control t .idle u).here (s.generation + 1) = false := by
    intro u
    by_cases hu : u = t
    · subst hu
      rw [Function.update_self]
      exact ⟨rfl, rfl⟩
    · rw [Function.update_of_ne hu, hothers u hu]
      exact ⟨rfl, by simp [Control.here]⟩
  refine .gathering (fun u => (hempty u).1) ?_ ?_
  · change s.count.toNat = countAt (Control.here (s.generation + 1)) (Function.update s.control t .idle)
    rw [hcount, countAt_eq_zero.mpr fun u => (hempty u).2]
    rfl
  · change s.count.toNat < s.n.toNat
    rw [hcount]
    exact hpos

end Rounds

section Invariant
variable [Fintype T] [DecidableEq T] {n : UInt64} {s s₀ s' : System T} {a : Action T}
variable {r : StepResult} {es : List (StepEvent T)}

theorem barrierInv_init (h : System.init n = .ok s₀) : BarrierInv n [] s₀ := by
  unfold System.init at h
  split_ifs at h with hn
  cases h
  refine ⟨rfl, rfl, fun _ => ⟨rfl, rfl⟩, .gathering (fun _ => rfl) ?_ ?_⟩
  · exact (countAt_const (T := T) (c := Control.idle) rfl).symm
  · exact Nat.pos_of_ne_zero fun hzero => hn (UInt64.toNat_inj.mp hzero)

theorem BarrierInv.step (h : BarrierInv n es s) (hcard : Fintype.card T = n.toNat)
    (hs : StepSpec s a.thread r s') : BarrierInv n (es ++ [⟨s, a, r⟩]) s' := by
  obtain ⟨rfl, hcompleted, hplaced, hphase⟩ := h
  have hself := hplaced a.thread
  have harrive := arrivals_append_self es (e := ⟨s, a, r⟩) (t := a.thread) rfl
  have hreturn := returns_append_self es (e := ⟨s, a, r⟩) (t := a.thread) rfl
  have hround := rounds_append es ⟨s, a, r⟩
  cases hs with
  | begin ht =>
    rw [ht] at hself
    refine ⟨rfl, hcompleted.trans hround.symm, ?_, ?_⟩
    · exact placed_update rfl ⟨rfl, harrive.trans hself.1, hreturn.trans hself.2⟩
        fun u _ => hplaced u
    · exact hphase.setControl (by rw [ht]; rfl) (by rw [ht]; exact nofun) (by rw [ht]; rfl) rfl rfl
  | @last round ht hn =>
    rw [ht] at hself
    obtain ⟨rfl, harr, hret⟩ := hself
    refine ⟨rfl, hcompleted.trans hround.symm, ?_, hphase.last hcard ht hn⟩
    exact placed_update rfl ⟨rfl, by rw [harrive, harr]; rfl, hreturn.trans hret⟩
      fun u _ => hplaced u
  | @join round ht hn =>
    rw [ht] at hself
    obtain ⟨rfl, harr, hret⟩ := hself
    refine ⟨rfl, hcompleted.trans hround.symm, ?_, hphase.join ht hn⟩
    exact placed_update rfl ⟨by rw [harrive, harr]; rfl, hreturn.trans hret, Or.inl rfl⟩
      fun u _ => hplaced u
  | clear ht =>
    rw [ht] at hself
    obtain ⟨rfl, hothers, _⟩ := hphase.full_of ht
    refine ⟨rfl, hcompleted.trans hround.symm, ?_, ?_⟩
    · exact placed_update rfl ⟨rfl, harrive.trans hself.2.1, hreturn.trans hself.2.2⟩
        fun u _ => hplaced u
    · refine .cleared a.thread (Function.update_self _ _ _) ?_ rfl
      intro u hu
      exact (Function.update_of_ne hu _ _).trans (hothers u hu)
  | advance ht =>
    rw [ht] at hself
    obtain ⟨rfl, hothers, _⟩ := hphase.cleared_of ht
    have hpos : 0 < s.n.toNat := hcard ▸ Fintype.card_pos_iff.mpr ⟨a.thread⟩
    refine ⟨rfl, ?_, ?_, hphase.advance hpos ht⟩
    · rw [hround, ← hcompleted]
      rfl
    · refine placed_update rfl ⟨harrive.trans hself.2.1, by rw [hreturn, hself.2.2]; rfl⟩ ?_
      -- everybody else spins on the generation that has just moved
      intro u hu
      have hspin := hplaced u
      rw [hothers u hu] at hspin ⊢
      exact ⟨hspin.1, hspin.2.1, Or.inr rfl⟩
  | spin ht =>
    refine ⟨rfl, hcompleted.trans hround.symm, ?_, hphase⟩
    have hsame := placed_update (c := s.control a.thread) (e := ⟨s, a, .running⟩) rfl
      (by rw [harrive, hreturn]; exact hself) fun u _ => hplaced u
    rwa [Function.update_eq_self] at hsame
  | @pass round ht hg =>
    rw [ht] at hself
    obtain ⟨harr, hret, hgen⟩ := hself
    have hnext : s.generation = round + 1 := by omega
    refine ⟨rfl, hcompleted.trans hround.symm, ?_, ?_⟩
    · refine placed_update rfl ⟨?_, ?_⟩ fun u _ => hplaced u
      · exact harrive.trans (harr.trans hnext.symm)
      · change _ = s.generation
        rw [hreturn, hret, hnext]
        rfl
    · refine hphase.setControl ?_ ?_ ?_ rfl rfl
      · rw [ht]
        rfl
      · rw [ht]
        exact fun he => hg (Control.spin.inj he).symm
      · rw [ht]
        simpa [Control.here] using fun he => hg he.symm

theorem Control.Placed.bounds {c : Control} {g arrived returned : ℕ}
    (h : c.Placed g arrived returned) : returned ≤ g ∧ g ≤ arrived := by
  cases c with
  | idle => exact ⟨h.2.le, h.1.ge⟩
  | arrive round => exact ⟨h.2.2.le, h.2.1.ge⟩
  | reset round => exact ⟨h.2.2.le, by have := h.2.1; omega⟩
  | publish round => exact ⟨h.2.2.le, by have := h.2.1; omega⟩
  | spin round =>
    obtain ⟨harr, hret, hgen⟩ := h
    omega

/-- A thread that has arrived beyond the generation is in the open round. -/
theorem Control.Placed.here_of_lt {c : Control} {g arrived returned : ℕ}
    (h : c.Placed g arrived returned) (hlt : g < arrived) : c.here g = true := by
  cases c with
  | idle => exact absurd h.1 (by omega)
  | arrive round => exact absurd h.2.1 (by omega)
  | reset round => rfl
  | publish round => rfl
  | spin round =>
    obtain ⟨harr, _, hgen⟩ := h
    simp only [Control.here, decide_eq_true_eq]
    omega

theorem Control.Placed.arrived_of_closing {c : Control} {g arrived returned : ℕ}
    (h : c.Placed g arrived returned) (hc : c.closing = true) : arrived = g + 1 := by
  cases c with
  | idle => cases hc
  | arrive round => cases hc
  | reset round => exact h.2.1
  | publish round => exact h.2.1
  | spin round => cases hc

/-- When everybody is in and the last arriver is done, the generation has moved. -/
theorem BarrierInv.moved (h : BarrierInv n es s) (hcard : Fintype.card T = n.toNat) {k : ℕ}
    (hall : ∀ t, k ≤ arrivals t es)
    (hdone : ∀ t, arrivals t es = k → (s.control t).closing = false) {t : T} {round : ℕ}
    (hk : arrivals t es = k) (ht : s.control t = .spin round) : s.generation ≠ round := by
  intro hgen
  have hspin := h.placed t
  rw [ht] at hspin
  have hround : k = s.generation + 1 := by rw [← hk, hspin.1, hgen]
  have hnone : ∀ u, (s.control u).closing ≠ true := by
    intro u hu
    have hfalse := hdone u (((h.placed u).arrived_of_closing hu).trans hround.symm)
    rw [hu] at hfalse
    cases hfalse
  cases h.phase with
  | gathering _ hcount hlt =>
    have hfull : countAt (Control.here s.generation) s.control = Fintype.card T := by
      refine countAt_eq_card.mpr fun u => (h.placed u).here_of_lt ?_
      have hle := hall u
      omega
    rw [hcount, hfull, hcard, h.size] at hlt
    exact lt_irrefl _ hlt
  | full u hu _ _ => exact hnone u (by rw [hu]; rfl)
  | cleared u hu _ _ => exact hnone u (by rw [hu]; rfl)

/-- With exactly `n_` threads: nobody returns from a wait before everybody has
arrived for it, the count stays within `n_`, the generation is the number of
complete rounds, and once the last arriver of a round is done every thread that
still spins in it sees another generation than the one it noted. -/
theorem spinBarrier_rounds (hcard : Fintype.card T = n.toNat) (h₀ : System.init n = .ok s₀)
    {actions : List (Action T)} (h : exec System.step s₀ actions = some (es, s)) :
    (∀ t u, returns t es ≤ arrivals u es) ∧ s.count.toNat ≤ n.toNat ∧
    s.generation = rounds es ∧
    ∀ k, (∀ t, k ≤ arrivals t es) → (∀ t, arrivals t es = k → (s.control t).closing = false) →
      ∀ t round, arrivals t es = k → s.control t = .spin round → s.generation ≠ round := by
  have hinv : BarrierInv n es s := exec_invariant (BarrierInv n)
    (fun _ _ _ _ _ hinv hstep => hinv.step hcard (System.step_spec hstep)) (barrierInv_init h₀) h
  refine ⟨?_, ?_, hinv.completed, ?_⟩
  · intro t u
    exact (hinv.placed t).bounds.1.trans (hinv.placed u).bounds.2
  · exact hinv.size ▸ hinv.phase.count_le
  · intro k hall hdone t round hk ht
    exact hinv.moved hcard hall hdone hk ht

end Invariant

/-- Two threads: the first spins, the second arrives last and does both stores,
and is in its next wait while the first has not looked again. -/
def lapping : List (Action (Fin 2)) :=
  [.wait 0, .wait 1, .proceed 0, .proceed 0, .proceed 1, .proceed 1, .proceed 1, .wait 1,
    .proceed 1]

theorem spinBarrier_rounds_lapping :
    ∃ s₀ es s, System.init 2 = .ok s₀ ∧ exec System.step s₀ lapping = some (es, s) ∧
      s.control 0 = .spin 0 ∧ s.control 1 = .spin 1 ∧ s.generation = rounds es ∧
      s.generation = 1 := by
  let s₀ : System (Fin 2) := ⟨2, 0, 0, fun _ => .idle⟩
  have hinit : System.init 2 = .ok s₀ := rfl
  have hrun : exec System.step s₀ lapping = some (_, _) := rfl
  exact ⟨_, _, _, hinit, hrun, rfl, rfl, (spinBarrier_rounds rfl hinit hrun).2.2.1, rfl⟩

end HftExercises.SpinBarrier
