import Mathlib.Algebra.Ring.Nat
import Mathlib.Data.Fintype.Option
import HftExercises.Core.Monitor
import HftExercises.Core.ThreadCount

/-! # The counting semaphore

`n_` tokens under a mutex, with a condition variable for the threads that find
none. Taking and giving the mutex are steps of their own, and so is the
notification of a release, which comes after the mutex is free again. What a
critical section does with `n_` is one step: nobody else can look in between. An
acquire that was not waiting may take the token before the thread that was woken
for it.
-/
namespace HftExercises.Semaphore
variable {T : Type*}

/-- Where a thread is. `acquireWait` is inside `cv_.wait`, asleep or on its way
back to the mutex. -/
inductive Control where
  | idle
  | acquireLock
  | acquireCheck
  | acquireWait
  | acquireUnlock
  | tryLock
  | tryCheck
  | tryUnlock (ok : Bool)
  | releaseLock
  | releaseAdd
  | releaseUnlock
  | releaseNotify
  | countLock
  | countRead
  | countUnlock (n : UInt64)
  deriving DecidableEq, Repr

structure System (T : Type*) where
  n : UInt64
  monitor : Monitor T
  control : T → Control

def System.init (initial : UInt64) : System T where
  n := initial
  monitor := .init
  control := fun _ => .idle

/-- `wake` is a spurious wake-up; the choice of `proceed` is the sleeper that a
`notify_one` wakes. -/
inductive Action (T : Type*) where
  | acquire (thread : T)
  | tryAcquire (thread : T)
  | release (thread : T)
  | count (thread : T)
  | wake (thread : T)
  | proceed (thread : T) (choice : Option T)
  deriving DecidableEq

/-- `added` is the increment of `n_` and `taken` its decrement. -/
inductive StepResult where
  | running
  | added
  | taken
  | acquired
  | tried (ok : Bool)
  | released
  | counted (n : UInt64)
  deriving DecidableEq, Repr

def System.setControl [DecidableEq T] (s : System T) (t : T) (c : Control) : System T :=
  { s with control := Function.update s.control t c }

/-- Start a call. -/
def System.begin [DecidableEq T] (s : System T) (t : T) (c : Control) :
    Option (StepResult × System T) :=
  match s.control t with
  | .idle => some (.running, s.setControl t c)
  | _ => none

/-- Move with the mutex taken or left as the monitor says. -/
def System.move [DecidableEq T] (s : System T) (t : T) (c : Control) (r : StepResult)
    (m : Monitor T) : StepResult × System T :=
  (r, { s.setControl t c with monitor := m })

def System.step [DecidableEq T] (s : System T) : Action T → Option (StepResult × System T)
  | .acquire t => s.begin t .acquireLock
  | .tryAcquire t => s.begin t .tryLock
  | .release t => s.begin t .releaseLock
  | .count t => s.begin t .countLock
  | .wake t => (s.monitor.stir t).map fun m => (.running, { s with monitor := m })
  | .proceed t choice =>
    match s.control t with
    | .idle => none
    | .acquireLock => (s.monitor.lock t).map (s.move t .acquireCheck .running)
    | .acquireCheck =>
      if 0 < s.n then
        some (.taken, { s.setControl t .acquireUnlock with
          n := s.n - 1
          monitor := s.monitor.checked t })
      else some (s.move t .acquireWait .running (s.monitor.sleep t))
    | .acquireWait => (s.monitor.relock t).map (s.move t .acquireCheck .running)
    | .acquireUnlock => some (s.move t .idle .acquired s.monitor.unlock)
    | .tryLock => (s.monitor.lock t).map (s.move t .tryCheck .running)
    | .tryCheck =>
      if s.n = 0 then some (.running, s.setControl t (.tryUnlock false))
      else some (.taken, { s.setControl t (.tryUnlock true) with n := s.n - 1 })
    | .tryUnlock ok => some (s.move t .idle (.tried ok) s.monitor.unlock)
    | .releaseLock => (s.monitor.lock t).map (s.move t .releaseAdd .running)
    | .releaseAdd => some (.added, { s.setControl t .releaseUnlock with n := s.n + 1 })
    | .releaseUnlock => some (s.move t .releaseNotify .running s.monitor.unlock)
    | .releaseNotify => (s.monitor.notifyOne choice).map (s.move t .idle .released)
    | .countLock => (s.monitor.lock t).map (s.move t .countRead .running)
    | .countRead => some (.running, s.setControl t (.countUnlock s.n))
    | .countUnlock n => some (s.move t .idle (.counted n) s.monitor.unlock)

abbrev StepEvent (T : Type*) := Event (System T) (Action T) StepResult

/-- How many releases have incremented `n_`. -/
def releases (es : List (StepEvent T)) : ℕ :=
  es.countP fun e => decide (e.result = .added)

/-- How many acquires, and tries that succeed, have decremented `n_`. -/
def acquires (es : List (StepEvent T)) : ℕ :=
  es.countP fun e => decide (e.result = .taken)

/-- A release between its increment and its notification. -/
def Control.pending : Control → Bool
  | .releaseUnlock | .releaseNotify => true
  | _ => false

/-- A token is there, somebody sleeps, and nobody is left to wake a sleeper or to
look again. -/
def LostWakeup (s : System T) : Prop :=
  0 < s.n ∧ s.monitor.blocked.Nonempty ∧ s.monitor.notified = ∅ ∧
    ∀ t, (s.control t).pending = false

/-- What a step can do: most steps leave `n_` alone and wake or notify nobody. -/
inductive StepSpec [DecidableEq T] (s : System T) : StepResult → System T → Prop
  | quiet {r : StepResult} {t : T} {c : Control} {m : Monitor T} (hadd : r ≠ .added)
      (htake : r ≠ .taken) (hc : c.pending = (s.control t).pending)
      (hb : m.blocked ⊆ s.monitor.blocked) (hn : m.notified = s.monitor.notified) :
      StepSpec s r { s.setControl t c with monitor := m }
  | take {t : T} {c : Control} {m : Monitor T} (ht : (s.control t).pending = false)
      (hc : c.pending = false) (hpos : 0 < s.n) (hb : m.blocked = s.monitor.blocked)
      (hn : s.monitor.notified.card ≤ m.notified.card + 1) :
      StepSpec s .taken { s.setControl t c with n := s.n - 1, monitor := m }
  | sleep {t : T} (ht : s.control t = .acquireCheck) (hzero : s.n = 0) :
      StepSpec s .running { s.setControl t .acquireWait with monitor := s.monitor.sleep t }
  | add {t : T} (ht : s.control t = .releaseAdd) :
      StepSpec s .added { s.setControl t .releaseUnlock with n := s.n + 1 }
  | notify {t : T} {choice : Option T} {m : Monitor T} (ht : s.control t = .releaseNotify)
      (hm : s.monitor.notifyOne choice = some m) :
      StepSpec s .released { s.setControl t .idle with monitor := m }

section Steps
variable [DecidableEq T] {s s' : System T} {a : Action T} {r : StepResult} {t : T} {c : Control}

theorem System.begin_spec (hc : c.pending = false) (h : s.begin t c = some (r, s')) :
    StepSpec s r s' := by
  unfold System.begin at h
  split at h
  · rename_i ht
    cases h
    exact .quiet (m := s.monitor) nofun nofun (by rw [ht, hc]; rfl) (Finset.Subset.refl _) rfl
  · cases h

/-- Taking the mutex is a quiet step. -/
theorem lock_spec (hc : c.pending = (s.control t).pending)
    (h : (s.monitor.lock t).map (s.move t c .running) = some (r, s')) : StepSpec s r s' := by
  obtain ⟨m, hm, heq⟩ := Option.map_eq_some_iff.mp h
  cases heq
  obtain ⟨_, _, hb, hn⟩ := Monitor.lock_eq_some hm
  exact .quiet nofun nofun hc hb.subset hn

theorem System.step_spec (h : s.step a = some (r, s')) : StepSpec s r s' := by
  cases a with
  | acquire t => exact System.begin_spec rfl h
  | tryAcquire t => exact System.begin_spec rfl h
  | release t => exact System.begin_spec rfl h
  | count t => exact System.begin_spec rfl h
  | wake t =>
    obtain ⟨m, hm, heq⟩ := Option.map_eq_some_iff.mp h
    cases heq
    obtain ⟨_, hb, hn⟩ := Monitor.stir_eq_some hm
    have hspec : StepSpec s .running { s.setControl t (s.control t) with monitor := m } :=
      .quiet nofun nofun rfl (hb ▸ Finset.erase_subset t _) hn
    rwa [System.setControl, Function.update_eq_self] at hspec
  | proceed t choice =>
    simp only [System.step] at h
    split at h
    · cases h
    · rename_i ht
      exact lock_spec (by rw [ht]; rfl) h
    · rename_i ht
      split_ifs at h with hpos
      · cases h
        exact .take (by rw [ht]; rfl) rfl hpos rfl Monitor.notified_card_le_checked
      · cases h
        exact .sleep ht (by simpa [UInt64.pos_iff_ne_zero] using hpos)
    · rename_i ht
      obtain ⟨m, hm, heq⟩ := Option.map_eq_some_iff.mp h
      exact lock_spec (t := t) (c := .acquireCheck) (by rw [ht]; rfl)
        (Option.map_eq_some_iff.mpr ⟨m, (Monitor.relock_eq_some hm).2, heq⟩)
    · rename_i ht
      cases h
      exact .quiet nofun nofun (by rw [ht]; rfl) (Finset.Subset.refl _) rfl
    · rename_i ht
      exact lock_spec (by rw [ht]; rfl) h
    · rename_i ht
      split_ifs at h with hzero
      · cases h
        exact .quiet (m := s.monitor) nofun nofun (by rw [ht]; rfl) (Finset.Subset.refl _) rfl
      · cases h
        exact .take (m := s.monitor) (by rw [ht]; rfl) rfl (UInt64.pos_iff_ne_zero.mpr hzero) rfl
          (Nat.le_succ _)
    · rename_i ok ht
      cases h
      exact .quiet nofun nofun (by rw [ht]; rfl) (Finset.Subset.refl _) rfl
    · rename_i ht
      exact lock_spec (by rw [ht]; rfl) h
    · rename_i ht
      cases h
      exact .add ht
    · rename_i ht
      cases h
      exact .quiet nofun nofun (by rw [ht]; rfl) (Finset.Subset.refl _) rfl
    · rename_i ht
      obtain ⟨m, hm, heq⟩ := Option.map_eq_some_iff.mp h
      cases heq
      exact .notify ht hm
    · rename_i ht
      exact lock_spec (by rw [ht]; rfl) h
    · rename_i ht
      cases h
      exact .quiet (m := s.monitor) nofun nofun (by rw [ht]; rfl) (Finset.Subset.refl _) rfl
    · rename_i n ht
      cases h
      exact .quiet nofun nofun (by rw [ht]; rfl) (Finset.Subset.refl _) rfl

end Steps

/-- No release of the run increments `n_` at the largest value of its type. -/
def NoOverflow (es : List (StepEvent T)) : Prop :=
  ∀ e ∈ es, e.result = .added → e.before.n.toNat + 1 < 2 ^ 64

/-- While somebody sleeps, every token has a notification on its way or a woken
thread that has yet to look. -/
structure SemaphoreInv [Fintype T] (initial : UInt64) (es : List (StepEvent T)) (s : System T) :
    Prop where
  held : s.n.toNat + acquires es ≤ initial.toNat + releases es
  exact : NoOverflow es → initial.toNat + releases es = s.n.toNat + acquires es
  covered : s.monitor.blocked.Nonempty →
    s.n.toNat ≤ countAt Control.pending s.control + s.monitor.notified.card

section Invariant
variable [Fintype T] {initial : UInt64} {es : List (StepEvent T)} {s s' : System T}
variable {a : Action T} {r : StepResult} {e : StepEvent T}

theorem semaphoreInv_init : SemaphoreInv initial [] (System.init initial : System T) where
  held := Nat.le_refl _
  exact := fun _ => rfl
  covered := fun h => absurd h Finset.not_nonempty_empty

omit [Fintype T] in
theorem releases_append (es : List (StepEvent T)) (e : StepEvent T) :
    releases (es ++ [e]) = releases es + if e.result = .added then 1 else 0 := by
  simp [releases]

omit [Fintype T] in
theorem acquires_append (es : List (StepEvent T)) (e : StepEvent T) :
    acquires (es ++ [e]) = acquires es + if e.result = .taken then 1 else 0 := by
  simp [acquires]

omit [Fintype T] in
theorem NoOverflow.of_append (h : NoOverflow (es ++ [e])) : NoOverflow es :=
  fun e' he => h e' (List.mem_append_left _ he)

theorem toNat_sub_one_of_pos {n : UInt64} (h : 0 < n) : (n - 1).toNat + 1 = n.toNat := by
  have hpos : 1 ≤ n.toNat := UInt64.lt_iff_toNat_lt.mp h
  have hle : (1 : UInt64) ≤ n := UInt64.le_iff_toNat_le.mpr hpos
  rw [UInt64.toNat_sub_of_le _ _ hle, UInt64.toNat_one]
  omega

/-- The token and holding counts do not move when `n_` does not. -/
theorem SemaphoreInv.counts (h : SemaphoreInv initial es s) (hadd : r ≠ .added)
    (htake : r ≠ .taken) :
    s.n.toNat + acquires (es ++ [⟨s, a, r⟩]) ≤ initial.toNat + releases (es ++ [⟨s, a, r⟩]) ∧
      (NoOverflow (es ++ [⟨s, a, r⟩]) →
        initial.toNat + releases (es ++ [⟨s, a, r⟩]) = s.n.toNat + acquires (es ++ [⟨s, a, r⟩])) := by
  rw [releases_append, acquires_append, if_neg hadd, if_neg htake]
  exact ⟨h.held, fun hno => h.exact hno.of_append⟩

variable [DecidableEq T]

theorem SemaphoreInv.take (h : SemaphoreInv initial es s) {t : T} {c : Control} {m : Monitor T}
    (ht : (s.control t).pending = false) (hc : c.pending = false) (hpos : 0 < s.n)
    (hb : m.blocked = s.monitor.blocked)
    (hn : s.monitor.notified.card ≤ m.notified.card + 1) :
    SemaphoreInv initial (es ++ [⟨s, a, .taken⟩])
      { s.setControl t c with n := s.n - 1, monitor := m } := by
  have hdown := toNat_sub_one_of_pos hpos
  have hrel := releases_append es ⟨s, a, .taken⟩
  have hacq := acquires_append es ⟨s, a, .taken⟩
  simp only [reduceCtorEq, if_false, if_true] at hrel hacq
  refine ⟨?_, ?_, ?_⟩
  · have hheld := h.held
    change (s.n - 1).toNat + _ ≤ _
    omega
  · intro hno
    have hexact := h.exact hno.of_append
    change _ = (s.n - 1).toNat + _
    omega
  · intro hsleep
    have hcovered := h.covered (hb ▸ hsleep)
    have hsame : countAt Control.pending (Function.update s.control t c) =
        countAt Control.pending s.control := countAt_update_same (hc.trans ht.symm)
    change (s.n - 1).toNat ≤ countAt Control.pending (Function.update s.control t c) + _
    change _ ≤ _ + m.notified.card
    omega

theorem SemaphoreInv.add (h : SemaphoreInv initial es s) {t : T}
    (ht : s.control t = .releaseAdd) :
    SemaphoreInv initial (es ++ [⟨s, a, .added⟩])
      { s.setControl t .releaseUnlock with n := s.n + 1 } := by
  have hrel := releases_append es ⟨s, a, .added⟩
  have hacq := acquires_append es ⟨s, a, .added⟩
  simp only [reduceCtorEq, if_false, if_true] at hrel hacq
  have hup : (s.n + 1).toNat = (s.n.toNat + 1) % 2 ^ 64 := by
    rw [UInt64.toNat_add, UInt64.toNat_one]
  have hle : (s.n + 1).toNat ≤ s.n.toNat + 1 := hup ▸ Nat.mod_le _ _
  refine ⟨?_, ?_, ?_⟩
  · have hheld := h.held
    change (s.n + 1).toNat + _ ≤ _
    omega
  · intro hno
    have hexact := h.exact hno.of_append
    have hsmall : s.n.toNat + 1 < 2 ^ 64 := hno ⟨s, a, .added⟩ (by simp) rfl
    rw [Nat.mod_eq_of_lt hsmall] at hup
    change _ = (s.n + 1).toNat + _
    omega
  · intro hsleep
    have hcovered := h.covered hsleep
    have henter : countAt Control.pending (Function.update s.control t .releaseUnlock) =
        countAt Control.pending s.control + 1 := countAt_update_enter (by rw [ht]; rfl) rfl
    change (s.n + 1).toNat ≤ countAt Control.pending (Function.update s.control t .releaseUnlock) +
      s.monitor.notified.card
    omega

/-- A notification in hand becomes a notified thread, or finds nobody asleep. -/
theorem SemaphoreInv.notify (h : SemaphoreInv initial es s) {t : T} {choice : Option T}
    {m : Monitor T} (ht : s.control t = .releaseNotify)
    (hm : s.monitor.notifyOne choice = some m) :
    SemaphoreInv initial (es ++ [⟨s, a, .released⟩]) { s.setControl t .idle with monitor := m } := by
  obtain ⟨hheld, hexact⟩ := h.counts (a := a) (r := .released) nofun nofun
  refine ⟨hheld, hexact, ?_⟩
  intro hsleep
  rcases Monitor.notifyOne_eq_some hm with ⟨_, hempty, rfl⟩ | ⟨u, hu, _, rfl⟩
  · exact absurd (hempty ▸ hsleep) Finset.not_nonempty_empty
  · have hcovered := h.covered ⟨u, hu⟩
    have hleave : countAt Control.pending (Function.update s.control t .idle) + 1 =
        countAt Control.pending s.control := countAt_update_leave (by rw [ht]; rfl) rfl
    have hcard := Monitor.notified_card_wakeOne hu
    change s.n.toNat ≤ countAt Control.pending (Function.update s.control t .idle) +
      (s.monitor.wakeOne u).notified.card
    omega

theorem SemaphoreInv.step (h : SemaphoreInv initial es s) (hs : StepSpec s r s') :
    SemaphoreInv initial (es ++ [⟨s, a, r⟩]) s' := by
  cases hs with
  | @quiet _ t c m hadd htake hc hb hn =>
    obtain ⟨hheld, hexact⟩ := h.counts (a := a) hadd htake
    refine ⟨hheld, hexact, ?_⟩
    intro hsleep
    have hcovered := h.covered (hsleep.mono hb)
    rw [← countAt_update_same (t := t) hc, ← hn] at hcovered
    exact hcovered
  | take ht hc hpos hb hn => exact h.take ht hc hpos hb hn
  | sleep ht hzero =>
    obtain ⟨hheld, hexact⟩ := h.counts (a := a) (r := .running) nofun nofun
    refine ⟨hheld, hexact, ?_⟩
    intro _
    change s.n.toNat ≤ _
    rw [hzero]
    exact Nat.zero_le _
  | add ht => exact h.add ht
  | notify ht hm => exact h.notify ht hm

/-- Tokens are never made up, none is lost as long as no increment overflows the
type of `n_`, and no wake-up is lost. -/
theorem semaphore_tokens {actions : List (Action T)}
    (h : exec System.step (System.init initial) actions = some (es, s)) :
    s.n.toNat + acquires es ≤ initial.toNat + releases es ∧
    (NoOverflow es → initial.toNat + releases es = s.n.toNat + acquires es) ∧
    ¬ LostWakeup s := by
  have hinv : SemaphoreInv initial es s := exec_invariant (SemaphoreInv initial)
    (fun _ _ _ _ _ hinv hstep => hinv.step (System.step_spec hstep)) semaphoreInv_init h
  refine ⟨hinv.held, hinv.exact, ?_⟩
  rintro ⟨hpos, hsleep, hnone, hpending⟩
  have hcovered := hinv.covered hsleep
  rw [hnone, countAt_eq_zero.mpr hpending] at hcovered
  have hn : 0 < s.n.toNat := UInt64.lt_iff_toNat_lt.mp hpos
  exact absurd hcovered (by simpa using hn.ne')

end Invariant

/-- The thread `none` sleeps, a release wakes it, and another acquire takes the
token before it has looked. -/
def barging : List (Action (Option Bool)) :=
  [.acquire none, .proceed none none, .proceed none none, .release (some false),
    .proceed (some false) none, .proceed (some false) none, .proceed (some false) none,
    .proceed (some false) (some none), .acquire (some true), .proceed (some true) none,
    .proceed (some true) none]

theorem semaphore_tokens_barging :
    ∃ es s, exec System.step (System.init 0) barging = some (es, s) ∧
      s.control none = .acquireWait ∧ releases es = 1 ∧ acquires es = 1 ∧ ¬ LostWakeup s := by
  have hrun : exec System.step (System.init 0) barging = some (_, _) := rfl
  exact ⟨_, _, hrun, rfl, rfl, rfl, (semaphore_tokens hrun).2.2⟩

/-- A release at the largest count wraps it to zero, and all its tokens are gone. -/
theorem semaphore_overflow :
    ∃ es s, exec System.step (System.init 18446744073709551615 : System Unit)
        [.release (), .proceed () none, .proceed () none] = some (es, s) ∧
      s.n = 0 ∧ releases es = 1 ∧ acquires es = 0 ∧
      (18446744073709551615 : UInt64).toNat + releases es ≠ s.n.toNat + acquires es := by
  refine ⟨_, _, rfl, rfl, rfl, rfl, ?_⟩
  decide

end HftExercises.Semaphore
