import HftExercises.Core.ListFacts
import HftExercises.Core.Execution
import HftExercises.Core.ThreadCount

/-! # The test-and-test-and-set spinlock

`lock` exchanges, and after a failure only loads until the lock looks free, with a
sleep after every sixteenth attempt. The critical sections are those of the counter
test: a thread that holds the lock reads the data they share and writes back what it
makes of it, in two accesses that nothing but the lock keeps together.
-/
namespace HftExercises.SpinLock
variable {T A : Type*}

/-- Where a thread is. `loaded` is inside a critical section, between the read and
the write. -/
inductive Control (A : Type*) where
  | idle
  | exchange (attempts : UInt64)
  | spin (attempts : UInt64)
  | sleep (attempts : UInt64)
  | tryExchange
  | holding
  | loaded (seen : A)

structure System (T A : Type*) where
  state : Bool
  data : A
  control : T → Control A

def System.init (data : A) : System T A where
  state := false
  data := data
  control := fun _ => .idle

inductive Action (T A : Type*) where
  | lock (thread : T)
  | tryLock (thread : T)
  | unlock (thread : T)
  | load (thread : T)
  | store (thread : T) (update : A → A)
  | proceed (thread : T)

/-- `refused` is `try_lock` returning false. -/
inductive StepResult (A : Type*) where
  | running
  | acquired
  | refused
  | released
  | updated (update : A → A)

def System.setControl [DecidableEq T] (s : System T A) (t : T) (c : Control A) : System T A :=
  { s with control := Function.update s.control t c }

def System.step [DecidableEq T] (s : System T A) :
    Action T A → Option (StepResult A × System T A)
  | .lock t =>
    match s.control t with
    | .idle => some (.running, s.setControl t (.exchange 1))
    | _ => none
  | .tryLock t =>
    match s.control t with
    | .idle => some (.running, s.setControl t .tryExchange)
    | _ => none
  | .unlock t =>
    match s.control t with
    | .holding => some (.released, { s.setControl t .idle with state := false })
    | _ => none
  | .load t =>
    match s.control t with
    | .holding => some (.running, s.setControl t (.loaded s.data))
    | _ => none
  | .store t update =>
    match s.control t with
    | .loaded seen => some (.updated update, { s.setControl t .holding with data := update seen })
    | _ => none
  | .proceed t =>
    match s.control t with
    | .exchange attempts =>
      if s.state then some (.running, s.setControl t (.spin attempts))
      else some (.acquired, { s.setControl t .holding with state := true })
    | .spin attempts =>
      if s.state then some (.running, s)
      else if attempts % 16 = 0 then some (.running, s.setControl t (.sleep attempts))
      else some (.running, s.setControl t (.exchange (attempts + 1)))
    | .sleep attempts => some (.running, s.setControl t (.exchange (attempts + 1)))
    | .tryExchange =>
      if s.state then some (.refused, s.setControl t .idle)
      else some (.acquired, { s.setControl t .holding with state := true })
    | .idle | .holding | .loaded _ => none

abbrev StepEvent (T A : Type*) := Event (System T A) (Action T A) (StepResult A)

/-- A thread in its critical section. -/
def Control.inside : Control A → Bool
  | .holding | .loaded _ => true
  | _ => false

/-- A thread inside `lock`. -/
def Control.waiting : Control A → Bool
  | .exchange _ | .spin _ | .sleep _ => true
  | _ => false

def StepResult.update? : StepResult A → Option (A → A)
  | .updated update => some update
  | _ => none

/-- The updates the critical sections made, one after the other. -/
def serial (data : A) (es : List (StepEvent T A)) : A :=
  (es.filterMap fun e => e.result.update?).foldl (fun a update => update a) data

/-- What a step can do. -/
inductive StepSpec [DecidableEq T] (s : System T A) : StepResult A → System T A → Prop
  | stay : StepSpec s .running s
  | outside {t : T} {c : Control A} (ht : (s.control t).inside = false) (hc : c.inside = false) :
      StepSpec s .running (s.setControl t c)
  | refuse {t : T} (ht : (s.control t).inside = false) (hstate : s.state = true) :
      StepSpec s .refused (s.setControl t .idle)
  | acquire {t : T} (ht : (s.control t).inside = false) (hstate : s.state = false) :
      StepSpec s .acquired { s.setControl t .holding with state := true }
  | release {t : T} (ht : s.control t = .holding) :
      StepSpec s .released { s.setControl t .idle with state := false }
  | load {t : T} (ht : s.control t = .holding) :
      StepSpec s .running (s.setControl t (.loaded s.data))
  | store {t : T} {seen : A} {update : A → A} (ht : s.control t = .loaded seen) :
      StepSpec s (.updated update) { s.setControl t .holding with data := update seen }

theorem System.step_spec [DecidableEq T] {s s' : System T A} {a : Action T A} {r : StepResult A}
    (h : s.step a = some (r, s')) : StepSpec s r s' := by
  cases a with
  | lock t =>
    simp only [System.step] at h
    split at h
    · rename_i ht
      cases h
      exact .outside (by rw [ht]; rfl) rfl
    · cases h
  | tryLock t =>
    simp only [System.step] at h
    split at h
    · rename_i ht
      cases h
      exact .outside (by rw [ht]; rfl) rfl
    · cases h
  | unlock t =>
    simp only [System.step] at h
    split at h
    · rename_i ht
      cases h
      exact .release ht
    · cases h
  | load t =>
    simp only [System.step] at h
    split at h
    · rename_i ht
      cases h
      exact .load ht
    · cases h
  | store t update =>
    simp only [System.step] at h
    split at h
    · rename_i ht
      cases h
      exact .store ht
    · cases h
  | proceed t =>
    simp only [System.step] at h
    split at h
    · rename_i attempts ht
      have hout : (s.control t).inside = false := by
        rw [ht]
        rfl
      split_ifs at h with hstate
      · cases h
        exact .outside hout rfl
      · cases h
        exact .acquire hout (by simpa using hstate)
    · rename_i attempts ht
      have hout : (s.control t).inside = false := by
        rw [ht]
        rfl
      split_ifs at h
      · cases h
        exact .stay
      · cases h
        exact .outside hout rfl
      · cases h
        exact .outside hout rfl
    · rename_i attempts ht
      cases h
      exact .outside (by rw [ht]; rfl) rfl
    · rename_i ht
      have hout : (s.control t).inside = false := by
        rw [ht]
        rfl
      split_ifs at h with hstate
      · cases h
        exact .refuse hout hstate
      · cases h
        exact .acquire hout (by simpa using hstate)
    · cases h
    · cases h
    · cases h

/-- The word says whether somebody is inside, and who is inside sees the data as the
finished updates left them. -/
structure SpinInv (data : A) (es : List (StepEvent T A)) (s : System T A) : Prop where
  single : ∀ t u, (s.control t).inside = true → (s.control u).inside = true → t = u
  state : s.state = true ↔ ∃ t, (s.control t).inside = true
  data : s.data = serial data es
  seen : ∀ t a, s.control t = .loaded a → a = s.data

theorem spinInv_init (data : A) : SpinInv data [] (System.init data : System T A) where
  single := nofun
  state := by simp [System.init, Control.inside]
  data := rfl
  seen := nofun

section Steps
variable {data : A} {es : List (StepEvent T A)} {e : StepEvent T A} {s s' : System T A} {t : T}
variable {c : Control A}

theorem serial_append_silent (h : e.result.update? = none) :
    serial data (es ++ [e]) = serial data es := by
  simp [serial, h]

theorem serial_append_updated {update : A → A} (h : e.result = .updated update) :
    serial data (es ++ [e]) = update (serial data es) := by
  simp [serial, h, StepResult.update?]

theorem Control.not_inside_of_waiting (h : c.waiting = true) : c.inside = false := by
  cases c <;> first | rfl | cases h

theorem SpinInv.free (h : SpinInv data es s) (hstate : s.state = false) (u : T) :
    (s.control u).inside = false := by
  by_contra hu
  rw [h.state.mpr ⟨u, by simpa using hu⟩] at hstate
  cases hstate

theorem SpinInv.others (h : SpinInv data es s) (ht : (s.control t).inside = true) (u : T)
    (hu : u ≠ t) : (s.control u).inside = false := by
  by_contra hin
  exact hu (h.single u t (by simpa using hin) ht)

variable [DecidableEq T]

/-- One thread moves while nobody else is inside. -/
theorem SpinInv.move (hcontrol : s'.control = Function.update s.control t c)
    (hothers : ∀ u, u ≠ t → (s.control u).inside = false) (hstate : s'.state = c.inside)
    (hdata : s'.data = serial data es) (hseen : ∀ a, c = .loaded a → a = s'.data) :
    SpinInv data es s' := by
  have hself : s'.control t = c := by
    rw [hcontrol, Function.update_self]
  have hother : ∀ u, u ≠ t → (s'.control u).inside = false := by
    intro u hu
    rw [hcontrol, Function.update_of_ne hu]
    exact hothers u hu
  have honly : ∀ u, (s'.control u).inside = true → u = t := by
    intro u hu
    by_contra hne
    rw [hother u hne] at hu
    cases hu
  refine ⟨fun u w hu hw => (honly u hu).trans (honly w hw).symm, ?_, hdata, ?_⟩
  · rw [hstate, ← hself]
    constructor
    · exact fun hin => ⟨t, hin⟩
    · rintro ⟨u, hu⟩
      rwa [← honly u hu]
  · intro u a hu
    have hin : (s'.control u).inside = true := by
      rw [hu]
      rfl
    rw [honly u hin, hself] at hu
    exact hseen a hu

/-- A thread outside moves and stays outside. -/
theorem SpinInv.outside (h : SpinInv data es s) (ht : (s.control t).inside = false)
    (hc : c.inside = false) : SpinInv data es (s.setControl t c) := by
  have hsame : ∀ u, ((s.setControl t c).control u).inside = true →
      (s.setControl t c).control u = s.control u := by
    intro u hu
    change (Function.update s.control t c u).inside = true at hu
    change Function.update s.control t c u = s.control u
    rcases update_cases (fun c => Control.inside c = true) hu with ⟨_, hin⟩ | ⟨hne, _⟩
    · rw [hc] at hin
      cases hin
    · rw [Function.update_of_ne hne]
  refine ⟨?_, ?_, h.data, ?_⟩
  · intro u w hu hw
    exact h.single u w (hsame u hu ▸ hu) (hsame w hw ▸ hw)
  · refine h.state.trans ⟨?_, fun ⟨u, hu⟩ => ⟨u, hsame u hu ▸ hu⟩⟩
    rintro ⟨u, hu⟩
    have hne : u ≠ t := by
      rintro rfl
      rw [ht] at hu
      cases hu
    refine ⟨u, ?_⟩
    change (Function.update s.control t c u).inside = true
    rw [Function.update_of_ne hne]
    exact hu
  · intro u a hu
    exact h.seen u a ((hsame u (by rw [hu]; rfl)) ▸ hu)

theorem SpinInv.step {r : StepResult A} (h : SpinInv data es s) (hs : StepSpec s r s')
    (he : e.result = r) : SpinInv data (es ++ [e]) s' := by
  have hsilent : ∀ {s' : System T A}, SpinInv data es s' → r.update? = none →
      SpinInv data (es ++ [e]) s' := by
    intro s' hinv hr
    exact ⟨hinv.single, hinv.state, (serial_append_silent (he ▸ hr)).symm ▸ hinv.data, hinv.seen⟩
  cases hs with
  | stay => exact hsilent h rfl
  | outside ht hc => exact hsilent (h.outside ht hc) rfl
  | refuse ht hstate => exact hsilent (h.outside ht rfl) rfl
  | @acquire t ht hstate =>
    exact hsilent (.move (t := t) rfl (fun u _ => h.free hstate u) rfl h.data nofun) rfl
  | @release t ht =>
    exact hsilent (.move (t := t) rfl (h.others (by rw [ht]; rfl)) rfl h.data nofun) rfl
  | @load t ht =>
    refine hsilent (.move (t := t) rfl (h.others (by rw [ht]; rfl)) ?_ h.data ?_) rfl
    · exact h.state.mpr ⟨t, by rw [ht]; rfl⟩
    · rintro a ⟨⟩
      rfl
  | @store t seen update ht =>
    have hin : (s.control t).inside = true := by
      rw [ht]
      rfl
    refine .move (t := t) rfl (h.others hin) (h.state.mpr ⟨t, hin⟩) ?_ nofun
    rw [serial_append_updated he, ← h.data, ← h.seen t seen ht]

theorem exec_spinInv {actions : List (Action T A)}
    (h : exec System.step (System.init data) actions = some (es, s)) : SpinInv data es s :=
  exec_invariant (fun es s => SpinInv data es s)
    (fun _ _ _ _ _ hinv hstep => hinv.step (System.step_spec hstep) rfl) (spinInv_init data) h

/-- At most one thread is inside, the lock is taken exactly from inside, a `try_lock`
fails only against a holder, and no update of the shared data is lost. -/
theorem spinLock_exclusion {actions : List (Action T A)}
    (h : exec System.step (System.init data) actions = some (es, s)) :
    (∀ t u, (s.control t).inside = true → (s.control u).inside = true → t = u) ∧
      (s.state = true ↔ ∃ t, (s.control t).inside = true) ∧ s.data = serial data es ∧
      ∀ e ∈ es, (e.result = .acquired → ∀ u, (e.before.control u).inside = false) ∧
        (e.result = .refused → ∃ u, (e.before.control u).inside = true) := by
  have hinv := exec_spinInv h
  refine ⟨hinv.single, hinv.state, hinv.data, ?_⟩
  intro e he
  obtain ⟨calls, l, u, hrun, -, hstep⟩ := exec_mem h he
  have hbefore := exec_spinInv hrun
  refine ⟨fun hr => ?_, fun hr => ?_⟩
  · rw [hr] at hstep
    generalize hresult : (StepResult.acquired : StepResult A) = r at hstep
    cases System.step_spec hstep with
    | acquire ht hstate => exact hbefore.free hstate
    | _ => cases hresult
  · rw [hr] at hstep
    generalize hresult : (StepResult.refused : StepResult A) = r at hstep
    cases System.step_spec hstep with
    | refuse ht hstate => exact hbefore.state.mp hstate
    | _ => cases hresult

theorem setControl_self (s : System T A) (t : T) (c : Control A) :
    (s.setControl t c).control t = c :=
  Function.update_self _ _ _

theorem setControl_other (s : System T A) {t u : T} (c : Control A) (hu : u ≠ t) :
    (s.setControl t c).control u = s.control u :=
  Function.update_of_ne hu _ _

/-- A call of `lock` or `try_lock`. -/
def Action.starts : Action T A → Bool
  | .lock _ | .tryLock _ => true
  | .unlock _ | .load _ | .store _ _ | .proceed _ => false

/-- What the calls that are under way can still reach. -/
abbrev CanFinish (s : System T A) (P : System T A → Prop) : Prop :=
  CanReach (fun a : Action T A => a.starts = false) System.step s P

theorem acquire_of_exchange {attempts : UInt64} (ht : s.control t = .exchange attempts)
    (hstate : s.state = false) : CanFinish s fun s' => s'.control t = .holding := by
  refine .single (i := .proceed t) (o := .acquired)
    (t := { s.setControl t .holding with state := true }) rfl ?_ (setControl_self s t _)
  simp [System.step, ht, hstate]

/-- Alone with a free lock, a thread in `lock` gets it. -/
theorem acquire_of_free (ht : (s.control t).waiting = true) (hstate : s.state = false) :
    CanFinish s fun s' => s'.control t = .holding := by
  have hsleep : ∀ {s : System T A} {attempts : UInt64}, s.control t = .sleep attempts →
      s.state = false → CanFinish s fun s' => s'.control t = .holding := by
    intro s attempts hc hs
    refine .head (i := .proceed t) (o := .running) (t := s.setControl t (.exchange (attempts + 1)))
      rfl ?_ (acquire_of_exchange (setControl_self s t _) hs)
    simp [System.step, hc]
  cases hc : s.control t with
  | exchange attempts => exact acquire_of_exchange hc hstate
  | sleep attempts => exact hsleep hc hstate
  | spin attempts =>
    by_cases hpause : attempts % 16 = 0
    · refine .head (i := .proceed t) (o := .running) (t := s.setControl t (.sleep attempts)) rfl ?_
        (hsleep (setControl_self s t _) hstate)
      simp [System.step, hc, hstate, hpause]
    · refine .head (i := .proceed t) (o := .running)
        (t := s.setControl t (.exchange (attempts + 1))) rfl ?_
        (acquire_of_exchange (setControl_self s t _) hstate)
      simp [System.step, hc, hstate, hpause]
  | _ =>
    rw [hc] at ht
    cases ht

theorem acquire_after_unlock {u : T} (ht : (s.control t).waiting = true)
    (hu : s.control u = .holding) (hne : t ≠ u) :
    CanFinish s fun s' => s'.control t = .holding := by
  refine .head (i := .unlock u) (o := .released) (t := { s.setControl u .idle with state := false })
    rfl ?_ (acquire_of_free ?_ rfl)
  · simp [System.step, hu]
  · change (Function.update s.control u .idle t).waiting = true
    rw [Function.update_of_ne hne]
    exact ht

/-- No run locks a waiting thread out for good: without a further call of `lock`, its own
steps and those that let the holder leave bring it into its critical section. -/
theorem spinLock_acquirable {actions : List (Action T A)}
    (h : exec System.step (System.init data) actions = some (es, s))
    (ht : (s.control t).waiting = true) :
    CanFinish s fun s' => s'.control t = .holding := by
  have hinv := exec_spinInv h
  cases hstate : s.state with
  | false => exact acquire_of_free ht hstate
  | true =>
    obtain ⟨u, hu⟩ := hinv.state.mp hstate
    have hne : t ≠ u := by
      rintro rfl
      rw [Control.not_inside_of_waiting ht] at hu
      cases hu
    cases hc : s.control u with
    | holding => exact acquire_after_unlock ht hc hne
    | loaded seen =>
      refine .head (i := .store u id) (o := .updated id)
        (t := { s.setControl u .holding with data := seen }) rfl ?_
        (acquire_after_unlock ?_ (setControl_self s u _) hne)
      · simp [System.step, hc]
      · change (Function.update s.control u .holding t).waiting = true
        rw [Function.update_of_ne hne]
        exact ht
    | _ =>
      rw [hc] at hu
      cases hu

end Steps

/-- The thread `false` is between its read and its write of the counter, and `true` spins. -/
def contended : List (Action Bool ℕ) :=
  [.lock false, .proceed false, .load false, .lock true, .proceed true, .proceed true]

theorem spinLock_exclusion_contended :
    ∃ es s, exec System.step (System.init 5) contended = some (es, s) ∧
      s.control false = .loaded 5 ∧ s.control true = .spin 1 ∧ s.data = serial 5 es ∧
      s.state = true := by
  have hrun : exec System.step (System.init 5) contended = some (_, _) := rfl
  exact ⟨_, _, hrun, rfl, rfl, (spinLock_exclusion hrun).2.2.1, rfl⟩

theorem spinLock_acquirable_contended :
    ∃ es s, exec System.step (System.init 5) contended = some (es, s) ∧
      CanFinish s fun s' => s'.control true = .holding := by
  have hrun : exec System.step (System.init 5) contended = some (_, _) := rfl
  exact ⟨_, _, hrun, spinLock_acquirable hrun rfl⟩

end HftExercises.SpinLock
