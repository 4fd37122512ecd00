import Mathlib.Algebra.Ring.Nat
import HftExercises.Core.ThreadCount

/-! # The write-preferring reader-writer spinlock

A reader counts itself in `readers_` and then looks at `writer_` a second time; a
writer claims `writer_` and then waits for `readers_` to drain. Each side
publishes its intent before it looks at the other, so of a reader and a writer
that meet at most one gets in, and the reader is the one that backs out.
-/
namespace HftExercises.RwSpinLock
variable {T : Type*}

/-- Where a thread is. `readCheck` is between the increment and the second look
at the flag, `readBackOut` between that look and the decrement. -/
inductive Control where
  | idle
  | readSpin
  | readEnter
  | readCheck
  | readBackOut
  | reading
  | writeClaim
  | writeDrain
  | writing
  deriving DecidableEq, Repr

structure System (T : Type*) where
  readers : UInt32
  writer : Bool
  control : T → Control

def System.init : System T where
  readers := 0
  writer := false
  control := fun _ => .idle

inductive Action (T : Type*) where
  | lockRead (thread : T)
  | unlockRead (thread : T)
  | lockWrite (thread : T)
  | unlockWrite (thread : T)
  | proceed (thread : T) (spurious : Bool)
  deriving DecidableEq, Repr

inductive StepResult where
  | running
  | locked
  | unlocked
  deriving DecidableEq, Repr

def System.setControl [DecidableEq T] (s : System T) (t : T) (c : Control) : System T :=
  { s with control := Function.update s.control t c }

/-- An unlock is one atomic access, so it is a step of its own. -/
def System.step [DecidableEq T] (s : System T) : Action T → Option (StepResult × System T)
  | .lockRead t =>
    match s.control t with
    | .idle => some (.running, s.setControl t .readSpin)
    | _ => none
  | .unlockRead t =>
    match s.control t with
    | .reading => some (.unlocked, { s.setControl t .idle with readers := s.readers - 1 })
    | _ => none
  | .lockWrite t =>
    match s.control t with
    | .idle => some (.running, s.setControl t .writeClaim)
    | _ => none
  | .unlockWrite t =>
    match s.control t with
    | .writing => some (.unlocked, { s.setControl t .idle with writer := false })
    | _ => none
  | .proceed t spurious =>
    match s.control t with
    | .readSpin =>
      if s.writer then some (.running, s) else some (.running, s.setControl t .readEnter)
    | .readEnter =>
      some (.running, { s.setControl t .readCheck with readers := s.readers + 1 })
    | .readCheck =>
      if s.writer then some (.running, s.setControl t .readBackOut)
      else some (.locked, s.setControl t .reading)
    | .readBackOut =>
      some (.running, { s.setControl t .readSpin with readers := s.readers - 1 })
    | .writeClaim =>
      match compareExchangeWeak s.writer false true spurious with
      | none => some (.running, s)
      | some writer => some (.running, { s.setControl t .writeDrain with writer := writer })
    | .writeDrain =>
      if s.readers = 0 then some (.locked, s.setControl t .writing) else some (.running, s)
    | .idle | .reading | .writing => none

/-- A thread whose increment of `readers_` stands although it is not in a read
section: before the second look at the flag, or before the back-out. -/
def Control.entering : Control → Bool
  | .readCheck | .readBackOut => true
  | _ => false

def Control.inRead : Control → Bool
  | .reading => true
  | _ => false

def Control.inWrite : Control → Bool
  | .writing => true
  | _ => false

/-- A thread whose increment of `readers_` stands. -/
def Control.counted (c : Control) : Bool := c.inRead || c.entering

/-- A thread that holds the writer flag. -/
def Control.owns : Control → Bool
  | .writeDrain | .writing => true
  | _ => false

/-- A thread inside `lock_read` or a read section. -/
def Control.reads : Control → Bool
  | .readSpin | .readEnter | .readCheck | .readBackOut | .reading => true
  | _ => false

/-- The threads that ever call `lock_read` in a run. -/
def readerThreads [Fintype T] [DecidableEq T] (actions : List (Action T)) : Finset T :=
  Finset.univ.filter fun t => Action.lockRead t ∈ actions

/-- What a step can do. -/
inductive StepSpec [DecidableEq T] (s : System T) : Action T → System T → Prop
  | stay {a : Action T} : StepSpec s a s
  | start {a : Action T} {t : T} {c : Control} (ht : s.control t = .idle)
      (hc : c.counted = false) (howns : c.owns = false) (hreads : c.reads = true → a = .lockRead t) :
      StepSpec s a (s.setControl t c)
  | seeClear {a : Action T} {t : T} (ht : s.control t = .readSpin) :
      StepSpec s a (s.setControl t .readEnter)
  | enter {a : Action T} {t : T} (ht : s.control t = .readEnter) :
      StepSpec s a { s.setControl t .readCheck with readers := s.readers + 1 }
  | refuse {a : Action T} {t : T} (ht : s.control t = .readCheck) :
      StepSpec s a (s.setControl t .readBackOut)
  | pass {a : Action T} {t : T} (ht : s.control t = .readCheck) (hw : s.writer = false) :
      StepSpec s a (s.setControl t .reading)
  | leave {a : Action T} {t : T} {c : Control} (ht : (s.control t).counted = true)
      (hc : c = .readSpin ∨ c = .idle) :
      StepSpec s a { s.setControl t c with readers := s.readers - 1 }
  | claim {a : Action T} {t : T} (ht : s.control t = .writeClaim) (hw : s.writer = false) :
      StepSpec s a { s.setControl t .writeDrain with writer := true }
  | drained {a : Action T} {t : T} (ht : s.control t = .writeDrain) (hr : s.readers = 0) :
      StepSpec s a (s.setControl t .writing)
  | unlockWrite {a : Action T} {t : T} (ht : s.control t = .writing) :
      StepSpec s a { s.setControl t .idle with writer := false }

section Steps
variable [DecidableEq T] {s s' : System T} {a : Action T} {r : StepResult}

theorem System.step_spec (h : s.step a = some (r, s')) : StepSpec s a s' := by
  cases a with
  | lockRead t =>
    simp only [System.step] at h
    split at h
    · rename_i ht
      cases h
      exact .start ht rfl rfl fun _ => rfl
    · cases h
  | unlockRead t =>
    simp only [System.step] at h
    split at h
    · rename_i ht
      cases h
      exact .leave (by rw [ht]; rfl) (Or.inr rfl)
    · cases h
  | lockWrite t =>
    simp only [System.step] at h
    split at h
    · rename_i ht
      cases h
      exact .start ht rfl rfl fun hreads => by cases hreads
    · cases h
  | unlockWrite t =>
    simp only [System.step] at h
    split at h
    · rename_i ht
      cases h
      exact .unlockWrite ht
    · cases h
  | proceed t spurious =>
    simp only [System.step] at h
    split at h
    · rename_i ht
      split_ifs at h
      · cases h
        exact .stay
      · cases h
        exact .seeClear ht
    · rename_i ht
      cases h
      exact .enter ht
    · rename_i ht
      split_ifs at h with hw
      · cases h
        exact .refuse ht
      · cases h
        exact .pass ht (by simpa using hw)
    · rename_i ht
      cases h
      exact .leave (by rw [ht]; rfl) (Or.inl rfl)
    · rename_i ht
      split at h
      · cases h
        exact .stay
      · rename_i writer hcas
        cases h
        obtain ⟨hw, rfl⟩ := compareExchangeWeak_eq_some hcas
        exact .claim ht hw
    · rename_i ht
      split_ifs at h with hr
      · cases h
        exact .drained ht hr
      · cases h
        exact .stay
    · cases h
    · cases h
    · cases h

end Steps

/-- The two words count the threads that stand behind them. The last field is the
handshake: while one thread writes, nobody is past its second look. -/
structure LockInv [Fintype T] (readerSet : Finset T) (s : System T) : Prop where
  listed : ∀ t, (s.control t).reads = true → t ∈ readerSet
  readers : s.readers.toNat = countAt Control.counted s.control
  writer : countAt Control.owns s.control = s.writer.toNat
  exclusive : ∀ t u, s.control t = .writing → s.control u ≠ .reading

section Invariant
variable [Fintype T] {s s' : System T} {a : Action T} {readerSet : Finset T}

theorem lockInv_init : LockInv readerSet (System.init : System T) where
  listed := fun _ h => by cases h
  readers := (countAt_const (T := T) (c := Control.idle) rfl).symm
  writer := countAt_const rfl
  exclusive := fun _ _ h => by cases h

theorem Control.reads_of_counted {c : Control} (h : c.counted = true) : c.reads = true := by
  cases c <;> first | rfl | cases h

theorem LockInv.not_reading_of_zero (h : LockInv readerSet s) (hr : s.readers = 0) (u : T) :
    s.control u ≠ .reading := by
  intro hu
  have hcount := h.readers
  rw [hr] at hcount
  have hfalse := countAt_eq_zero.mp hcount.symm u
  rw [hu] at hfalse
  cases hfalse

theorem LockInv.not_writing_of_clear (h : LockInv readerSet s) (hw : s.writer = false) (u : T) :
    s.control u ≠ .writing := by
  intro hu
  have hcount := h.writer
  rw [hw] at hcount
  have hfalse := countAt_eq_zero.mp hcount u
  rw [hu] at hfalse
  cases hfalse

variable [DecidableEq T]

theorem LockInv.listed_update (h : LockInv readerSet s) {t : T} {c : Control}
    (hc : c.reads = true → t ∈ readerSet) (u : T)
    (hu : (Function.update s.control t c u).reads = true) : u ∈ readerSet := by
  rcases update_cases (fun c => Control.reads c = true) hu with ⟨rfl, hreads⟩ | ⟨_, hreads⟩
  · exact hc hreads
  · exact h.listed u hreads

/-- A thread that enters a section must find nobody in the other kind. -/
theorem LockInv.exclusive_update (h : LockInv readerSet s) {t : T} {c : Control}
    (hr : c = .reading → ∀ u, s.control u ≠ .writing)
    (hw : c = .writing → ∀ u, s.control u ≠ .reading) (u v : T)
    (hu : Function.update s.control t c u = .writing) :
    Function.update s.control t c v ≠ .reading := by
  intro hv
  rcases update_cases (· = Control.writing) hu with ⟨_, hwrite⟩ | ⟨_, hwrite⟩
  · rcases update_cases (· = Control.reading) hv with ⟨_, hread⟩ | ⟨_, hread⟩
    · rw [hwrite] at hread
      cases hread
    · exact hw hwrite v hread
  · rcases update_cases (· = Control.reading) hv with ⟨_, hread⟩ | ⟨_, hread⟩
    · exact hr hread u hwrite
    · exact h.exclusive u v hwrite hread

/-- A move that changes neither word. -/
theorem LockInv.setControl (h : LockInv readerSet s) {t : T} {c : Control}
    (hlisted : c.reads = true → t ∈ readerSet) (hcounted : c.counted = (s.control t).counted)
    (howns : c.owns = (s.control t).owns) (hr : c = .reading → ∀ u, s.control u ≠ .writing)
    (hw : c = .writing → ∀ u, s.control u ≠ .reading) :
    LockInv readerSet (s.setControl t c) where
  listed := h.listed_update hlisted
  readers := h.readers.trans (countAt_update_same hcounted).symm
  writer := (countAt_update_same howns).trans h.writer
  exclusive := h.exclusive_update hr hw

theorem LockInv.enter (h : LockInv readerSet s) (hsmall : readerSet.card < 2 ^ 32) {t : T}
    (ht : s.control t = .readEnter) :
    LockInv readerSet { s.setControl t .readCheck with readers := s.readers + 1 } := by
  have hreads : (s.control t).reads = true := by
    rw [ht]
    rfl
  have hlisted : ∀ u, (Function.update s.control t .readCheck u).reads = true → u ∈ readerSet :=
    h.listed_update fun _ => h.listed t hreads
  have hcount : countAt Control.counted (Function.update s.control t .readCheck) =
      countAt Control.counted s.control + 1 := countAt_update_enter (by rw [ht]; rfl) rfl
  have hle : countAt Control.counted (Function.update s.control t .readCheck) ≤ readerSet.card :=
    countAt_le_card fun u hu => hlisted u (Control.reads_of_counted hu)
  refine ⟨hlisted, ?_, ?_, h.exclusive_update nofun nofun⟩
  · change (s.readers + 1).toNat = countAt Control.counted (Function.update s.control t .readCheck)
    have hreaders := h.readers
    rw [UInt32.toNat_add, UInt32.toNat_one, hreaders, Nat.mod_eq_of_lt (by omega), hcount]
  · exact (countAt_update_same (by rw [ht]; rfl)).trans h.writer

theorem LockInv.leave (h : LockInv readerSet s) {t : T} {c : Control}
    (ht : (s.control t).counted = true) (hc : c = .readSpin ∨ c = .idle) :
    LockInv readerSet { s.setControl t c with readers := s.readers - 1 } := by
  have hplace : c.counted = false ∧ c.owns = false := by
    rcases hc with rfl | rfl
    · exact ⟨rfl, rfl⟩
    · exact ⟨rfl, rfl⟩
  have howns : (s.control t).owns = false := by
    cases hs : s.control t <;> first | rfl | (rw [hs] at ht; cases ht)
  have hcount : countAt Control.counted (Function.update s.control t c) + 1 =
      countAt Control.counted s.control := countAt_update_leave ht hplace.1
  refine ⟨?_, ?_, ?_, h.exclusive_update ?_ ?_⟩
  · exact h.listed_update fun _ => h.listed t (Control.reads_of_counted ht)
  · change (s.readers - 1).toNat = countAt Control.counted (Function.update s.control t c)
    have hreaders := h.readers
    have hone : (1 : UInt32) ≤ s.readers := by
      rw [UInt32.le_iff_toNat_le, UInt32.toNat_one]
      omega
    rw [UInt32.toNat_sub_of_le _ _ hone, UInt32.toNat_one]
    omega
  · exact (countAt_update_same (by rw [hplace.2, howns])).trans h.writer
  · rintro rfl
    cases hplace.1
  · rintro rfl
    cases hplace.2

theorem LockInv.claim (h : LockInv readerSet s) {t : T} (ht : s.control t = .writeClaim)
    (hw : s.writer = false) :
    LockInv readerSet { s.setControl t .writeDrain with writer := true } where
  listed := h.listed_update fun hreads => by cases hreads
  readers := h.readers.trans (countAt_update_same (by rw [ht]; rfl)).symm
  writer := by
    have hcount : countAt Control.owns (Function.update s.control t .writeDrain) =
        countAt Control.owns s.control + 1 := countAt_update_enter (by rw [ht]; rfl) rfl
    rw [h.writer, hw] at hcount
    exact hcount
  exclusive := h.exclusive_update nofun nofun

theorem LockInv.unlockWrite (h : LockInv readerSet s) {t : T} (ht : s.control t = .writing) :
    LockInv readerSet { s.setControl t .idle with writer := false } where
  listed := h.listed_update fun hreads => by cases hreads
  readers := h.readers.trans (countAt_update_same (by rw [ht]; rfl)).symm
  writer := by
    have hcount : countAt Control.owns (Function.update s.control t .idle) + 1 =
        countAt Control.owns s.control := countAt_update_leave (by rw [ht]; rfl) rfl
    have hle : s.writer.toNat ≤ 1 := Bool.toNat_le s.writer
    rw [h.writer] at hcount
    change countAt Control.owns (Function.update s.control t .idle) = 0
    omega
  exclusive := h.exclusive_update nofun nofun

theorem LockInv.step (h : LockInv readerSet s) (hsmall : readerSet.card < 2 ^ 32)
    (ha : ∀ t, a = .lockRead t → t ∈ readerSet) (hs : StepSpec s a s') : LockInv readerSet s' := by
  cases hs with
  | stay => exact h
  | @start t c ht hc howns hreads =>
    refine h.setControl (fun hr => ha t (hreads hr)) (by rw [hc, ht]; rfl) (by rw [howns, ht]; rfl)
      ?_ ?_
    · rintro rfl
      cases hc
    · rintro rfl
      cases howns
  | @seeClear t ht =>
    exact h.setControl (fun _ => h.listed t (by rw [ht]; rfl)) (by rw [ht]; rfl) (by rw [ht]; rfl)
      nofun nofun
  | enter ht => exact h.enter hsmall ht
  | @refuse t ht =>
    exact h.setControl (fun _ => h.listed t (by rw [ht]; rfl)) (by rw [ht]; rfl) (by rw [ht]; rfl)
      nofun nofun
  | @pass t ht hw =>
    exact h.setControl (fun _ => h.listed t (by rw [ht]; rfl)) (by rw [ht]; rfl) (by rw [ht]; rfl)
      (fun _ => h.not_writing_of_clear hw) nofun
  | leave ht hc => exact h.leave ht hc
  | claim ht hw => exact h.claim ht hw
  | drained ht hr =>
    exact h.setControl nofun (by rw [ht]; rfl) (by rw [ht]; rfl) nofun
      fun _ => h.not_reading_of_zero hr
  | unlockWrite ht => exact h.unlockWrite ht

theorem exec_lockInv {actions : List (Action T)} {es : List (Event (System T) (Action T) StepResult)}
    (h : exec System.step System.init actions = some (es, s))
    (hsmall : (readerThreads actions).card < 2 ^ 32) : LockInv (readerThreads actions) s := by
  have hcalls := exec_calls h
  refine exec_invariant (fun es s => (∀ t, Action.lockRead t ∈ es.map Event.call →
    t ∈ readerThreads actions) → LockInv (readerThreads actions) s) ?_ (fun _ => lockInv_init) h ?_
  · intro es s a r s' hinv hstep hmem
    refine (hinv fun t ht => hmem t ?_).step hsmall ?_ (System.step_spec hstep)
    · rw [List.map_append]
      exact List.mem_append_left _ ht
    · rintro t rfl
      exact hmem t (by simp)
  · intro t ht
    rw [hcalls] at ht
    simpa [readerThreads] using ht

/-- Writers exclude each other and every reader, and `readers_` is exact: it
counts the read sections and the threads that may still back out. -/
theorem rwSpinLock_exclusion {actions : List (Action T)}
    {es : List (Event (System T) (Action T) StepResult)}
    (h : exec System.step System.init actions = some (es, s))
    (hsmall : (readerThreads actions).card < 2 ^ 32) :
    (∀ t u, s.control t = .writing → s.control u = .writing → t = u) ∧
    (∀ t u, s.control t = .writing → s.control u ≠ .reading) ∧
    s.readers.toNat = countAt Control.inRead s.control + countAt Control.entering s.control := by
  have hinv := exec_lockInv h hsmall
  refine ⟨?_, hinv.exclusive, ?_⟩
  · intro t u ht hu
    have hone : countAt Control.owns s.control ≤ 1 := hinv.writer ▸ Bool.toNat_le s.writer
    exact eq_of_countAt_le_one hone (by rw [ht]; rfl) (by rw [hu]; rfl)
  · rw [hinv.readers]
    refine countAt_or ?_
    intro c hc
    cases c <;> first | rfl | cases hc

end Invariant

/-- A reader is in, a second one has counted itself after a writer claimed the
flag and must back out, and the writer waits for both. -/
def handshake : List (Action (Fin 3)) :=
  [.lockRead 0, .proceed 0 false, .proceed 0 false, .proceed 0 false,
    .lockRead 1, .proceed 1 false, .lockWrite 2, .proceed 2 true, .proceed 2 false,
    .proceed 1 false, .proceed 2 false]

theorem rwSpinLock_exclusion_handshake :
    ∃ es s, exec System.step System.init handshake = some (es, s) ∧
      s.control 0 = .reading ∧ s.control 1 = .readCheck ∧ s.control 2 = .writeDrain ∧
      s.readers.toNat = countAt Control.inRead s.control + countAt Control.entering s.control ∧
      s.readers = 2 := by
  have hrun : exec System.step System.init handshake = some (_, _) := rfl
  exact ⟨_, _, hrun, rfl, rfl, rfl, (rwSpinLock_exclusion hrun (by decide)).2.2, rfl⟩

end HftExercises.RwSpinLock
