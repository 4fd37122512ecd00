import HftExercises.Concurrency.RwSpinLock
import HftExercises.Core.Execution

/-! # Every lock call of the reader-writer spinlock can return

From any state that a run reaches, all threads can leave the lock without a further call of
`lock_read` or `lock_write`: a writer that owns the flag lets the readers drain and goes
first, and with the flag clear each thread gets through alone.
-/
namespace HftExercises.RwSpinLock
variable {T : Type*}

def Action.starts : Action T → Bool
  | .lockRead _ | .lockWrite _ => true
  | .unlockRead _ | .unlockWrite _ | .proceed _ _ => false

def Control.busy : Control → Bool
  | .idle => false
  | _ => true

/-- A reader before its second look at the flag. -/
def Control.checking : Control → Bool
  | .readCheck => true
  | _ => false

/-- What the calls that are under way can still reach. -/
abbrev CanFinish [DecidableEq T] (s : System T) (P : System T → Prop) : Prop :=
  CanReach (fun a : Action T => a.starts = false) System.step s P

section Alone
variable [DecidableEq T] {s s' : System T} {t : T} {c : Control}

/-- One thread has left the lock and the flag is clear. -/
def Left (s : System T) (t : T) (s' : System T) : Prop :=
  s'.control = Function.update s.control t .idle ∧ s'.writer = false

/-- What leaves after one step of the thread leaves. -/
theorem left_after {a : Action T} {r : StepResult} (h : CanFinish s' (Left s' t))
    (ha : a.starts = false) (hcontrol : s'.control = Function.update s.control t c)
    (hs : s.step a = some (r, s')) : CanFinish s (Left s t) := by
  refine .head ha hs (h.imp ?_)
  rintro u ⟨hu, hw⟩
  refine ⟨?_, hw⟩
  rw [hu, hcontrol, Function.update_idem]

theorem finish_reading (ht : s.control t = .reading) (hw : s.writer = false) :
    CanFinish s (Left s t) := by
  refine .single (i := .unlockRead t) (o := .unlocked)
    (t := { s.setControl t .idle with readers := s.readers - 1 }) rfl ?_ ⟨rfl, hw⟩
  simp [System.step, ht]

theorem finish_readCheck (ht : s.control t = .readCheck) (hw : s.writer = false) :
    CanFinish s (Left s t) := by
  have hnext := finish_reading (t := t) (s := s.setControl t .reading)
    (Function.update_self ..) hw
  refine left_after hnext (a := .proceed t false) (r := .locked) rfl rfl ?_
  simp [System.step, ht, hw]

theorem finish_readEnter (ht : s.control t = .readEnter) (hw : s.writer = false) :
    CanFinish s (Left s t) := by
  have hnext := finish_readCheck (t := t)
    (s := { s.setControl t .readCheck with readers := s.readers + 1 }) (Function.update_self ..) hw
  refine left_after hnext (a := .proceed t false) (r := .running) rfl rfl ?_
  simp [System.step, ht]

theorem finish_readSpin (ht : s.control t = .readSpin) (hw : s.writer = false) :
    CanFinish s (Left s t) := by
  have hnext := finish_readEnter (t := t) (s := s.setControl t .readEnter)
    (Function.update_self ..) hw
  refine left_after hnext (a := .proceed t false) (r := .running) rfl rfl ?_
  simp [System.step, ht, hw]

theorem finish_readBackOut (ht : s.control t = .readBackOut) (hw : s.writer = false) :
    CanFinish s (Left s t) := by
  have hnext := finish_readSpin (t := t)
    (s := { s.setControl t .readSpin with readers := s.readers - 1 }) (Function.update_self ..) hw
  refine left_after hnext (a := .proceed t false) (r := .running) rfl rfl ?_
  simp [System.step, ht]

/-- A reader gets through alone. -/
theorem finish_reader (ht : (s.control t).reads = true) (hw : s.writer = false) :
    CanFinish s (Left s t) := by
  cases hc : s.control t with
  | readSpin => exact finish_readSpin hc hw
  | readEnter => exact finish_readEnter hc hw
  | readCheck => exact finish_readCheck hc hw
  | readBackOut => exact finish_readBackOut hc hw
  | reading => exact finish_reading hc hw
  | _ =>
    rw [hc] at ht
    cases ht

theorem finish_writing (ht : s.control t = .writing) : CanFinish s (Left s t) := by
  refine .single (i := .unlockWrite t) (o := .unlocked)
    (t := { s.setControl t .idle with writer := false }) rfl ?_ ⟨rfl, rfl⟩
  simp [System.step, ht]

theorem finish_drained (ht : s.control t = .writeDrain) (hr : s.readers = 0) :
    CanFinish s (Left s t) := by
  have hnext := finish_writing (t := t) (s := s.setControl t .writing) (Function.update_self ..)
  refine left_after hnext (a := .proceed t false) (r := .locked) rfl rfl ?_
  simp [System.step, ht, hr]

end Alone

section Drain
variable [Fintype T] {s s' : System T} {t u : T} {readerSet : Finset T} {busy : ℕ}

def busyCount (s : System T) : ℕ := countAt Control.busy s.control

/-- The steps until the readers are out of the way of a writer: a reader that is checking
has to see the flag first. -/
def drainMeasure (s : System T) : ℕ :=
  countAt Control.counted s.control + countAt Control.checking s.control

/-- A writer that waits, with no more threads at work than there were. -/
structure Draining (readerSet : Finset T) (t : T) (busy : ℕ) (s : System T) : Prop where
  inv : LockInv readerSet s
  waits : s.control t = .writeDrain
  busy : busyCount s ≤ busy

theorem LockInv.writer_of_owns (h : LockInv readerSet s) (ht : (s.control t).owns = true) :
    s.writer = true := by
  have hcount := countAt_ne_zero ht
  rw [h.writer] at hcount
  cases hw : s.writer with
  | true => rfl
  | false =>
    rw [hw] at hcount
    exact absurd rfl hcount

theorem LockInv.exists_owner (h : LockInv readerSet s) (hw : s.writer = true) :
    ∃ t, (s.control t).owns = true := by
  by_contra hnone
  have hzero : countAt Control.owns s.control = 0 :=
    countAt_eq_zero.mpr fun t => by simpa using fun ht => hnone ⟨t, ht⟩
  rw [h.writer, hw] at hzero
  cases hzero

theorem LockInv.exists_counted (h : LockInv readerSet s) (hr : s.readers ≠ 0) :
    ∃ t, (s.control t).counted = true := by
  by_contra hnone
  have hzero : countAt Control.counted s.control = 0 :=
    countAt_eq_zero.mpr fun t => by simpa using fun ht => hnone ⟨t, ht⟩
  rw [← h.readers] at hzero
  exact hr (UInt32.toNat_inj.mp hzero)

theorem LockInv.idle (h : LockInv readerSet s) (hbusy : busyCount s = 0) :
    (∀ t, s.control t = .idle) ∧ s.readers = 0 ∧ s.writer = false := by
  have hidle : ∀ t, s.control t = .idle := by
    intro t
    have hfalse := countAt_eq_zero.mp hbusy t
    cases hc : s.control t <;> first | rfl | (rw [hc] at hfalse; cases hfalse)
  have hnobody : ∀ p : Control → Bool, p .idle = false → countAt p s.control = 0 :=
    fun p hp => countAt_eq_zero.mpr fun t => by rw [hidle t, hp]
  refine ⟨hidle, ?_, ?_⟩
  · apply UInt32.toNat_inj.mp
    rw [h.readers, hnobody _ rfl]
    rfl
  · have howner := h.writer
    rw [hnobody _ rfl] at howner
    cases hw : s.writer with
    | false => rfl
    | true =>
      rw [hw] at howner
      cases howner

variable [DecidableEq T]

theorem LockInv.proceeds (h : LockInv readerSet s) (hsmall : readerSet.card < 2 ^ 32)
    {a : Action T} {r : StepResult} (ha : a.starts = false) (hs : s.step a = some (r, s')) :
    LockInv readerSet s' := by
  refine h.step hsmall ?_ (System.step_spec hs)
  rintro t rfl
  cases ha

/-- A reader that moves towards the way out. -/
theorem Draining.reader_moves (h : Draining readerSet t busy s) (hsmall : readerSet.card < 2 ^ 32)
    {a : Action T} {r : StepResult} {c : Control} (hne : t ≠ u)
    (hs : s.step a = some (r, s')) (ha : a.starts = false)
    (hcontrol : s'.control = Function.update s.control u c)
    (hc : c.counted.toNat + c.checking.toNat <
      (s.control u).counted.toNat + (s.control u).checking.toNat)
    (hu : (s.control u).busy = true) :
    CanFinish s fun s' => Draining readerSet t busy s' ∧ drainMeasure s' < drainMeasure s := by
  refine .single ha hs ⟨⟨h.inv.proceeds hsmall ha hs, ?_, ?_⟩, ?_⟩
  · rw [hcontrol, Function.update_of_ne hne]
    exact h.waits
  · have hmove := countAt_update Control.busy s.control u c
    have hbusy := h.busy
    have hle : c.busy.toNat ≤ 1 := Bool.toNat_le c.busy
    rw [hu, Bool.toNat_true] at hmove
    rw [busyCount] at hbusy ⊢
    rw [hcontrol]
    omega
  · have hcounted := countAt_update Control.counted s.control u c
    have hchecking := countAt_update Control.checking s.control u c
    rw [drainMeasure, drainMeasure, hcontrol]
    omega

/-- While the writer waits, some reader that has counted itself gets closer to the way out. -/
theorem Draining.down (h : Draining readerSet t busy s) (hsmall : readerSet.card < 2 ^ 32)
    (hr : s.readers ≠ 0) :
    CanFinish s fun s' => Draining readerSet t busy s' ∧ drainMeasure s' < drainMeasure s := by
  obtain ⟨u, hu⟩ := h.inv.exists_counted hr
  have hne : t ≠ u := by
    rintro rfl
    rw [h.waits] at hu
    cases hu
  have hw : s.writer = true := h.inv.writer_of_owns (t := t) (by rw [h.waits]; rfl)
  cases hc : s.control u with
  | reading =>
    have hstep : s.step (.unlockRead u) =
        some (.unlocked, { s.setControl u .idle with readers := s.readers - 1 }) := by
      simp [System.step, hc]
    exact h.reader_moves hsmall hne hstep rfl rfl (by rw [hc]; decide) (by rw [hc]; rfl)
  | readCheck =>
    -- the flag is up, so the second look at it sends the reader back
    have hstep : s.step (.proceed u false) = some (.running, s.setControl u .readBackOut) := by
      simp [System.step, hc, hw]
    exact h.reader_moves hsmall hne hstep rfl rfl (by rw [hc]; decide) (by rw [hc]; rfl)
  | readBackOut =>
    have hstep : s.step (.proceed u false) =
        some (.running, { s.setControl u .readSpin with readers := s.readers - 1 }) := by
      simp [System.step, hc]
    exact h.reader_moves hsmall hne hstep rfl rfl (by rw [hc]; decide) (by rw [hc]; rfl)
  | _ =>
    rw [hc] at hu
    cases hu

theorem Left.busyCount_lt {s' : System T} (h : Left s t s') (ht : (s.control t).busy = true) :
    busyCount s' < busyCount s := by
  have hleave : countAt Control.busy (Function.update s.control t .idle) + 1 =
      countAt Control.busy s.control := countAt_update_leave ht rfl
  rw [busyCount, busyCount, h.1]
  omega

/-- The owner of the flag goes first. -/
theorem LockInv.owner_leaves (h : LockInv readerSet s) (hsmall : readerSet.card < 2 ^ 32)
    (ht : (s.control t).owns = true) :
    CanFinish s fun s' => busyCount s' < busyCount s := by
  cases hc : s.control t with
  | writing => exact (finish_writing hc).imp fun _ hleft => hleft.busyCount_lt (by rw [hc]; rfl)
  | writeDrain =>
    have hstart : Draining readerSet t (busyCount s) s := ⟨h, hc, Nat.le_refl _⟩
    have hdrain : CanFinish s fun s' => Draining readerSet t (busyCount s) s' ∧ s'.readers = 0 :=
      CanReach.measure drainMeasure (fun _ hd hr => hd.down hsmall hr) hstart
    refine hdrain.trans ?_
    rintro s' ⟨hd, hr⟩
    refine (finish_drained hd.waits hr).imp fun u hleft => ?_
    exact Nat.lt_of_lt_of_le (hleft.busyCount_lt (by rw [hd.waits]; rfl)) hd.busy
  | _ =>
    rw [hc] at ht
    cases ht

/-- As long as a thread is at work, one can leave. -/
theorem LockInv.someone_leaves (h : LockInv readerSet s) (hsmall : readerSet.card < 2 ^ 32)
    (ht : (s.control t).busy = true) :
    CanFinish s fun s' => busyCount s' < busyCount s := by
  cases hw : s.writer with
  | true =>
    obtain ⟨u, hu⟩ := h.exists_owner hw
    exact h.owner_leaves hsmall hu
  | false =>
    cases hreads : (s.control t).reads with
    | true => exact (finish_reader hreads hw).imp fun _ hleft => hleft.busyCount_lt ht
    | false =>
      cases hc : s.control t with
      | writeClaim =>
        have hstep : s.step (.proceed t false) =
            some (.running, { s.setControl t .writeDrain with writer := true }) := by
          simp [System.step, hc, hw, compareExchangeWeak]
        have howns : (({ s.setControl t .writeDrain with writer := true } : System T).control
            t).owns = true := by
          simp [System.setControl, Control.owns]
        have hbusy : busyCount { s.setControl t .writeDrain with writer := true } = busyCount s :=
          countAt_update_same (by rw [hc]; rfl)
        refine .head rfl hstep ?_
        exact hbusy ▸ (h.proceeds hsmall rfl hstep).owner_leaves hsmall howns
      | idle =>
        rw [hc] at ht
        cases ht
      | writeDrain | writing =>
        have howner := h.writer_of_owns (t := t) (by rw [hc]; rfl)
        rw [hw] at howner
        cases howner
      | _ =>
        rw [hc] at hreads
        cases hreads

/-- No run locks anybody up: without another lock call every thread can get out, and then the
two words are as they were at the start. -/
theorem rwSpinLock_quiesces {actions : List (Action T)}
    {es : List (Event (System T) (Action T) StepResult)}
    (h : exec System.step System.init actions = some (es, s))
    (hsmall : (readerThreads actions).card < 2 ^ 32) :
    CanFinish s fun s' => (∀ t, s'.control t = .idle) ∧ s'.readers = 0 ∧ s'.writer = false := by
  have hdown : ∀ s : System T, LockInv (readerThreads actions) s → ¬busyCount s = 0 →
      CanFinish s fun s' => LockInv (readerThreads actions) s' ∧ busyCount s' < busyCount s := by
    intro s hinv hbusy
    obtain ⟨t, ht⟩ : ∃ t, (s.control t).busy = true := by
      by_contra hnone
      exact hbusy (countAt_eq_zero.mpr fun t => by simpa using fun ht => hnone ⟨t, ht⟩)
    exact (hinv.someone_leaves hsmall ht).keep
      (fun _ _ _ _ ha hinv hstep => hinv.proceeds hsmall ha hstep) hinv
  refine (CanReach.measure busyCount hdown (exec_lockInv h hsmall)).imp ?_
  rintro s' ⟨hinv, hbusy⟩
  exact hinv.idle hbusy

end Drain

theorem rwSpinLock_quiesces_handshake :
    ∃ es s, exec System.step System.init handshake = some (es, s) ∧ s.readers = 2 ∧
      s.writer = true ∧
      CanFinish s fun s' => (∀ t, s'.control t = .idle) ∧ s'.readers = 0 ∧ s'.writer = false := by
  have hrun : exec System.step System.init handshake = some (_, _) := rfl
  exact ⟨_, _, hrun, rfl, rfl, rwSpinLock_quiesces hrun (by decide)⟩

end HftExercises.RwSpinLock
