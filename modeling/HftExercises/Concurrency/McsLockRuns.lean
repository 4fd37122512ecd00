import HftExercises.Concurrency.McsLockQueue
import HftExercises.Core.Execution
import Mathlib.Algebra.Order.BigOperators.Group.Finset

/-! # Runs of the MCS lock

Entering follows the order of the exchanges in every run, whether or not a
compare-exchange of an unlock fails for no reason. What such a failure does break
is the wait for a successor: there may be none, and that is the one deadlock.
-/
namespace HftExercises.McsLock
variable {T : Type*}

/-- The queue explains the state, and the threads that have exchanged and not yet
entered are its waiting members in order. -/
structure LockInv (es : List (StepEvent T)) (s : System T) (queue : List T) : Prop where
  shape : QueueInv s queue
  order : exchanged es = entered es ++ queue.filter fun t => (s.control t).waiting
  safe : ∀ e ∈ es, e.result ≠ .nullDereference

section Runs
variable {s s' : System T} {queue : List T} {es : List (StepEvent T)}
variable {a : Action T} {r : StepResult} {e : StepEvent T}

theorem exchanged_append : exchanged (es ++ [e]) =
    exchanged es ++ if e.result.exchanges = true then [e.call.thread] else [] := by
  cases he : e.result.exchanges <;> simp [exchanged, he]

theorem entered_append : entered (es ++ [e]) =
    entered es ++ if e.result.enters = true then [e.call.thread] else [] := by
  cases he : e.result.enters <;> simp [entered, he]

theorem safe_append (h : ∀ e ∈ es, e.result ≠ .nullDereference) (he : e.result ≠ .nullDereference) :
    ∀ e' ∈ es ++ [e], e'.result ≠ .nullDereference := by
  intro e' hmem
  rcases List.mem_append.mp hmem with hmem | hmem
  · exact h e' hmem
  · rw [List.mem_singleton.mp hmem]
    exact he

/-- A step that neither exchanges nor enters leaves the order alone. -/
theorem LockInv.quiet {queue' : List T} (h : LockInv es s queue) (hq : QueueInv s' queue')
    (hx : r.exchanges = false) (he : r.enters = false) (hr : r ≠ .nullDereference)
    (hwait : (queue'.filter fun t => (s'.control t).waiting) =
      queue.filter fun t => (s.control t).waiting) : LockInv (es ++ [⟨s, a, r⟩]) s' queue' := by
  refine ⟨hq, ?_, safe_append h.safe hr⟩
  rw [exchanged_append, entered_append, hx, he, hwait, h.order]
  simp

/-- The queue in the words of the interface. -/
theorem QueueInv.singleChain (h : QueueInv s queue) : SingleChain s queue where
  distinct := h.distinct
  members := h.members
  holder := fun _ ht => h.head_of_holds ht
  tail := h.tail
  links := by
    refine h.chain.imp ?_
    rintro a b ⟨_, ⟨hlink, hnull⟩ | ⟨_, hnext⟩⟩
    · exact Or.inr ⟨hnull, hlink⟩
    · exact Or.inl hnext
  end_null := fun t ht => h.end_null t (h.tail.trans ht)

variable [DecidableEq T]

theorem LockInv.outside (h : LockInv es s queue) {t : T} {c : Control T}
    {next : T → Option T} {locked : T → Bool} (ht : (s.control t).enqueued = false)
    (hc : c.enqueued = false) (hnext : ∀ u, u ≠ t → next u = s.next u)
    (hlocked : ∀ u, u ≠ t → locked u = s.locked u) (hfresh : c.Fresh (next t) (locked t)) :
    LockInv (es ++ [⟨s, a, .running⟩]) { s.setControl t c with next := next, locked := locked }
      queue := by
  refine h.quiet (h.shape.outside ht hc hnext hlocked hfresh) rfl rfl nofun ?_
  exact filter_update_notMem fun hmem => h.shape.ne_of_mem ht hmem rfl

theorem LockInv.exchange (h : LockInv es s queue) {c : Control T}
    (ht : s.control a.thread = .exchange) (hc : c.enqueued = true)
    (hlast : ∀ prev, queue.getLast? = some prev → c = .link prev)
    (hfront : queue = [] → c.Front (s.next a.thread) (s.locked a.thread))
    (hx : r.exchanges = true) (hr : r ≠ .nullDereference)
    (he : r.enters = true ↔ c.waiting = false) (hempty : c.waiting = false → queue = []) :
    LockInv (es ++ [⟨s, a, r⟩]) { s.setControl a.thread c with tail := some a.thread }
      (queue ++ [a.thread]) := by
  refine ⟨h.shape.exchange ht hc hlast hfront, ?_, safe_append h.safe hr⟩
  have hnot : a.thread ∉ queue := fun hmem => h.shape.ne_of_mem (by rw [ht]; rfl) hmem rfl
  have hfilter : ((queue ++ [a.thread]).filter fun t =>
      (Function.update s.control a.thread c t).waiting) =
      (queue.filter fun t => (s.control t).waiting) ++ if c.waiting = true then [a.thread] else [] := by
    rw [List.filter_append, filter_update_notMem hnot]
    cases hwait : c.waiting <;> simp [hwait]
  change _ = _ ++ ((queue ++ [a.thread]).filter fun t =>
      (Function.update s.control a.thread c t).waiting)
  rw [hfilter, exchanged_append, entered_append, h.order, if_pos hx]
  cases hwait : c.waiting with
  | false =>
    rw [hempty hwait, if_pos (he.mpr hwait)]
    simp
  | true =>
    rw [if_neg (fun hin => by rw [he.mp hin] at hwait; cases hwait)]
    simp

theorem LockInv.enter (h : LockInv es s queue) (ht : s.control a.thread = .spin)
    (hl : s.locked a.thread = false) :
    LockInv (es ++ [⟨s, a, .entered⟩]) (s.setControl a.thread .critical) queue := by
  have hhead := h.shape.head_of_unlocked ht hl
  refine ⟨h.shape.atFront hhead rfl trivial, ?_, safe_append h.safe nofun⟩
  obtain ⟨rest, rfl⟩ : ∃ rest, queue = a.thread :: rest := by
    cases queue with
    | nil => cases hhead
    | cons x rest =>
      cases hhead
      exact ⟨rest, rfl⟩
  have hnot := (List.nodup_cons.mp h.shape.distinct).1
  have hwaits : (s.control a.thread).waiting = true := by
    rw [ht]
    rfl
  have horder := h.order
  rw [List.filter_cons_of_pos (p := fun t => (s.control t).waiting) hwaits] at horder
  change _ = _ ++ ((a.thread :: rest).filter fun t =>
    (Function.update s.control a.thread .critical t).waiting)
  rw [List.filter_cons_of_neg (by rw [Function.update_self]; exact nofun),
    filter_update_notMem hnot, exchanged_append, entered_append, horder]
  simp [StepResult.exchanges, StepResult.enters]

theorem LockInv.step (h : LockInv es s queue) (hs : StepSpec s a r s') :
    ∃ queue', LockInv (es ++ [⟨s, a, r⟩]) s' queue' := by
  cases hs with
  | stay => exact ⟨queue, h.quiet h.shape rfl rfl nofun rfl⟩
  | start ht =>
    exact ⟨queue, h.outside (by rw [ht]; rfl) rfl (fun _ _ => rfl) (fun _ _ => rfl) trivial⟩
  | clear ht =>
    refine ⟨queue, h.outside (by rw [ht]; rfl) rfl ?_ (fun _ _ => rfl) ?_⟩
    · exact fun u hu => Function.update_of_ne hu _ _
    · exact Function.update_self _ _ _
  | @arm t _ ht =>
    refine ⟨queue, h.outside (by rw [ht]; rfl) rfl (fun _ _ => rfl) ?_ ?_⟩
    · exact fun u hu => Function.update_of_ne hu _ _
    · have hfresh := h.shape.fresh t
      rw [ht] at hfresh
      exact ⟨hfresh, Function.update_self _ _ _⟩
  | @acquire t spurious ht htail =>
    have hempty : queue = [] := List.getLast?_eq_none_iff.mp (h.shape.tail.trans htail)
    refine ⟨queue ++ [t], h.exchange (a := .proceed t spurious) ht rfl ?_ (fun _ => trivial) rfl
      nofun ⟨fun _ => rfl, fun _ => rfl⟩ fun _ => hempty⟩
    intro prev hprev
    rw [hempty] at hprev
    cases hprev
  | @enqueue t prev spurious ht htail =>
    have hlast : queue.getLast? = some prev := h.shape.tail.trans htail
    refine ⟨queue ++ [t], h.exchange (a := .proceed t spurious) ht rfl ?_ ?_ rfl nofun ?_ nofun⟩
    · intro prev' hprev'
      rw [hlast] at hprev'
      cases hprev'
      rfl
    · rintro rfl
      cases hlast
    · exact ⟨nofun, nofun⟩
  | link ht =>
    refine ⟨queue, h.quiet (h.shape.link ht) rfl rfl nofun ?_⟩
    exact filter_update_same (by rw [ht]; rfl) queue
  | @enter t spurious ht hl => exact ⟨queue, h.enter (a := .proceed t spurious) ht hl⟩
  | @hold _ c ht hc hnext hhand hwait =>
    have hhead := h.shape.head_of_holds ht
    obtain ⟨_, hw⟩ := Control.holds_iff.mp ht
    obtain ⟨henq, hcw⟩ := Control.holds_iff.mp hc
    refine ⟨queue, h.quiet (h.shape.atFront hhead henq ?_) rfl rfl nofun ?_⟩
    · cases c with
      | unlockNext => exact hnext rfl
      | handOff next =>
        obtain ⟨ht, rfl⟩ := hhand next rfl
        have hfront := h.shape.front _ hhead
        rw [ht] at hfront
        exact ⟨rfl, hfront⟩
      | critical => trivial
      | unlockLoad => trivial
      | unlockCas => trivial
      | unlockWait => trivial
      | spin => cases hcw
      | link prev => cases hcw
      | idle => cases henq
      | clearNext => cases henq
      | arm => cases henq
      | exchange => cases henq
    · exact filter_update_same (hcw.trans hw.symm) queue
  | @empty t ht htail =>
    obtain ⟨hq, hinv⟩ := h.shape.empty (h.shape.head_of_holds (by rw [ht]; rfl)) htail
    refine ⟨[], h.quiet hinv rfl rfl nofun ?_⟩
    rw [hq, List.filter_cons_of_neg (by rw [ht]; exact nofun)]
    rfl
  | @fault t _ ht =>
    have hhead := h.shape.head_of_holds (t := t) (by rw [ht]; rfl)
    have hfront := h.shape.front t hhead
    rw [ht] at hfront
    exact absurd hfront.1.symm hfront.2
  | @handOff t succ _ ht =>
    obtain ⟨rest, rfl, hspin, hinv⟩ := h.shape.handOff ht
    refine ⟨succ :: rest, h.quiet hinv rfl rfl nofun ?_⟩
    have hnot := (List.nodup_cons.mp h.shape.distinct).1
    change ((succ :: rest).filter fun u => (Function.update s.control t .idle u).waiting) = _
    rw [filter_update_notMem hnot, List.filter_cons_of_neg (a := t) (by rw [ht]; exact nofun)]

theorem exec_lockInv {actions : List (Action T)}
    (h : exec System.step System.init actions = some (es, s)) : ∃ queue, LockInv es s queue := by
  refine exec_invariant (fun es s => ∃ queue, LockInv es s queue) ?_ ?_ h
  · rintro es s a r s' ⟨queue, hinv⟩ hstep
    exact hinv.step (System.step_spec hstep)
  · exact ⟨[], queueInv_init, rfl, nofun⟩

/-- At most one thread is in its critical section, threads enter in the order of
their exchanges, the link that is dereferenced is never null, and the enqueued
waiters form one chain. None of it needs a compare-exchange that succeeds
whenever it can. -/
theorem mcsLock_queue {actions : List (Action T)}
    (h : exec System.step System.init actions = some (es, s)) :
    (∀ t u, s.control t = .critical → s.control u = .critical → t = u) ∧
    entered es <+: exchanged es ∧
    (∀ e ∈ es, e.result ≠ .nullDereference) ∧
    (∀ t, s.control t = .unlockNext → s.next t ≠ none) ∧
    ∃ queue, SingleChain s queue := by
  obtain ⟨queue, hinv⟩ := exec_lockInv h
  refine ⟨?_, ⟨_, hinv.order.symm⟩, hinv.safe, ?_, queue, hinv.shape.singleChain⟩
  · intro t u ht hu
    have hheadt := hinv.shape.head_of_holds (t := t) (by rw [ht]; rfl)
    have hheadu := hinv.shape.head_of_holds (t := u) (by rw [hu]; rfl)
    exact Option.some.inj (hheadt.symm.trans hheadu)
  · intro t ht
    have hfront := hinv.shape.front t (hinv.shape.head_of_holds (by rw [ht]; rfl))
    rwa [ht] at hfront

/-- The compare-exchange of an unlock fails although nobody is behind its waiter. -/
def SpuriousFailure (s : System T) : Action T → Prop
  | .proceed t spurious => s.control t = .unlockCas ∧ s.tail = some t ∧ spurious = true
  | _ => False

/-- Whoever waits for a successor has one. -/
def SuccessorAwaited (s : System T) : Prop :=
  ∀ t, s.control t = .unlockWait → s.tail ≠ some t ∨ s.next t ≠ none

/-- Only a compare-exchange that failed for a reason leads to the wait, and the
tail never comes back to a waiter that is already enqueued. -/
theorem tail_ne_step (h : ∀ t, s.control t = .unlockWait → s.tail ≠ some t)
    (hs : StepSpec s a r s') (hno : ¬ SpuriousFailure s a) (t : T)
    (ht' : s'.control t = .unlockWait) : s'.tail ≠ some t := by
  have hmove : ∀ {u : T} {c : Control T}, Function.update s.control u c t = .unlockWait →
      c ≠ .unlockWait → t ≠ u ∧ s.tail ≠ some t := by
    intro u c hu hc
    rcases update_cases (· = Control.unlockWait) hu with ⟨_, hwait⟩ | ⟨hne, hwait⟩
    · exact absurd hwait hc
    · exact ⟨hne, h t hwait⟩
  cases hs with
  | stay => exact h t ht'
  | start _ => exact (hmove ht' nofun).2
  | clear _ => exact (hmove ht' nofun).2
  | arm _ => exact (hmove ht' nofun).2
  | acquire _ _ => exact fun he => (hmove ht' nofun).1 (Option.some.inj he).symm
  | enqueue _ _ => exact fun he => (hmove ht' nofun).1 (Option.some.inj he).symm
  | link _ => exact (hmove ht' nofun).2
  | enter _ _ => exact (hmove ht' nofun).2
  | @hold _ c _ _ _ _ hwait =>
    rcases update_cases (· = Control.unlockWait) ht' with ⟨rfl, hc⟩ | ⟨_, hold⟩
    · obtain ⟨hcas, hfail⟩ := hwait hc
      intro htail
      rw [hfail htail] at hno
      exact hno ⟨hcas, htail, rfl⟩
    · exact h t hold
  | empty _ _ => exact nofun
  | fault _ => exact h t ht'
  | handOff _ => exact (hmove ht' nofun).2

theorem waits_of_spuriousFailure (hno : SpuriousFailure s a) (hstep : s.step a = some (r, s'))
    (hnull : ∀ t, s.tail = some t → s.next t = none) : ¬ SuccessorAwaited s' := by
  cases a with
  | lock t => exact hno.elim
  | unlock t => exact hno.elim
  | proceed t spurious =>
    obtain ⟨ht, htail, rfl⟩ := hno
    have hfail : compareExchangeWeak s.tail (some t) none true = none := by
      simp [compareExchangeWeak]
    simp only [System.step, ht, hfail] at hstep
    cases hstep
    intro hgood
    rcases hgood t (Function.update_self _ _ _) with hne | hne
    · exact hne htail
    · exact hne (hnull t htail)

/-- In every state of a run each unlock that waits for a successor has one, if and
only if no compare-exchange of the run fails for no reason. -/
theorem mcsLock_successor_iff {actions : List (Action T)}
    (h : exec System.step System.init actions = some (es, s)) :
    ((∀ e ∈ es, SuccessorAwaited e.before) ∧ SuccessorAwaited s) ↔
      ∀ e ∈ es, ¬ SpuriousFailure e.before e.call := by
  refine exec_forall_iff (fun s => ∃ es queue, LockInv es s queue) SuccessorAwaited
    SpuriousFailure ?_ ?_ ?_ ⟨[], [], queueInv_init, rfl, nofun⟩ nofun h
  · rintro s a r s' ⟨es, queue, hinv⟩ hstep
    exact ⟨es ++ [⟨s, a, r⟩], hinv.step (System.step_spec hstep)⟩
  · rintro s a r s' ⟨es, queue, hinv⟩ hgood hno hstep t ht
    have htail : ∀ u, s.control u = .unlockWait → s.tail ≠ some u := by
      intro u hu hback
      rcases hgood u hu with hne | hne
      · exact hne hback
      · exact hne (hinv.shape.singleChain.end_null u hback)
    exact Or.inl (tail_ne_step htail (System.step_spec hstep) hno t ht)
  · rintro s a r s' ⟨es, queue, hinv⟩ hspurious hstep
    exact waits_of_spuriousFailure hspurious hstep hinv.shape.singleChain.end_null

end Runs

/-- The holder unlocks while a second thread has exchanged the tail and not yet
stored its link. -/
def pendingLink : List (Action Bool) :=
  [.lock false, .proceed false false, .proceed false false, .proceed false false,
    .lock true, .proceed true false, .proceed true false, .unlock false, .proceed false false,
    .proceed true false, .proceed false false]

theorem mcsLock_queue_pendingLink :
    ∃ es s, exec System.step System.init pendingLink = some (es, s) ∧
      s.control false = .unlockWait ∧ s.control true = .link false ∧
      entered es = [false] ∧ exchanged es = [false, true] ∧ ∃ queue, SingleChain s queue := by
  have hrun : exec System.step System.init pendingLink = some (_, _) := rfl
  exact ⟨_, _, hrun, rfl, rfl, rfl, rfl, (mcsLock_queue hrun).2.2.2.2⟩

theorem mcsLock_successor_iff_pendingLink :
    ∃ es s, exec System.step System.init pendingLink = some (es, s) ∧
      s.control false = .unlockWait ∧
      (((∀ e ∈ es, SuccessorAwaited e.before) ∧ SuccessorAwaited s) ↔
        ∀ e ∈ es, ¬ SpuriousFailure e.before e.call) := by
  have hrun : exec System.step System.init pendingLink = some (_, _) := rfl
  exact ⟨_, _, hrun, rfl, mcsLock_successor_iff hrun⟩

/-- One thread alone: its compare-exchange fails for no reason, and it waits for a
successor that does not exist. -/
theorem mcsLock_waits_alone :
    ∃ es s, exec System.step (System.init : System Unit)
        [.lock (), .proceed () false, .proceed () false, .proceed () false, .unlock (),
          .proceed () false, .proceed () true] = some (es, s) ∧
      s.control () = .unlockWait ∧ s.tail = some () ∧ s.next () = none := by
  exact ⟨_, _, rfl, rfl, rfl, rfl⟩

def Action.starts : Action T → Bool
  | .lock _ => true
  | .unlock _ | .proceed _ _ => false

/-- What the calls that are under way can still reach. -/
abbrev CanFinish [DecidableEq T] (s : System T) (P : System T → Prop) : Prop :=
  CanReach (fun a : Action T => a.starts = false) System.step s P

/-- The steps that a thread has left at most, unless it has to wait. -/
def Control.left : Control T → ℕ
  | .idle => 0
  | .handOff _ => 1
  | .unlockNext => 2
  | .unlockWait => 3
  | .unlockCas => 4
  | .unlockLoad => 5
  | .critical => 6
  | .spin => 7
  | .link _ => 8
  | .exchange => 9
  | .arm => 10
  | .clearNext => 11

/-- A thread in `lock` that has not stored its link yet. -/
def Control.arriving : Control T → Bool
  | .clearNext | .arm | .exchange | .link _ => true
  | _ => false

/-- An unlock waits for a successor, and nobody else is in the lock. -/
def Stranded (s : System T) : Prop :=
  ∃ t, s.control t = .unlockWait ∧ s.tail = some t ∧ ∀ u, u ≠ t → s.control u = .idle

def Sound [DecidableEq T] (s : System T) : Prop := ∃ es queue, LockInv es s queue

theorem not_stranded {s : System T} {u : T} (hidle : s.control u ≠ .idle)
    (hwait : s.control u ≠ .unlockWait) : ¬Stranded s := by
  rintro ⟨t, ht, -, hrest⟩
  by_cases hu : u = t
  · exact hwait (hu ▸ ht)
  · exact hidle (hrest u hu)

section Progress
variable [Fintype T] [DecidableEq T] {s s' : System T} {queue rest : List T} {t u : T}
  {c : Control T} {a : Action T} {r : StepResult}

/-- The steps that all threads together have left. -/
def work (s : System T) : ℕ := ∑ t, (s.control t).left

omit [Fintype T] in
theorem Sound.proceeds (h : Sound s) (hs : s.step a = some (r, s')) : Sound s' := by
  obtain ⟨es, queue, hinv⟩ := h
  exact ⟨_, hinv.step (System.step_spec hs)⟩

theorem Sound.moves (h : Sound s) (ha : a.starts = false) (hs : s.step a = some (r, s'))
    (hcontrol : s'.control = Function.update s.control t c) (hless : c.left < (s.control t).left)
    (hstranded : ¬Stranded s') :
    CanFinish s fun s' => (Sound s' ∧ ¬Stranded s') ∧ work s' < work s := by
  refine .single ha hs ⟨⟨h.proceeds hs, hstranded⟩, ?_⟩
  rw [work, work, hcontrol]
  refine Finset.sum_lt_sum ?_ ⟨t, Finset.mem_univ t, by rwa [Function.update_self]⟩
  intro u _
  by_cases hu : u = t
  · rw [hu, Function.update_self]
    exact hless.le
  · rw [Function.update_of_ne hu]

/-- A move after which its thread is neither out of the lock nor waiting for a successor. -/
theorem Sound.moves_on (h : Sound s) (ha : a.starts = false) (hs : s.step a = some (r, s'))
    (hcontrol : s'.control = Function.update s.control t c) (hless : c.left < (s.control t).left)
    (hidle : c ≠ .idle) (hwait : c ≠ .unlockWait) :
    CanFinish s fun s' => (Sound s' ∧ ¬Stranded s') ∧ work s' < work s := by
  have hc : s'.control t = c := by rw [hcontrol, Function.update_self]
  exact h.moves ha hs hcontrol hless (not_stranded (u := t) (hc ▸ hidle) (hc ▸ hwait))

/-- Until its link is stored, every step of a thread is its own. -/
theorem Sound.arrives (h : Sound s) (ht : (s.control t).arriving = true) :
    CanFinish s fun s' => (Sound s' ∧ ¬Stranded s') ∧ work s' < work s := by
  cases hc : s.control t with
  | clearNext =>
    have hstep : s.step (.proceed t false) = some (.running,
        { s.setControl t .arm with next := Function.update s.next t none }) := by
      simp [System.step, hc]
    exact h.moves_on rfl hstep rfl (by simp [hc, Control.left]) (by simp) (by simp)
  | arm =>
    have hstep : s.step (.proceed t false) = some (.running,
        { s.setControl t .exchange with locked := Function.update s.locked t true }) := by
      simp [System.step, hc]
    exact h.moves_on rfl hstep rfl (by simp [hc, Control.left]) (by simp) (by simp)
  | exchange =>
    cases htail : s.tail with
    | none =>
      have hstep : s.step (.proceed t false) = some (.acquired,
          { s.setControl t .critical with tail := some t }) := by
        simp [System.step, hc, htail]
      exact h.moves_on rfl hstep rfl (by simp [hc, Control.left]) (by simp) (by simp)
    | some prev =>
      have hstep : s.step (.proceed t false) = some (.queued,
          { s.setControl t (.link prev) with tail := some t }) := by
        simp [System.step, hc, htail]
      exact h.moves_on rfl hstep rfl (by simp [hc, Control.left]) (by simp) (by simp)
  | link prev =>
    have hstep : s.step (.proceed t false) = some (.running,
        { s.setControl t .spin with next := Function.update s.next prev (some t) }) := by
      simp [System.step, hc]
    exact h.moves_on rfl hstep rfl (by simp [hc, Control.left]) (by simp) (by simp)
  | _ =>
    rw [hc] at ht
    cases ht

omit [Fintype T] [DecidableEq T] in
/-- Once all links are stored, whoever comes right behind another waiter spins and is linked. -/
theorem QueueInv.successor (h : QueueInv s (t :: u :: rest))
    (hlinked : (s.control u).arriving = false) : s.control u = .spin ∧ s.next t = some u := by
  obtain ⟨-, ⟨hlink, -⟩ | hspin⟩ := (List.isChain_cons_cons.mp h.chain).1
  · rw [hlink] at hlinked
    cases hlinked
  · exact hspin

/-- Once all links are stored, the thread at the front can move. -/
theorem Sound.front_moves (h : Sound s) (hstranded : ¬Stranded s)
    (hlinked : ∀ t, (s.control t).arriving = false) (hbusy : s.control t ≠ .idle) :
    CanFinish s fun s' => (Sound s' ∧ ¬Stranded s') ∧ work s' < work s := by
  obtain ⟨es, queue, hinv⟩ := id h
  have henqueued : ∀ u, s.control u ≠ .idle → u ∈ queue := by
    intro u hu
    refine (hinv.shape.members u).mpr ?_
    have harriving := hlinked u
    cases hc : s.control u <;> first | rfl | exact absurd hc hu | (rw [hc] at harriving; cases harriving)
  obtain ⟨u, rest, rfl⟩ := List.exists_cons_of_ne_nil (List.ne_nil_of_mem (henqueued t hbusy))
  have hfront := hinv.shape.front u rfl
  have hsuccessor : rest = [] ∨ ∃ v, v ≠ u ∧ s.control v = .spin ∧ s.next u = some v := by
    cases rest with
    | nil => exact Or.inl rfl
    | cons v rest =>
      obtain ⟨hspin, hnext⟩ := hinv.shape.successor (hlinked v)
      have hne : v ≠ u := by
        rintro rfl
        exact (List.nodup_cons.mp hinv.shape.distinct).1 (List.mem_cons_self ..)
      exact Or.inr ⟨v, hne, hspin, hnext⟩
  cases hc : s.control u with
  | spin =>
    rw [hc] at hfront
    have hstep : s.step (.proceed u false) = some (.entered, s.setControl u .critical) := by
      simp [System.step, hc, show s.locked u = false from hfront]
    exact h.moves_on rfl hstep rfl (by simp [hc, Control.left]) (by simp) (by simp)
  | critical =>
    have hstep : s.step (.unlock u) = some (.running, s.setControl u .unlockLoad) := by
      simp [System.step, hc]
    exact h.moves_on rfl hstep rfl (by simp [hc, Control.left]) (by simp) (by simp)
  | unlockLoad =>
    cases hnext : s.next u with
    | none =>
      have hstep : s.step (.proceed u false) = some (.running, s.setControl u .unlockCas) := by
        simp [System.step, hc, hnext]
      exact h.moves_on rfl hstep rfl (by simp [hc, Control.left]) (by simp) (by simp)
    | some v =>
      have hstep : s.step (.proceed u false) = some (.running, s.setControl u .unlockNext) := by
        simp [System.step, hc, hnext]
      exact h.moves_on rfl hstep rfl (by simp [hc, Control.left]) (by simp) (by simp)
  | unlockCas =>
    by_cases htail : s.tail = some u
    · have hstep : s.step (.proceed u false) = some (.released,
          { s.setControl u .idle with tail := none }) := by
        simp [System.step, hc, htail, compareExchangeWeak]
      refine h.moves rfl hstep rfl (by simp [hc, Control.left]) ?_
      rintro ⟨_, _, hnone, _⟩
      cases hnone
    · have hstep : s.step (.proceed u false) = some (.running, s.setControl u .unlockWait) := by
        simp [System.step, hc, htail, compareExchangeWeak]
      refine h.moves rfl hstep rfl (by simp [hc, Control.left]) ?_
      obtain rfl | ⟨v, hne, hspin, -⟩ := hsuccessor
      · exact absurd hinv.shape.tail.symm htail
      · have hv : (s.setControl u .unlockWait).control v = .spin := by
          rw [← hspin]
          exact Function.update_of_ne hne ..
        exact not_stranded (u := v) (by simp [hv]) (by simp [hv])
  | unlockWait =>
    obtain rfl | ⟨v, hne, hspin, hnext⟩ := hsuccessor
    · refine absurd ⟨u, hc, hinv.shape.tail.symm, ?_⟩ hstranded
      intro v hv
      by_contra hidle
      exact hv (List.mem_singleton.mp (henqueued v hidle))
    · have hstep : s.step (.proceed u false) = some (.running, s.setControl u .unlockNext) := by
        simp [System.step, hc, hnext]
      exact h.moves_on rfl hstep rfl (by simp [hc, Control.left]) (by simp) (by simp)
  | unlockNext =>
    have hstep : s.step (.proceed u false) =
        some (.running, s.setControl u (.handOff (s.next u))) := by
      simp [System.step, hc]
    exact h.moves_on rfl hstep rfl (by simp [hc, Control.left]) (by simp) (by simp)
  | handOff next =>
    rw [hc] at hfront
    obtain ⟨rfl, hnext⟩ := hfront
    obtain rfl | ⟨v, hne, hspin, hv⟩ := hsuccessor
    · exact absurd (hinv.shape.end_null u rfl) hnext
    · have hstep : s.step (.proceed u false) = some (.released,
          { s.setControl u .idle with locked := Function.update s.locked v false }) := by
        rw [hv] at hc
        simp [System.step, hc]
      refine h.moves rfl hstep rfl (by simp [hc, Control.left]) ?_
      have hspin' : (Function.update s.control u .idle) v = .spin := by
        rw [Function.update_of_ne hne, hspin]
      exact not_stranded (u := v) (by simp [System.setControl, hspin'])
        (by simp [System.setControl, hspin'])
  | _ =>
    rw [hc] at hfront
    exact hfront.elim

omit [DecidableEq T] in
theorem work_eq_zero_iff : work s = 0 ↔ ∀ t, s.control t = .idle := by
  rw [work, Finset.sum_eq_zero_iff]
  constructor
  · intro h t
    have hleft := h t (Finset.mem_univ t)
    cases hc : s.control t <;> first | rfl | (rw [hc] at hleft; cases hleft)
  · intro h t _
    rw [h t]
    rfl

omit [Fintype T] in
/-- Whoever waits alone for a successor stays where it is. -/
theorem Stranded.stays (h : Stranded s) (hsound : Sound s) (ha : a.starts = false)
    (hs : s.step a = some (r, s')) : Stranded s' := by
  obtain ⟨t, ht, htail, hrest⟩ := id h
  obtain ⟨es, queue, hinv⟩ := hsound
  have hnull : s.next t = none := hinv.shape.end_null t (hinv.shape.tail.trans htail)
  have hcontrol : ∀ u, s.control u = .unlockWait ∧ u = t ∨ s.control u = .idle := by
    intro u
    by_cases hu : u = t
    · exact Or.inl ⟨hu ▸ ht, hu⟩
    · exact Or.inr (hrest u hu)
  cases a with
  | lock u => cases ha
  | unlock u => rcases hcontrol u with ⟨hc, -⟩ | hc <;> simp [System.step, hc] at hs
  | proceed u spurious =>
    rcases hcontrol u with ⟨hc, rfl⟩ | hc
    · have hstay : s.step (.proceed u spurious) = some (.running, s) := by
        simp [System.step, hc, hnull]
      rw [hstay] at hs
      cases hs
      exact h
    · simp [System.step, hc] at hs

/-- Without another call of `lock` everybody can get out and the queue is empty again, unless an
unlock waits for a successor and nobody is left to become one. -/
theorem mcsLock_quiesces_iff {actions : List (Action T)} {es : List (StepEvent T)}
    (h : exec System.step System.init actions = some (es, s)) :
    (CanFinish s fun s' => (∀ t, s'.control t = .idle) ∧ s'.tail = none) ↔ ¬Stranded s := by
  obtain ⟨queue, hinv⟩ := exec_lockInv h
  have hsound : Sound s := ⟨es, queue, hinv⟩
  constructor
  · intro hfinish hstranded
    obtain ⟨_, _, _, _, _, ⟨⟨t, ht, -⟩, -⟩, hidle, -⟩ :=
      hfinish.keep (I := fun s => Stranded s ∧ Sound s)
        (fun _ _ _ _ ha hi hs => ⟨hi.1.stays hi.2 ha hs, hi.2.proceeds hs⟩) ⟨hstranded, hsound⟩
    rw [hidle t] at ht
    cases ht
  · intro hstranded
    have hdown : ∀ s : System T, Sound s ∧ ¬Stranded s → ¬work s = 0 →
        CanFinish s fun s' => (Sound s' ∧ ¬Stranded s') ∧ work s' < work s := by
      rintro s ⟨hsound, hstranded⟩ hwork
      by_cases harriving : ∃ t, (s.control t).arriving = true
      · obtain ⟨t, ht⟩ := harriving
        exact hsound.arrives ht
      · obtain ⟨t, ht⟩ := not_forall.mp (mt work_eq_zero_iff.mpr hwork)
        exact hsound.front_moves hstranded
          (fun t => Bool.eq_false_iff.mpr fun hc => harriving ⟨t, hc⟩) ht
    refine (CanReach.measure work hdown ⟨hsound, hstranded⟩).imp ?_
    rintro s' ⟨⟨⟨es', queue', hinv'⟩, -⟩, hwork⟩
    have hidle := work_eq_zero_iff.mp hwork
    refine ⟨hidle, ?_⟩
    rw [← hinv'.shape.tail, List.getLast?_eq_none_iff]
    refine List.eq_nil_iff_forall_not_mem.mpr fun t ht => ?_
    have henqueued := (hinv'.shape.members t).mp ht
    rw [hidle t] at henqueued
    cases henqueued

end Progress

/-- The holder gives way to the thread that has yet to store its link; one that waits alone after
a compare-exchange that failed for no reason never leaves. -/
theorem mcsLock_quiesces_iff_pendingLink :
    (∃ es s, exec System.step System.init pendingLink = some (es, s) ∧
      s.control false = .unlockWait ∧
      CanFinish s fun s' => (∀ t, s'.control t = .idle) ∧ s'.tail = none) ∧
    ∃ es s, exec System.step (System.init : System Unit)
        [.lock (), .proceed () false, .proceed () false, .proceed () false, .unlock (),
          .proceed () false, .proceed () true] = some (es, s) ∧
      ¬CanFinish s fun s' => (∀ t, s'.control t = .idle) ∧ s'.tail = none := by
  constructor
  · have hrun : exec System.step System.init pendingLink = some (_, _) := rfl
    exact ⟨_, _, hrun, rfl,
      (mcsLock_quiesces_iff hrun).mpr (not_stranded (u := true) (by decide) (by decide))⟩
  · have hrun : exec System.step (System.init : System Unit)
        [.lock (), .proceed () false, .proceed () false, .proceed () false, .unlock (),
          .proceed () false, .proceed () true] = some (_, _) := rfl
    exact ⟨_, _, hrun, fun hfinish =>
      (mcsLock_quiesces_iff hrun).mp hfinish ⟨(), rfl, rfl, fun _ hu => absurd rfl hu⟩⟩

end HftExercises.McsLock
