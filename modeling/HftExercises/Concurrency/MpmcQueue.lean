import Mathlib.Data.Nat.ModEq
import HftExercises.Core.ListFacts
import HftExercises.Core.Threads

/-! # The bounded multi-producer multi-consumer queue

Tickets are drawn from `tail_` by pushes and from `head_` by pops; ticket `k` uses
slot `k % N`. The sequence number of a slot is `k` while it waits for the push of
ticket `k` and `k + 1` from the end of that push to the end of the pop of `k`,
which passes the slot on to ticket `k + N`. With two slots or more the two kinds
of number cannot be confused, since `k` and `k + 1` belong to different slots.
-/
namespace HftExercises.Mpmc
variable {T V : Type*}

/-- Where a thread is, with its value or `out` and its `pos`. A claiming thread
has found its sequence number and is about to exchange the counter. -/
inductive Control (V : Type*) where
  | idle
  | pushLoaded (value : V) (pos : ℕ)
  | pushClaiming (value : V) (pos : ℕ)
  | pushReload (value : V)
  | writing (value : V) (pos : ℕ)
  | publishing (value : V) (pos : ℕ)
  | popLoaded (out : V) (pos : ℕ)
  | popClaiming (out : V) (pos : ℕ)
  | popReload (out : V)
  | reading (out : V) (pos : ℕ)
  | releasing (out : V) (pos : ℕ)
  deriving DecidableEq, Repr

structure System (T V : Type*) where
  head : ℕ
  tail : ℕ
  seq : ℕ → ℕ
  value : ℕ → V
  control : T → Control V

def System.init [Inhabited V] : System T V where
  head := 0
  tail := 0
  seq := fun i => i
  value := fun _ => default
  control := fun _ => .idle

inductive Action (T V : Type*) where
  | push (thread : T) (value : V)
  | tryPop (thread : T) (out : V)
  | proceed (thread : T) (spurious : Bool)
  deriving DecidableEq, Repr

/-- The ticket a step claimed, or how the call returned. -/
inductive StepResult (V : Type*) where
  | running
  | claimedTail (ticket : ℕ) (value : V)
  | claimedHead (ticket : ℕ)
  | pushed (ticket : ℕ) (value : V)
  | popped (ticket : ℕ) (out : V)
  | empty (out : V)
  deriving DecidableEq, Repr

section Step
variable [DecidableEq T] (N : ℕ)

def System.setControl (s : System T V) (t : T) (c : Control V) : System T V :=
  { s with control := Function.update s.control t c }

@[simp] theorem System.setControl_self (s : System T V) (t : T) (c : Control V) :
    (s.setControl t c).control t = c := by
  simp [System.setControl]

/-- The loop of `try_enqueue`. When it returns false, `push` calls it again. -/
def System.checkTail (s : System T V) (t : T) (value : V) (pos : ℕ) :
    StepResult V × System T V :=
  let dif : ℤ := (s.seq (pos % N) : ℤ) - (pos : ℤ)
  if dif = 0 then (.running, s.setControl t (.pushClaiming value pos))
  else if dif < 0 then (.running, s.setControl t (.pushReload value))
  else (.running, s.setControl t (.pushReload value))

def System.checkHead (s : System T V) (t : T) (out : V) (pos : ℕ) :
    StepResult V × System T V :=
  let dif : ℤ := (s.seq (pos % N) : ℤ) - ((pos + 1 : ℕ) : ℤ)
  if dif = 0 then (.running, s.setControl t (.popClaiming out pos))
  else if dif < 0 then (.empty out, s.setControl t .idle)
  else (.running, s.setControl t (.popReload out))

def System.proceed (s : System T V) (t : T) (spurious : Bool) :
    Option (StepResult V × System T V) :=
  match s.control t with
  | .idle => none
  | .pushLoaded value pos => some (s.checkTail N t value pos)
  | .pushReload value => some (.running, s.setControl t (.pushLoaded value s.tail))
  | .pushClaiming value pos =>
    match compareExchangeWeak s.tail pos (pos + 1) spurious with
    | none => some (.running, s.setControl t (.pushLoaded value s.tail))
    | some tail =>
      some (.claimedTail pos value, { s.setControl t (.writing value pos) with tail := tail })
  | .writing value pos =>
    some (.running, { s.setControl t (.publishing value pos) with
      value := Function.update s.value (pos % N) value })
  | .publishing value pos =>
    some (.pushed pos value, { s.setControl t .idle with
      seq := Function.update s.seq (pos % N) (pos + 1) })
  | .popLoaded out pos => some (s.checkHead N t out pos)
  | .popReload out => some (.running, s.setControl t (.popLoaded out s.head))
  | .popClaiming out pos =>
    match compareExchangeWeak s.head pos (pos + 1) spurious with
    | none => some (.running, s.setControl t (.popLoaded out s.head))
    | some head =>
      some (.claimedHead pos, { s.setControl t (.reading out pos) with head := head })
  | .reading _ pos =>
    some (.running, s.setControl t (.releasing (s.value (pos % N)) pos))
  | .releasing out pos =>
    some (.popped pos out, { s.setControl t .idle with
      seq := Function.update s.seq (pos % N) (pos + N) })

def System.step (s : System T V) : Action T V → Option (StepResult V × System T V)
  | .push t value =>
    match s.control t with
    | .idle => some (.running, s.setControl t (.pushLoaded value s.tail))
    | _ => none
  | .tryPop t out =>
    match s.control t with
    | .idle => some (.running, s.setControl t (.popLoaded out s.head))
    | _ => none
  | .proceed t spurious => s.proceed N t spurious

end Step

abbrev StepEvent (T V : Type*) := Event (System T V) (Action T V) (StepResult V)

def StepResult.claimedTail? : StepResult V → Option (ℕ × V)
  | .claimedTail ticket value => some (ticket, value)
  | _ => none

def StepResult.claimedHead? : StepResult V → Option ℕ
  | .claimedHead ticket => some ticket
  | _ => none

def StepResult.pushed? : StepResult V → Option (ℕ × V)
  | .pushed ticket value => some (ticket, value)
  | _ => none

def StepResult.popped? : StepResult V → Option (ℕ × V)
  | .popped ticket out => some (ticket, out)
  | _ => none

/-- The tail tickets claimed so far, in order, each with the value of its push. -/
def tailClaims (es : List (StepEvent T V)) : List (ℕ × V) :=
  es.filterMap (fun e => e.result.claimedTail?)

def headClaims (es : List (StepEvent T V)) : List ℕ :=
  es.filterMap (fun e => e.result.claimedHead?)

/-- The completed pushes, each with its ticket. -/
def pushes (es : List (StepEvent T V)) : List (ℕ × V) :=
  es.filterMap (fun e => e.result.pushed?)

/-- The completed pops that returned true, each with its ticket. -/
def pops (es : List (StepEvent T V)) : List (ℕ × V) :=
  es.filterMap (fun e => e.result.popped?)

def Action.thread : Action T V → T
  | .push t _ => t
  | .tryPop t _ => t
  | .proceed t _ => t

def Action.starts : Action T V → Bool
  | .proceed _ _ => false
  | _ => true

/-- The value of the push a thread is in. -/
def Control.pushing? : Control V → Option V
  | .pushLoaded value _ => some value
  | .pushClaiming value _ => some value
  | .pushReload value => some value
  | .writing value _ => some value
  | .publishing value _ => some value
  | _ => none

/-- The ticket of a push between its claim and its return. -/
def Control.writes? : Control V → Option ℕ
  | .writing _ pos => some pos
  | .publishing _ pos => some pos
  | _ => none

/-- The ticket of a pop between its claim and its return. -/
def Control.reads? : Control V → Option ℕ
  | .reading _ pos => some pos
  | .releasing _ pos => some pos
  | _ => none

def Control.ticket? (c : Control V) : Option ℕ := c.writes?.or c.reads?

/-- A state that relies on nothing but the counter it has just loaded. -/
def Fresh (s : System T V) : Control V → Prop
  | .idle => True
  | .pushReload _ => True
  | .popReload _ => True
  | .pushLoaded _ pos => pos = s.tail
  | .popLoaded _ pos => pos = s.head
  | _ => False

/-- What a step can do. -/
inductive StepSpec [DecidableEq T] (N : ℕ) (s : System T V) :
    Action T V → StepResult V → System T V → Prop
  | quiet {a : Action T V} {r : StepResult V} {c : Control V}
      (ht : (s.control a.thread).ticket? = none) (hc : Fresh s c)
      (hpush : ∀ v, c.pushing? = some v → a = .push a.thread v ∨
        (a.starts = false ∧ (s.control a.thread).pushing? = some v))
      (hr : r = .running ∨ ∃ out, r = .empty out) : StepSpec N s a r (s.setControl a.thread c)
  | found {t : T} {spurious : Bool} {value : V} {pos : ℕ}
      (ht : s.control t = .pushLoaded value pos) (hseq : s.seq (pos % N) = pos) :
      StepSpec N s (.proceed t spurious) .running (s.setControl t (.pushClaiming value pos))
  | claimTail {t : T} {spurious : Bool} {value : V}
      (ht : s.control t = .pushClaiming value s.tail) :
      StepSpec N s (.proceed t spurious) (.claimedTail s.tail value)
        { s.setControl t (.writing value s.tail) with tail := s.tail + 1 }
  | write {t : T} {spurious : Bool} {value : V} {pos : ℕ}
      (ht : s.control t = .writing value pos) :
      StepSpec N s (.proceed t spurious) .running { s.setControl t (.publishing value pos) with
        value := Function.update s.value (pos % N) value }
  | publish {t : T} {spurious : Bool} {value : V} {pos : ℕ}
      (ht : s.control t = .publishing value pos) :
      StepSpec N s (.proceed t spurious) (.pushed pos value) { s.setControl t .idle with
        seq := Function.update s.seq (pos % N) (pos + 1) }
  | seen {t : T} {spurious : Bool} {out : V} {pos : ℕ}
      (ht : s.control t = .popLoaded out pos) (hseq : s.seq (pos % N) = pos + 1) :
      StepSpec N s (.proceed t spurious) .running (s.setControl t (.popClaiming out pos))
  | claimHead {t : T} {spurious : Bool} {out : V}
      (ht : s.control t = .popClaiming out s.head) :
      StepSpec N s (.proceed t spurious) (.claimedHead s.head)
        { s.setControl t (.reading out s.head) with head := s.head + 1 }
  | read {t : T} {spurious : Bool} {out : V} {pos : ℕ} (ht : s.control t = .reading out pos) :
      StepSpec N s (.proceed t spurious) .running
        (s.setControl t (.releasing (s.value (pos % N)) pos))
  | release {t : T} {spurious : Bool} {out : V} {pos : ℕ}
      (ht : s.control t = .releasing out pos) :
      StepSpec N s (.proceed t spurious) (.popped pos out) { s.setControl t .idle with
        seq := Function.update s.seq (pos % N) (pos + N) }

section Spec
variable [DecidableEq T] {N : ℕ} {s s' : System T V} {a : Action T V} {r : StepResult V}

/-- A thread that stays outside the slots, in the same call. -/
theorem StepSpec.stay {t : T} {spurious : Bool} {c : Control V}
    (ht : (s.control t).ticket? = none) (hc : Fresh s c)
    (hpush : c.pushing? = none ∨ c.pushing? = (s.control t).pushing?)
    (hr : r = .running ∨ ∃ out, r = .empty out) :
    StepSpec N s (.proceed t spurious) r (s.setControl t c) := by
  refine .quiet ht hc ?_ hr
  intro v hv
  refine .inr ⟨rfl, ?_⟩
  rcases hpush with hnone | hsame
  · rw [hnone] at hv
    cases hv
  · exact hsame.symm.trans hv

theorem System.checkTail_spec {t : T} (spurious : Bool) {value : V} {pos : ℕ}
    (ht : s.control t = .pushLoaded value pos) :
    StepSpec N s (.proceed t spurious) (s.checkTail N t value pos).1
      (s.checkTail N t value pos).2 := by
  have hticket : (s.control t).ticket? = none := by
    rw [ht]
    rfl
  have hpush : (Control.pushReload value).pushing? = (s.control t).pushing? := by
    rw [ht]
    rfl
  unfold System.checkTail
  dsimp only
  split_ifs with hzero hneg
  · exact .found ht (by omega)
  · exact .stay hticket trivial (.inr hpush) (.inl rfl)
  · exact .stay hticket trivial (.inr hpush) (.inl rfl)

theorem System.checkHead_spec {t : T} (spurious : Bool) {out : V} {pos : ℕ}
    (ht : s.control t = .popLoaded out pos) :
    StepSpec N s (.proceed t spurious) (s.checkHead N t out pos).1
      (s.checkHead N t out pos).2 := by
  have hticket : (s.control t).ticket? = none := by
    rw [ht]
    rfl
  unfold System.checkHead
  dsimp only
  split_ifs with hzero hneg
  · exact .seen ht (by omega)
  · exact .stay hticket trivial (.inl rfl) (.inr ⟨out, rfl⟩)
  · exact .stay hticket trivial (.inl rfl) (.inl rfl)

theorem System.step_spec (h : s.step N a = some (r, s')) : StepSpec N s a r s' := by
  cases a with
  | push t value =>
    simp only [System.step] at h
    split at h
    · rename_i hidle
      cases h
      refine .quiet (by rw [Action.thread, hidle]; rfl) rfl ?_ (.inl rfl)
      intro v hv
      cases hv
      exact .inl rfl
    · cases h
  | tryPop t out =>
    simp only [System.step] at h
    split at h
    · rename_i hidle
      cases h
      refine .quiet (by rw [Action.thread, hidle]; rfl) rfl ?_ (.inl rfl)
      intro v hv
      cases hv
    · cases h
  | proceed t spurious =>
    simp only [System.step, System.proceed] at h
    split at h
    · cases h
    · rename_i value pos ht
      have hspec := System.checkTail_spec (N := N) spurious ht
      rwa [Option.some.inj h] at hspec
    · rename_i value ht
      cases h
      exact .stay (by rw [ht]; rfl) rfl (.inr (by rw [ht]; rfl)) (.inl rfl)
    · rename_i value pos ht
      split at h
      · cases h
        exact .stay (by rw [ht]; rfl) rfl (.inr (by rw [ht]; rfl)) (.inl rfl)
      · rename_i tail hcas
        cases h
        obtain ⟨rfl, rfl⟩ := compareExchangeWeak_eq_some hcas
        exact .claimTail ht
    · rename_i value pos ht
      cases h
      exact .write ht
    · rename_i value pos ht
      cases h
      exact .publish ht
    · rename_i out pos ht
      have hspec := System.checkHead_spec (N := N) spurious ht
      rwa [Option.some.inj h] at hspec
    · rename_i out ht
      cases h
      exact .stay (by rw [ht]; rfl) rfl (.inl rfl) (.inl rfl)
    · rename_i out pos ht
      split at h
      · cases h
        exact .stay (by rw [ht]; rfl) rfl (.inl rfl) (.inl rfl)
      · rename_i head hcas
        cases h
        obtain ⟨rfl, rfl⟩ := compareExchangeWeak_eq_some hcas
        exact .claimHead ht
    · rename_i out pos ht
      cases h
      exact .read ht
    · rename_i out pos ht
      cases h
      exact .release ht

end Spec

end HftExercises.Mpmc
