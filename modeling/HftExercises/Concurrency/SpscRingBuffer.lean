import Mathlib.Data.List.Infix
import Mathlib.Algebra.Ring.Nat
import HftExercises.Core.ListFacts
import HftExercises.Core.Threads

/-! # The single-producer single-consumer ring buffer

Two unbounded counters over a ring of `N` slots, one of which stays empty. Each
side loads its own counter and then the other's, touches one slot and stores its
counter; each of these accesses is one step. Between its load and its store a
side works on a stale copy of the other counter, which can only make it more
careful.
-/
namespace HftExercises.Spsc

inductive Role where
  | producer
  | consumer
  deriving DecidableEq, Repr

/-- Where the producer is in `try_push`, with the value to push and its `t`. -/
inductive Producer (V : Type*) where
  | idle
  | loadedTail (value : V) (t : ℕ)
  | writing (value : V) (t : ℕ)
  | publishing (value : V) (t : ℕ)
  deriving DecidableEq, Repr

/-- Where the consumer is in `try_pop`, with what `out` holds and its `h`. -/
inductive Consumer (V : Type*) where
  | idle
  | loadedHead (out : V) (h : ℕ)
  | reading (out : V) (h : ℕ)
  | releasing (out : V) (h : ℕ)
  deriving DecidableEq, Repr

structure System (V : Type*) where
  head : ℕ
  tail : ℕ
  buffer : ℕ → V
  producer : Producer V
  consumer : Consumer V

variable {V : Type*}

def System.init [Inhabited V] : System V := ⟨0, 0, fun _ => default, .idle, .idle⟩

def kCapacity (N : ℕ) : ℕ := N - 1

/-- `idx & (N - 1)`. -/
def slot (N idx : ℕ) : ℕ := idx &&& (N - 1)

inductive Action (V : Type*) where
  | tryPush (value : V)
  | tryPop (out : V)
  | proceed (role : Role)
  deriving DecidableEq, Repr

/-- A call that is still running, or how it returned; a pop returns what `out`
holds then. -/
inductive StepResult (V : Type*) where
  | running
  | pushed (value : V)
  | pushFailed
  | popped (out : V)
  | popFailed (out : V)
  deriving DecidableEq, Repr

def System.stepProducer (N : ℕ) (s : System V) : Option (StepResult V × System V) :=
  match s.producer with
  | .idle => none
  | .loadedTail value t =>
    if t - s.head ≥ kCapacity N then some (.pushFailed, { s with producer := .idle })
    else some (.running, { s with producer := .writing value t })
  | .writing value t =>
    some (.running, { s with
      buffer := Function.update s.buffer (slot N t) value
      producer := .publishing value t })
  | .publishing value t => some (.pushed value, { s with tail := t + 1, producer := .idle })

def System.stepConsumer (N : ℕ) (s : System V) : Option (StepResult V × System V) :=
  match s.consumer with
  | .idle => none
  | .loadedHead out h =>
    if h = s.tail then some (.popFailed out, { s with consumer := .idle })
    else some (.running, { s with consumer := .reading out h })
  | .reading _ h => some (.running, { s with consumer := .releasing (s.buffer (slot N h)) h })
  | .releasing out h => some (.popped out, { s with head := h + 1, consumer := .idle })

def System.step (N : ℕ) (s : System V) : Action V → Option (StepResult V × System V)
  | .tryPush value =>
    match s.producer with
    | .idle => some (.running, { s with producer := .loadedTail value s.tail })
    | _ => none
  | .tryPop out =>
    match s.consumer with
    | .idle => some (.running, { s with consumer := .loadedHead out s.head })
    | _ => none
  | .proceed .producer => s.stepProducer N
  | .proceed .consumer => s.stepConsumer N

abbrev StepEvent (V : Type*) := Event (System V) (Action V) (StepResult V)

def StepResult.pushed? : StepResult V → Option V
  | .pushed value => some value
  | _ => none

def StepResult.popped? : StepResult V → Option V
  | .popped out => some out
  | _ => none

/-- The values of the successful pushes, in order. -/
def pushes (es : List (StepEvent V)) : List V := es.filterMap (fun e => e.result.pushed?)

/-- The values the successful pops returned, in order. -/
def pops (es : List (StepEvent V)) : List V := es.filterMap (fun e => e.result.popped?)

def Action.role : Action V → Role
  | .tryPush _ => .producer
  | .tryPop _ => .consumer
  | .proceed role => role

def Action.starts : Action V → Bool
  | .proceed _ => false
  | _ => true

/-- How the call began that this side is in, or has just finished. -/
def calledWith (role : Role) (es : List (StepEvent V)) : Option (Action V) :=
  callStart Action.role Action.starts role es

/-- What a step can do. -/
inductive StepSpec (N : ℕ) (s : System V) : Action V → StepResult V → System V → Prop
  | tryPush {value : V} (h : s.producer = .idle) :
      StepSpec N s (.tryPush value) .running { s with producer := .loadedTail value s.tail }
  | tryPop {out : V} (h : s.consumer = .idle) :
      StepSpec N s (.tryPop out) .running { s with consumer := .loadedHead out s.head }
  | full {value : V} {t : ℕ} (h : s.producer = .loadedTail value t)
      (hfull : t - s.head ≥ kCapacity N) :
      StepSpec N s (.proceed .producer) .pushFailed { s with producer := .idle }
  | room {value : V} {t : ℕ} (h : s.producer = .loadedTail value t)
      (hroom : t - s.head < kCapacity N) :
      StepSpec N s (.proceed .producer) .running { s with producer := .writing value t }
  | write {value : V} {t : ℕ} (h : s.producer = .writing value t) :
      StepSpec N s (.proceed .producer) .running { s with
        buffer := Function.update s.buffer (slot N t) value
        producer := .publishing value t }
  | publish {value : V} {t : ℕ} (h : s.producer = .publishing value t) :
      StepSpec N s (.proceed .producer) (.pushed value)
        { s with tail := t + 1, producer := .idle }
  | empty {out : V} {h : ℕ} (hc : s.consumer = .loadedHead out h) (hempty : h = s.tail) :
      StepSpec N s (.proceed .consumer) (.popFailed out) { s with consumer := .idle }
  | ready {out : V} {h : ℕ} (hc : s.consumer = .loadedHead out h) (hready : h ≠ s.tail) :
      StepSpec N s (.proceed .consumer) .running { s with consumer := .reading out h }
  | read {out : V} {h : ℕ} (hc : s.consumer = .reading out h) :
      StepSpec N s (.proceed .consumer) .running
        { s with consumer := .releasing (s.buffer (slot N h)) h }
  | release {out : V} {h : ℕ} (hc : s.consumer = .releasing out h) :
      StepSpec N s (.proceed .consumer) (.popped out) { s with head := h + 1, consumer := .idle }

theorem System.step_spec {N : ℕ} {s s' : System V} {a : Action V} {r : StepResult V}
    (h : s.step N a = some (r, s')) : StepSpec N s a r s' := by
  cases a with
  | tryPush value =>
    simp only [System.step] at h
    split at h
    · rename_i hidle
      cases h
      exact .tryPush hidle
    · cases h
  | tryPop out =>
    simp only [System.step] at h
    split at h
    · rename_i hidle
      cases h
      exact .tryPop hidle
    · cases h
  | proceed role =>
    cases role with
    | producer =>
      simp only [System.step, System.stepProducer] at h
      split at h
      · cases h
      · rename_i value t hcontrol
        split_ifs at h with hfull
        · cases h
          exact .full hcontrol hfull
        · cases h
          exact .room hcontrol (by omega)
      · rename_i value t hcontrol
        cases h
        exact .write hcontrol
      · rename_i value t hcontrol
        cases h
        exact .publish hcontrol
    | consumer =>
      simp only [System.step, System.stepConsumer] at h
      split at h
      · cases h
      · rename_i out h' hcontrol
        split_ifs at h with hempty
        · cases h
          exact .empty hcontrol hempty
        · cases h
          exact .ready hcontrol hempty
      · rename_i out h' hcontrol
        cases h
        exact .read hcontrol
      · rename_i out h' hcontrol
        cases h
        exact .release hcontrol

/-- Two counters less than `N` apart use different slots. -/
theorem slot_ne {k i j : ℕ} (hlt : i < j) (hnear : j - i < 2 ^ k) :
    slot (2 ^ k) i ≠ slot (2 ^ k) j := by
  unfold slot
  rw [Nat.and_two_pow_sub_one_eq_mod, Nat.and_two_pow_sub_one_eq_mod]
  intro heq
  have hzero := Nat.sub_mod_eq_zero_of_mod_eq heq.symm
  rw [Nat.mod_eq_of_lt hnear] at hzero
  omega

/-- What the producer knows: the tail is its own, and the head it saw was enough
to leave a slot free. -/
def ProducerInv (N : ℕ) (s : System V) : Prop :=
  match s.producer with
  | .idle => True
  | .loadedTail _ t => t = s.tail
  | .writing _ t => t = s.tail ∧ s.tail - s.head < N - 1
  | .publishing value t => t = s.tail ∧ s.tail - s.head < N - 1 ∧ s.buffer (slot N t) = value

/-- What the consumer knows: the head is its own, and an element was there. -/
def ConsumerInv (values : List V) (s : System V) : Prop :=
  match s.consumer with
  | .idle => True
  | .loadedHead _ h => h = s.head
  | .reading _ h => h = s.head ∧ s.head < s.tail
  | .releasing out h => h = s.head ∧ s.head < s.tail ∧ values[h]? = some out

/-- Until it has read its slot, the consumer has not touched `out`. -/
def OutInv (es : List (StepEvent V)) (s : System V) : Prop :=
  match s.consumer with
  | .idle => True
  | .loadedHead out _ => calledWith .consumer es = some (.tryPop out)
  | .reading out _ => calledWith .consumer es = some (.tryPop out)
  | .releasing _ _ => True

/-- The counters count the finished calls, and the slots between them hold the
pushed values that are still unread. -/
structure RingInv (N : ℕ) (es : List (StepEvent V)) (s : System V) : Prop where
  tail : (pushes es).length = s.tail
  pops : pops es = (pushes es).take s.head
  ordered : s.head ≤ s.tail
  bounded : s.tail - s.head ≤ N - 1
  stored : ∀ i, s.head ≤ i → i < s.tail → (pushes es)[i]? = some (s.buffer (slot N i))
  producer : ProducerInv N s
  consumer : ConsumerInv (pushes es) s

section Invariant
variable {k : ℕ} {es : List (StepEvent V)} {s s' : System V} {a : Action V} {r : StepResult V}

theorem pushes_append_singleton (es : List (StepEvent V)) (e : StepEvent V) :
    pushes (es ++ [e]) = pushes es ++ e.result.pushed?.toList := filterMap_append_singleton _ es e

theorem pops_append_singleton (es : List (StepEvent V)) (e : StepEvent V) :
    Spsc.pops (es ++ [e]) = Spsc.pops es ++ e.result.popped?.toList :=
  filterMap_append_singleton _ es e

/-- Steps between the two counter stores. -/
theorem RingInv.silent {N : ℕ} (h : RingInv N es s) (hpush : r.pushed? = none)
    (hpop : r.popped? = none) (hhead : s'.head = s.head) (htail : s'.tail = s.tail)
    (hbuffer : ∀ i, s.head ≤ i → i < s.tail → s'.buffer (slot N i) = s.buffer (slot N i))
    (hp : ProducerInv N s') (hc : ConsumerInv (pushes es) s') :
    RingInv N (es ++ [⟨s, a, r⟩]) s' := by
  have hpushes : pushes (es ++ [⟨s, a, r⟩]) = pushes es := by
    rw [pushes_append_singleton, hpush, Option.toList_none, List.append_nil]
  have hpops : Spsc.pops (es ++ [⟨s, a, r⟩]) = Spsc.pops es := by
    rw [pops_append_singleton, hpop, Option.toList_none, List.append_nil]
  refine ⟨?_, ?_, ?_, ?_, ?_, hp, hpushes ▸ hc⟩
  · rw [hpushes, htail, h.tail]
  · rw [hpops, hpushes, hhead, h.pops]
  · rw [hhead, htail]
    exact h.ordered
  · rw [hhead, htail]
    exact h.bounded
  · intro i hlo hhi
    rw [hhead] at hlo
    rw [htail] at hhi
    rw [hpushes, h.stored i hlo hhi, hbuffer i hlo hhi]

theorem RingInv.publish {N : ℕ} (h : RingInv N es s) {value : V} {t : ℕ}
    (ht : s.producer = .publishing value t) :
    RingInv N (es ++ [⟨s, a, .pushed value⟩]) { s with tail := t + 1, producer := .idle } := by
  have hp := h.producer
  simp only [ProducerInv, ht] at hp
  obtain ⟨rfl, hroom, hwritten⟩ := hp
  have hpushes : pushes (es ++ [⟨s, a, .pushed value⟩]) = pushes es ++ [value] :=
    pushes_append_singleton es _
  have hpops : Spsc.pops (es ++ [⟨s, a, .pushed value⟩]) = Spsc.pops es := by
    rw [pops_append_singleton]
    exact List.append_nil _
  have hlen := h.tail
  have hord := h.ordered
  refine ⟨?_, ?_, ?_, ?_, ?_, trivial, ?_⟩
  · rw [hpushes, List.length_append, hlen]
    rfl
  · have hle : s.head ≤ (pushes es).length := hlen ▸ hord
    rw [hpops, hpushes, h.pops, List.take_append_of_le_length hle]
  · dsimp only
    omega
  · dsimp only
    omega
  · intro i hlo hhi
    dsimp only at hlo hhi ⊢
    rw [hpushes]
    rcases Nat.lt_succ_iff_lt_or_eq.mp hhi with hlt | rfl
    · rw [List.getElem?_append_left (by omega), h.stored i hlo hlt]
    · rw [← hlen, List.getElem?_concat_length, hlen, hwritten]
  · have hc := h.consumer
    unfold ConsumerInv at hc ⊢
    dsimp only
    cases hcons : s.consumer with
    | idle => trivial
    | loadedHead out q => simpa [hcons] using hc
    | reading out q =>
      simp only [hcons] at hc ⊢
      exact ⟨hc.1, by omega⟩
    | releasing out q =>
      simp only [hcons] at hc ⊢
      refine ⟨hc.1, by omega, ?_⟩
      rw [hpushes, List.getElem?_append_left (by omega)]
      exact hc.2.2

theorem RingInv.release {N : ℕ} (h : RingInv N es s) {out : V} {q : ℕ}
    (hq : s.consumer = .releasing out q) :
    RingInv N (es ++ [⟨s, a, .popped out⟩]) { s with head := q + 1, consumer := .idle } := by
  have hc := h.consumer
  simp only [ConsumerInv, hq] at hc
  obtain ⟨rfl, hlt, hvalue⟩ := hc
  have hpushes : pushes (es ++ [⟨s, a, .popped out⟩]) = pushes es := by
    rw [pushes_append_singleton]
    exact List.append_nil _
  have hpops : Spsc.pops (es ++ [⟨s, a, .popped out⟩]) = Spsc.pops es ++ [out] :=
    pops_append_singleton es _
  have hbound := h.bounded
  refine ⟨?_, ?_, hlt, ?_, ?_, ?_, trivial⟩
  · rw [hpushes, h.tail]
  · rw [hpops, hpushes, h.pops, List.take_add_one, hvalue]
    rfl
  · dsimp only
    omega
  · intro i hlo hhi
    dsimp only at hlo hhi ⊢
    rw [hpushes]
    exact h.stored i (by omega) hhi
  · have hp := h.producer
    unfold ProducerInv at hp ⊢
    dsimp only
    cases hprod : s.producer with
    | idle => trivial
    | loadedTail value t => simpa [hprod] using hp
    | writing value t =>
      simp only [hprod] at hp ⊢
      exact ⟨hp.1, by omega⟩
    | publishing value t =>
      simp only [hprod] at hp ⊢
      exact ⟨hp.1, by omega, hp.2.2⟩

theorem RingInv.step (h : RingInv (2 ^ k) es s) (hs : StepSpec (2 ^ k) s a r s') :
    RingInv (2 ^ k) (es ++ [⟨s, a, r⟩]) s' := by
  have hp := h.producer
  have hc := h.consumer
  cases hs with
  | tryPush hidle => exact h.silent rfl rfl rfl rfl (fun _ _ _ => rfl) rfl hc
  | tryPop hidle => exact h.silent rfl rfl rfl rfl (fun _ _ _ => rfl) hp rfl
  | full hprod hfull => exact h.silent rfl rfl rfl rfl (fun _ _ _ => rfl) trivial hc
  | room hprod hroom =>
    simp only [ProducerInv, hprod] at hp
    refine h.silent rfl rfl rfl rfl (fun _ _ _ => rfl) ⟨hp, ?_⟩ hc
    subst hp
    exact hroom
  | write hprod =>
    simp only [ProducerInv, hprod] at hp
    obtain ⟨rfl, hroom⟩ := hp
    refine h.silent rfl rfl rfl rfl ?_ ⟨rfl, hroom, Function.update_self _ _ _⟩ ?_
    · intro i hlo hhi
      exact Function.update_of_ne (slot_ne hhi (by omega)) _ _
    · exact hc
  | publish hprod => exact h.publish hprod
  | empty hcons hempty => exact h.silent rfl rfl rfl rfl (fun _ _ _ => rfl) hp trivial
  | ready hcons hready =>
    simp only [ConsumerInv, hcons] at hc
    have hlt : s.head < s.tail := Nat.lt_of_le_of_ne h.ordered (hc ▸ hready)
    exact h.silent rfl rfl rfl rfl (fun _ _ _ => rfl) hp ⟨hc, hlt⟩
  | read hcons =>
    simp only [ConsumerInv, hcons] at hc
    obtain ⟨rfl, hlt⟩ := hc
    refine h.silent rfl rfl rfl rfl (fun _ _ _ => rfl) hp ⟨rfl, hlt, ?_⟩
    exact h.stored _ (Nat.le_refl _) hlt
  | release hcons => exact h.release hcons

theorem OutInv.other (h : OutInv es s) (ha : a.role = .producer)
    (hc : s'.consumer = s.consumer) : OutInv (es ++ [⟨s, a, r⟩]) s' := by
  have hstart : calledWith .consumer (es ++ [⟨s, a, r⟩]) = calledWith .consumer es := by
    apply callStart_append_other
    rw [ha]
    decide
  unfold OutInv at h ⊢
  rw [hstart, hc]
  exact h

theorem OutInv.step {N : ℕ} (h : OutInv es s) (hs : StepSpec N s a r s') :
    OutInv (es ++ [⟨s, a, r⟩]) s' := by
  cases hs with
  | tryPop hidle => exact callStart_append_start rfl rfl
  | ready hcons hready =>
    simp only [OutInv, hcons] at h ⊢
    apply callStart_append_next ?_ ?_ h
    · rfl
    · rfl
  | empty _ _ => trivial
  | read _ => trivial
  | release _ => trivial
  | tryPush _ => exact h.other rfl rfl
  | full _ _ => exact h.other rfl rfl
  | room _ _ => exact h.other rfl rfl
  | write _ => exact h.other rfl rfl
  | publish _ => exact h.other rfl rfl

theorem exec_ringInv [Inhabited V] {actions : List (Action V)}
    (hr : exec (System.step (2 ^ k)) System.init actions = some (es, s)) :
    RingInv (2 ^ k) es s ∧ OutInv es s := by
  apply exec_invariant (fun es s => RingInv (2 ^ k) es s ∧ OutInv es s) ?_ ?_ hr
  · rintro es s a r s' ⟨hi, ho⟩ hstep
    have hspec := System.step_spec hstep
    exact ⟨hi.step hspec, ho.step hspec⟩
  · have hstored : ∀ i, 0 ≤ i → i < 0 →
        (pushes ([] : List (StepEvent V)))[i]? = some default := by
      intro i _ hi
      omega
    exact ⟨⟨rfl, rfl, Nat.le_refl 0, Nat.zero_le _, hstored, trivial, trivial⟩, trivial⟩

end Invariant

/-- The slot the producer holds, from its check to its store. -/
def Producer.accesses (N : ℕ) : Producer V → Option ℕ
  | .writing _ t => some (slot N t)
  | .publishing _ t => some (slot N t)
  | _ => none

/-- The slot the consumer holds, from its check to its store. -/
def Consumer.accesses (N : ℕ) : Consumer V → Option ℕ
  | .reading _ h => some (slot N h)
  | .releasing _ h => some (slot N h)
  | _ => none

/-- The sides never touch one slot at the same time; the producer never touches
one that holds an unread element, and the consumer only the oldest of these. -/
structure SlotsApart (N : ℕ) (s : System V) : Prop where
  disjoint : ∀ i ∈ s.producer.accesses N, i ∉ s.consumer.accesses N
  writes : ∀ i ∈ s.producer.accesses N, ∀ j, s.head ≤ j → j < s.tail → slot N j ≠ i
  reads : ∀ i ∈ s.consumer.accesses N, i = slot N s.head ∧ s.head < s.tail

theorem RingInv.slotsApart {k : ℕ} {es : List (StepEvent V)} {s : System V}
    (h : RingInv (2 ^ k) es s) : SlotsApart (2 ^ k) s := by
  have hp := h.producer
  have hc := h.consumer
  have hwrites : ∀ i ∈ s.producer.accesses (2 ^ k),
      i = slot (2 ^ k) s.tail ∧ s.tail - s.head < 2 ^ k - 1 := by
    intro i hi
    cases hprod : s.producer with
    | idle => simp [hprod, Producer.accesses] at hi
    | loadedTail value t => simp [hprod, Producer.accesses] at hi
    | writing value t =>
      simp only [ProducerInv, hprod] at hp
      simp only [hprod, Producer.accesses, Option.mem_some_iff] at hi
      exact ⟨hi ▸ hp.1 ▸ rfl, hp.2⟩
    | publishing value t =>
      simp only [ProducerInv, hprod] at hp
      simp only [hprod, Producer.accesses, Option.mem_some_iff] at hi
      exact ⟨hi ▸ hp.1 ▸ rfl, hp.2.1⟩
  have hreads : ∀ i ∈ s.consumer.accesses (2 ^ k),
      i = slot (2 ^ k) s.head ∧ s.head < s.tail := by
    intro i hi
    cases hcons : s.consumer with
    | idle => simp [hcons, Consumer.accesses] at hi
    | loadedHead out q => simp [hcons, Consumer.accesses] at hi
    | reading out q =>
      simp only [ConsumerInv, hcons] at hc
      simp only [hcons, Consumer.accesses, Option.mem_some_iff] at hi
      exact ⟨hi ▸ hc.1 ▸ rfl, hc.2⟩
    | releasing out q =>
      simp only [ConsumerInv, hcons] at hc
      simp only [hcons, Consumer.accesses, Option.mem_some_iff] at hi
      exact ⟨hi ▸ hc.1 ▸ rfl, hc.2.1⟩
  refine ⟨?_, ?_, hreads⟩
  · intro i hi hi'
    obtain ⟨heq, hroom⟩ := hwrites i hi
    obtain ⟨heq', hlt⟩ := hreads i hi'
    exact slot_ne hlt (by omega) (heq'.symm.trans heq)
  · intro i hi j hlo hhi
    obtain ⟨rfl, hroom⟩ := hwrites i hi
    exact slot_ne hhi (by omega)

/-- However the two sides interleave, pops return a prefix of what was pushed,
the sides never meet in a slot, at most `N - 1` elements are unread, a failed pop
leaves `out` alone, and a call fails only when the ring was full or empty at its
load of the other counter. -/
theorem spscRingBuffer_fifo [Inhabited V] (N k : ℕ) (hN : N = 2 ^ k) (actions : List (Action V))
    (es : List (StepEvent V)) (s : System V)
    (hr : exec (System.step N) System.init actions = some (es, s)) :
    pops es <+: pushes es ∧ SlotsApart N s ∧ (s.head ≤ s.tail ∧ s.tail - s.head ≤ N - 1) ∧
      ∀ h e r, es = h ++ e :: r →
        (∀ out, e.result = .popFailed out →
          calledWith .consumer h = some (.tryPop out) ∧ e.before.tail - e.before.head = 0) ∧
        (e.result = .pushFailed → e.before.tail - e.before.head = N - 1) := by
  subst hN
  obtain ⟨hi, _⟩ := exec_ringInv hr
  refine ⟨hi.pops ▸ List.take_prefix _ _, hi.slotsApart, ⟨hi.ordered, hi.bounded⟩, ?_⟩
  intro h e r heq
  obtain ⟨⟨is, his⟩, s', hstep⟩ := exec_events hr h e r heq
  obtain ⟨hb, ho⟩ := exec_ringInv his
  have hspec := System.step_spec hstep
  obtain ⟨before, call, result⟩ := e
  dsimp only at hspec hb ho ⊢
  constructor
  · rintro out rfl
    cases hspec with
    | empty hcons hempty =>
      have hc := hb.consumer
      simp only [ConsumerInv, hcons] at hc
      simp only [OutInv, hcons] at ho
      exact ⟨ho, by omega⟩
  · rintro rfl
    cases hspec with
    | full hprod hfull =>
      have hp := hb.producer
      simp only [ProducerInv, hprod] at hp
      subst hp
      exact Nat.le_antisymm hb.bounded hfull

/-- One slot of two: a push, a full push, a pop that overlaps the next push. -/
theorem spscRingBuffer_fifo_overlap :
    ∃ (es : List (StepEvent ℕ)) (s : System ℕ), 2 = 2 ^ 1 ∧ exec (System.step 2) System.init
        [.tryPop 9, .proceed .consumer, .tryPush 7, .proceed .producer, .proceed .producer,
          .proceed .producer, .tryPush 8, .tryPop 9, .proceed .producer, .proceed .consumer,
          .proceed .consumer, .proceed .consumer] = some (es, s) ∧
      pushes es = [7] ∧ pops es = [7] ∧
      pops es <+: pushes es ∧ SlotsApart 2 s ∧ (s.head ≤ s.tail ∧ s.tail - s.head ≤ 2 - 1) ∧
      ∀ h e r, es = h ++ e :: r →
        (∀ out, e.result = .popFailed out →
          calledWith .consumer h = some (.tryPop out) ∧ e.before.tail - e.before.head = 0) ∧
        (e.result = .pushFailed → e.before.tail - e.before.head = 2 - 1) := by
  have hrun : ∃ (es : List (StepEvent ℕ)) (s : System ℕ), exec (System.step 2) System.init
        [.tryPop 9, .proceed .consumer, .tryPush 7, .proceed .producer, .proceed .producer,
          .proceed .producer, .tryPush 8, .tryPop 9, .proceed .producer, .proceed .consumer,
          .proceed .consumer, .proceed .consumer] = some (es, s) ∧
      pushes es = [7] ∧ pops es = [7] := ⟨_, _, rfl, rfl, rfl⟩
  obtain ⟨es, s, hr, hpush, hpop⟩ := hrun
  exact ⟨es, s, rfl, hr, hpush, hpop, spscRingBuffer_fifo 2 1 rfl _ es s hr⟩

end HftExercises.Spsc
