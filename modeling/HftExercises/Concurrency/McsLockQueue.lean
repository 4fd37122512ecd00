import HftExercises.Concurrency.McsLock
import HftExercises.Core.ListFacts
import HftExercises.Core.ThreadCount

/-! # The queue of the MCS lock

The enqueued waiters in the order of their exchanges. The thread at the front
holds the lock or has been given it; everybody else waits right behind the waiter
it found in the tail, with its link stored or about to be. Each step of a lock or
an unlock keeps this, and says how the queue moves.
-/
namespace HftExercises.McsLock
variable {T : Type*}

/-- `b` comes right after `a`: it still waits, and its link is stored or pending. -/
def Behind (s : System T) (a b : T) : Prop :=
  s.locked b = true ∧
    ((s.control b = .link a ∧ s.next a = none) ∨ (s.control b = .spin ∧ s.next a = some b))

/-- What is true of the thread at the front: it holds the lock, or has been given
it and has not noticed yet. -/
def Control.Front (next : Option T) (locked : Bool) : Control T → Prop
  | .spin => locked = false
  | .critical | .unlockLoad | .unlockCas | .unlockWait => True
  | .unlockNext => next ≠ none
  | .handOff succ => succ = next ∧ next ≠ none
  | .idle | .clearNext | .arm | .exchange | .link _ => False

/-- What a lock has prepared before its exchange. -/
def Control.Fresh (next : Option T) (locked : Bool) : Control T → Prop
  | .arm => next = none
  | .exchange => next = none ∧ locked = true
  | _ => True

structure QueueInv (s : System T) (queue : List T) : Prop where
  distinct : queue.Nodup
  members : ∀ t, t ∈ queue ↔ (s.control t).enqueued = true
  tail : queue.getLast? = s.tail
  chain : queue.IsChain (Behind s)
  front : ∀ t, queue.head? = some t → (s.control t).Front (s.next t) (s.locked t)
  end_null : ∀ t, queue.getLast? = some t → s.next t = none
  fresh : ∀ t, (s.control t).Fresh (s.next t) (s.locked t)

theorem queueInv_init : QueueInv (System.init : System T) [] where
  distinct := List.nodup_nil
  members := fun t => by simp [System.init, Control.enqueued]
  tail := rfl
  chain := List.isChain_nil
  front := fun _ h => by cases h
  end_null := fun _ h => by cases h
  fresh := fun _ => trivial

section Queue
variable {s s' : System T} {queue : List T} {t u a b : T} {c : Control T}

theorem Control.Fresh.of_enqueued {next : Option T} {locked : Bool} (h : c.enqueued = true) :
    c.Fresh next locked := by
  cases c <;> trivial

/-- A pending null link says nothing about the thread at the front. -/
theorem Control.Front.of_null {locked : Bool} (h : c.Front none locked) (next : Option T) :
    c.Front next locked := by
  cases c with
  | unlockNext => exact absurd rfl h
  | handOff succ => exact absurd rfl h.2
  | _ => exact h

theorem Control.holds_iff : c.holds = true ↔ c.enqueued = true ∧ c.waiting = false := by
  simp [Control.holds]

/-- Members of the queue other than the front come right after another one. -/
theorem exists_before_of_mem (ht : t ∈ queue) :
    queue.head? = some t ∨ ∃ l a r, queue = l ++ a :: t :: r := by
  obtain ⟨l, r, rfl⟩ := List.append_of_mem ht
  rcases List.eq_nil_or_concat l with rfl | ⟨l, a, rfl⟩
  · exact Or.inl rfl
  · exact Or.inr ⟨l, a, r, by simp⟩

theorem QueueInv.front_or_behind (h : QueueInv s queue) (ht : (s.control t).enqueued = true) :
    queue.head? = some t ∨ ∃ l a r, queue = l ++ a :: t :: r ∧ Behind s a t := by
  rcases exists_before_of_mem ((h.members t).mpr ht) with hhead | ⟨l, a, r, hq⟩
  · exact Or.inl hhead
  · exact Or.inr ⟨l, a, r, hq, List.isChain_iff_forall_rel_of_append_cons_cons.mp h.chain hq⟩

/-- The holder is at the front. -/
theorem QueueInv.head_of_holds (h : QueueInv s queue) (ht : (s.control t).holds = true) :
    queue.head? = some t := by
  obtain ⟨henq, hwait⟩ := Control.holds_iff.mp ht
  rcases h.front_or_behind henq with hhead | ⟨_, a, _, _, _, ⟨hlink, _⟩ | ⟨hspin, _⟩⟩
  · exact hhead
  · rw [hlink] at hwait
    cases hwait
  · rw [hspin] at hwait
    cases hwait

theorem QueueInv.head_of_unlocked (h : QueueInv s queue) (ht : s.control t = .spin)
    (hl : s.locked t = false) : queue.head? = some t := by
  rcases h.front_or_behind (t := t) (by rw [ht]; rfl) with hhead | ⟨_, _, _, _, hlocked, _⟩
  · exact hhead
  · rw [hl] at hlocked
    cases hlocked

/-- The chain depends on the links of its members and on what the ones behind the
front do. -/
theorem chain_frame (h : queue.IsChain (Behind s)) (hnext : ∀ a ∈ queue, s'.next a = s.next a)
    (hrest : ∀ b ∈ queue.tail, s'.control b = s.control b ∧ s'.locked b = s.locked b) :
    queue.IsChain (Behind s') := by
  refine h.imp_of_mem_tail_imp ?_
  intro a b ha hb hbehind
  obtain ⟨hcontrol, hlocked⟩ := hrest b hb
  unfold Behind
  rw [hcontrol, hlocked, hnext a ha]
  exact hbehind

theorem notMem_tail_of_head (hq : queue.Nodup) (hhead : queue.head? = some t) :
    t ∉ queue.tail := by
  obtain ⟨rest, rfl⟩ : ∃ rest, queue = t :: rest := by
    cases queue with
    | nil => cases hhead
    | cons x rest =>
      cases hhead
      exact ⟨rest, rfl⟩
  exact (List.nodup_cons.mp hq).1

theorem QueueInv.ne_of_mem (h : QueueInv s queue) (ht : (s.control t).enqueued = false)
    (hu : u ∈ queue) : u ≠ t := by
  rintro rfl
  rw [(h.members u).mp hu] at ht
  cases ht

/-- In a queue without repetition a waiter has one successor. -/
theorem successor_unique (hq : queue.Nodup) {l l' r r' : List T} (h : queue = l ++ a :: t :: r)
    (h' : queue = l' ++ a :: u :: r') : t = u := by
  have hpick : ((l ++ a :: t :: r).filterMap some).Nodup := by
    rwa [List.filterMap_some, ← h]
  obtain ⟨_, _, hrest⟩ := split_eq_of_nodup_filterMap hpick (h.symm.trans h') rfl rfl
  exact (List.cons.inj hrest).1

/-- A waiter with a successor is not the last one. -/
theorem ne_getLast_of_successor (hq : queue.Nodup) {l r : List T} (h : queue = l ++ a :: t :: r)
    (hu : queue.getLast? = some u) : u ≠ a := by
  subst h
  have hlast : (l ++ a :: t :: r).getLast? = (t :: r).getLast? := by
    simp [List.getLast?_append, List.getLast?_cons]
  rw [hlast] at hu
  rintro rfl
  exact (List.nodup_cons.mp (List.nodup_append.mp hq).2.1).1 (List.mem_of_getLast? hu)

variable [DecidableEq T]

theorem QueueInv.members_update (h : QueueInv s queue) (hc : c.enqueued = (s.control t).enqueued)
    (u : T) : u ∈ queue ↔ (Function.update s.control t c u).enqueued = true := by
  by_cases hu : u = t
  · subst hu
    rw [Function.update_self, hc]
    exact h.members u
  · rw [Function.update_of_ne hu]
    exact h.members u

/-- A thread outside the queue writes its own words only. -/
theorem QueueInv.outside (h : QueueInv s queue) (ht : (s.control t).enqueued = false)
    (hc : c.enqueued = false) {next : T → Option T} {locked : T → Bool}
    (hnext : ∀ u, u ≠ t → next u = s.next u) (hlocked : ∀ u, u ≠ t → locked u = s.locked u)
    (hfresh : c.Fresh (next t) (locked t)) :
    QueueInv { s.setControl t c with next := next, locked := locked } queue where
  distinct := h.distinct
  members := h.members_update (hc.trans ht.symm)
  tail := h.tail
  chain := by
    refine chain_frame h.chain (fun a ha => hnext a (h.ne_of_mem ht ha)) ?_
    intro b hb
    have hne := h.ne_of_mem ht (List.mem_of_mem_tail hb)
    exact ⟨Function.update_of_ne hne _ _, hlocked b hne⟩
  front := by
    intro u hu
    have hne := h.ne_of_mem ht (List.mem_of_mem_head? hu)
    change Control.Front (next u) (locked u) (Function.update s.control t c u)
    rw [Function.update_of_ne hne, hnext u hne, hlocked u hne]
    exact h.front u hu
  end_null := by
    intro u hu
    exact (hnext u (h.ne_of_mem ht (List.mem_of_getLast? hu))).trans (h.end_null u hu)
  fresh := by
    intro u
    change Control.Fresh (next u) (locked u) (Function.update s.control t c u)
    by_cases hu : u = t
    · subst hu
      rwa [Function.update_self]
    · rw [Function.update_of_ne hu, hnext u hu, hlocked u hu]
      exact h.fresh u

theorem fresh_update (h : ∀ u, (s.control u).Fresh (s.next u) (s.locked u))
    (hc : c.enqueued = true) (u : T) :
    (Function.update s.control t c u).Fresh (s.next u) (s.locked u) := by
  by_cases hu : u = t
  · subst hu
    rw [Function.update_self]
    exact .of_enqueued hc
  · rw [Function.update_of_ne hu]
    exact h u

/-- The thread at the front moves without touching a shared word. -/
theorem QueueInv.atFront (h : QueueInv s queue) (hhead : queue.head? = some t)
    (hc : c.enqueued = true) (hfront : c.Front (s.next t) (s.locked t)) :
    QueueInv (s.setControl t c) queue where
  distinct := h.distinct
  members := by
    have ht := (h.members t).mp (List.mem_of_mem_head? hhead)
    exact h.members_update (hc.trans ht.symm)
  tail := h.tail
  chain := by
    refine chain_frame h.chain (fun _ _ => rfl) ?_
    intro b hb
    have hne : b ≠ t := fun he => notMem_tail_of_head h.distinct hhead (he ▸ hb)
    exact ⟨Function.update_of_ne hne _ _, rfl⟩
  front := by
    intro u hu
    rw [hhead] at hu
    cases hu
    change Control.Front (s.next t) (s.locked t) (Function.update s.control t c t)
    rwa [Function.update_self]
  end_null := h.end_null
  fresh := fresh_update h.fresh hc

/-- An exchange puts the thread at the end of the queue. -/
theorem QueueInv.exchange (h : QueueInv s queue) (ht : s.control t = .exchange)
    (hc : c.enqueued = true)
    (hlast : ∀ prev, queue.getLast? = some prev → c = .link prev)
    (hfront : queue = [] → c.Front (s.next t) (s.locked t)) :
    QueueInv { s.setControl t c with tail := some t } (queue ++ [t]) := by
  have hout : (s.control t).enqueued = false := by
    rw [ht]
    rfl
  have hfresh := h.fresh t
  rw [ht] at hfresh
  have hself : Function.update s.control t c t = c := Function.update_self t c s.control
  refine ⟨?_, ?_, List.getLast?_concat, ?_, ?_, ?_, fresh_update h.fresh hc⟩
  · refine List.nodup_append.mpr ⟨h.distinct, List.nodup_singleton t, ?_⟩
    intro u hu v hv
    rw [List.mem_singleton.mp hv]
    exact h.ne_of_mem hout hu
  · intro u
    change _ ↔ (Function.update s.control t c u).enqueued = true
    by_cases hu : u = t
    · subst hu
      simp [hc]
    · rw [Function.update_of_ne hu, List.mem_append, List.mem_singleton, h.members u]
      simp [hu]
  · refine List.IsChain.append ?_ (List.isChain_singleton t) ?_
    · refine chain_frame h.chain (fun _ _ => rfl) ?_
      intro b hb
      exact ⟨Function.update_of_ne (h.ne_of_mem hout (List.mem_of_mem_tail hb)) _ _, rfl⟩
    · intro prev hprev u hu
      cases hu
      refine ⟨hfresh.2, Or.inl ⟨?_, h.end_null prev hprev⟩⟩
      exact hself.trans (hlast prev hprev)
  · intro u hu
    change Control.Front (s.next u) (s.locked u) (Function.update s.control t c u)
    cases queue with
    | nil =>
      cases hu
      rw [hself]
      exact hfront rfl
    | cons x rest =>
      cases hu
      rw [Function.update_of_ne (h.ne_of_mem hout List.mem_cons_self)]
      exact h.front u rfl
  · intro u hu
    rw [List.getLast?_concat] at hu
    cases hu
    exact hfresh.1

/-- The pending link is stored. -/
theorem QueueInv.link (h : QueueInv s queue) {prev : T} (ht : s.control t = .link prev) :
    QueueInv { s.setControl t .spin with next := Function.update s.next prev (some t) } queue := by
  have henq : (s.control t).enqueued = true := by
    rw [ht]
    rfl
  obtain ⟨l, r, hq, hnull⟩ : ∃ l r, queue = l ++ prev :: t :: r ∧ s.next prev = none := by
    rcases h.front_or_behind henq with hhead | ⟨l, a, r, hq, _, ⟨hlink, hnull⟩ | ⟨hspin, _⟩⟩
    · have hfront := h.front t hhead
      rw [ht] at hfront
      exact hfront.elim
    · rw [ht] at hlink
      cases hlink
      exact ⟨l, r, hq, hnull⟩
    · rw [ht] at hspin
      cases hspin
  have hdist := h.distinct
  refine ⟨hdist, h.members_update (by rw [henq]; rfl), h.tail, ?_, ?_, ?_, ?_⟩
  · refine List.isChain_iff_forall_rel_of_append_cons_cons.mpr ?_
    intro a b l' r' hq'
    obtain ⟨hb, hcase⟩ := List.isChain_iff_forall_rel_of_append_cons_cons.mp h.chain hq'
    refine ⟨hb, ?_⟩
    change (Function.update s.control t .spin b = _ ∧ Function.update s.next prev (some t) a = _) ∨
      (Function.update s.control t .spin b = _ ∧ Function.update s.next prev (some t) a = _)
    by_cases hbt : b = t
    · -- the pair whose link was pending
      subst hbt
      have ha : a = prev := by
        rcases hcase with ⟨hlink, _⟩ | ⟨hspin, _⟩
        · rw [ht] at hlink
          exact (Control.link.inj hlink).symm
        · rw [ht] at hspin
          cases hspin
      subst ha
      exact Or.inr ⟨Function.update_self _ _ _, Function.update_self _ _ _⟩
    · have ha : a ≠ prev := by
        rintro rfl
        exact hbt (successor_unique hdist hq' hq)
      rw [Function.update_of_ne hbt, Function.update_of_ne ha]
      exact hcase
  · intro u hu
    change Control.Front (Function.update s.next prev (some t) u) (s.locked u)
      (Function.update s.control t .spin u)
    have hfront := h.front u hu
    have hut : u ≠ t := by
      rintro rfl
      rw [ht] at hfront
      exact hfront
    rw [Function.update_of_ne hut]
    by_cases hup : u = prev
    · subst hup
      rw [hnull] at hfront
      exact hfront.of_null _
    · rwa [Function.update_of_ne hup]
  · intro u hu
    change Function.update s.next prev (some t) u = none
    rw [Function.update_of_ne (ne_getLast_of_successor hdist hq hu)]
    exact h.end_null u hu
  · intro u
    change Control.Fresh (Function.update s.next prev (some t) u) (s.locked u)
      (Function.update s.control t .spin u)
    by_cases hup : u = prev
    · subst hup
      have hmem : u ∈ queue := by
        rw [hq]
        exact List.mem_append_right l List.mem_cons_self
      exact .of_enqueued ((h.members_update (c := .spin) (by rw [henq]; rfl) u).mp hmem)
    · rw [Function.update_of_ne hup]
      exact fresh_update (c := .spin) h.fresh rfl u

/-- The front leaves a queue that has nobody else in it. -/
theorem QueueInv.empty (h : QueueInv s queue) (hhead : queue.head? = some t)
    (htail : s.tail = some t) :
    queue = [t] ∧ QueueInv { s.setControl t .idle with tail := none } [] := by
  have hq : queue = [t] := by
    cases queue with
    | nil => cases hhead
    | cons x rest =>
      cases hhead
      rcases List.eq_nil_or_concat rest with rfl | ⟨r, y, rfl⟩
      · rfl
      · have hlast := h.tail
        rw [List.concat_eq_append, ← List.cons_append, List.getLast?_concat, htail] at hlast
        cases hlast
        have hnot := (List.nodup_cons.mp h.distinct).1
        exact absurd (by simp) hnot
  refine ⟨hq, List.nodup_nil, ?_, rfl, List.isChain_nil, nofun, nofun, ?_⟩
  · intro u
    change _ ↔ (Function.update s.control t .idle u).enqueued = true
    by_cases hu : u = t
    · subst hu
      simp [Control.enqueued]
    · rw [Function.update_of_ne hu, ← h.members u, hq]
      simp [hu]
  · intro u
    change Control.Fresh (s.next u) (s.locked u) (Function.update s.control t .idle u)
    by_cases hu : u = t
    · subst hu
      rw [Function.update_self]
      trivial
    · rw [Function.update_of_ne hu]
      exact h.fresh u

/-- The front hands the lock to the waiter right behind it. -/
theorem QueueInv.handOff (h : QueueInv s queue) {succ : T}
    (ht : s.control t = .handOff (some succ)) :
    ∃ rest, queue = t :: succ :: rest ∧ s.control succ = .spin ∧
      QueueInv { s.setControl t .idle with locked := Function.update s.locked succ false }
        (succ :: rest) := by
  have hhead := h.head_of_holds (t := t) (by rw [ht]; rfl)
  have hfront := h.front t hhead
  rw [ht] at hfront
  obtain ⟨hnext, _⟩ := hfront
  obtain ⟨rest, rfl, hspin⟩ : ∃ rest, queue = t :: succ :: rest ∧ s.control succ = .spin := by
    cases queue with
    | nil => cases hhead
    | cons x rest =>
      cases hhead
      cases rest with
      | nil =>
        rw [h.end_null t rfl] at hnext
        cases hnext
      | cons y rest =>
        obtain ⟨_, ⟨_, hnull⟩ | ⟨hspin, hy⟩⟩ := (List.isChain_cons_cons.mp h.chain).1
        · rw [hnull] at hnext
          cases hnext
        · rw [hy] at hnext
          cases hnext
          exact ⟨rest, rfl, hspin⟩
  obtain ⟨hnot, hdist⟩ := List.nodup_cons.mp h.distinct
  have hne : ∀ u ∈ succ :: rest, u ≠ t := fun u hu he => hnot (he ▸ hu)
  refine ⟨rest, rfl, hspin, hdist, ?_, ?_, ?_, ?_, ?_, ?_⟩
  · intro u
    change _ ↔ (Function.update s.control t .idle u).enqueued = true
    by_cases hu : u = t
    · subst hu
      rw [Function.update_self]
      exact ⟨fun hmem => absurd hmem hnot, nofun⟩
    · rw [Function.update_of_ne hu, ← h.members u, List.mem_cons (b := t)]
      simp [hu]
  · exact List.getLast?_cons_cons.symm.trans h.tail
  · refine chain_frame (List.isChain_cons_cons.mp h.chain).2 (fun _ _ => rfl) ?_
    intro b hb
    have hb' : b ≠ succ := fun he => (List.nodup_cons.mp hdist).1 (he ▸ hb)
    exact ⟨Function.update_of_ne (hne b (List.mem_cons_of_mem succ hb)) _ _,
      Function.update_of_ne hb' _ _⟩
  · intro u hu
    cases hu
    change Control.Front (s.next succ) (Function.update s.locked succ false succ)
      (Function.update s.control t .idle succ)
    rw [Function.update_of_ne (hne succ List.mem_cons_self), hspin, Function.update_self]
    rfl
  · intro u hu
    exact h.end_null u (by rwa [List.getLast?_cons_cons])
  · intro u
    change Control.Fresh (s.next u) (Function.update s.locked succ false u)
      (Function.update s.control t .idle u)
    by_cases hut : u = t
    · subst hut
      rw [Function.update_self]
      trivial
    · rw [Function.update_of_ne hut]
      by_cases hus : u = succ
      · subst hus
        exact .of_enqueued (by rw [hspin]; rfl)
      · rw [Function.update_of_ne hus]
        exact h.fresh u

end Queue

end HftExercises.McsLock
