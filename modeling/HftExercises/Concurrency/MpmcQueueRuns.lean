import HftExercises.Concurrency.MpmcQueueThreads

/-! # What the queue delivers

Over every interleaving of a queue with two slots or more, each ticket is claimed
once on each side and its pop returns what its push was given. The number of
elements then stays within the capacity, and a pop that runs alone returns. With
one slot a published slot looks free to the next push, and both fail.
-/
namespace HftExercises.Mpmc
variable {T V : Type*}

/-- The states of a slot at ticket `k`: at most one thread works on it. -/
inductive SlotPhase (N : ℕ) (claims : List (ℕ × V)) (s : System T V) (k : ℕ) : Prop
  | free (hseq : s.seq (k % N) = k) (htail : s.tail ≤ k)
      (hnone : ∀ t j, (s.control t).ticket? = some j → j % N ≠ k % N)
  | writing (t : T) (hseq : s.seq (k % N) = k) (htail : k < s.tail)
      (ht : (s.control t).writes? = some k)
      (honly : ∀ t' j, (s.control t').ticket? = some j → j % N = k % N → t' = t)
  | stored (hseq : s.seq (k % N) = k + 1) (htail : k < s.tail) (hhead : s.head ≤ k)
      (hvalue : (k, s.value (k % N)) ∈ claims)
      (hnone : ∀ t j, (s.control t).ticket? = some j → j % N ≠ k % N)
  | reading (t : T) (hseq : s.seq (k % N) = k + 1) (hhead : k < s.head)
      (hvalue : (k, s.value (k % N)) ∈ claims) (ht : (s.control t).reads? = some k)
      (honly : ∀ t' j, (s.control t').ticket? = some j → j % N = k % N → t' = t)

/-- How the call began that a thread is in, or has just finished. -/
def calledWith [DecidableEq T] (t : T) (es : List (StepEvent T V)) : Option (Action T V) :=
  callStart Action.thread Action.starts t es

/-- Tickets are claimed once and in order, a pop returns the value of the push
with its ticket, nothing is lost, and a slot is written only after the pops of
all its earlier tickets have returned. -/
structure Delivers [DecidableEq T] (N : ℕ) (es : List (StepEvent T V)) (s : System T V) :
    Prop where
  tails : (tailClaims es).map Prod.fst = List.range s.tail
  heads : headClaims es = List.range s.head
  ordered : s.head ≤ s.tail
  values : ∀ p ∈ pops es, p ∈ tailClaims es ∧ p.1 ∈ headClaims es
  once : ((pops es).map Prod.fst).Nodup
  kept : ∀ p ∈ tailClaims es, p ∈ pops es ∨ Current N s p.1
  slots : ∀ i < N, ∃ k, k % N = i ∧ SlotPhase N (tailClaims es) s k ∧
    ∀ j, j % N = i → Current N s j → j = k
  overwrites : ∀ t k, (s.control t).writes? = some k →
    ∀ j, j < k → j % N = k % N → j ∈ (pops es).map Prod.fst
  calls : ∀ h e r, es = h ++ e :: r →
    (∀ k v, e.result = .claimedTail k v →
      calledWith e.call.thread h = some (.push e.call.thread v)) ∧
    (∀ k out, e.result = .popped k out →
      ∃ c ∈ callSteps Action.thread Action.starts e.call.thread h, c.result = .claimedHead k)

/-- A thread pushes the value of its call, and pops with a ticket its call claimed. -/
structure CallInv [DecidableEq T] (es : List (StepEvent T V)) (s : System T V) : Prop where
  value : ∀ t v, (s.control t).pushing? = some v → calledWith t es = some (.push t v)
  claim : ∀ t k, (s.control t).reads? = some k →
    ∃ e ∈ callSteps Action.thread Action.starts t es, e.result = .claimedHead k

theorem Fresh.reads?_eq_none {s : System T V} {c : Control V} (hc : Fresh s c) :
    c.reads? = none := by
  cases c <;> first | rfl | cases hc

section Calls
variable [DecidableEq T] {N : ℕ} {es : List (StepEvent T V)} {s s' : System T V}
variable {a : Action T V} {r : StepResult V} {c : Control V}

theorem CallInv.update (h : CallInv es s)
    (hcontrol : s'.control = Function.update s.control a.thread c)
    (hvalue : ∀ v, c.pushing? = some v → a = .push a.thread v ∨
      (a.starts = false ∧ (s.control a.thread).pushing? = some v))
    (hclaim : ∀ k, c.reads? = some k → a.starts = false ∧
      (r = .claimedHead k ∨ (s.control a.thread).reads? = some k)) :
    CallInv (es ++ [⟨s, a, r⟩]) s' := by
  have hself : s'.control a.thread = c := by
    rw [hcontrol, Function.update_self]
  have hother : ∀ t, t ≠ a.thread → s'.control t = s.control t := by
    intro t ht
    rw [hcontrol, Function.update_of_ne ht]
  constructor
  · intro t v hv
    by_cases ht : t = a.thread
    · subst ht
      rw [hself] at hv
      rcases hvalue v hv with ha | ⟨hs, hold⟩
      · have hs : a.starts = true := by
          rw [ha]
          rfl
        have hcall : calledWith a.thread (es ++ [⟨s, a, r⟩]) = some a := by
          apply callStart_append_start
          · rfl
          · exact hs
        rw [hcall, ← ha]
      · apply callStart_append_next ?_ ?_ (h.value a.thread v hold)
        · rfl
        · exact hs
    · rw [hother t ht] at hv
      have hskip : calledWith t (es ++ [⟨s, a, r⟩]) = calledWith t es :=
        callStart_append_other (Ne.symm ht)
      rw [hskip]
      exact h.value t v hv
  · intro t k hk
    by_cases ht : t = a.thread
    · subst ht
      rw [hself] at hk
      obtain ⟨hs, hcase⟩ := hclaim k hk
      have hsteps : callSteps Action.thread Action.starts a.thread (es ++ [⟨s, a, r⟩]) =
          ⟨s, a, r⟩ :: callSteps Action.thread Action.starts a.thread es := by
        apply callSteps_append_next
        · rfl
        · exact hs
      rw [hsteps]
      rcases hcase with rfl | hold
      · exact ⟨_, List.mem_cons_self, rfl⟩
      · obtain ⟨e, he, hres⟩ := h.claim a.thread k hold
        exact ⟨e, List.mem_cons_of_mem _ he, hres⟩
    · rw [hother t ht] at hk
      have hskip : callSteps Action.thread Action.starts t (es ++ [⟨s, a, r⟩]) =
          callSteps Action.thread Action.starts t es := callSteps_append_other (Ne.symm ht)
      rw [hskip]
      exact h.claim t k hk

/-- A step inside a call that keeps the value and the ticket of the thread. -/
theorem CallInv.proceed {t : T} {spurious : Bool} (h : CallInv es s)
    (hcontrol : s'.control = Function.update s.control t c)
    (hvalue : ∀ v, c.pushing? = some v → (s.control t).pushing? = some v)
    (hclaim : ∀ k, c.reads? = some k → r = .claimedHead k ∨ (s.control t).reads? = some k) :
    CallInv (es ++ [⟨s, .proceed t spurious, r⟩]) s' :=
  h.update hcontrol (fun v hv => .inr ⟨rfl, hvalue v hv⟩) (fun k hk => ⟨rfl, hclaim k hk⟩)

theorem CallInv.step (h : CallInv es s) (hs : StepSpec N s a r s') :
    CallInv (es ++ [⟨s, a, r⟩]) s' := by
  cases hs with
  | @quiet _ _ c ht hc hpush hr =>
    refine h.update rfl hpush ?_
    intro k hk
    rw [hc.reads?_eq_none] at hk
    cases hk
  | found ht _ =>
    refine h.proceed rfl ?_ (fun k hk => by cases hk)
    rw [ht]
    exact fun v hv => hv
  | claimTail ht =>
    refine h.proceed rfl ?_ (fun k hk => by cases hk)
    rw [ht]
    exact fun v hv => hv
  | write ht =>
    refine h.proceed rfl ?_ (fun k hk => by cases hk)
    rw [ht]
    exact fun v hv => hv
  | publish ht => exact h.proceed rfl (fun v hv => by cases hv) (fun k hk => by cases hk)
  | seen ht _ => exact h.proceed rfl (fun v hv => by cases hv) (fun k hk => by cases hk)
  | claimHead ht =>
    refine h.proceed rfl (fun v hv => by cases hv) ?_
    intro k hk
    cases hk
    exact .inl rfl
  | read ht =>
    refine h.proceed rfl (fun v hv => by cases hv) ?_
    rw [ht]
    exact fun k hk => .inr hk
  | release ht => exact h.proceed rfl (fun v hv => by cases hv) (fun k hk => by cases hk)

theorem exec_callInv [Inhabited V] {actions : List (Action T V)}
    (hr : exec (System.step N) System.init actions = some (es, s)) : CallInv es s := by
  apply exec_invariant CallInv ?_ ?_ hr
  · intro es s a r s' h hstep
    exact h.step (System.step_spec hstep)
  · constructor
    · intro t v hv
      cases hv
    · intro t k hk
      cases hk

end Calls

section Delivery
variable {N k : ℕ} {l : Ledger V} {s : System T V}

theorem ThreadInv.current {claims : List (ℕ × V)} {t : T} (h : ThreadInv N claims s)
    (ht : (s.control t).ticket? = some k) : Current N s k := by
  rcases Control.ticket?_eq_some.mp ht with hw | hr
  · exact .inl (h.lt_tail hw).1
  · exact .inr (h.lt_head hr).1

theorem ThreadInv.only {claims : List (ℕ × V)} {t : T} (hN : 2 ≤ N) (h : ThreadInv N claims s)
    (ht : (s.control t).ticket? = some k) :
    ∀ t' j, (s.control t').ticket? = some j → j % N = k % N → t' = t := by
  intro t' j hj hmod
  obtain rfl := (h.current hj).eq hN (h.current ht) hmod
  exact h.unique t' t j hj ht

theorem QueueInv.slotPhase (hN : 2 ≤ N) (h : QueueInv N l s) (hk : Current N s k) :
    SlotPhase N l.tails s k := by
  obtain ⟨hi, ht⟩ := h
  have hsame : ∀ t j, (s.control t).ticket? = some j → j % N = k % N →
      (s.control t).ticket? = some k := by
    intro t j hj hmod
    rwa [← (ht.current hj).eq hN hk hmod]
  rcases hk with hseq | hseq
  · rcases Nat.lt_or_ge k s.tail with hlt | hge
    · obtain ⟨t, hw⟩ := ht.writer k hseq hlt
      exact .writing t hseq hlt hw (ht.only hN (Control.ticket?_eq_some.mpr (.inl hw)))
    · refine .free hseq hge ?_
      intro t j hj hmod
      rcases Control.ticket?_eq_some.mp (hsame t j hj hmod) with hw | hr
      · have hlt := (ht.lt_tail hw).2
        omega
      · have hfull := (ht.lt_head hr).1
        omega
  · obtain ⟨hlt, hmem⟩ := hi.stored k hseq
    rcases Nat.lt_or_ge k s.head with hhead | hge
    · obtain ⟨t, hr⟩ := ht.reader k hseq hhead
      exact .reading t hseq hhead (hi.pushed _ hmem) hr
        (ht.only hN (Control.ticket?_eq_some.mpr (.inr hr)))
    · refine .stored hseq hlt hge (hi.pushed _ hmem) ?_
      intro t j hj hmod
      rcases Control.ticket?_eq_some.mp (hsame t j hj hmod) with hw | hr
      · have hfree := (ht.lt_tail hw).1
        omega
      · have hhead := (ht.lt_head hr).2
        omega

/-- The ticket a slot is at, seen from any claimed ticket of the slot. -/
theorem SlotInv.exists_current (hN : 2 ≤ N) (h : SlotInv N l s) (hk : k < s.tail) :
    ∃ c, c % N = k % N ∧ Current N s c ∧ k ≤ c := by
  obtain ⟨c, hmod, hc⟩ := h.current (k % N) (Nat.mod_lt k (by omega))
  refine ⟨c, hmod, hc, ?_⟩
  have hle := h.tail_le c hc
  by_contra hlt
  have heq := eq_of_mod_eq hmod.symm (by omega) (show k < c + N by omega)
  omega

theorem SlotInv.lt_head_of_popped (hN : 2 ≤ N) (h : SlotInv N l s) {p : ℕ × V}
    (hp : p ∈ l.popped) : p.1 < s.head := by
  obtain ⟨c, hmod, hc⟩ := h.current (p.1 % N) (Nat.mod_lt p.1 (by omega))
  have hlt := (h.earlier c hc p.1 hmod.symm).mp (List.mem_map_of_mem hp)
  have hbound := h.lt_head c hc
  by_contra hge
  have heq := eq_of_mod_eq hmod (by omega) (show c < p.1 + N by omega)
  omega

theorem SlotInv.kept (hN : 2 ≤ N) (h : SlotInv N l s) {p : ℕ × V} (hp : p ∈ l.tails) :
    p ∈ l.popped ∨ Current N s p.1 := by
  have hmem : p.1 ∈ l.tails.map Prod.fst := List.mem_map_of_mem hp
  rw [h.tails, List.mem_range] at hmem
  obtain ⟨c, hmod, hc, hle⟩ := h.exists_current hN hmem
  rcases Nat.lt_or_eq_of_le hle with hlt | heq
  · obtain ⟨q, hq, hfst⟩ := List.mem_map.mp ((h.earlier c hc p.1 hmod.symm).mpr hlt)
    have hnodup : (l.tails.map Prod.fst).Nodup := by
      rw [h.tails]
      exact List.nodup_range
    rw [List.inj_on_of_nodup_map hnodup (h.values q hq) hp hfst] at hq
    exact .inl hq
  · rw [heq]
    exact .inr hc

end Delivery

/-- Whatever the producers and consumers do, on two slots or more. -/
theorem mpmcQueue_delivers [DecidableEq T] [Inhabited V] (N : ℕ) (hN : 2 ≤ N)
    (actions : List (Action T V)) (es : List (StepEvent T V)) (s : System T V)
    (hr : exec (System.step N) System.init actions = some (es, s)) : Delivers N es s := by
  have h := exec_queueInv hN hr
  have hi := h.slots
  refine ⟨hi.tails, hi.heads, hi.ordered, ?_, hi.once, ?_, ?_, ?_, ?_⟩
  · intro p hp
    refine ⟨hi.values p hp, ?_⟩
    have hheads : headClaims es = List.range s.head := hi.heads
    rw [hheads, List.mem_range]
    exact hi.lt_head_of_popped hN hp
  · intro p hp
    exact hi.kept hN hp
  · intro i hlt
    obtain ⟨k, hk, hc⟩ := hi.current i hlt
    refine ⟨k, hk, h.slotPhase hN hc, ?_⟩
    intro j hj hcj
    exact hcj.eq hN hc (hj.trans hk.symm)
  · intro t k hw j hlt hmod
    have hc := h.threads.current (Control.ticket?_eq_some.mpr (.inl hw))
    exact (hi.earlier k hc j hmod).mpr hlt
  · intro h e r heq
    obtain ⟨⟨is, his⟩, s', hstep⟩ := exec_events hr h e r heq
    have hcalls := exec_callInv his
    have hspec := System.step_spec hstep
    obtain ⟨before, call, result⟩ := e
    dsimp only at hspec hcalls ⊢
    constructor
    · rintro k v rfl
      cases hspec with
      | quiet _ _ _ hr => rcases hr with hr | ⟨_, hr⟩ <;> cases hr
      | claimTail ht =>
        apply hcalls.value
        rw [Action.thread, ht]
        rfl
    · rintro k out rfl
      cases hspec with
      | quiet _ _ _ hr => rcases hr with hr | ⟨_, hr⟩ <;> cases hr
      | release ht =>
        apply hcalls.claim
        rw [Action.thread, ht]
        rfl

/-- Two pushes overlap, the later ticket is published first, and a pop starts in
between. -/
theorem mpmcQueue_delivers_overlap :
    ∃ (es : List (StepEvent Bool ℕ)) (s : System Bool ℕ), 2 ≤ 2 ∧
      exec (System.step 2) System.init
        [.push true 7, .push false 8, .proceed true false, .proceed true false,
          .proceed false false, .proceed false false, .proceed false false,
          .proceed false false, .proceed false false, .proceed false false,
          .proceed true false, .proceed true false, .tryPop true 0, .proceed true false,
          .proceed true true, .proceed true false, .proceed true false, .proceed true false,
          .proceed true false] = some (es, s) ∧
      tailClaims es = [(0, 7), (1, 8)] ∧ pops es = [(0, 7)] ∧ Delivers 2 es s := by
  have hrun : ∃ (es : List (StepEvent Bool ℕ)) (s : System Bool ℕ),
      exec (System.step 2) System.init
        [.push true 7, .push false 8, .proceed true false, .proceed true false,
          .proceed false false, .proceed false false, .proceed false false,
          .proceed false false, .proceed false false, .proceed false false,
          .proceed true false, .proceed true false, .tryPop true 0, .proceed true false,
          .proceed true true, .proceed true false, .proceed true false, .proceed true false,
          .proceed true false] = some (es, s) ∧
      tailClaims es = [(0, 7), (1, 8)] ∧ pops es = [(0, 7)] := ⟨_, _, rfl, rfl, rfl⟩
  obtain ⟨es, s, hr, htails, hpops⟩ := hrun
  exact ⟨es, s, Nat.le_refl 2, hr, htails, hpops,
    mpmcQueue_delivers 2 (Nat.le_refl 2) _ es s hr⟩

/-- No operation is in progress. -/
def Quiescent (s : System T V) : Prop := ∀ t, s.control t = .idle

/-- The right answer of a pop after the calls `es`: the completed push with the
least ticket that has not been popped, or none when there is no such push. -/
def PopsOldest (es : List (StepEvent T V)) (out : V) : StepResult V → Prop
  | .popped k v => (k, v) ∈ pushes es ∧ k ∉ (pops es).map Prod.fst ∧
      ∀ p ∈ pushes es, p.1 ∉ (pops es).map Prod.fst → k ≤ p.1
  | .empty out' => out' = out ∧ ∀ p ∈ pushes es, p.1 ∈ (pops es).map Prod.fst
  | _ => False

/-- The last of these steps returned the right answer. -/
def Returned (es : List (StepEvent T V)) (out : V) (fs : List (StepEvent T V)) : Prop :=
  ∃ e, fs.getLast? = some e ∧ PopsOldest es out e.result

/-- However a pop that runs alone has been going, with any spurious failures, it
has returned or returns as soon as its exchanges stop failing spuriously. -/
def PopReturns [DecidableEq T] (N : ℕ) (es : List (StepEvent T V)) (s : System T V) : Prop :=
  ∀ (t : T) (out : V) (spurious : List Bool) (fs : List (StepEvent T V)) (s' : System T V),
    exec (System.step N) s (.tryPop t out :: spurious.map (Action.proceed t)) = some (fs, s') →
    ∃ m gs s'', exec (System.step N) s' (List.replicate m (.proceed t false)) = some (gs, s'') ∧
      Returned es out (fs ++ gs)

section Quiescent
variable {N k : ℕ} {l : Ledger V} {s : System T V}

theorem Quiescent.no_ticket {t : T} (hq : Quiescent s) : (s.control t).ticket? ≠ some k := by
  rw [hq t]
  exact fun hk => by cases hk

theorem QueueInv.current_head (hN : 2 ≤ N) (h : QueueInv N l s) (hq : Quiescent s) :
    Current N s s.head := by
  obtain ⟨hi, ht⟩ := h
  obtain ⟨c, hmod, hc⟩ := hi.current (s.head % N) (Nat.mod_lt _ (by omega))
  have hlt := hi.lt_head c hc
  have hle : s.head ≤ c := by
    rcases hc with hseq | hseq
    · exact hi.free c hseq
    · by_contra hhead
      obtain ⟨t, hr⟩ := ht.reader c hseq (by omega)
      exact hq.no_ticket (Control.ticket?_eq_some.mpr (.inr hr))
  rwa [eq_of_mod_eq hmod hle hlt] at hc

theorem QueueInv.popped_of_lt_head (hN : 2 ≤ N) (h : QueueInv N l s) (hq : Quiescent s)
    (hk : k < s.head) : k ∈ l.popped.map Prod.fst := by
  obtain ⟨hi, ht⟩ := h
  obtain ⟨c, hmod, hc, hle⟩ := hi.exists_current hN (Nat.lt_of_lt_of_le hk hi.ordered)
  rcases Nat.lt_or_eq_of_le hle with hlt | rfl
  · exact (hi.earlier c hc k hmod.symm).mpr hlt
  · rcases hc with hseq | hseq
    · have hfree := hi.free k hseq
      omega
    · obtain ⟨t, hr⟩ := ht.reader k hseq hk
      exact absurd (Control.ticket?_eq_some.mpr (.inr hr)) hq.no_ticket

theorem QueueInv.popsOldest_empty {es : List (StepEvent T V)} (hN : 2 ≤ N)
    (h : QueueInv N (ledger es) s) (hq : Quiescent s) (hseq : s.seq (s.head % N) = s.head)
    (out : V) : PopsOldest es out (.empty out) := by
  refine ⟨rfl, ?_⟩
  intro p hp
  have htail : ¬ s.head < s.tail := by
    intro hlt
    obtain ⟨t, hw⟩ := h.threads.writer s.head hseq hlt
    exact hq.no_ticket (Control.ticket?_eq_some.mpr (.inl hw))
  have hmem : p.1 ∈ (ledger es).tails.map Prod.fst :=
    List.mem_map_of_mem (h.slots.pushed p hp)
  rw [h.slots.tails, List.mem_range] at hmem
  exact h.popped_of_lt_head hN hq (by omega)

theorem QueueInv.popsOldest_head {es : List (StepEvent T V)} (hN : 2 ≤ N)
    (h : QueueInv N (ledger es) s) (hq : Quiescent s) (hseq : s.seq (s.head % N) = s.head + 1)
    (out : V) : PopsOldest es out (.popped s.head (s.value (s.head % N))) := by
  refine ⟨(h.slots.stored s.head hseq).2, ?_, ?_⟩
  · intro hmem
    have hlt := (h.slots.earlier s.head (.inr hseq) s.head rfl).mp hmem
    omega
  · intro p _ hnot
    by_contra hlt
    exact hnot (h.popped_of_lt_head hN hq (by omega))

end Quiescent

theorem Returned.cons {es fs : List (StepEvent T V)} {e : StepEvent T V} {out : V}
    (h : Returned es out fs) : Returned es out (e :: fs) := by
  obtain ⟨x, hx, hres⟩ := h
  refine ⟨x, ?_, hres⟩
  rw [List.getLast?_cons, hx]
  rfl

/-- A pop that has been running alone since state `s`, and how many steps it has
left when no exchange fails spuriously. -/
inductive Solo (N : ℕ) (s : System T V) (t : T) (out : V) : ℕ → System T V → Prop
  | loaded {s' : System T V} (hc : s'.control t = .popLoaded out s.head)
      (hhead : s'.head = s.head) (hseq : s'.seq = s.seq) (hvalue : s'.value = s.value) :
      Solo N s t out 4 s'
  | claiming {s' : System T V} (hc : s'.control t = .popClaiming out s.head)
      (hhead : s'.head = s.head) (hseq : s'.seq = s.seq) (hvalue : s'.value = s.value)
      (hfull : s.seq (s.head % N) = s.head + 1) : Solo N s t out 3 s'
  | reading {s' : System T V} (hc : s'.control t = .reading out s.head)
      (hvalue : s'.value = s.value) (hfull : s.seq (s.head % N) = s.head + 1) :
      Solo N s t out 2 s'
  | releasing {s' : System T V} (hc : s'.control t = .releasing (s.value (s.head % N)) s.head)
      (hfull : s.seq (s.head % N) = s.head + 1) : Solo N s t out 1 s'

section Solo
variable [DecidableEq T] {N n : ℕ} {es : List (StepEvent T V)} {s s' : System T V}
variable {t : T} {out : V}

theorem Solo.step (hN : 2 ≤ N) (h : QueueInv N (ledger es) s) (hq : Quiescent s)
    (hs : Solo N s t out n s') (spurious : Bool) :
    ∃ r s'', s'.step N (.proceed t spurious) = some (r, s'') ∧
      ((∃ m, Solo N s t out m s'' ∧ (spurious = false → m < n)) ∨
        (s''.control t = .idle ∧ PopsOldest es out r)) := by
  have hself : ∀ (u : System T V) (c : Control V), (u.setControl t c).control t = c :=
    fun u c => by simp [System.setControl]
  cases hs with
  | loaded hc hhead hseq hvalue =>
    rcases h.current_head hN hq with hfree | hfull
    · refine ⟨.empty out, s'.setControl t .idle, ?_, ?_⟩
      · simp [System.step, System.proceed, System.checkHead, hc, hseq, hfree]
      · exact .inr ⟨hself s' .idle, h.popsOldest_empty hN hq hfree out⟩
    · refine ⟨.running, s'.setControl t (.popClaiming out s.head), ?_, ?_⟩
      · simp [System.step, System.proceed, System.checkHead, hc, hseq, hfull]
      · exact .inl ⟨3, .claiming (hself s' _) hhead hseq hvalue hfull, fun _ => by decide⟩
  | claiming hc hhead hseq hvalue hfull =>
    cases spurious with
    | true =>
      refine ⟨.running, s'.setControl t (.popLoaded out s'.head), ?_, ?_⟩
      · simp [System.step, System.proceed, hc, compareExchangeWeak]
      · refine .inl ⟨4, .loaded ?_ hhead hseq hvalue, fun hf => by cases hf⟩
        rw [hself, hhead]
    | false =>
      refine ⟨.claimedHead s.head,
        { s'.setControl t (.reading out s.head) with head := s.head + 1 }, ?_, ?_⟩
      · simp [System.step, System.proceed, hc, compareExchangeWeak, hhead]
      · exact .inl ⟨2, .reading (hself s' _) hvalue hfull, fun _ => by decide⟩
  | reading hc hvalue hfull =>
    refine ⟨_, _, by simp only [System.step, System.proceed, hc]; rfl, ?_⟩
    refine .inl ⟨1, .releasing ?_ hfull, fun _ => by decide⟩
    rw [hself, hvalue]
  | releasing hc hfull =>
    refine ⟨_, _, by simp only [System.step, System.proceed, hc]; rfl, ?_⟩
    exact .inr ⟨hself s' .idle, h.popsOldest_head hN hq hfull out⟩

theorem Solo.finishes (hN : 2 ≤ N) (h : QueueInv N (ledger es) s) (hq : Quiescent s)
    (hs : Solo N s t out n s') :
    ∃ m gs s'', exec (System.step N) s' (List.replicate m (.proceed t false)) = some (gs, s'') ∧
      Returned es out gs := by
  induction n using Nat.strong_induction_on generalizing s' with
  | _ n ih =>
    obtain ⟨r, s₁, hstep, hnext | ⟨_, hret⟩⟩ := hs.step hN h hq false
    · obtain ⟨m, hm, hlt⟩ := hnext
      obtain ⟨j, gs, s₂, hexec, hret⟩ := ih m (hlt rfl) hm
      refine ⟨j + 1, ⟨s', .proceed t false, r⟩ :: gs, s₂, ?_, hret.cons⟩
      simp [List.replicate_succ, exec, hstep, hexec]
    · refine ⟨1, [⟨s', .proceed t false, r⟩], s₁, ?_, ⟨_, rfl, hret⟩⟩
      simp [exec, hstep]

/-- Any way the pop can go on alone. -/
theorem Solo.returns (hN : 2 ≤ N) (h : QueueInv N (ledger es) s) (hq : Quiescent s)
    {spurious : List Bool} {fs : List (StepEvent T V)} {s₁ : System T V}
    (hs : Solo N s t out n s')
    (hr : exec (System.step N) s' (spurious.map (Action.proceed t)) = some (fs, s₁)) :
    ∃ m gs s₂, exec (System.step N) s₁ (List.replicate m (.proceed t false)) = some (gs, s₂) ∧
      Returned es out (fs ++ gs) := by
  induction spurious generalizing n s' fs with
  | nil =>
    simp only [List.map_nil, exec, Option.some.injEq, Prod.mk.injEq] at hr
    obtain ⟨rfl, rfl⟩ := hr
    exact hs.finishes hN h hq
  | cons b rest ih =>
    simp only [List.map_cons, exec, Option.bind_eq_some_iff, Option.map_eq_some_iff] at hr
    obtain ⟨⟨r, s₂⟩, hstep, ⟨fs', s₃⟩, hrest, heq⟩ := hr
    cases heq
    obtain ⟨r', s₂', hstep', hnext⟩ := hs.step hN h hq b
    rw [hstep] at hstep'
    cases hstep'
    rcases hnext with ⟨m, hm, _⟩ | ⟨hidle, hret⟩
    · obtain ⟨j, gs, s₄, hexec, hret⟩ := ih hm hrest
      exact ⟨j, gs, s₄, hexec, hret.cons⟩
    · cases rest with
      | nil =>
        simp only [List.map_nil, exec, Option.some.injEq, Prod.mk.injEq] at hrest
        obtain ⟨rfl, rfl⟩ := hrest
        exact ⟨0, [], s₂, rfl, _, rfl, hret⟩
      | cons b' rest =>
        simp [exec, System.step, System.proceed, hidle] at hrest

end Solo

theorem QueueInv.popReturns [DecidableEq T] {N : ℕ} {es : List (StepEvent T V)} {s : System T V}
    (hN : 2 ≤ N) (h : QueueInv N (ledger es) s) (hq : Quiescent s) : PopReturns N es s := by
  intro t out spurious fs s' hr
  have hstart : s.step N (.tryPop t out) =
      some (.running, s.setControl t (.popLoaded out s.head)) := by
    simp [System.step, hq t]
  simp only [exec, hstart, Option.bind_some, Option.map_eq_some_iff] at hr
  obtain ⟨⟨fs', s₁⟩, hrest, heq⟩ := hr
  cases heq
  have hsolo : Solo N s t out 4 (s.setControl t (.popLoaded out s.head)) :=
    .loaded (Function.update_self t _ s.control) rfl rfl rfl
  obtain ⟨m, gs, s₂, hexec, hret⟩ := hsolo.returns hN h hq hrest
  exact ⟨m, gs, s₂, hexec, hret.cons⟩

/-- The steps of a push that runs alone and finds its slot free. -/
def pushAlone (t : T) (v : V) : List (Action T V) :=
  [.push t v, .proceed t false, .proceed t false, .proceed t false, .proceed t false]

theorem exec_pushAlone [DecidableEq T] {N : ℕ} {s : System T V} {t : T}
    (ht : s.control t = .idle) (hseq : s.seq (s.tail % N) = s.tail) (v : V) :
    ∃ es s', exec (System.step N) s (pushAlone t v) = some (es, s') ∧
      pushes es = [(s.tail, v)] ∧ pops es = [] ∧ s'.control t = .idle ∧
      s'.tail = s.tail + 1 ∧ s'.seq (s.tail % N) = s.tail + 1 := by
  obtain ⟨s₁, h₁, hc₁, ht₁, hq₁⟩ : ∃ s₁, s.step N (.push t v) = some (.running, s₁) ∧
      s₁.control t = .pushLoaded v s.tail ∧ s₁.tail = s.tail ∧ s₁.seq = s.seq :=
    ⟨s.setControl t (.pushLoaded v s.tail), by simp [System.step, ht], by simp, rfl, rfl⟩
  obtain ⟨s₂, h₂, hc₂, ht₂⟩ : ∃ s₂, s₁.step N (.proceed t false) = some (.running, s₂) ∧
      s₂.control t = .pushClaiming v s.tail ∧ s₂.tail = s.tail := by
    refine ⟨s₁.setControl t (.pushClaiming v s.tail), ?_, by simp, ht₁⟩
    simp [System.step, System.proceed, System.checkTail, hc₁, hq₁, hseq]
  obtain ⟨s₃, h₃, hc₃, ht₃⟩ : ∃ s₃, s₂.step N (.proceed t false) =
      some (.claimedTail s.tail v, s₃) ∧
      s₃.control t = .writing v s.tail ∧ s₃.tail = s.tail + 1 := by
    refine ⟨{ s₂.setControl t (.writing v s.tail) with tail := s.tail + 1 }, ?_, by simp, rfl⟩
    simp [System.step, System.proceed, compareExchangeWeak, hc₂, ht₂]
  obtain ⟨s₄, h₄, hc₄, ht₄⟩ : ∃ s₄, s₃.step N (.proceed t false) = some (.running, s₄) ∧
      s₄.control t = .publishing v s.tail ∧ s₄.tail = s.tail + 1 := by
    refine ⟨{ s₃.setControl t (.publishing v s.tail) with
      value := Function.update s₃.value (s.tail % N) v }, ?_, by simp, ht₃⟩
    simp [System.step, System.proceed, hc₃]
  obtain ⟨s₅, h₅, hc₅, ht₅, hq₅⟩ : ∃ s₅, s₄.step N (.proceed t false) =
      some (.pushed s.tail v, s₅) ∧
      s₅.control t = .idle ∧ s₅.tail = s.tail + 1 ∧ s₅.seq (s.tail % N) = s.tail + 1 := by
    refine ⟨{ s₄.setControl t .idle with
      seq := Function.update s₄.seq (s.tail % N) (s.tail + 1) }, ?_, by simp, ht₄, by simp⟩
    simp [System.step, System.proceed, hc₄]
  refine ⟨[⟨s, .push t v, .running⟩, ⟨s₁, .proceed t false, .running⟩,
    ⟨s₂, .proceed t false, .claimedTail s.tail v⟩, ⟨s₃, .proceed t false, .running⟩,
    ⟨s₄, .proceed t false, .pushed s.tail v⟩], s₅, ?_, ?_, ?_, hc₅, ht₅, hq₅⟩
  · simp only [pushAlone, exec, h₁, h₂, h₃, h₄, h₅, Option.bind_some, Option.map_some]
  · rfl
  · rfl

/-- One slot takes two elements: after the first push its sequence number is the
next ticket. -/
theorem exec_two_pushes [DecidableEq T] [Inhabited V] (t : T) (v : V) :
    ∃ es s, exec (System.step 1) System.init (pushAlone t v ++ pushAlone t v) = some (es, s) ∧
      pushes es = [(0, v), (1, v)] ∧ pops es = [] := by
  obtain ⟨es, s, hr, hpush, hpop, ht, htail, hseq⟩ :=
    exec_pushAlone (N := 1) (s := (System.init : System T V)) (t := t) rfl rfl v
  have hnext : s.seq (s.tail % 1) = s.tail := by
    rw [Nat.mod_one] at hseq ⊢
    rw [hseq, htail]
  obtain ⟨fs, s', hr', hpush', hpop', _⟩ := exec_pushAlone ht hnext v
  refine ⟨es ++ fs, s', exec_append hr hr', ?_, ?_⟩
  · have happ : pushes (es ++ fs) = pushes es ++ pushes fs := List.filterMap_append
    rw [happ, hpush, hpush', htail]
    rfl
  · have happ : pops (es ++ fs) = pops es ++ pops fs := List.filterMap_append
    rw [happ, hpop, hpop']
    rfl

/-- A queue keeps to its capacity, and a pop that runs alone returns, exactly
when it has two slots or more. -/
theorem mpmcQueue_capacity_iff [DecidableEq T] [Nonempty T] [Inhabited V] (N : ℕ) (hN : 1 ≤ N) :
    (∀ (actions : List (Action T V)) (es : List (StepEvent T V)) (s : System T V),
      exec (System.step N) System.init actions = some (es, s) →
      (pushes es).length ≤ (pops es).length + N ∧ (Quiescent s → PopReturns N es s)) ↔
    2 ≤ N := by
  constructor
  · intro h
    by_contra hlt
    obtain rfl : N = 1 := by omega
    obtain ⟨t⟩ := ‹Nonempty T›
    obtain ⟨es, s, hr, hpush, hpop⟩ := exec_two_pushes t (default : V)
    have hle := (h _ es s hr).1
    rw [hpush, hpop] at hle
    exact absurd hle (Nat.lt_irrefl 1)
  · intro hN actions es s hr
    have hq := exec_queueInv hN hr
    refine ⟨?_, hq.popReturns hN⟩
    have hcount : (pushes es).length = (pops es).length + (published N s).card :=
      hq.slots.counted
    have hcard : (published N s).card ≤ N :=
      (Finset.card_filter_le _ _).trans_eq (Finset.card_range N)
    omega

theorem mpmcQueue_capacity_two :
    (1 ≤ 2 ∧ 2 ≤ 2) ∧
    ∀ (actions : List (Action Bool ℕ)) (es : List (StepEvent Bool ℕ)) (s : System Bool ℕ),
      exec (System.step 2) System.init actions = some (es, s) →
      (pushes es).length ≤ (pops es).length + 2 ∧ (Quiescent s → PopReturns 2 es s) :=
  ⟨by decide, (mpmcQueue_capacity_iff 2 (by decide)).mpr (by decide)⟩

/-- A pop whose slot is ahead of its ticket reloads the head forever. -/
theorem exec_spin [DecidableEq T] {N m : ℕ} {s s' : System T V} {t : T} {out : V}
    {gs : List (StepEvent T V)} (hahead : s.head + 1 < s.seq (s.head % N))
    (hc : s.control t = .popLoaded out s.head ∨ s.control t = .popReload out)
    (hr : exec (System.step N) s (List.replicate m (.proceed t false)) = some (gs, s')) :
    ∀ e ∈ gs, e.result = .running := by
  induction m generalizing s gs with
  | zero =>
    simp only [List.replicate_zero, exec, Option.some.injEq, Prod.mk.injEq] at hr
    obtain ⟨rfl, rfl⟩ := hr
    intro e he
    cases he
  | succ m ih =>
    obtain ⟨c, hc', hstep⟩ : ∃ c, (c = .popLoaded out s.head ∨ c = .popReload out) ∧
        s.step N (.proceed t false) = some (.running, s.setControl t c) := by
      rcases hc with hc | hc
      · refine ⟨.popReload out, .inr rfl, ?_⟩
        simp only [System.step, System.proceed, System.checkHead, hc]
        rw [if_neg (by omega), if_neg (by omega)]
      · exact ⟨.popLoaded out s.head, .inl rfl, by simp [System.step, System.proceed, hc]⟩
    simp only [List.replicate_succ, exec, hstep, Option.bind_some, Option.map_eq_some_iff] at hr
    obtain ⟨⟨gs', s₁⟩, hrest, heq⟩ := hr
    cases heq
    intro e he
    rcases List.mem_cons.mp he with rfl | he
    · rfl
    · have hnext : (s.setControl t c).control t = .popLoaded out s.head ∨
          (s.setControl t c).control t = .popReload out := by
        rwa [System.setControl_self]
      exact ih (s := s.setControl t c) hahead hnext hrest e he

/-- On one slot both halves fail: two pushes complete, and the pop that follows
never returns. -/
theorem mpmcQueue_one_slot :
    ∃ (es : List (StepEvent Unit ℕ)) (s : System Unit ℕ),
      exec (System.step 1) System.init (pushAlone () 7 ++ pushAlone () 8) = some (es, s) ∧
      ¬ (pushes es).length ≤ (pops es).length + 1 ∧ Quiescent s ∧ ¬ PopReturns 1 es s := by
  refine ⟨_, _, rfl, by decide, fun _ => rfl, ?_⟩
  intro h
  obtain ⟨m, gs, s', hr, e, he, hres⟩ := h () 0 [] _ _ rfl
  have hrunning := exec_spin (N := 1) (by decide) (.inl rfl) hr
  have hmem := List.mem_of_getLast? he
  rcases List.mem_cons.mp hmem with rfl | hmem
  · exact hres
  · rw [hrunning e hmem] at hres
    exact hres

end HftExercises.Mpmc
