import HftExercises.Concurrency.MpmcQueueTickets

/-! # The threads of the queue

While a thread works on a slot no other thread relies on its sequence number, so
that each step of a thread leaves the others as they are. Together with the slot
invariant this is kept along every interleaving.
-/
namespace HftExercises.Mpmc
variable {T V : Type*}

/-- The ticket whose slot a thread relies on, and the sequence number it must
still find there. A claim that comes too late relies on nothing. -/
def Control.expects (tail head : ℕ) : Control V → Option (ℕ × ℕ)
  | .pushClaiming _ pos => if pos = tail then some (pos, pos) else none
  | .writing _ pos => some (pos, pos)
  | .publishing _ pos => some (pos, pos)
  | .popClaiming _ pos => if pos = head then some (pos, pos + 1) else none
  | .reading _ pos => some (pos, pos + 1)
  | .releasing _ pos => some (pos, pos + 1)
  | _ => none

/-- Positions come from counters that only grow. -/
def Control.Bounded (tail head : ℕ) : Control V → Prop
  | .pushLoaded _ pos => pos ≤ tail
  | .pushClaiming _ pos => pos ≤ tail
  | .writing _ pos => pos < tail
  | .publishing _ pos => pos < tail
  | .popLoaded _ pos => pos ≤ head
  | .popClaiming _ pos => pos ≤ head
  | .reading _ pos => pos < head
  | .releasing _ pos => pos < head
  | _ => True

/-- The values in hand and in the slot are those of the ticket. -/
def Control.Carries (N : ℕ) (claims : List (ℕ × V)) (value : ℕ → V) : Control V → Prop
  | .writing v pos => (pos, v) ∈ claims
  | .publishing v pos => (pos, v) ∈ claims ∧ value (pos % N) = v
  | .releasing out pos => (pos, out) ∈ claims
  | _ => True

/-- The threads and the slots they work on. -/
structure ThreadInv (N : ℕ) (claims : List (ℕ × V)) (s : System T V) : Prop where
  writer : ∀ k, s.seq (k % N) = k → k < s.tail → ∃ t, (s.control t).writes? = some k
  reader : ∀ k, s.seq (k % N) = k + 1 → k < s.head → ∃ t, (s.control t).reads? = some k
  expects : ∀ t k x, (s.control t).expects s.tail s.head = some (k, x) → s.seq (k % N) = x
  bounded : ∀ t, (s.control t).Bounded s.tail s.head
  carries : ∀ t, (s.control t).Carries N claims s.value
  unique : ∀ t t' k, (s.control t).ticket? = some k → (s.control t').ticket? = some k → t = t'

section Control
variable {c : Control V} {tail head tail' head' k x : ℕ}

attribute [local simp] Control.expects Control.Bounded Control.ticket? Control.writes? Control.reads?

theorem Control.ticket?_eq_some :
    c.ticket? = some k ↔ c.writes? = some k ∨ c.reads? = some k := by
  cases c <;> simp

theorem Control.expects_of_writes? (h : c.writes? = some k) :
    c.expects tail head = some (k, k) := by
  cases c <;> simp_all

theorem Control.expects_of_reads? (h : c.reads? = some k) :
    c.expects tail head = some (k, k + 1) := by
  cases c <;> simp_all

/-- A thread that relies on a slot works on it or is about to claim it. -/
theorem Control.cases_of_expects (h : c.expects tail head = some (k, x)) :
    (x = k ∧ (c.writes? = some k ∨ k = tail)) ∨
      (x = k + 1 ∧ (c.reads? = some k ∨ k = head)) := by
  cases c <;> simp_all <;> omega

theorem Control.Bounded.lt_tail (hb : c.Bounded tail head) (h : c.writes? = some k) :
    k < tail := by
  cases c <;> simp_all

theorem Control.Bounded.lt_head (hb : c.Bounded tail head) (h : c.reads? = some k) :
    k < head := by
  cases c <;> simp_all

theorem Control.Bounded.mono (hb : c.Bounded tail head) (ht : tail ≤ tail') (hh : head ≤ head') :
    c.Bounded tail' head' := by
  cases c <;> simp only [Control.Bounded] at hb ⊢ <;> omega

/-- A claim that was late stays late. -/
theorem Control.Bounded.expects_of_le (hb : c.Bounded tail head) (ht : tail ≤ tail')
    (hh : head ≤ head') (h : c.expects tail' head' = some (k, x)) :
    c.expects tail head = some (k, x) := by
  cases c with
  | pushClaiming value pos =>
    simp only [Control.Bounded, Control.expects] at hb h ⊢
    split_ifs at h with heq
    rwa [if_pos (by omega)]
  | popClaiming out pos =>
    simp only [Control.Bounded, Control.expects] at hb h ⊢
    split_ifs at h with heq
    rwa [if_pos (by omega)]
  | _ => exact h

end Control

section Alone
variable {N k k₀ x : ℕ} {claims claims' : List (ℕ × V)} {s s' : System T V} {t t' : T}

theorem ThreadInv.lt_tail (h : ThreadInv N claims s) (ht : (s.control t).writes? = some k) :
    s.seq (k % N) = k ∧ k < s.tail :=
  ⟨h.expects t k k (Control.expects_of_writes? ht), (h.bounded t).lt_tail ht⟩

theorem ThreadInv.lt_head (h : ThreadInv N claims s) (ht : (s.control t).reads? = some k) :
    s.seq (k % N) = k + 1 ∧ k < s.head :=
  ⟨h.expects t k (k + 1) (Control.expects_of_reads? ht), (h.bounded t).lt_head ht⟩

/-- While a thread works on a slot, no other one relies on it. -/
theorem ThreadInv.alone (hN : 2 ≤ N) (h : ThreadInv N claims s)
    (ht : (s.control t).ticket? = some k₀)
    (ht' : (s.control t').expects s.tail s.head = some (k, x)) (hmod : k % N = k₀ % N) :
    t' = t := by
  have hseq := h.expects t' k x ht'
  have hcases := Control.cases_of_expects ht'
  have hk : Current N s k := by
    unfold Current
    rcases hcases with ⟨rfl, _⟩ | ⟨rfl, _⟩
    · exact .inl hseq
    · exact .inr hseq
  have hk₀ : Current N s k₀ := by
    rcases Control.ticket?_eq_some.mp ht with hw | hr
    · exact .inl (h.lt_tail hw).1
    · exact .inr (h.lt_head hr).1
  obtain rfl := hk.eq hN hk₀ hmod
  have hticket : (s.control t').ticket? = some k := by
    rw [Control.ticket?_eq_some]
    rcases Control.ticket?_eq_some.mp ht with hw | hr
    · obtain ⟨hown, hlt⟩ := h.lt_tail hw
      rcases hcases with ⟨_, hw' | htail⟩ | ⟨hx, _⟩
      · exact .inl hw'
      · omega
      · omega
    · obtain ⟨hown, hlt⟩ := h.lt_head hr
      rcases hcases with ⟨hx, _⟩ | ⟨_, hr' | hhead⟩
      · omega
      · exact .inr hr'
      · omega
  exact h.unique t' t k hticket ht

/-- Frame rule: one thread moves, and what the others rely on stays. -/
theorem ThreadInv.update [DecidableEq T] {c : Control V} (h : ThreadInv N claims s)
    (hcontrol : s'.control = Function.update s.control t c)
    (hclaims : ∀ p ∈ claims, p ∈ claims')
    (htail : s.tail ≤ s'.tail) (hhead : s.head ≤ s'.head)
    (hseq : ∀ t', t' ≠ t → ∀ k x, (s.control t').expects s.tail s.head = some (k, x) →
      s'.seq (k % N) = s.seq (k % N))
    (hvalue : ∀ t', t' ≠ t → ∀ v k, s.control t' = .publishing v k →
      s'.value (k % N) = s.value (k % N))
    (hwriter : ∀ k, s'.seq (k % N) = k → k < s'.tail → c.writes? = some k ∨
      (s.seq (k % N) = k ∧ k < s.tail ∧ (s.control t).writes? ≠ some k))
    (hreader : ∀ k, s'.seq (k % N) = k + 1 → k < s'.head → c.reads? = some k ∨
      (s.seq (k % N) = k + 1 ∧ k < s.head ∧ (s.control t).reads? ≠ some k))
    (hexpects : ∀ k x, c.expects s'.tail s'.head = some (k, x) → s'.seq (k % N) = x)
    (hbounded : c.Bounded s'.tail s'.head)
    (hcarries : c.Carries N claims' s'.value)
    (hunique : ∀ t', t' ≠ t → ∀ k, c.ticket? = some k → (s.control t').ticket? ≠ some k) :
    ThreadInv N claims' s' := by
  have hself : s'.control t = c := by
    rw [hcontrol, Function.update_self]
  have hother : ∀ t', t' ≠ t → s'.control t' = s.control t' := by
    intro t' hne
    rw [hcontrol, Function.update_of_ne hne]
  refine ⟨?_, ?_, ?_, ?_, ?_, ?_⟩
  · intro k hk hlt
    rcases hwriter k hk hlt with hc | ⟨hold, hlt', hnot⟩
    · exact ⟨t, hself ▸ hc⟩
    · obtain ⟨t', ht'⟩ := h.writer k hold hlt'
      have hne : t' ≠ t := by
        rintro rfl
        exact hnot ht'
      exact ⟨t', hother t' hne ▸ ht'⟩
  · intro k hk hlt
    rcases hreader k hk hlt with hc | ⟨hold, hlt', hnot⟩
    · exact ⟨t, hself ▸ hc⟩
    · obtain ⟨t', ht'⟩ := h.reader k hold hlt'
      have hne : t' ≠ t := by
        rintro rfl
        exact hnot ht'
      exact ⟨t', hother t' hne ▸ ht'⟩
  · intro t' k x hx
    by_cases hne : t' = t
    · rw [hne, hself] at hx
      exact hexpects k x hx
    · rw [hother t' hne] at hx
      have hx' := (h.bounded t').expects_of_le htail hhead hx
      rw [hseq t' hne k x hx']
      exact h.expects t' k x hx'
  · intro t'
    by_cases hne : t' = t
    · rw [hne, hself]
      exact hbounded
    · rw [hother t' hne]
      exact (h.bounded t').mono htail hhead
  · intro t'
    by_cases hne : t' = t
    · rw [hne, hself]
      exact hcarries
    · rw [hother t' hne]
      have hold := h.carries t'
      cases hc : s.control t' with
      | writing v pos =>
        rw [hc] at hold
        exact hclaims _ hold
      | publishing v pos =>
        rw [hc] at hold
        exact ⟨hclaims _ hold.1, (hvalue t' hne v pos hc).trans hold.2⟩
      | releasing out pos =>
        rw [hc] at hold
        exact hclaims _ hold
      | _ => trivial
  · intro t₁ t₂ k h₁ h₂
    by_cases hne₁ : t₁ = t
    · by_cases hne₂ : t₂ = t
      · rw [hne₁, hne₂]
      · rw [hne₁, hself] at h₁
        rw [hother t₂ hne₂] at h₂
        exact absurd h₂ (hunique t₂ hne₂ k h₁)
    · rw [hother t₁ hne₁] at h₁
      by_cases hne₂ : t₂ = t
      · rw [hne₂, hself] at h₂
        exact absurd h₁ (hunique t₁ hne₁ k h₂)
      · rw [hother t₂ hne₂] at h₂
        exact h.unique t₁ t₂ k h₁ h₂

end Alone

section Steps
variable [DecidableEq T] {N k : ℕ} {claims : List (ℕ × V)} {s s' : System T V}
variable {t : T} {c : Control V}

/-- A thread that works on no slot before and after only has to be right itself. -/
theorem ThreadInv.quiet (h : ThreadInv N claims s) (ht : (s.control t).ticket? = none)
    (hticket : c.ticket? = none) (hbounded : c.Bounded s.tail s.head)
    (hexpects : ∀ k x, c.expects s.tail s.head = some (k, x) → s.seq (k % N) = x)
    (hcarries : c.Carries N claims s.value) : ThreadInv N claims (s.setControl t c) := by
  have hnot : ∀ k, (s.control t).ticket? ≠ some k := by
    intro k hk
    rw [ht] at hk
    cases hk
  refine h.update rfl (fun _ hp => hp) (Nat.le_refl _) (Nat.le_refl _)
    (fun _ _ _ _ _ => rfl) (fun _ _ _ _ _ => rfl) ?_ ?_ hexpects hbounded hcarries ?_
  · intro k hk hlt
    exact .inr ⟨hk, hlt, fun hw => hnot k (Control.ticket?_eq_some.mpr (.inl hw))⟩
  · intro k hk hlt
    exact .inr ⟨hk, hlt, fun hr => hnot k (Control.ticket?_eq_some.mpr (.inr hr))⟩
  · intro t' _ k hk
    rw [hticket] at hk
    cases hk

theorem Fresh.threadInv (h : ThreadInv N claims s) (ht : (s.control t).ticket? = none)
    (hc : Fresh s c) : ThreadInv N claims (s.setControl t c) := by
  cases c with
  | idle => exact h.quiet ht rfl trivial (fun _ _ hx => by cases hx) trivial
  | pushReload value => exact h.quiet ht rfl trivial (fun _ _ hx => by cases hx) trivial
  | popReload out => exact h.quiet ht rfl trivial (fun _ _ hx => by cases hx) trivial
  | pushLoaded value pos =>
    exact h.quiet ht rfl (Nat.le_of_eq hc) (fun _ _ hx => by cases hx) trivial
  | popLoaded out pos =>
    exact h.quiet ht rfl (Nat.le_of_eq hc) (fun _ _ hx => by cases hx) trivial
  | pushClaiming value pos => cases hc
  | writing value pos => cases hc
  | publishing value pos => cases hc
  | popClaiming out pos => cases hc
  | reading out pos => cases hc
  | releasing out pos => cases hc

theorem ThreadInv.claimTail {value : V} (h : ThreadInv N claims s) (hord : s.head ≤ s.tail)
    (ht : s.control t = .pushClaiming value s.tail) (hseq : s.seq (s.tail % N) = s.tail) :
    ThreadInv N (claims ++ [(s.tail, value)])
      { s.setControl t (.writing value s.tail) with tail := s.tail + 1 } := by
  refine h.update rfl (fun _ hp => List.mem_append_left _ hp) (Nat.le_succ _) (Nat.le_refl _)
    (fun _ _ _ _ _ => rfl) (fun _ _ _ _ _ => rfl) ?_ ?_ ?_ (Nat.lt_succ_self _) ?_ ?_
  · intro k hk hlt
    rcases Nat.lt_succ_iff_lt_or_eq.mp hlt with hlt | rfl
    · refine .inr ⟨hk, hlt, ?_⟩
      rw [ht]
      exact fun hw => by cases hw
    · exact .inl rfl
  · intro k hk hlt
    refine .inr ⟨hk, hlt, ?_⟩
    rw [ht]
    exact fun hw => by cases hw
  · intro k x hx
    cases hx
    exact hseq
  · exact List.mem_append_right _ List.mem_cons_self
  · intro t' _ k hk hk'
    cases hk
    rcases Control.ticket?_eq_some.mp hk' with hw | hr
    · exact absurd (h.lt_tail hw).2 (Nat.lt_irrefl _)
    · have hlt := (h.lt_head hr).2
      omega

theorem ThreadInv.claimHead {out : V} (h : ThreadInv N claims s)
    (ht : s.control t = .popClaiming out s.head) (hseq : s.seq (s.head % N) = s.head + 1) :
    ThreadInv N claims { s.setControl t (.reading out s.head) with head := s.head + 1 } := by
  refine h.update rfl (fun _ hp => hp) (Nat.le_refl _) (Nat.le_succ _)
    (fun _ _ _ _ _ => rfl) (fun _ _ _ _ _ => rfl) ?_ ?_ ?_ (Nat.lt_succ_self _) trivial ?_
  · intro k hk hlt
    refine .inr ⟨hk, hlt, ?_⟩
    rw [ht]
    exact fun hw => by cases hw
  · intro k hk hlt
    rcases Nat.lt_succ_iff_lt_or_eq.mp hlt with hlt | rfl
    · refine .inr ⟨hk, hlt, ?_⟩
      rw [ht]
      exact fun hw => by cases hw
    · exact .inl rfl
  · intro k x hx
    cases hx
    exact hseq
  · intro t' _ k hk hk'
    cases hk
    rcases Control.ticket?_eq_some.mp hk' with hw | hr
    · have hown := (h.lt_tail hw).1
      omega
    · exact absurd (h.lt_head hr).2 (Nat.lt_irrefl _)

/-- A thread that goes on working on its slot. -/
theorem ThreadInv.advance (hN : 2 ≤ N) (h : ThreadInv N claims s)
    (ht : (s.control t).ticket? = some k) (hwrites : c.writes? = (s.control t).writes?)
    (hreads : c.reads? = (s.control t).reads?)
    (hcontrol : s'.control = Function.update s.control t c) (htail : s'.tail = s.tail)
    (hhead : s'.head = s.head) (hseq : s'.seq = s.seq)
    (hvalue : ∀ i, i ≠ k % N → s'.value i = s.value i)
    (hexpects : c.expects s.tail s.head = (s.control t).expects s.tail s.head)
    (hbounded : c.Bounded s.tail s.head) (hcarries : c.Carries N claims s'.value) :
    ThreadInv N claims s' := by
  refine h.update hcontrol (fun _ hp => hp) (Nat.le_of_eq htail.symm)
    (Nat.le_of_eq hhead.symm) (fun _ _ _ _ _ => by rw [hseq]) ?_ ?_ ?_ ?_ ?_ hcarries ?_
  · intro t' hne v j hj
    apply hvalue
    intro hmod
    have hx : (s.control t').expects s.tail s.head = some (j, j) := by
      rw [hj]
      rfl
    exact hne (h.alone hN ht hx hmod)
  · intro j hj hlt
    rw [hseq] at hj
    rw [htail] at hlt
    rw [hwrites]
    by_cases hw : (s.control t).writes? = some j
    · exact .inl hw
    · exact .inr ⟨hj, hlt, hw⟩
  · intro j hj hlt
    rw [hseq] at hj
    rw [hhead] at hlt
    rw [hreads]
    by_cases hw : (s.control t).reads? = some j
    · exact .inl hw
    · exact .inr ⟨hj, hlt, hw⟩
  · intro j x hx
    rw [htail, hhead, hexpects] at hx
    rw [hseq]
    exact h.expects t j x hx
  · rw [htail, hhead]
    exact hbounded
  · intro t' hne j hj hj'
    have hj'' : (s.control t).ticket? = some j := by
      rw [Control.ticket?_eq_some] at hj ⊢
      rwa [hwrites, hreads] at hj
    exact hne (h.unique t' t j hj' hj'')

/-- A thread that returns and stores a new sequence number in its slot. -/
theorem ThreadInv.leave (hN : 2 ≤ N) (h : ThreadInv N claims s)
    (ht : (s.control t).ticket? = some k) {x : ℕ}
    (hwriter : ∀ j, j % N = k % N → x = j → s.tail ≤ j)
    (hreader : ∀ j, j % N = k % N → x = j + 1 → s.head ≤ j) :
    ThreadInv N claims { s.setControl t .idle with
      seq := Function.update s.seq (k % N) x } := by
  have hother : ∀ i, i ≠ k % N → Function.update s.seq (k % N) x i = s.seq i :=
    fun i hi => Function.update_of_ne hi _ _
  refine h.update rfl (fun _ hp => hp) (Nat.le_refl _) (Nat.le_refl _)
    ?_ (fun _ _ _ _ _ => rfl) ?_ ?_ (fun _ _ hx => by cases hx) trivial trivial
    (fun _ _ _ hk => by cases hk)
  · intro t' hne j y hy
    apply hother
    intro hmod
    exact hne (h.alone hN ht hy hmod)
  · intro j hj hlt
    dsimp only [System.setControl] at hj hlt
    by_cases hmod : j % N = k % N
    · rw [hmod, Function.update_self] at hj
      have hle := hwriter j hmod hj
      omega
    · rw [hother _ hmod] at hj
      refine .inr ⟨hj, hlt, fun hw => hmod ?_⟩
      have hj' := Control.ticket?_eq_some.mpr (.inl hw)
      rw [ht] at hj'
      cases hj'
      rfl
  · intro j hj hlt
    dsimp only [System.setControl] at hj hlt
    by_cases hmod : j % N = k % N
    · rw [hmod, Function.update_self] at hj
      have hle := hreader j hmod hj
      omega
    · rw [hother _ hmod] at hj
      refine .inr ⟨hj, hlt, fun hr => hmod ?_⟩
      have hj' := Control.ticket?_eq_some.mpr (.inr hr)
      rw [ht] at hj'
      cases hj'
      rfl

end Steps

/-- The ledger after one more step. -/
def Ledger.record (l : Ledger V) (r : StepResult V) : Ledger V where
  tails := l.tails ++ r.claimedTail?.toList
  heads := l.heads ++ r.claimedHead?.toList
  pushed := l.pushed ++ r.pushed?.toList
  popped := l.popped ++ r.popped?.toList

theorem ledger_append_singleton (es : List (StepEvent T V)) (e : StepEvent T V) :
    ledger (es ++ [e]) = (ledger es).record e.result := by
  simp only [ledger, Ledger.record, tailClaims, headClaims, pushes, pops,
    filterMap_append_singleton]

section Record
variable (l : Ledger V) (k : ℕ) (v : V)

attribute [local simp] Ledger.record StepResult.claimedTail? StepResult.claimedHead?
  StepResult.pushed? StepResult.popped?

@[simp] theorem Ledger.record_running : l.record .running = l := by
  simp

@[simp] theorem Ledger.record_empty : l.record (.empty v) = l := by
  simp

@[simp] theorem Ledger.record_claimedTail :
    l.record (.claimedTail k v) = { l with tails := l.tails ++ [(k, v)] } := by
  simp

@[simp] theorem Ledger.record_claimedHead :
    l.record (.claimedHead k) = { l with heads := l.heads ++ [k] } := by
  simp

@[simp] theorem Ledger.record_pushed :
    l.record (.pushed k v) = { l with pushed := l.pushed ++ [(k, v)] } := by
  simp

@[simp] theorem Ledger.record_popped :
    l.record (.popped k v) = { l with popped := l.popped ++ [(k, v)] } := by
  simp

end Record

structure QueueInv (N : ℕ) (l : Ledger V) (s : System T V) : Prop where
  slots : SlotInv N l s
  threads : ThreadInv N l.tails s

section Runs
variable [DecidableEq T] {N : ℕ} {l : Ledger V} {s s' : System T V}
variable {a : Action T V} {r : StepResult V}

theorem QueueInv.step (hN : 2 ≤ N) (h : QueueInv N l s) (hs : StepSpec N s a r s') :
    QueueInv N (l.record r) s' := by
  obtain ⟨hi, h⟩ := h
  cases hs with
  | @quiet _ _ c ht hc hpush hr =>
    have hrecord : l.record r = l := by
      rcases hr with rfl | ⟨out, rfl⟩
      · exact l.record_running
      · exact l.record_empty out
    rw [hrecord]
    exact ⟨hi.setControl a.thread c, hc.threadInv h ht⟩
  | @found t _ value pos ht hseq =>
    have hb := h.bounded t
    rw [ht] at hb
    rw [Ledger.record_running]
    refine ⟨hi.setControl t _, h.quiet (by rw [ht]; rfl) rfl hb ?_ trivial⟩
    intro k x hx
    simp only [Control.expects] at hx
    split_ifs at hx
    cases hx
    exact hseq
  | @seen t _ out pos ht hseq =>
    have hb := h.bounded t
    rw [ht] at hb
    rw [Ledger.record_running]
    refine ⟨hi.setControl t _, h.quiet (by rw [ht]; rfl) rfl hb ?_ trivial⟩
    intro k x hx
    simp only [Control.expects] at hx
    split_ifs at hx
    cases hx
    exact hseq
  | @claimTail t _ value ht =>
    have hseq : s.seq (s.tail % N) = s.tail := by
      apply h.expects t
      rw [ht]
      exact if_pos rfl
    rw [Ledger.record_claimedTail]
    exact ⟨(hi.claimTail hN hseq value).setControl t _, h.claimTail hi.ordered ht hseq⟩
  | @claimHead t _ out ht =>
    have hseq : s.seq (s.head % N) = s.head + 1 := by
      apply h.expects t
      rw [ht]
      exact if_pos rfl
    rw [Ledger.record_claimedHead]
    exact ⟨(hi.claimHead hseq).setControl t _, h.claimHead ht hseq⟩
  | @write t _ value pos ht =>
    have hwrites : (s.control t).writes? = some pos := by
      rw [ht]
      rfl
    have hb := h.bounded t
    have hmem := h.carries t
    rw [ht] at hb hmem
    rw [Ledger.record_running]
    refine ⟨(hi.write hN (h.lt_tail hwrites).1 value).setControl t _, ?_⟩
    exact h.advance hN (Control.ticket?_eq_some.mpr (.inl hwrites)) (by rw [ht]; rfl)
      (by rw [ht]; rfl) rfl rfl rfl rfl (fun i hi => Function.update_of_ne hi _ _)
      (by rw [ht]; rfl) hb ⟨hmem, Function.update_self _ _ _⟩
  | @read t _ out pos ht =>
    have hreads : (s.control t).reads? = some pos := by
      rw [ht]
      rfl
    have hb := h.bounded t
    rw [ht] at hb
    rw [Ledger.record_running]
    refine ⟨hi.setControl t _, ?_⟩
    exact h.advance hN (Control.ticket?_eq_some.mpr (.inr hreads)) (by rw [ht]; rfl)
      (by rw [ht]; rfl) rfl rfl rfl rfl (fun _ _ => rfl) (by rw [ht]; rfl) hb
      (hi.pushed _ (hi.stored pos (h.lt_head hreads).1).2)
  | @publish t _ value pos ht =>
    have hwrites : (s.control t).writes? = some pos := by
      rw [ht]
      rfl
    have hcarries := h.carries t
    rw [ht] at hcarries
    obtain ⟨hmem, rfl⟩ := hcarries
    obtain ⟨hseq, hlt⟩ := h.lt_tail hwrites
    rw [Ledger.record_pushed]
    refine ⟨(hi.publish hN hseq hlt hmem).setControl t _, ?_⟩
    refine h.leave hN (Control.ticket?_eq_some.mpr (.inl hwrites)) ?_ ?_
    · rintro j hmod rfl
      exact absurd hmod (succ_mod_ne hN pos)
    · intro j _ hj
      have hle := hi.free pos hseq
      omega
  | @release t _ out pos ht =>
    have hreads : (s.control t).reads? = some pos := by
      rw [ht]
      rfl
    have hmem := h.carries t
    rw [ht] at hmem
    obtain ⟨hseq, hlt⟩ := h.lt_head hreads
    rw [Ledger.record_popped]
    refine ⟨(hi.release hN hseq hlt hmem).setControl t _, ?_⟩
    refine h.leave hN (Control.ticket?_eq_some.mpr (.inr hreads)) ?_ ?_
    · intro j _ hj
      have hle := hi.tail_le pos (.inr hseq)
      omega
    · intro j hmod hj
      have hmod' : (j + 1) % N = j % N := by
        rw [← hj, Nat.add_mod_right, hmod]
      exact absurd hmod' (succ_mod_ne hN j)

theorem exec_queueInv [Inhabited V] (hN : 2 ≤ N) {actions : List (Action T V)}
    {es : List (StepEvent T V)} (hr : exec (System.step N) System.init actions = some (es, s)) :
    QueueInv N (ledger es) s := by
  apply exec_invariant (fun es s => QueueInv N (ledger es) s) ?_ ?_ hr
  · intro es s a r s' h hstep
    rw [ledger_append_singleton]
    exact h.step hN (System.step_spec hstep)
  · refine ⟨slotInv_init (by omega), ?_⟩
    constructor
    · intro k _ hlt
      cases hlt
    · intro k _ hlt
      cases hlt
    · intro t k x hx
      cases hx
    · intro t
      trivial
    · intro t
      trivial
    · intro t t' k hk
      cases hk

end Runs
end HftExercises.Mpmc
