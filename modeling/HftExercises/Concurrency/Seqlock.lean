import Mathlib.Algebra.Ring.Nat
import HftExercises.Core.ListFacts
import HftExercises.Core.ThreadCount

/-! # The seqlock

The writer makes `seq_` odd, stores the value and makes `seq_` even again. A
reader takes a copy between two loads of `seq_` and keeps it when both loads found
the same even number. Every atomic access is one step in one global order; the
counter is a 64-bit word, so that 2^63 writes bring an old number back.
-/
namespace HftExercises.Seqlock
variable {T V : Type*}

/-- Where a thread is, with what it has loaded so far. -/
inductive Control (V : Type*) where
  | idle
  | readStart
  | readCopy (s1 : UInt64)
  | readCheck (s1 : UInt64) (copy : V)
  | writeLoad (value : V)
  | writeOdd (value : V) (loaded : UInt64)
  | writeValue (value : V) (loaded : UInt64)
  | writeEven (value : V) (loaded : UInt64)

structure System (T V : Type*) where
  seq : UInt64
  value : V
  control : T → Control V

def System.init (value : V) : System T V where
  seq := 0
  value := value
  control := fun _ => .idle

inductive Action (T V : Type*) where
  | read (thread : T)
  | write (thread : T) (value : V)
  | proceed (thread : T)

inductive StepResult (V : Type*) where
  | running
  | returned (copy : V)
  | published (value : V)

def System.setControl [DecidableEq T] (s : System T V) (t : T) (c : Control V) : System T V :=
  { s with control := Function.update s.control t c }

def System.step [DecidableEq T] (s : System T V) :
    Action T V → Option (StepResult V × System T V)
  | .read t =>
    match s.control t with
    | .idle => some (.running, s.setControl t .readStart)
    | _ => none
  | .write t value =>
    match s.control t with
    | .idle => some (.running, s.setControl t (.writeLoad value))
    | _ => none
  | .proceed t =>
    match s.control t with
    | .idle => none
    | .readStart =>
      if s.seq &&& 1 ≠ 0 then some (.running, s)
      else some (.running, s.setControl t (.readCopy s.seq))
    | .readCopy s1 => some (.running, s.setControl t (.readCheck s1 s.value))
    | .readCheck s1 copy =>
      if s1 = s.seq then some (.returned copy, s.setControl t .idle)
      else some (.running, s.setControl t .readStart)
    | .writeLoad value => some (.running, s.setControl t (.writeOdd value s.seq))
    | .writeOdd value loaded =>
      some (.running, { s.setControl t (.writeValue value loaded) with seq := loaded + 1 })
    | .writeValue value loaded =>
      some (.running, { s.setControl t (.writeEven value loaded) with value := value })
    | .writeEven value loaded =>
      some (.published value, { s.setControl t .idle with seq := loaded + 2 })

abbrev StepEvent (T V : Type*) := Event (System T V) (Action T V) (StepResult V)

def StepResult.published? : StepResult V → Option V
  | .published value => some value
  | _ => none

/-- The values written so far, in the order in which `seq_` became even again. -/
def published (es : List (StepEvent T V)) : List V := es.filterMap fun e => e.result.published?

/-- What a register that a lock protects would hold. -/
def current (initial : V) (es : List (StepEvent T V)) : V := (published es).getLast?.getD initial

/-- A thread inside `write`. -/
def Control.writing : Control V → Bool
  | .writeLoad _ | .writeOdd _ _ | .writeValue _ _ | .writeEven _ _ => true
  | _ => false

/-- A writer between its two stores of `seq_`. -/
def Control.odd : Control V → Bool
  | .writeValue _ _ | .writeEven _ _ => true
  | _ => false

def Action.writes : Action T V → Bool
  | .write _ _ => true
  | _ => false

/-- The contract: no write starts while another one is under way. -/
def SingleWriter (es : List (StepEvent T V)) : Prop :=
  ∀ e ∈ es, e.call.writes = true → ∀ u, (e.before.control u).writing = false

instance [Fintype T] (es : List (StepEvent T V)) : Decidable (SingleWriter es) :=
  inferInstanceAs (Decidable (∀ e ∈ es, e.call.writes = true →
    ∀ u, (e.before.control u).writing = false))

/-- What a step can do. -/
inductive StepSpec [DecidableEq T] (s : System T V) :
    Action T V → StepResult V → System T V → Prop
  | startRead {t : T} (ht : s.control t = .idle) :
      StepSpec s (.read t) .running (s.setControl t .readStart)
  | startWrite {t : T} {v : V} (ht : s.control t = .idle) :
      StepSpec s (.write t v) .running (s.setControl t (.writeLoad v))
  | busy {t : T} : StepSpec s (.proceed t) .running s
  | load {t : T} (ht : s.control t = .readStart) (heven : s.seq &&& 1 = 0) :
      StepSpec s (.proceed t) .running (s.setControl t (.readCopy s.seq))
  | copy {t : T} {s1 : UInt64} (ht : s.control t = .readCopy s1) :
      StepSpec s (.proceed t) .running (s.setControl t (.readCheck s1 s.value))
  | retry {t : T} {s1 : UInt64} {copy : V} (ht : s.control t = .readCheck s1 copy) :
      StepSpec s (.proceed t) .running (s.setControl t .readStart)
  | keep {t : T} {copy : V} (ht : s.control t = .readCheck s.seq copy) :
      StepSpec s (.proceed t) (.returned copy) (s.setControl t .idle)
  | loadSeq {t : T} {v : V} (ht : s.control t = .writeLoad v) :
      StepSpec s (.proceed t) .running (s.setControl t (.writeOdd v s.seq))
  | makeOdd {t : T} {v : V} {n : UInt64} (ht : s.control t = .writeOdd v n) :
      StepSpec s (.proceed t) .running { s.setControl t (.writeValue v n) with seq := n + 1 }
  | store {t : T} {v : V} {n : UInt64} (ht : s.control t = .writeValue v n) :
      StepSpec s (.proceed t) .running { s.setControl t (.writeEven v n) with value := v }
  | publish {t : T} {v : V} {n : UInt64} (ht : s.control t = .writeEven v n) :
      StepSpec s (.proceed t) (.published v) { s.setControl t .idle with seq := n + 2 }

theorem System.step_spec [DecidableEq T] {s s' : System T V} {a : Action T V} {r : StepResult V}
    (h : s.step a = some (r, s')) : StepSpec s a r s' := by
  cases a with
  | read t =>
    simp only [System.step] at h
    split at h
    · rename_i ht
      cases h
      exact .startRead ht
    · cases h
  | write t v =>
    simp only [System.step] at h
    split at h
    · rename_i ht
      cases h
      exact .startWrite ht
    · cases h
  | proceed t =>
    simp only [System.step] at h
    cases hc : s.control t with
    | idle => simp [hc] at h
    | readStart =>
      rw [hc] at h
      dsimp only at h
      split_ifs at h with hseq
      · cases h
        exact .busy
      · cases h
        exact .load hc (by simpa using hseq)
    | readCopy s1 =>
      rw [hc] at h
      cases h
      exact .copy hc
    | readCheck s1 copy =>
      rw [hc] at h
      dsimp only at h
      split_ifs at h with hseq
      · cases h
        exact .keep (hseq ▸ hc)
      · cases h
        exact .retry hc
    | writeLoad v =>
      rw [hc] at h
      cases h
      exact .loadSeq hc
    | writeOdd v n =>
      rw [hc] at h
      cases h
      exact .makeOdd hc
    | writeValue v n =>
      rw [hc] at h
      cases h
      exact .store hc
    | writeEven v n =>
      rw [hc] at h
      cases h
      exact .publish hc

/-- An even number that a reader loaded is out of date: a write was published since,
or one is between its two stores. -/
def Overtaken (es : List (StepEvent T V)) (s : System T V) (n : ℕ) : Prop :=
  n < (published es).length ∨ ∃ u, (s.control u).odd = true

/-- Thread `t` last loaded `seq_` after the steps `l₁`, found the even number `s1`
and has not started another read since. -/
def LoadedAfter (es : List (StepEvent T V)) (t : T) (s1 : UInt64) (l₁ : List (StepEvent T V)) :
    Prop :=
  s1 = UInt64.ofNat (2 * (published l₁).length) ∧
    ∃ d l₂, es = l₁ ++ d :: l₂ ∧ d.call = .proceed t ∧ d.before.control t = .readStart ∧
      d.result = .running ∧ ∀ x ∈ l₂, x.call ≠ .read t

def ReaderAt (initial : V) (es : List (StepEvent T V)) (s : System T V) (t : T) :
    Control V → Prop
  | .readCopy s1 => ∃ l₁, LoadedAfter es t s1 l₁
  | .readCheck s1 copy => ∃ l₁, LoadedAfter es t s1 l₁ ∧
      (copy = current initial l₁ ∨ Overtaken es s (published l₁).length)
  | _ => True

def WriterAt (initial : V) (es : List (StepEvent T V)) (s : System T V) : Control V → Prop
  | .writeOdd _ n => n = s.seq
  | .writeValue _ n => n = UInt64.ofNat (2 * (published es).length) ∧ s.seq = n + 1 ∧
      s.value = current initial es
  | .writeEven v n => n = UInt64.ofNat (2 * (published es).length) ∧ s.seq = n + 1 ∧ s.value = v
  | _ => True

/-- While no write is between its stores, `seq_` counts the writes and the value is
the last of them. -/
structure SeqInv (initial : V) (es : List (StepEvent T V)) (s : System T V) : Prop where
  single : ∀ t u, (s.control t).writing = true → (s.control u).writing = true → t = u
  quiet : (∀ u, (s.control u).odd = false) →
    s.seq = UInt64.ofNat (2 * (published es).length) ∧ s.value = current initial es
  writers : ∀ t, WriterAt initial es s (s.control t)
  readers : ∀ t, ReaderAt initial es s t (s.control t)

def Action.thread : Action T V → T
  | .read t => t
  | .write t _ => t
  | .proceed t => t

section History
variable {es : List (StepEvent T V)} {e : StepEvent T V} {s : System T V} {t : T} {c : Control V}
variable {initial v : V} {s1 : UInt64} {l₁ : List (StepEvent T V)}

theorem published_append_silent (h : e.result.published? = none) :
    published (es ++ [e]) = published es := by
  simp [published, h]

theorem current_append_silent (h : e.result.published? = none) :
    current initial (es ++ [e]) = current initial es := by
  rw [current, published_append_silent h, current]

theorem published_append_published (h : e.result = .published v) :
    published (es ++ [e]) = published es ++ [v] := by
  simp [published, h, StepResult.published?]

theorem current_append_published (h : e.result = .published v) :
    current initial (es ++ [e]) = v := by
  simp [current, published_append_published h]

/-- A history with as many publications as an earlier one has the same last one. -/
theorem current_eq_of_length {l₂ : List (StepEvent T V)}
    (h : (published (l₁ ++ l₂)).length ≤ (published l₁).length) :
    current initial (l₁ ++ l₂) = current initial l₁ := by
  have hnil : published l₂ = [] := by
    rw [← List.length_eq_zero_iff]
    simp only [published, List.filterMap_append, List.length_append] at h ⊢
    omega
  simp only [current, published, List.filterMap_append] at hnil ⊢
  rw [hnil, List.append_nil]

theorem LoadedAfter.append (h : LoadedAfter es t s1 l₁) (he : e.call ≠ .read t) :
    LoadedAfter (es ++ [e]) t s1 l₁ := by
  obtain ⟨hs1, d, l₂, rfl, hcall, hbefore, hresult, hl₂⟩ := h
  refine ⟨hs1, d, l₂ ++ [e], by simp, hcall, hbefore, hresult, ?_⟩
  intro x hx
  rcases List.mem_append.mp hx with hx | hx
  · exact hl₂ x hx
  · rw [List.mem_singleton.mp hx]
    exact he

theorem LoadedAfter.length_le (h : LoadedAfter es t s1 l₁) :
    (published l₁).length ≤ (published es).length := by
  obtain ⟨-, d, l₂, rfl, -⟩ := h
  simp [published]

/-- The copy of a reader is what its load promised, unless a write came in between. -/
theorem LoadedAfter.copy (h : LoadedAfter es t s1 l₁)
    (hquiet : (∀ u, (s.control u).odd = false) → s.value = current initial es) :
    s.value = current initial l₁ ∨ Overtaken es s (published l₁).length := by
  by_cases hodd : ∃ u, (s.control u).odd = true
  · exact .inr (.inr hodd)
  · rcases Nat.lt_or_ge (published l₁).length (published es).length with hlt | hge
    · exact .inr (.inl hlt)
    · left
      rw [hquiet (by simpa using hodd)]
      obtain ⟨-, d, l₂, rfl, -⟩ := h
      exact current_eq_of_length hge

theorem ReaderAt.of_not_reading (h : c.writing = true ∨ c = .idle ∨ c = .readStart) :
    ReaderAt initial es s t c := by
  rcases h with h | rfl | rfl
  · cases c <;> trivial
  · trivial
  · trivial

theorem WriterAt.congr {es' : List (StepEvent T V)} {s' : System T V} (h : WriterAt initial es s c)
    (hpub : published es' = published es) (hseq : s'.seq = s.seq) (hvalue : s'.value = s.value) :
    WriterAt initial es' s' c := by
  cases c with
  | writeOdd value n => exact Eq.trans h hseq.symm
  | writeValue value n =>
    simp only [WriterAt, current, hpub, hseq, hvalue]
    exact h
  | writeEven value n =>
    simp only [WriterAt, hpub, hseq, hvalue]
    exact h
  | _ => trivial

theorem WriterAt.of_not_writing (h : c.writing = false) : WriterAt initial es s c := by
  cases c <;> trivial

end History

theorem seqInv_init (initial : V) : SeqInv initial [] (System.init initial : System T V) where
  single := nofun
  quiet := fun _ => ⟨rfl, rfl⟩
  writers := fun _ => trivial
  readers := fun _ => trivial

section Moves
variable {initial : V} {es : List (StepEvent T V)} {e : StepEvent T V}
variable {s s' : System T V} {t : T} {c : Control V}

theorem ReaderAt.append {u : T} (h : ReaderAt initial es s u c) (he : e.call ≠ .read u)
    (hover : ∀ n ≤ (published es).length, Overtaken es s n → Overtaken (es ++ [e]) s' n) :
    ReaderAt initial (es ++ [e]) s' u c := by
  cases c with
  | readCopy s1 =>
    obtain ⟨l₁, hl₁⟩ := h
    exact ⟨l₁, hl₁.append he⟩
  | readCheck s1 copy =>
    obtain ⟨l₁, hl₁, hcopy⟩ := h
    exact ⟨l₁, hl₁.append he, hcopy.imp_right (hover _ hl₁.length_le)⟩
  | _ => trivial

theorem SeqInv.others (h : SeqInv initial es s) (ht : (s.control t).writing = true) (u : T)
    (hu : u ≠ t) : (s.control u).writing = false := by
  by_contra hw
  exact hu (h.single u t (by simpa using hw) ht)

theorem Control.odd_of_not_writing (h : c.writing = false) : c.odd = false := by
  cases c <;> first | rfl | cases h

/-- While a thread is in `write` but not between its stores, nobody is. -/
theorem SeqInv.quiet_of_writing (h : SeqInv initial es s) (ht : (s.control t).writing = true)
    (hodd : (s.control t).odd = false) (u : T) : (s.control u).odd = false := by
  by_cases hu : u = t
  · rw [hu]
    exact hodd
  · exact Control.odd_of_not_writing (h.others ht u hu)

/-- An even `seq_` is that of no writer between its stores. -/
theorem SeqInv.quiet_of_even (h : SeqInv initial es s) (heven : s.seq &&& 1 = 0) (u : T) :
    (s.control u).odd = false := by
  have hw := h.writers u
  have hno : ∀ n : ℕ, s.seq ≠ UInt64.ofNat (2 * n) + 1 := by
    intro n hn
    have hbit := congrArg UInt64.toNat heven
    rw [hn, UInt64.toNat_and, UInt64.toNat_one, Nat.and_one_is_mod] at hbit
    simp only [UInt64.toNat_add, UInt64.toNat_ofNat', UInt64.toNat_one, UInt64.toNat_zero] at hbit
    omega
  cases hc : s.control u with
  | writeValue v n =>
    rw [hc] at hw
    exact absurd (hw.1 ▸ hw.2.1) (hno _)
  | writeEven v n =>
    rw [hc] at hw
    exact absurd (hw.1 ▸ hw.2.1) (hno _)
  | _ => rfl

/-- The number that a reader found twice is that of one moment, unless the word went
all the way round. -/
theorem SeqInv.returned {copy : V} {l₁ l₂ : List (StepEvent T V)} {d : StepEvent T V}
    (h : SeqInv initial (l₁ ++ d :: l₂) s) (hd : d.result = .running)
    (hs1 : s.seq = UInt64.ofNat (2 * (published l₁).length))
    (hcopy : copy = current initial l₁ ∨ Overtaken (l₁ ++ d :: l₂) s (published l₁).length) :
    copy = current initial l₁ ∨ 2 ^ 63 ≤ (published l₂).length := by
  refine hcopy.imp_right fun hover => ?_
  have heven : s.seq &&& 1 = 0 := by
    rw [← UInt64.toNat_inj, hs1, UInt64.toNat_and, UInt64.toNat_one, Nat.and_one_is_mod,
      UInt64.toNat_ofNat', UInt64.toNat_zero]
    omega
  have hnone := h.quiet_of_even heven
  have hlength : (published (l₁ ++ d :: l₂)).length =
      (published l₁).length + (published l₂).length := by
    simp [published, hd, StepResult.published?]
  have hround := (h.quiet hnone).1
  rw [hs1, hlength, ← UInt64.toNat_inj, UInt64.toNat_ofNat', UInt64.toNat_ofNat'] at hround
  rcases hover with hlt | ⟨u, hu⟩
  · rw [hlength] at hlt
    omega
  · rw [hnone u] at hu
    cases hu

variable [DecidableEq T]

/-- One thread moves. -/
theorem SeqInv.move (h : SeqInv initial es s) (hcontrol : s'.control = Function.update s.control t c)
    (ht : e.call.thread = t)
    (hsingle : c.writing = true → ∀ u, u ≠ t → (s.control u).writing = false)
    (hquiet : (∀ u, (s'.control u).odd = false) →
      s'.seq = UInt64.ofNat (2 * (published (es ++ [e])).length) ∧
        s'.value = current initial (es ++ [e]))
    (hwriter : WriterAt initial (es ++ [e]) s' c)
    (hothers : ∀ u, u ≠ t → WriterAt initial (es ++ [e]) s' (s.control u))
    (hreader : ReaderAt initial (es ++ [e]) s' t c)
    (hover : ∀ n ≤ (published es).length, Overtaken es s n → Overtaken (es ++ [e]) s' n) :
    SeqInv initial (es ++ [e]) s' := by
  have hself : s'.control t = c := by
    rw [hcontrol, Function.update_self]
  have hother : ∀ u, u ≠ t → s'.control u = s.control u := by
    intro u hu
    rw [hcontrol, Function.update_of_ne hu]
  refine ⟨?_, hquiet, ?_, ?_⟩
  · intro u w hu hw
    by_cases hut : u = t
    · by_contra hne
      rw [hut, hself] at hu
      rw [hother w (fun hwt => hne (hut.trans hwt.symm)),
        hsingle hu w fun hwt => hne (hut.trans hwt.symm)] at hw
      cases hw
    · rw [hother u hut] at hu
      by_cases hwt : w = t
      · rw [hwt, hself] at hw
        rw [hsingle hw u hut] at hu
        cases hu
      · rw [hother w hwt] at hw
        exact h.single u w hu hw
  · intro u
    by_cases hu : u = t
    · rw [hu, hself]
      exact hwriter
    · rw [hother u hu]
      exact hothers u hu
  · intro u
    by_cases hu : u = t
    · rw [hu, hself]
      exact hreader
    · rw [hother u hu]
      refine (h.readers u).append ?_ hover
      intro he
      rw [he] at ht
      exact hu ht

theorem setControl_odd (hodd : c.odd = (s.control t).odd) (u : T) :
    ((s.setControl t c).control u).odd = (s.control u).odd := by
  change (Function.update s.control t c u).odd = (s.control u).odd
  by_cases hu : u = t
  · rw [hu, Function.update_self, hodd]
  · rw [Function.update_of_ne hu]

theorem Overtaken.setControl {n : ℕ} (h : Overtaken es s n) (hresult : e.result.published? = none)
    (hodd : c.odd = (s.control t).odd) : Overtaken (es ++ [e]) (s.setControl t c) n := by
  rw [Overtaken, published_append_silent hresult]
  exact h.imp_right fun ⟨u, hu⟩ => ⟨u, (setControl_odd hodd u).trans hu⟩

/-- A move that touches neither word and stays on its side of the stores. -/
theorem SeqInv.silent (h : SeqInv initial es s) (ht : e.call.thread = t)
    (hresult : e.result.published? = none) (hodd : c.odd = (s.control t).odd)
    (hsingle : c.writing = true → ∀ u, u ≠ t → (s.control u).writing = false)
    (hwriter : WriterAt initial es s c)
    (hreader : ReaderAt initial (es ++ [e]) (s.setControl t c) t c) :
    SeqInv initial (es ++ [e]) (s.setControl t c) := by
  have hpub : published (es ++ [e]) = published es := published_append_silent hresult
  refine h.move rfl ht hsingle ?_ (hwriter.congr hpub rfl rfl)
    (fun u _ => (h.writers u).congr hpub rfl rfl) hreader fun n _ hn => hn.setControl hresult hodd
  intro hnone
  rw [hpub, current_append_silent hresult]
  exact h.quiet fun u => (setControl_odd hodd u).symm.trans (hnone u)

/-- A store of the one writer. -/
theorem SeqInv.store (h : SeqInv initial es s) (hcontrol : s'.control = Function.update s.control t c)
    (ht : e.call.thread = t) (hwriting : (s.control t).writing = true) (hc : c.odd = true)
    (hwriter : WriterAt initial (es ++ [e]) s' c) : SeqInv initial (es ++ [e]) s' := by
  have hself : (s'.control t).odd = true := by
    rw [hcontrol, Function.update_self, hc]
  refine h.move hcontrol ht (fun _ => h.others hwriting) ?_ hwriter
    (fun u hu => .of_not_writing (h.others hwriting u hu)) ?_ fun n _ _ => .inr ⟨t, hself⟩
  · intro hnone
    rw [hnone t] at hself
    cases hself
  · cases c <;> trivial

theorem SeqInv.step {a : Action T V} {r : StepResult V} (h : SeqInv initial es s)
    (hs : StepSpec s a r s')
    (hcontract : a.writes = true → ∀ u, (s.control u).writing = false) :
    SeqInv initial (es ++ [⟨s, a, r⟩]) s' := by
  cases hs with
  | startRead ht => exact h.silent rfl rfl (by rw [ht]; rfl) nofun trivial trivial
  | startWrite ht =>
    exact h.silent rfl rfl (by rw [ht]; rfl) (fun _ u _ => hcontract rfl u) trivial trivial
  | @busy t =>
    have hstay : s.setControl t (s.control t) = s := by
      rw [System.setControl, Function.update_eq_self]
    have hkeep := h.silent (e := ⟨s, .proceed t, .running⟩) (t := t) rfl rfl rfl h.others
      (h.writers t) ((h.readers t).append nofun fun n _ hn => hn.setControl rfl rfl)
    rwa [hstay] at hkeep
  | @load t ht heven =>
    refine h.silent rfl rfl (by rw [ht]; rfl) nofun trivial ?_
    exact ⟨es, (h.quiet (h.quiet_of_even heven)).1, _, [], rfl, rfl, ht, rfl, nofun⟩
  | @copy t s1 ht =>
    have hodd : (Control.readCheck s1 s.value).odd = (s.control t).odd := by
      rw [ht]
      rfl
    have hreader := h.readers t
    rw [ht] at hreader
    obtain ⟨l₁, hl₁⟩ := hreader
    refine h.silent rfl rfl hodd nofun trivial ⟨l₁, hl₁.append nofun, ?_⟩
    exact (hl₁.copy fun hnone => (h.quiet hnone).2).imp_right fun hover => hover.setControl rfl hodd
  | retry ht => exact h.silent rfl rfl (by rw [ht]; rfl) nofun trivial trivial
  | keep ht => exact h.silent rfl rfl (by rw [ht]; rfl) nofun trivial trivial
  | @loadSeq t v ht =>
    have hwriting : (s.control t).writing = true := by
      rw [ht]
      rfl
    exact h.silent rfl rfl (by rw [ht]; rfl) (fun _ => h.others hwriting) rfl trivial
  | @makeOdd t v n ht =>
    have hwriting : (s.control t).writing = true := by
      rw [ht]
      rfl
    have hn : n = s.seq := by
      have hw := h.writers t
      rwa [ht] at hw
    obtain ⟨hseq, hvalue⟩ := h.quiet (h.quiet_of_writing hwriting (by rw [ht]; rfl))
    refine h.store (t := t) rfl rfl hwriting rfl ⟨?_, rfl, ?_⟩
    · rw [published_append_silent rfl, hn, hseq]
    · rw [current_append_silent rfl]
      exact hvalue
  | @store t v n ht =>
    have hw := h.writers t
    rw [ht] at hw
    refine h.store (t := t) rfl rfl (by rw [ht]; rfl) rfl ⟨?_, hw.2.1, rfl⟩
    rw [published_append_silent rfl]
    exact hw.1
  | @publish t v n ht =>
    have hwriting : (s.control t).writing = true := by
      rw [ht]
      rfl
    have hw := h.writers t
    rw [ht] at hw
    obtain ⟨hn, -, hvalue⟩ := hw
    have hlength : (published (es ++ [⟨s, .proceed t, .published v⟩])).length =
        (published es).length + 1 := by
      rw [published_append_published rfl, List.length_append, List.length_singleton]
    refine h.move (t := t) rfl rfl nofun ?_ trivial
      (fun u hu => .of_not_writing (h.others hwriting u hu)) trivial ?_
    · intro _
      rw [hlength, current_append_published rfl]
      refine ⟨?_, hvalue⟩
      change n + 2 = _
      rw [hn, Nat.mul_add, UInt64.ofNat_add]
      rfl
    · intro k hk _
      left
      omega

/-- A value that `read` returns is the one that a register under a lock would hold when
the read last loaded `seq_`, or else 2^63 writes were published before it looked
again. -/
theorem seqlock_linearizable {actions : List (Action T V)}
    (h : exec System.step (System.init initial) actions = some (es, s)) (hw : SingleWriter es) :
    Admissible (fun l e => ∀ v, e.result = .returned v → ∃ l₁ d l₂, l = l₁ ++ d :: l₂ ∧
      d.call = .proceed e.call.thread ∧ d.before.control e.call.thread = .readStart ∧
      (∀ x ∈ l₂, x.call ≠ .read e.call.thread) ∧
      (v = current initial l₁ ∨ 2 ^ 63 ≤ (published l₂).length)) es := by
  refine (exec_invariant (fun es s => SingleWriter es → SeqInv initial es s ∧
    Admissible (fun l e => ∀ v, e.result = .returned v → ∃ l₁ d l₂, l = l₁ ++ d :: l₂ ∧
      d.call = .proceed e.call.thread ∧ d.before.control e.call.thread = .readStart ∧
      (∀ x ∈ l₂, x.call ≠ .read e.call.thread) ∧
      (v = current initial l₁ ∨ 2 ^ 63 ≤ (published l₂).length)) es)
    ?_ (fun _ => ⟨seqInv_init initial, admissible_nil⟩) h hw).2
  intro es s a r s' hih hstep hsw
  have hspec := System.step_spec hstep
  obtain ⟨hinv, hadm⟩ := hih fun e he => hsw e (List.mem_append_left _ he)
  refine ⟨hinv.step hspec (hsw ⟨s, a, r⟩ (by simp)),
    admissible_append_singleton.mpr ⟨hadm, ?_⟩⟩
  rintro v rfl
  cases hspec with
  | @keep t copy ht =>
    have hreader := hinv.readers t
    rw [ht] at hreader
    obtain ⟨l₁, ⟨hs1, d, l₂, rfl, hcall, hbefore, hresult, hl₂⟩, hcopy⟩ := hreader
    exact ⟨l₁, d, l₂, rfl, hcall, hbefore, hl₂, hinv.returned hresult hs1 hcopy⟩

end Moves

/-- A write by `true` is published between the two loads of the reader `false`, which tries
again. -/
def retried : List (Action Bool ℕ) :=
  [.read false, .proceed false, .write true 7, .proceed true, .proceed true, .proceed true,
    .proceed true, .proceed false, .proceed false, .proceed false, .proceed false, .proceed false]

theorem seqlock_linearizable_retried :
    ∃ es s, exec System.step (System.init 3) retried = some (es, s) ∧ SingleWriter es ∧
      Admissible (fun l e => ∀ v, e.result = .returned v → ∃ l₁ d l₂, l = l₁ ++ d :: l₂ ∧
        d.call = .proceed e.call.thread ∧ d.before.control e.call.thread = .readStart ∧
        (∀ x ∈ l₂, x.call ≠ .read e.call.thread) ∧
        (v = current 3 l₁ ∨ 2 ^ 63 ≤ (published l₂).length)) es := by
  have hany : ((exec System.step (System.init 3) retried).any fun p => SingleWriter p.1) = true :=
    rfl
  rw [Option.any_eq_true] at hany
  obtain ⟨⟨es, s⟩, hrun, hsingle⟩ := hany
  exact ⟨es, s, hrun, of_decide_eq_true hsingle, seqlock_linearizable hrun (of_decide_eq_true hsingle)⟩

end HftExercises.Seqlock
