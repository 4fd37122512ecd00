import Mathlib.Data.List.Induction
import Mathlib.Data.Nat.Notation

/-! # Loops and call sequences that may fault

A faulting computation is an `Option`: `none` is undefined behaviour of the
modelled code. A loop carries a fuel that is never exhausted once a measure
decreases; a call sequence records, for every call, the state it started from.
An interleaving of threads is a call sequence too: each call is one atomic step
of one thread, and `none` is a step that its thread is not at.
-/
namespace HftExercises
section Loops
variable {σ τ : Type*}

/-- Repeat `body` while `guard` holds. A faulting body and an exhausted fuel
both give `none`. -/
def whileLoop (guard : σ → Bool) (body : σ → Option σ) : ℕ → σ → Option σ
  | 0, s => if guard s then none else some s
  | n + 1, s => if guard s then (body s).bind (whileLoop guard body n) else some s

theorem whileLoop_stop {guard : σ → Bool} {body : σ → Option σ} {s : σ} (h : guard s = false)
    (n : ℕ) : whileLoop guard body n s = some s := by
  cases n <;> simp [whileLoop, h]

theorem whileLoop_next {guard : σ → Bool} {body : σ → Option σ} {s : σ} (h : guard s = true)
    (n : ℕ) : whileLoop guard body (n + 1) s = (body s).bind (whileLoop guard body n) := by
  simp [whileLoop, h]

/-- When the loop returns, its guard is false and what the body keeps holds. -/
theorem whileLoop_invariant {guard : σ → Bool} {body : σ → Option σ} (I : σ → Prop)
    (hbody : ∀ s s', I s → guard s = true → body s = some s' → I s') {n : ℕ} {s t : σ} (hs : I s)
    (h : whileLoop guard body n s = some t) : I t ∧ guard t = false := by
  induction n generalizing s with
  | zero =>
    simp only [whileLoop] at h
    split_ifs at h with hg
    cases h
    exact ⟨hs, by simpa using hg⟩
  | succ n ih =>
    simp only [whileLoop] at h
    split_ifs at h with hg
    · obtain ⟨s', hs', ht⟩ := Option.bind_eq_some_iff.mp h
      exact ih (hbody s s' hs hg hs') ht
    · cases h
      exact ⟨hs, by simpa using hg⟩

/-- Two loops that both return stay related for as long as the first one is not spoiled. -/
theorem whileLoop_related {guard : σ → Bool} {body : σ → Option σ} {guard' : τ → Bool}
    {body' : τ → Option τ} (R : σ → τ → Prop) (Spoiled : σ → Prop)
    (hspoiled : ∀ s s', Spoiled s → body s = some s' → Spoiled s')
    (hstop : ∀ s a, R s a → guard s = false → guard' a = false)
    (hbody : ∀ s a s', R s a → guard s = true → body s = some s' →
      Spoiled s' ∨ guard' a = true ∧ ∀ a', body' a = some a' → R s' a')
    {n m : ℕ} {s t : σ} {a b : τ} (h : R s a) (ht : whileLoop guard body n s = some t)
    (hb : whileLoop guard' body' m a = some b) : Spoiled t ∨ R t b := by
  induction n generalizing m s a with
  | zero =>
    simp only [whileLoop] at ht
    split_ifs at ht with hg
    cases ht
    rw [whileLoop_stop (hstop _ a h (by simpa using hg))] at hb
    cases hb
    exact .inr h
  | succ n ih =>
    simp only [whileLoop] at ht
    split_ifs at ht with hg
    · obtain ⟨s', hs', ht⟩ := Option.bind_eq_some_iff.mp ht
      rcases hbody s a s' h hg hs' with hspoil | ⟨hg', hnext⟩
      · exact .inl (whileLoop_invariant Spoiled (fun s s' hs _ => hspoiled s s' hs) hspoil ht).1
      · cases m with
        | zero => simp [whileLoop, hg'] at hb
        | succ m =>
          rw [whileLoop_next hg'] at hb
          obtain ⟨a', ha', hb⟩ := Option.bind_eq_some_iff.mp hb
          exact ih (hnext a' ha') ht hb
    · cases ht
      rw [whileLoop_stop (hstop _ a h (by simpa using hg))] at hb
      cases hb
      exact .inr h

/-- Two loops driven by equal guards run the same number of iterations. The
measure of the first one bounds the fuel both of them need. -/
theorem whileLoop_lockstep {guard : σ → Bool} {body : σ → Option σ}
    {guard' : τ → Bool} {body' : τ → Option τ} (R : σ → τ → Prop) (μ : σ → ℕ)
    (hguard : ∀ s a, R s a → guard s = guard' a)
    (hbody : ∀ s a, R s a → guard s = true →
      ∃ s' a', body s = some s' ∧ body' a = some a' ∧ R s' a' ∧ μ s' < μ s)
    {n m : ℕ} {s : σ} {a : τ} (hn : μ s ≤ n) (hm : μ s ≤ m) (h : R s a) :
    ∃ s' a', whileLoop guard body n s = some s' ∧ whileLoop guard' body' m a = some a' ∧
      R s' a' ∧ guard s' = false := by
  induction n generalizing m s a with
  | zero =>
    cases hg : guard s with
    | true =>
      obtain ⟨s', _, _, _, _, hlt⟩ := hbody s a h hg
      omega
    | false =>
      exact ⟨s, a, whileLoop_stop hg _, whileLoop_stop (hguard s a h ▸ hg) _, h, hg⟩
  | succ n ih =>
    cases hg : guard s with
    | true =>
      obtain ⟨s', a', hs, ha, hr, hlt⟩ := hbody s a h hg
      cases m with
      | zero => omega
      | succ m =>
        obtain ⟨t, b, ht, hb, hrt, hgt⟩ := ih (m := m) (by omega) (by omega) hr
        refine ⟨t, b, ?_, ?_, hrt, hgt⟩
        · rw [whileLoop_next hg, hs, Option.bind_some, ht]
        · rw [whileLoop_next (hguard s a h ▸ hg), ha, Option.bind_some, hb]
    | false =>
      exact ⟨s, a, whileLoop_stop hg _, whileLoop_stop (hguard s a h ▸ hg) _, h, hg⟩

/-- Total correctness from an invariant and a decreasing measure, for a family of
bodies that agree wherever the invariant holds. -/
theorem whileLoop_total {δ : Type*} {guard : σ → Bool} (body : δ → σ → Option σ) (I : σ → Prop)
    (μ : σ → ℕ)
    (hbody : ∀ s, I s → guard s = true →
      ∃ s', (∀ d, body d s = some s') ∧ I s' ∧ μ s' < μ s)
    {n : ℕ} {s : σ} (hn : μ s ≤ n) (h : I s) :
    ∃ s', (∀ d, whileLoop guard (body d) n s = some s') ∧ I s' ∧ guard s' = false := by
  induction n generalizing s with
  | zero =>
    cases hg : guard s with
    | true =>
      obtain ⟨s', _, _, hlt⟩ := hbody s h hg
      omega
    | false => exact ⟨s, fun _ => whileLoop_stop hg _, h, hg⟩
  | succ n ih =>
    cases hg : guard s with
    | true =>
      obtain ⟨s', hs, hi, hlt⟩ := hbody s h hg
      obtain ⟨t, ht, hit, hgt⟩ := ih (by omega) hi
      refine ⟨t, fun d => ?_, hit, hgt⟩
      rw [whileLoop_next hg, hs d, Option.bind_some, ht d]
    | false => exact ⟨s, fun _ => whileLoop_stop hg _, h, hg⟩

/-- Total correctness from an invariant with a rank that decreases: with any sufficient fuel the
loop ends in the same state. -/
theorem whileLoop_ranked {guard : σ → Bool} {body : σ → Option σ} (I : ℕ → σ → Prop)
    (hbody : ∀ k s, I k s → guard s = true → ∃ s' k', body s = some s' ∧ I k' s' ∧ k' < k)
    {k : ℕ} {s : σ} (h : I k s) : ∃ t l, (∀ n, k ≤ n → whileLoop guard body n s = some t) ∧
      I l t ∧ guard t = false := by
  induction k using Nat.strongRecOn generalizing s with
  | _ k ih =>
    cases hg : guard s with
    | false => exact ⟨s, k, fun n _ => whileLoop_stop hg n, h, hg⟩
    | true =>
      obtain ⟨s', k', hs, hi, hlt⟩ := hbody k s h hg
      obtain ⟨t, l, hrun, hlast⟩ := ih k' hlt hi
      refine ⟨t, l, fun n hn => ?_, hlast⟩
      cases n with
      | zero => omega
      | succ n => rw [whileLoop_next hg, hs, Option.bind_some, hrun n (by omega)]

/-- A counting loop, for a family of bodies that agree wherever the invariant holds. -/
theorem foldlM_range {δ : Type*} (body : δ → σ → ℕ → Option σ) (I : ℕ → σ → Prop) {r : ℕ} {s : σ}
    (hbody : ∀ i s, i < r → I i s → ∃ s', (∀ d, body d s i = some s') ∧ I (i + 1) s')
    (h : I 0 s) : ∃ t, (∀ d, (List.range r).foldlM (body d) s = some t) ∧ I r t := by
  induction r with
  | zero => exact ⟨s, fun _ => rfl, h⟩
  | succ r ih =>
    obtain ⟨t, ht, hi⟩ := ih fun i s hi => hbody i s (Nat.lt_succ_of_lt hi)
    obtain ⟨t', ht', hi'⟩ := hbody r t r.lt_succ_self hi
    refine ⟨t', fun d => ?_, hi'⟩
    rw [List.range_succ, List.foldlM_append, ht d]
    simp [ht' d]

end Loops

section Calls
variable {σ τ ι ο : Type*}

/-- One call of a run: the state it was made in, the call and what it returned. -/
structure Event (σ ι ο : Type*) where
  before : σ
  call : ι
  result : ο

def exec (step : σ → ι → Option (ο × σ)) : σ → List ι → Option (List (Event σ ι ο) × σ)
  | s, [] => some ([], s)
  | s, i :: is =>
    (step s i).bind fun p => (exec step p.2 is).map fun q => (⟨s, i, p.1⟩ :: q.1, q.2)

/-- An element of a list with one more behind it is that one, or one of the list. -/
theorem split_concat {l r es : List ι} {i j : ι} (h : es ++ [j] = l ++ i :: r) :
    l = es ∧ i = j ∧ r = [] ∨ ∃ r', r = r' ++ [j] ∧ es = l ++ i :: r' := by
  rcases List.eq_nil_or_concat r with rfl | ⟨r', k, rfl⟩
  · obtain ⟨rfl, hj⟩ := List.append_inj' h rfl
    cases hj
    exact .inl ⟨rfl, rfl, rfl⟩
  · rw [List.concat_eq_append, ← List.cons_append, ← List.append_assoc] at h
    obtain ⟨hes, hk⟩ := List.append_inj' h rfl
    cases hk
    exact .inr ⟨r', List.concat_eq_append, hes⟩

/-- Every call satisfies its precondition, which may look at the calls before it. -/
def Admissible (Pre : List ι → ι → Prop) (calls : List ι) : Prop :=
  ∀ l i r, calls = l ++ i :: r → Pre l i

theorem admissible_nil {Pre : List ι → ι → Prop} : Admissible Pre [] :=
  fun _ _ _ h => by simp at h

theorem admissible_cons {Pre : List ι → ι → Prop} {i : ι} {is : List ι} :
    Admissible Pre (i :: is) ↔ Pre [] i ∧ Admissible (fun l => Pre (i :: l)) is := by
  constructor
  · intro h
    exact ⟨h [] i is rfl, fun l j r heq => h (i :: l) j r (by rw [heq, List.cons_append])⟩
  · rintro ⟨hi, his⟩ l j r heq
    cases l with
    | nil =>
      cases heq
      exact hi
    | cons k l =>
      cases heq
      exact his l j r rfl

instance decidableAdmissible : (Pre : List ι → ι → Prop) → [∀ l i, Decidable (Pre l i)] →
    (calls : List ι) → Decidable (Admissible Pre calls)
  | _, _, [] => isTrue admissible_nil
  | Pre, _, i :: is =>
    have := decidableAdmissible (fun l => Pre (i :: l)) is
    decidable_of_iff _ admissible_cons.symm

theorem admissible_append_singleton {Pre : List ι → ι → Prop} {calls : List ι} {i : ι} :
    Admissible Pre (calls ++ [i]) ↔ Admissible Pre calls ∧ Pre calls i := by
  constructor
  · intro h
    exact ⟨fun l j r heq => h l j (r ++ [i]) (by simp [heq]), h calls i [] rfl⟩
  · rintro ⟨h, hi⟩ l j r heq
    rcases split_concat heq with ⟨rfl, rfl, -⟩ | ⟨r', -, hcalls⟩
    · exact hi
    · exact h l j r' hcalls

theorem Admissible.of_append {Pre : List ι → ι → Prop} {calls rest : List ι}
    (h : Admissible Pre (calls ++ rest)) : Admissible Pre calls :=
  fun l i r heq => h l i (r ++ rest) (by rw [heq, List.append_assoc, List.cons_append])

/-- A pairwise relation is a precondition on each call and the ones before it. -/
theorem admissible_iff_pairwise {R : ι → ι → Prop} {calls : List ι} :
    Admissible (fun l i => ∀ j ∈ l, R j i) calls ↔ calls.Pairwise R := by
  constructor
  · intro h
    induction calls using List.reverseRecOn with
    | nil => exact List.Pairwise.nil
    | append_singleton calls i ih =>
      obtain ⟨hc, hi⟩ := admissible_append_singleton.mp h
      refine List.pairwise_append.mpr ⟨ih hc, List.pairwise_singleton _ _, ?_⟩
      intro j hj k hk
      rw [List.mem_singleton.mp hk]
      exact hi j hj
  · rintro h l i r rfl j hj
    exact (List.pairwise_append.mp h).2.2 j hj i List.mem_cons_self

theorem exec_append {step : σ → ι → Option (ο × σ)} {s t u : σ} {calls rest : List ι}
    {es fs : List (Event σ ι ο)} (h : exec step s calls = some (es, t))
    (hrest : exec step t rest = some (fs, u)) :
    exec step s (calls ++ rest) = some (es ++ fs, u) := by
  induction calls generalizing s es with
  | nil =>
    simp only [exec, Option.some.injEq, Prod.mk.injEq] at h
    obtain ⟨rfl, rfl⟩ := h
    exact hrest
  | cons i is ih =>
    simp only [exec, Option.bind_eq_some_iff, Option.map_eq_some_iff] at h
    obtain ⟨⟨o, v⟩, hi, ⟨es', w⟩, his, he⟩ := h
    cases he
    simp [exec, hi, ih his]

theorem exec_snoc {step : σ → ι → Option (ο × σ)} {s t u : σ} {calls : List ι} {i : ι} {o : ο}
    {es : List (Event σ ι ο)} (h : exec step s calls = some (es, t)) (hi : step t i = some (o, u)) :
    exec step s (calls ++ [i]) = some (es ++ [⟨t, i, o⟩], u) := by
  apply exec_append h
  simp [exec, hi]

theorem exec_calls {step : σ → ι → Option (ο × σ)} {s t : σ} {calls : List ι}
    {es : List (Event σ ι ο)} (h : exec step s calls = some (es, t)) :
    es.map Event.call = calls := by
  induction calls generalizing s es with
  | nil =>
    simp only [exec, Option.some.injEq, Prod.mk.injEq] at h
    simp [← h.1]
  | cons i is ih =>
    simp only [exec, Option.bind_eq_some_iff, Option.map_eq_some_iff] at h
    obtain ⟨⟨o, u⟩, _, ⟨fs, v⟩, hq, he⟩ := h
    cases he
    simp [ih hq]

/-- A history invariant kept by every call holds at the end of every run. -/
theorem exec_invariant {step : σ → ι → Option (ο × σ)} (P : List (Event σ ι ο) → σ → Prop)
    (hstep : ∀ h s i o s', P h s → step s i = some (o, s') → P (h ++ [⟨s, i, o⟩]) s')
    {s t : σ} (h₀ : P [] s) {calls : List ι} {es : List (Event σ ι ο)}
    (h : exec step s calls = some (es, t)) : P es t := by
  suffices hgen : ∀ (is : List ι) (l : List (Event σ ι ο)) (s : σ) (es : List (Event σ ι ο)),
      P l s → exec step s is = some (es, t) → P (l ++ es) t from hgen calls [] s es h₀ h
  clear h
  intro is
  induction is with
  | nil =>
    intro l s es hp he
    simp only [exec, Option.some.injEq, Prod.mk.injEq] at he
    obtain ⟨rfl, rfl⟩ := he
    simpa using hp
  | cons i is ih =>
    intro l s es hp he
    simp only [exec, Option.bind_eq_some_iff, Option.map_eq_some_iff] at he
    obtain ⟨⟨o, s'⟩, hs, ⟨fs, u⟩, hq, heq⟩ := he
    cases heq
    rw [List.append_cons]
    exact ih (l ++ [⟨s, i, o⟩]) s' fs (hstep l s i o s' hp hs) hq

/-- Every event of a run is a step from the end of the run before it. -/
theorem exec_events {step : σ → ι → Option (ο × σ)} {s t : σ} {calls : List ι}
    {es : List (Event σ ι ο)} (h : exec step s calls = some (es, t)) :
    Admissible (fun l e => (∃ is, exec step s is = some (l, e.before)) ∧
      ∃ u, step e.before e.call = some (e.result, u)) es := by
  refine (exec_invariant (fun es t => (∃ is, exec step s is = some (es, t)) ∧
    Admissible (fun l e => (∃ is, exec step s is = some (l, e.before)) ∧
      ∃ u, step e.before e.call = some (e.result, u)) es) ?_ ⟨⟨[], rfl⟩, admissible_nil⟩ h).2
  rintro l t i o u ⟨⟨is, his⟩, hl⟩ hi
  exact ⟨⟨is ++ [i], exec_snoc his hi⟩, admissible_append_singleton.mpr ⟨hl, ⟨is, his⟩, u, hi⟩⟩

theorem exec_mem {step : σ → ι → Option (ο × σ)} {s t : σ} {calls : List ι}
    {es : List (Event σ ι ο)} (h : exec step s calls = some (es, t)) {e : Event σ ι ο} (he : e ∈ es) :
    ∃ is l u, exec step s is = some (l, e.before) ∧ l ⊆ es ∧
      step e.before e.call = some (e.result, u) := by
  obtain ⟨l, r, hsplit⟩ := List.append_of_mem he
  obtain ⟨⟨is, his⟩, u, hu⟩ := exec_events h l e r hsplit
  exact ⟨is, l, u, his, hsplit ▸ List.subset_append_left l (e :: r), hu⟩

/-- The steps whose call meets its precondition and whose state after it is one of `Ok`. -/
def guarded (Pre : σ → ι → Prop) (Ok : σ → Prop) [∀ s i, Decidable (Pre s i)] [DecidablePred Ok]
    (step : σ → ι → Option (ο × σ)) (s : σ) (i : ι) : Option (ο × σ) :=
  if Pre s i then (step s i).filter (fun r => Ok r.2) else none

theorem guarded_eq_some {Pre : σ → ι → Prop} {Ok : σ → Prop} [∀ s i, Decidable (Pre s i)]
    [DecidablePred Ok] {step : σ → ι → Option (ο × σ)} {s s' : σ} {i : ι} {o : ο} :
    guarded Pre Ok step s i = some (o, s') ↔ Pre s i ∧ step s i = some (o, s') ∧ Ok s' := by
  rw [guarded]
  split_ifs with hpre
  · simp [hpre, Option.filter_eq_some_iff]
  · simp [hpre]

/-- A run that keeps to the preconditions is a run of the guarded steps. -/
theorem exec_guarded {Pre : σ → ι → Prop} {Ok : σ → Prop} [∀ s i, Decidable (Pre s i)]
    [DecidablePred Ok] {step : σ → ι → Option (ο × σ)} {s t : σ} {calls : List ι}
    {es : List (Event σ ι ο)} (h : exec step s calls = some (es, t))
    (hpre : ∀ e ∈ es, Pre e.before e.call) (hok : ∀ e ∈ es, Ok e.before) (ht : Ok t) :
    exec (guarded Pre Ok step) s calls = some (es, t) := by
  induction calls generalizing s es with
  | nil => exact h
  | cons i is ih =>
    simp only [exec, Option.bind_eq_some_iff, Option.map_eq_some_iff] at h
    obtain ⟨⟨o, u⟩, hi, ⟨fs, v⟩, hq, he⟩ := h
    cases he
    rw [List.forall_mem_cons] at hpre hok
    have hu : Ok u := by
      cases is with
      | nil =>
        cases hq
        exact ht
      | cons j js =>
        simp only [exec, Option.bind_eq_some_iff, Option.map_eq_some_iff] at hq
        obtain ⟨_, _, ⟨gs, w⟩, _, hfs⟩ := hq
        cases hfs
        exact hok.2 _ List.mem_cons_self
    rw [exec, guarded_eq_some.mpr ⟨hpre.1, hi, hu⟩, Option.bind_some, ih hq hpre.2 hok.2]
    rfl

/-- What no call undoes holds from the first call made under it on. -/
theorem exec_latch {step : σ → ι → Option (ο × σ)} (P : σ → Prop)
    (hkeep : ∀ s i o s', P s → step s i = some (o, s') → P s') {s t : σ} {calls : List ι}
    {es : List (Event σ ι ο)} (h : exec step s calls = some (es, t)) :
    es.Pairwise (fun e e' => P e.before → P e'.before) ∧ ∀ e ∈ es, P e.before → P t := by
  refine exec_invariant (fun es t => es.Pairwise (fun e e' => P e.before → P e'.before) ∧
    ∀ e ∈ es, P e.before → P t) ?_ ⟨List.Pairwise.nil, nofun⟩ h
  rintro es s i o s' ⟨hpair, hend⟩ hstep
  refine ⟨List.pairwise_append.mpr ⟨hpair, List.pairwise_singleton _ _, ?_⟩, ?_⟩
  · intro e he e' he'
    rw [List.mem_singleton.mp he']
    exact hend e he
  · intro e he hp
    rcases List.mem_append.mp he with he | he
    · exact hkeep s i o s' (hend e he hp) hstep
    · rw [List.mem_singleton.mp he] at hp
      exact hkeep s i o s' hp hstep

/-- Every call from then on is made under it. -/
theorem exec_after_latch {step : σ → ι → Option (ο × σ)} (P : σ → Prop) {Q : ο → Prop}
    (hkeep : ∀ s i o s', P s → step s i = some (o, s') → P s')
    (hcall : ∀ s i o s', P s → step s i = some (o, s') → Q o) {s t : σ} {calls : List ι}
    {l r : List (Event σ ι ο)} {e : Event σ ι ο}
    (h : exec step s calls = some (l ++ e :: r, t)) (hp : P e.before) :
    ∀ e' ∈ e :: r, Q e'.result := by
  intro e' he'
  have hset : P e'.before := by
    rcases List.mem_cons.mp he' with rfl | he'
    · exact hp
    · exact (List.pairwise_cons.mp (List.pairwise_append.mp (exec_latch P hkeep h).1).2.1).1 e' he' hp
  obtain ⟨_, _, _, _, _, hstep⟩ := exec_mem h (List.mem_append_right l he')
  exact hcall _ _ _ _ hset hstep

/-- A property holds in every state of a run if and only if the run makes none of
the calls that break it. -/
theorem exec_forall_iff {step : σ → ι → Option (ο × σ)} (I P : σ → Prop) (Bad : σ → ι → Prop)
    (hinv : ∀ s i o s', I s → step s i = some (o, s') → I s')
    (hkeep : ∀ s i o s', I s → P s → ¬ Bad s i → step s i = some (o, s') → P s')
    (hbreak : ∀ s i o s', I s → Bad s i → step s i = some (o, s') → ¬ P s')
    {s t : σ} (hI : I s) (hP : P s) {calls : List ι} {es : List (Event σ ι ο)}
    (h : exec step s calls = some (es, t)) :
    ((∀ e ∈ es, P e.before) ∧ P t) ↔ ∀ e ∈ es, ¬ Bad e.before e.call := by
  refine (exec_invariant (fun es t => I t ∧
    (((∀ e ∈ es, P e.before) ∧ P t) ↔ ∀ e ∈ es, ¬ Bad e.before e.call)) ?_
    ⟨hI, by simpa using hP⟩ h).2
  rintro es s i o s' ⟨hs, hiff⟩ hstep
  refine ⟨hinv s i o s' hs hstep, ?_⟩
  rw [List.forall_mem_append, List.forall_mem_append, List.forall_mem_singleton,
    List.forall_mem_singleton, ← hiff]
  constructor
  · rintro ⟨hbefore, hafter⟩
    exact ⟨hbefore, fun hbad => hbreak s i o s' hs hbad hstep hafter⟩
  · rintro ⟨hbefore, hgood⟩
    exact ⟨hbefore, hkeep s i o s' hs hbefore.2 hgood hstep⟩

/-- The same of a property of the history, which holds as long as the run makes none
of the calls that break it at the history they are made in. -/
theorem exec_history_iff {step : σ → ι → Option (ο × σ)} (P : List (Event σ ι ο) → σ → Prop)
    (Bad : List (Event σ ι ο) → σ → ι → Prop)
    (hstep : ∀ h s i o s', P h s → step s i = some (o, s') →
      (P (h ++ [⟨s, i, o⟩]) s' ↔ ¬ Bad h s i))
    {s t : σ} (h₀ : P [] s) {calls : List ι} {es : List (Event σ ι ο)}
    (h : exec step s calls = some (es, t)) :
    (Admissible (fun l e => P l e.before) es ∧ P es t) ↔
      Admissible (fun l e => ¬ Bad l e.before e.call) es := by
  refine exec_invariant (fun es t => (Admissible (fun l e => P l e.before) es ∧ P es t) ↔
      Admissible (fun l e => ¬ Bad l e.before e.call) es) ?_
    ⟨fun _ => admissible_nil, fun _ => ⟨admissible_nil, h₀⟩⟩ h
  intro es s i o s' hiff hs
  rw [admissible_append_singleton, admissible_append_singleton, ← hiff]
  constructor
  · rintro ⟨hbefore, hafter⟩
    exact ⟨hbefore, (hstep es s i o s' hbefore.2 hs).mp hafter⟩
  · rintro ⟨hbefore, hgood⟩
    exact ⟨hbefore, (hstep es s i o s' hbefore.2 hs).mpr hgood⟩

/-- Two machines that answer alike from related states answer alike along every
admissible call sequence, and neither of them faults. The relation may look at
the whole history of the first machine. -/
theorem exec_lockstep {step : σ → ι → Option (ο × σ)} {step' : τ → ι → Option (ο × τ)}
    {Pre : List ι → ι → Prop} (R : List (Event σ ι ο) → σ → τ → Prop)
    (hstep : ∀ h s a i, R h s a → Pre (h.map Event.call) i →
      ∃ o s' a', step s i = some (o, s') ∧ step' a i = some (o, a') ∧
        R (h ++ [⟨s, i, o⟩]) s' a')
    {s : σ} {a : τ} (h₀ : R [] s a) {calls : List ι} (hc : Admissible Pre calls) :
    ∃ es fs t b, exec step s calls = some (es, t) ∧ exec step' a calls = some (fs, b) ∧
      es.map Event.result = fs.map Event.result ∧ R es t b := by
  suffices hgen : ∀ (is : List ι) (h : List (Event σ ι ο)) (s : σ) (a : τ), R h s a →
      calls = h.map Event.call ++ is →
      ∃ es fs t b, exec step s is = some (es, t) ∧ exec step' a is = some (fs, b) ∧
        es.map Event.result = fs.map Event.result ∧ R (h ++ es) t b by
    simpa using hgen calls [] s a h₀ (by simp)
  intro is
  induction is with
  | nil => exact fun h s a hr _ => ⟨[], [], s, a, rfl, rfl, rfl, by simpa using hr⟩
  | cons i is ih =>
    intro h s a hr heq
    obtain ⟨o, s', a', hs, ha, hr'⟩ := hstep h s a i hr (hc _ i is heq)
    obtain ⟨es, fs, t, b, he, hf, hres, hrt⟩ := ih (h ++ [⟨s, i, o⟩]) s' a' hr' (by simp [heq])
    refine ⟨⟨s, i, o⟩ :: es, ⟨a, i, o⟩ :: fs, t, b, ?_, ?_, by simp [hres], by simpa using hrt⟩
    · simp [exec, hs, he]
    · simp [exec, ha, hf]

/-- Two runs over the same calls, their states and their results related throughout. -/
theorem exec_related {ω : Type*} {step : σ → ι → Option (ο × σ)} {step' : τ → ι → Option (ω × τ)}
    (R : σ → τ → Prop) (Q : ι → ο → ω → Prop)
    (hstep : ∀ s a i, R s a → ∃ o s' w a', step s i = some (o, s') ∧ step' a i = some (w, a') ∧
      Q i o w ∧ R s' a')
    {s : σ} {a : τ} (h : R s a) (calls : List ι) :
    ∃ es fs t b, exec step s calls = some (es, t) ∧ exec step' a calls = some (fs, b) ∧
      List.Forall₂ (fun e f => Q e.call e.result f.result) es fs ∧ R t b := by
  induction calls generalizing s a with
  | nil => exact ⟨[], [], s, a, rfl, rfl, .nil, h⟩
  | cons i calls ih =>
    obtain ⟨o, s', w, a', hs, ha, hq, h'⟩ := hstep s a i h
    obtain ⟨es, fs, t, b, he, hf, hall, ht⟩ := ih h'
    refine ⟨⟨s, i, o⟩ :: es, ⟨a, i, w⟩ :: fs, t, b, ?_, ?_, .cons hq hall, ht⟩
    · simp [exec, hs, he]
    · simp [exec, ha, hf]

/-- No admissible call sequence faults, and a history invariant kept by every
call holds at its end. -/
theorem exec_total {step : σ → ι → Option (ο × σ)} {Pre : List ι → ι → Prop}
    (P : List (Event σ ι ο) → σ → Prop)
    (hstep : ∀ h s i, P h s → Pre (h.map Event.call) i →
      ∃ o s', step s i = some (o, s') ∧ P (h ++ [⟨s, i, o⟩]) s')
    {s : σ} (h₀ : P [] s) {calls : List ι} (hc : Admissible Pre calls) :
    ∃ es t, exec step s calls = some (es, t) ∧ P es t := by
  have hpair : ∀ h s a i, (s = a ∧ P h s) → Pre (h.map Event.call) i →
      ∃ o s' a', step s i = some (o, s') ∧ step a i = some (o, a') ∧
        (s' = a' ∧ P (h ++ [⟨s, i, o⟩]) s') := by
    rintro h s a i ⟨rfl, hp⟩ hpre
    obtain ⟨o, s', hs, hp'⟩ := hstep h s i hp hpre
    exact ⟨o, s', s', hs, hs, rfl, hp'⟩
  obtain ⟨es, _, t, _, he, _, _, ⟨_, hp⟩⟩ :=
    exec_lockstep (fun h s a => s = a ∧ P h s) hpair (a := s) ⟨rfl, h₀⟩ hc
  exact ⟨es, t, he, hp⟩

end Calls
end HftExercises

/-! ## What a run can still reach

A state can reach a property when some calls of a kind from it, none of which faults, end in a
state that has it. A measure that some run always lowers reaches its bottom.
-/
namespace HftExercises
variable {σ ι ο : Type*} {ok : ι → Prop} {step : σ → ι → Option (ο × σ)} {P Q I : σ → Prop}
  {s t : σ}

def CanReach (ok : ι → Prop) (step : σ → ι → Option (ο × σ)) (s : σ) (P : σ → Prop) : Prop :=
  ∃ calls es t, (∀ i ∈ calls, ok i) ∧ exec step s calls = some (es, t) ∧ P t

theorem CanReach.refl (h : P s) : CanReach ok step s P := ⟨[], [], s, by simp, rfl, h⟩

theorem CanReach.head {i : ι} {o : ο} (hok : ok i) (hi : step s i = some (o, t))
    (h : CanReach ok step t P) : CanReach ok step s P := by
  obtain ⟨calls, es, u, hcalls, hrun, hu⟩ := h
  refine ⟨i :: calls, ⟨s, i, o⟩ :: es, u, ?_, ?_, hu⟩
  · exact List.forall_mem_cons.mpr ⟨hok, hcalls⟩
  · simp [exec, hi, hrun]

theorem CanReach.single {i : ι} {o : ο} (hok : ok i) (hi : step s i = some (o, t)) (h : P t) :
    CanReach ok step s P :=
  .head hok hi (.refl h)

theorem CanReach.imp (h : CanReach ok step s P) (hpq : ∀ t, P t → Q t) : CanReach ok step s Q := by
  obtain ⟨calls, es, t, hcalls, hrun, ht⟩ := h
  exact ⟨calls, es, t, hcalls, hrun, hpq t ht⟩

theorem CanReach.trans (h : CanReach ok step s P) (hnext : ∀ t, P t → CanReach ok step t Q) :
    CanReach ok step s Q := by
  obtain ⟨calls, es, t, hcalls, hrun, ht⟩ := h
  obtain ⟨rest, fs, u, hrest, hrun', hu⟩ := hnext t ht
  refine ⟨calls ++ rest, es ++ fs, u, ?_, exec_append hrun hrun', hu⟩
  exact List.forall_mem_append.mpr ⟨hcalls, hrest⟩

/-- What every such call keeps still holds where the run ends. -/
theorem CanReach.keep (hkeep : ∀ s i o t, ok i → I s → step s i = some (o, t) → I t) (hs : I s)
    (h : CanReach ok step s P) : CanReach ok step s fun t => I t ∧ P t := by
  obtain ⟨calls, es, t, hcalls, hrun, ht⟩ := h
  refine ⟨calls, es, t, hcalls, hrun, ?_, ht⟩
  induction calls generalizing s es with
  | nil =>
    cases hrun
    exact hs
  | cons i calls ih =>
    obtain ⟨hi, hcalls⟩ := List.forall_mem_cons.mp hcalls
    simp only [exec, Option.bind_eq_some_iff, Option.map_eq_some_iff] at hrun
    obtain ⟨⟨o, u⟩, hstep, ⟨fs, v⟩, hrest, heq⟩ := hrun
    cases heq
    exact ih (hkeep s i o u hi hs hstep) _ hcalls hrest

/-- As long as some run lowers the measure, the property is within reach. -/
theorem CanReach.measure (μ : σ → ℕ)
    (hdown : ∀ s, I s → ¬P s → CanReach ok step s fun t => I t ∧ μ t < μ s) (hs : I s) :
    CanReach ok step s fun t => I t ∧ P t := by
  induction hn : μ s using Nat.strongRecOn generalizing s with
  | _ n ih =>
    by_cases hp : P s
    · exact .refl ⟨hs, hp⟩
    · refine (hdown s hs hp).trans fun t ht => ?_
      exact ih (μ t) (hn ▸ ht.2) ht.1 rfl

end HftExercises
