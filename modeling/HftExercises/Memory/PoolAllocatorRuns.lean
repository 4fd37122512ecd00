import HftExercises.Memory.PoolAllocatorLifetime

/-! # Runs of the pool

The pointers handed out and not given back, and the free slots with the latest freed first,
are told from the calls and their results alone.
-/
namespace HftExercises.PoolAlloc

abbrev PoolEvent := Event Pool Call Result

/-- The live pointers after a call, in the order they were handed out. -/
def pointersAfter (live : List ℕ) (e : PoolEvent) : List ℕ :=
  match e.call, e.result with
  | .allocate _, .pointer (some p) => live ++ [p]
  | .deallocate (some p), _ => live.erase p
  | _, _ => live

def livePointers (es : List PoolEvent) : List ℕ := es.foldl pointersAfter []

/-- How many slots are taken after some calls of which no constructor threw. -/
def taken (capacity : ℕ) (l : List Call) : ℕ :=
  l.foldl (fun n c => match c with
    | .allocate _ => min (n + 1) capacity
    | .deallocate (some _) => n - 1
    | .deallocate none => n) 0

/-- The constructor is not run, or it does not throw. -/
def Quiet (capacity : ℕ) (l : List Call) (c : Call) : Prop :=
  c = .allocate true → taken capacity l = capacity

instance (capacity : ℕ) (l : List Call) (c : Call) : Decidable (Quiet capacity l c) :=
  inferInstanceAs (Decidable (_ → _))

/-- Only live pointers and null pointers are given back. -/
def Returned (es : List PoolEvent) : Call → Prop
  | .deallocate (some p) => p ∈ livePointers es
  | _ => True

namespace Arena

/-- The slots that a stack of free slots has after a call. -/
def stackAfter (A : Arena) (stack : List ℕ) (e : PoolEvent) : List ℕ :=
  match e.call, e.result with
  | .allocate _, .pointer (some _) => stack.tail
  | .deallocate (some p), _ => A.slotIndex p :: stack
  | _, _ => stack

def freeStack (A : Arena) (es : List PoolEvent) : List ℕ :=
  es.foldl A.stackAfter (List.range A.capacity.toNat)

def Follows (A : Arena) (l : List Call) (c : Call) : Prop :=
  ∀ s, A.create = some s → AllowedAfter A.step s (fun es _ => Returned es) l c

/-- What holds in a state with the calls that led to it. -/
structure StateSound (A : Arena) (es : List PoolEvent) (s : Pool) : Prop where
  freeList : A.FreeList s s.head (A.freeStack es)
  nodup : (A.freeStack es).Nodup
  partition : (A.freeStack es ++ (livePointers es).map A.slotIndex).Perm
    (List.range A.capacity.toNat)
  distinct : (livePointers es).Nodup
  objects : ∀ p ∈ livePointers es, p = A.slotPtr (A.slotIndex p) ∧
    ∃ id, s.cells (A.distance p) = .object id
  links : ∀ c ∈ s.overwritten, ∀ id, c ≠ .object id
  destroyed : ∃ t, A.destruct s = some t ∧ t.constructed = s.constructed ∧
    t.destroyed.Perm (List.range t.constructed)

/-- What an `allocate` answers after the calls before it. -/
structure AnswerSound (A : Arena) (l : List PoolEvent) (e : PoolEvent) : Prop where
  exhausted : ∀ b, e.call = .allocate b →
    (e.result = .pointer none ↔ (livePointers l).length = A.capacity.toNat)
  latest : ∀ b, e.call = .allocate b → ∀ i rest, A.freeStack l = i :: rest →
    e.result = .pointer (some (A.slotPtr i))
  returns : e.result ≠ .thrown

/-- The whole run succeeds, and what is asked holds all along it. -/
def RunSound (A : Arena) (calls : List Call) : Prop :=
  ∃ s₀ es s, A.create = some s₀ ∧ exec A.step s₀ calls = some (es, s) ∧
    Admissible (fun l e => A.StateSound l e.before ∧ A.AnswerSound l e) es ∧ A.StateSound es s

variable {A : Arena} {es l : List PoolEvent} {e : PoolEvent} {s s' : Pool} {c : Call}
variable {live : List (ℕ × ℕ)}

/-- The pool after a run, with its live objects. -/
structure Tracks (A : Arena) (es : List PoolEvent) (s : Pool) (live : List (ℕ × ℕ)) : Prop where
  holds : A.Holds s (A.freeStack es) live
  pointers : livePointers es = live.map fun o => A.slotPtr o.1
  count : (livePointers es).length = taken A.capacity.toNat (es.map Event.call)

theorem livePointers_concat (es : List PoolEvent) (e : PoolEvent) :
    livePointers (es ++ [e]) = pointersAfter (livePointers es) e := by
  rw [livePointers, List.foldl_append]
  rfl

theorem freeStack_concat (es : List PoolEvent) (e : PoolEvent) :
    A.freeStack (es ++ [e]) = A.stackAfter (A.freeStack es) e := by
  rw [freeStack, List.foldl_append]
  rfl

theorem taken_concat (n : ℕ) (es : List PoolEvent) (e : PoolEvent) :
    taken n ((es ++ [e]).map Event.call) = match e.call with
      | .allocate _ => min (taken n (es.map Event.call) + 1) n
      | .deallocate (some _) => taken n (es.map Event.call) - 1
      | .deallocate none => taken n (es.map Event.call) := by
  rw [taken, List.map_append, List.foldl_append]
  rfl

theorem livePointers_deallocate (es : List PoolEvent) (s : Pool) (p : ℕ) (r : Result) :
    livePointers (es ++ [⟨s, .deallocate (some p), r⟩]) = (livePointers es).erase p := by
  rw [livePointers_concat]
  rfl

theorem freeStack_deallocate (es : List PoolEvent) (s : Pool) (p : ℕ) (r : Result) :
    A.freeStack (es ++ [⟨s, .deallocate (some p), r⟩]) = A.slotIndex p :: A.freeStack es := by
  rw [freeStack_concat]
  rfl

theorem Tracks.length (ht : A.Tracks es s live) :
    (A.freeStack es).length + (livePointers es).length = A.capacity.toNat := by
  rw [ht.pointers, List.length_map]
  exact ht.holds.length

theorem Tracks.slots (h : A.Fits) (ht : A.Tracks es s live) :
    (livePointers es).map A.slotIndex = live.map Prod.fst := by
  rw [ht.pointers, List.map_map]
  exact List.map_congr_left fun o ho => h.slotIndex_slotPtr (ht.holds.live_lt ho)

theorem Tracks.sound (h : A.Fits) (ht : A.Tracks es s live) : A.StateSound es s where
  freeList := ht.holds.freeList
  nodup := (List.nodup_append.mp ht.holds.nodup).1
  partition := by
    rw [ht.slots h]
    exact ht.holds.partition
  distinct := by
    refine List.Nodup.of_map A.slotIndex ?_
    rw [ht.slots h]
    exact (List.nodup_append.mp ht.holds.nodup).2.1
  objects := by
    intro p hp
    rw [ht.pointers] at hp
    obtain ⟨o, ho, rfl⟩ := List.mem_map.mp hp
    rw [h.slotIndex_slotPtr (ht.holds.live_lt ho), distance_slotPtr]
    exact ⟨rfl, o.2, ht.holds.objects o ho⟩
  links := ht.holds.links
  destroyed := ht.holds.destruct h

theorem Fits.tracks_create (h : A.Fits) (hcap : A.capacity.toNat ≠ 0) :
    ∃ s, A.create = some s ∧ A.Tracks [] s [] := by
  obtain ⟨s, hcreate, hs⟩ := h.create hcap
  exact ⟨s, hcreate, hs, rfl, rfl⟩

theorem Tracks.allocate_null (ht : A.Tracks es s live) (hfree : A.freeStack es = []) (b : Bool) :
    A.step s (.allocate b) = some (.pointer none, s) ∧
      A.Tracks (es ++ [⟨s, .allocate b, .pointer none⟩]) s live := by
  have hlen := ht.length
  have hcount := ht.count
  rw [hfree, List.length_nil] at hlen
  refine ⟨(hfree ▸ ht.holds).allocate_exhausted b, ?_, ?_, ?_⟩
  · rw [freeStack_concat]
    exact ht.holds
  · rw [livePointers_concat]
    exact ht.pointers
  · rw [livePointers_concat, taken_concat]
    simp only [pointersAfter]
    omega

theorem Tracks.allocate (h : A.Fits) (ht : A.Tracks es s live) {i : ℕ} {rest : List ℕ}
    (hfree : A.freeStack es = i :: rest) :
    ∃ s', A.step s (.allocate false) = some (.pointer (some (A.slotPtr i)), s') ∧
      A.Tracks (es ++ [⟨s, .allocate false, .pointer (some (A.slotPtr i))⟩]) s'
        (live ++ [(i, s.constructed)]) := by
  have hlen := ht.length
  have hcount := ht.count
  rw [hfree, List.length_cons] at hlen
  obtain ⟨s', hstep, hs'⟩ := (hfree ▸ ht.holds).allocate h
  refine ⟨s', hstep, ?_, ?_, ?_⟩
  · rw [freeStack_concat, hfree]
    exact hs'
  · rw [livePointers_concat, pointersAfter, ht.pointers, List.map_append]
    rfl
  · rw [livePointers_concat, taken_concat]
    simp only [pointersAfter, List.length_append, List.length_singleton]
    omega

theorem Tracks.deallocate (h : A.Fits) (ht : A.Tracks es s live) {p : ℕ}
    (hp : p ∈ livePointers es) :
    ∃ s' live', A.step s (.deallocate (some p)) = some (.released, s') ∧
      A.Tracks (es ++ [⟨s, .deallocate (some p), .released⟩]) s' live' := by
  have hcount := ht.count
  have hdistinct := (ht.sound h).distinct
  have hlen := List.length_erase_of_mem hp
  rw [ht.pointers] at hp hdistinct
  obtain ⟨o, ho, rfl⟩ := List.mem_map.mp hp
  obtain ⟨front, back, rfl⟩ := List.append_of_mem ho
  obtain ⟨s', hdealloc, hs'⟩ := ht.holds.deallocate h
  have hnot : A.slotPtr o.1 ∉ front.map fun o => A.slotPtr o.1 := by
    rw [List.map_append, List.nodup_append] at hdistinct
    exact fun hmem => hdistinct.2.2 _ hmem _ List.mem_cons_self rfl
  refine ⟨s', front ++ back, ?_, ?_, ?_, ?_⟩
  · rw [Arena.step, hdealloc, Option.map_some]
  · rw [freeStack_deallocate, h.slotIndex_slotPtr (ht.holds.live_lt ho)]
    exact hs'
  · rw [livePointers_deallocate, ht.pointers, List.map_append, List.map_cons,
      List.erase_append_right _ hnot, List.erase_cons_head, List.map_append]
  · rw [livePointers_deallocate, taken_concat, hlen, hcount]

/-- One call of a caller that returns live pointers only, with a quiet constructor. -/
theorem Tracks.step (h : A.Fits) (ht : A.Tracks es s live) (hret : Returned es c)
    (hquiet : Quiet A.capacity.toNat (es.map Event.call) c) :
    ∃ r s' live', A.step s c = some (r, s') ∧ A.Tracks (es ++ [⟨s, c, r⟩]) s' live' ∧
      A.AnswerSound es ⟨s, c, r⟩ := by
  have hlen := ht.length
  cases c with
  | allocate b =>
    cases hfree : A.freeStack es with
    | nil =>
      obtain ⟨hstep, ht'⟩ := ht.allocate_null hfree b
      rw [hfree, List.length_nil, Nat.zero_add] at hlen
      have hnone : ∀ i rest, A.freeStack es ≠ i :: rest := by
        rw [hfree]
        exact nofun
      exact ⟨_, s, live, hstep, ht', fun _ _ => iff_of_true rfl hlen,
        fun _ _ i rest heq => absurd heq (hnone i rest), nofun⟩
    | cons i rest =>
      rw [hfree, List.length_cons] at hlen
      have hfalse : b = false := by
        cases b with
        | false => rfl
        | true =>
          have hfull := hquiet rfl
          have hcount := ht.count
          omega
      subst hfalse
      obtain ⟨s', hstep, ht'⟩ := ht.allocate h hfree
      refine ⟨_, s', _, hstep, ht', fun _ _ => iff_of_false nofun (by omega), ?_, nofun⟩
      intro _ _ j rest' heq
      rw [hfree] at heq
      cases heq
      rfl
  | deallocate q =>
    cases q with
    | none =>
      refine ⟨.released, s, live, rfl, ⟨?_, ?_, ?_⟩, nofun, nofun, nofun⟩
      · rw [freeStack_concat]
        exact ht.holds
      · rw [livePointers_concat]
        exact ht.pointers
      · rw [livePointers_concat, taken_concat]
        exact ht.count
    | some p =>
      obtain ⟨s', live', hstep, ht'⟩ := ht.deallocate h hret
      exact ⟨_, s', live', hstep, ht', nofun, nofun, nofun⟩

/-- What holds after a run of quiet calls. -/
structure RunInv (A : Arena) (es : List PoolEvent) (s : Pool) : Prop where
  tracks : ∃ live, A.Tracks es s live
  sound : Admissible (fun l e => A.StateSound l e.before ∧ A.AnswerSound l e) es

theorem RunInv.step (h : A.Fits) (hi : A.RunInv es s) (hret : Returned es c)
    (hquiet : Quiet A.capacity.toNat (es.map Event.call) c) :
    ∃ r s', A.step s c = some (r, s') ∧ A.RunInv (es ++ [⟨s, c, r⟩]) s' := by
  obtain ⟨live, ht⟩ := hi.tracks
  obtain ⟨r, s', live', hstep, ht', hanswer⟩ := ht.step h hret hquiet
  exact ⟨r, s', hstep, ⟨live', ht'⟩,
    admissible_append_singleton.mpr ⟨hi.sound, ht.sound h, hanswer⟩⟩

theorem Fits.runSound (h : A.Fits) (hcap : A.capacity.toNat ≠ 0) {calls : List Call}
    (hcalls : Admissible A.Follows calls)
    (hquiet : Admissible (Quiet A.capacity.toNat) calls) : A.RunSound calls := by
  obtain ⟨s₀, hcreate, ht⟩ := h.tracks_create hcap
  have hboth : Admissible (AllowedAfter A.step s₀ fun es _ c =>
      Returned es c ∧ Quiet A.capacity.toNat (es.map Event.call) c) calls := by
    intro l c r heq es s hrun
    exact ⟨hcalls l c r heq s₀ hcreate es s hrun, exec_calls hrun ▸ hquiet l c r heq⟩
  obtain ⟨es, s, hrun, hi⟩ := exec_allowed_total A.RunInv
    (fun es s c hi hc => hi.step h hc.1 hc.2) ⟨⟨[], ht⟩, admissible_nil⟩ hboth
  obtain ⟨live, ht'⟩ := hi.tracks
  exact ⟨s₀, es, s, hcreate, hrun, hi.sound, ht'.sound h⟩

theorem RunSound.fits {calls : List Call} (hr : A.RunSound calls) : A.Fits := by
  obtain ⟨s₀, _, _, hcreate, _⟩ := hr
  by_contra h
  rw [create_wraps h] at hcreate
  cases hcreate

theorem follows_of_run {p : ℕ} {ps : List ℕ} {l : List Call}
    (h : (A.create.bind fun s => (exec A.step s l).map fun r => livePointers r.1) = some ps)
    (hp : p ∈ ps) : A.Follows l (.deallocate (some p)) := by
  intro s hcreate es t hrun
  rw [hcreate, Option.bind_some, hrun, Option.map_some] at h
  cases h
  exact hp

end Arena

/-- `std::uint64_t` -/
def wordLayout : Layout := ⟨8, 8, by decide, by decide, by decide⟩

def oneWord : Arena := ⟨wordLayout, 1, 4096, by decide, by decide⟩

def twoWords : Arena := ⟨wordLayout, 2, 4096, by decide, by decide⟩

/-- For every capacity but the ones whose arena size is more than a `std::size_t` can hold. -/
theorem poolAllocator_runs (A : Arena) (hcap : A.capacity ≠ 0) (calls : List Call)
    (hthrow : .allocate true ∉ calls) (hcalls : Admissible A.Follows calls) :
    A.RunSound calls ↔ A.capacity.toNat * A.layout.slotBytes < 2 ^ 64 := by
  constructor
  · exact Arena.RunSound.fits
  · intro h
    refine Arena.Fits.runSound h (fun h0 => hcap (UInt64.toNat_inj.mp h0)) hcalls ?_
    rintro l c r rfl rfl
    exact absurd (List.mem_append_right l List.mem_cons_self) hthrow

/-- Both slots are taken, the first is freed and taken again. -/
theorem poolAllocator_runs_reuse :
    twoWords.RunSound [.allocate false, .allocate false, .deallocate (some 4096), .allocate false] ↔
      twoWords.capacity.toNat * twoWords.layout.slotBytes < 2 ^ 64 := by
  refine poolAllocator_runs twoWords (by decide) _ (by decide) ?_
  rw [admissible_cons, admissible_cons, admissible_cons, admissible_cons]
  refine ⟨fun _ _ _ _ _ => trivial, fun _ _ _ _ _ => trivial, ?_, fun _ _ _ _ _ => trivial,
    admissible_nil⟩
  exact Arena.follows_of_run (show _ = some [4096, 4104] by decide) (by decide)

/-- `2 ^ 61` words are `0` bytes. -/
theorem poolAllocator_wrapped_size :
    ∃ A : Arena, A.capacity ≠ 0 ∧ Admissible A.Follows [] ∧ ¬A.RunSound [] := by
  refine ⟨⟨wordLayout, 2305843009213693952, 4096, by decide, by decide⟩, by decide, admissible_nil, fun hr => ?_⟩
  exact absurd hr.fits (by decide)

/-! ## Constructors that throw -/

namespace Arena

/-- An exit by exception leaves the free list as it was. -/
def Unchanged (A : Arena) (e : PoolEvent) : Prop :=
  e.result = .thrown → ∀ s', A.step e.before e.call = some (.thrown, s') →
    ∀ free, A.FreeList e.before e.before.head free → A.FreeList s' s'.head free

/-- `capacity()` objects can be live at once, never more, and the destructor destroys
what was constructed. -/
structure StateSafe (A : Arena) (es : List PoolEvent) (s : Pool) : Prop where
  bounded : (livePointers es).length ≤ A.capacity.toNat
  spare : ∃ free, A.FreeList s s.head free ∧
    free.length + (livePointers es).length = A.capacity.toNat
  destroyed : ∃ t, A.destruct s = some t ∧ t.constructed = s.constructed ∧
    t.destroyed.Perm (List.range t.constructed)

def ExceptionSafe (A : Arena) (calls : List Call) : Prop :=
  ∃ s₀ es s, A.create = some s₀ ∧ exec A.step s₀ calls = some (es, s) ∧
    (∀ e ∈ es, A.Unchanged e) ∧ Admissible (fun l e => A.StateSafe l e.before) es ∧ A.StateSafe es s

variable {A : Arena} {es : List PoolEvent} {s : Pool} {c : Call} {calls : List Call}

theorem StateSound.safe (h : A.StateSound es s) : A.StateSafe es s := by
  have hlen := h.partition.length_eq
  rw [List.length_append, List.length_map, List.length_range] at hlen
  exact ⟨by omega, ⟨_, h.freeList, hlen⟩, h.destroyed⟩

/-- With no slot the head is no slot's index, and not `kSentinel` either. -/
theorem destruct_empty (hcap : A.capacity.toNat = 0) {s₀ : Pool} (hcreate : A.create = some s₀) :
    A.destruct s₀ = none := by
  rw [create, hcap] at hcreate
  cases hcreate
  rw [destruct, markFree, hcap]
  rfl

theorem ExceptionSafe.capacity_ne (hr : A.ExceptionSafe calls) : A.capacity.toNat ≠ 0 := by
  obtain ⟨s₀, es, s, hcreate, hrun, -, hsafe, hlast⟩ := hr
  intro hcap
  have hnone := destruct_empty hcap hcreate
  have hfirst : ∃ l, A.StateSafe l s₀ := by
    cases calls with
    | nil =>
      cases hrun
      exact ⟨_, hlast⟩
    | cons c calls =>
      simp only [exec, Option.bind_eq_some_iff, Option.map_eq_some_iff] at hrun
      obtain ⟨_, _, _, _, heq⟩ := hrun
      cases heq
      exact ⟨_, hsafe [] _ _ rfl⟩
  obtain ⟨l, hl⟩ := hfirst
  obtain ⟨t, ht, -⟩ := hl.destroyed
  rw [hnone] at ht
  cases ht

/-- A constructor that throws costs its slot. -/
theorem Tracks.not_unchanged (h : A.Fits) {live : List (ℕ × ℕ)} (ht : A.Tracks es s live)
    (hfull : taken A.capacity.toNat (es.map Event.call) ≠ A.capacity.toNat) :
    ∃ s', A.step s (.allocate true) = some (.thrown, s') ∧
      ¬A.Unchanged ⟨s, .allocate true, .thrown⟩ := by
  have hlen := ht.length
  have hcount := ht.count
  cases hfree : A.freeStack es with
  | nil =>
    rw [hfree, List.length_nil] at hlen
    omega
  | cons i rest =>
    have hs := hfree ▸ ht.holds
    obtain ⟨s', hstep, hrest⟩ := hs.allocate_throw h
    refine ⟨s', hstep, fun hun => ?_⟩
    obtain ⟨hhead, -⟩ := hun rfl s' hstep (i :: rest) hs.freeList
    have hnot := (List.nodup_cons.mp (List.nodup_append.mp hs.nodup).1).1
    cases rest with
    | nil => exact h.ne_sentinel (hs.free_lt List.mem_cons_self) (hhead.symm.trans hrest)
    | cons j rest => exact hnot (List.mem_cons.mpr (.inl (hhead.symm.trans hrest.1)))

theorem ExceptionSafe.fits (hr : A.ExceptionSafe calls) : A.Fits := by
  obtain ⟨s₀, _, _, hcreate, _⟩ := hr
  by_contra h
  rw [create_wraps h] at hcreate
  cases hcreate

theorem ExceptionSafe.quiet (hr : A.ExceptionSafe calls) (hcalls : Admissible A.Follows calls) :
    Admissible (Quiet A.capacity.toNat) calls := by
  have h := hr.fits
  have hcap := hr.capacity_ne
  obtain ⟨s₀, es, s, hcreate, hrun, hun, -⟩ := hr
  obtain ⟨s₁, hcreate₁, ht⟩ := h.tracks_create hcap
  obtain rfl := Option.some.inj (hcreate₁.symm.trans hcreate)
  have hadm : Admissible (AllowedAfter A.step s₁ fun es _ => Returned es) calls :=
    fun l c r heq => hcalls l c r heq s₁ hcreate
  refine exec_calls hrun ▸ (exec_allowed_invariant (fun es s => (∀ e ∈ es, A.Unchanged e) →
    (∃ live, A.Tracks es s live) ∧ Admissible (Quiet A.capacity.toNat) (es.map Event.call))
    ?_ (fun _ => ⟨⟨[], ht⟩, admissible_nil⟩) hadm hrun hun).2
  intro es s c o s' hi hret hstep hun
  rw [List.forall_mem_append, List.forall_mem_singleton] at hun
  obtain ⟨⟨live, ht⟩, hquiet⟩ := hi hun.1
  have hc : Quiet A.capacity.toNat (es.map Event.call) c := by
    rintro rfl
    by_contra hfull
    obtain ⟨s'', hthrow, hnot⟩ := ht.not_unchanged h hfull
    rw [hstep] at hthrow
    cases hthrow
    exact hnot hun.2
  obtain ⟨r, s'', live', hstep', ht', -⟩ := ht.step h hret hc
  rw [hstep] at hstep'
  cases hstep'
  rw [List.map_append]
  exact ⟨⟨live', ht'⟩, admissible_append_singleton.mpr ⟨hquiet, hc⟩⟩

end Arena

/-- `head_` is past the slot before `T()` runs, and nothing puts it back. -/
theorem poolAllocator_exceptions (A : Arena) (calls : List Call)
    (hcalls : Admissible A.Follows calls) :
    A.ExceptionSafe calls ↔ A.capacity ≠ 0 ∧
      A.capacity.toNat * A.layout.slotBytes < 2 ^ 64 ∧
      Admissible (fun l c => c = .allocate true → taken A.capacity.toNat l = A.capacity.toNat)
        calls := by
  constructor
  · intro hr
    exact ⟨fun h0 => hr.capacity_ne (congrArg UInt64.toNat h0), hr.fits, hr.quiet hcalls⟩
  · rintro ⟨hcap, h, hquiet⟩
    obtain ⟨s₀, es, s, hcreate, hrun, hsound, hlast⟩ := Arena.Fits.runSound h
      (fun h0 => hcap (UInt64.toNat_inj.mp h0)) hcalls hquiet
    refine ⟨s₀, es, s, hcreate, hrun, ?_, fun l e r heq => (hsound l e r heq).1.safe, hlast.safe⟩
    intro e he hthrown
    obtain ⟨l, r, heq⟩ := List.append_of_mem he
    exact absurd hthrown (hsound l e r heq).2.returns

/-- The throw takes the only slot: the next `allocate` would return a null pointer. -/
theorem poolAllocator_lost_slot :
    ∃ A : Arena, Admissible A.Follows [.allocate true] ∧ ¬A.ExceptionSafe [.allocate true] := by
  have hcalls : Admissible oneWord.Follows [.allocate true] :=
    admissible_cons.mpr ⟨fun _ _ _ _ _ => trivial, admissible_nil⟩
  refine ⟨oneWord, hcalls, fun hr => ?_⟩
  exact absurd (hr.quiet hcalls) (by decide)

/-- Both slots are taken when the constructor would throw. -/
theorem poolAllocator_exceptions_exhausted :
    twoWords.ExceptionSafe [.allocate false, .allocate false, .allocate true] ↔
      twoWords.capacity ≠ 0 ∧ twoWords.capacity.toNat * twoWords.layout.slotBytes < 2 ^ 64 ∧
      Admissible (fun l c => c = .allocate true →
        taken twoWords.capacity.toNat l = twoWords.capacity.toNat)
        [.allocate false, .allocate false, .allocate true] := by
  refine poolAllocator_exceptions twoWords _ ?_
  rw [admissible_cons, admissible_cons, admissible_cons]
  exact ⟨fun _ _ _ _ _ => trivial, fun _ _ _ _ _ => trivial, fun _ _ _ _ _ => trivial,
    admissible_nil⟩

end HftExercises.PoolAlloc
