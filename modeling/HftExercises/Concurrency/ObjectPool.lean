import Mathlib.Data.List.Nodup
import HftExercises.Core.Threads

/-! # The lock-free object pool

Free slots are threaded through their `next` links from `head_`. An acquire loads
the head, loads the link of that slot and exchanges the head for it; a release
links its slot to the head and exchanges the head for the slot. The exchange of
an acquire compares only the head: a slot that was popped and pushed back in the
meantime has the same address but may have another link, and then the acquire
installs a link that no longer belongs to the list.
-/
namespace HftExercises.Pool
variable {T : Type*}

/-- A slot of the arena, by its index. -/
abbrev Slot := ℕ

/-- Where a thread is, with the pointers it has loaded. A release holds its slot
from the moment its handle gives the object up. -/
inductive Control where
  | idle
  | popping (slot : Slot)
  | exchanging (slot : Slot) (next : Option Slot)
  | pushing (slot : Slot) (head : Option Slot)
  | linked (slot : Slot) (head : Option Slot)
  deriving DecidableEq, Repr

/-- One entry of `handles` for each live handle that owns an object. -/
structure System (T : Type*) where
  head : Option Slot
  next : Slot → Option Slot
  handles : List Slot
  control : T → Control

def System.init (capacity : ℕ) : System T where
  head := if capacity = 0 then none else some 0
  next := fun i => if i + 1 < capacity then some (i + 1) else none
  handles := []
  control := fun _ => .idle

/-- `reset` stands for the destructor and the move-assignment as well; `release`
detaches the object for good. -/
inductive Action (T : Type*) where
  | acquire (thread : T)
  | reset (thread : T) (slot : Slot)
  | release (slot : Slot)
  | proceed (thread : T) (spurious : Bool)
  deriving DecidableEq, Repr

inductive StepResult where
  | running
  | exhausted
  | acquired (slot : Slot)
  | returned
  | detached (slot : Slot)
  deriving DecidableEq, Repr

def System.setControl [DecidableEq T] (s : System T) (t : T) (c : Control) : System T :=
  { s with control := Function.update s.control t c }

/-- The loop head of `acquire`, on the head just read. -/
def System.tryPop [DecidableEq T] (s : System T) (t : T) : StepResult × System T :=
  match s.head with
  | none => (.exhausted, s.setControl t .idle)
  | some slot => (.running, s.setControl t (.popping slot))

def System.step [DecidableEq T] (s : System T) : Action T → Option (StepResult × System T)
  | .acquire t =>
    match s.control t with
    | .idle => some (s.tryPop t)
    | _ => none
  | .reset t slot =>
    match s.control t with
    | .idle =>
      if slot ∈ s.handles then
        some (.running, { s.setControl t (.pushing slot s.head) with
          handles := s.handles.erase slot })
      else none
    | _ => none
  | .release slot =>
    if slot ∈ s.handles then
      some (.detached slot, { s with handles := s.handles.erase slot })
    else none
  | .proceed t spurious =>
    match s.control t with
    | .idle => none
    | .popping slot => some (.running, s.setControl t (.exchanging slot (s.next slot)))
    | .exchanging slot next =>
      match compareExchangeWeak s.head (some slot) next spurious with
      | none => some (s.tryPop t)
      | some head => some (.acquired slot, { s.setControl t .idle with
          head := head
          handles := slot :: s.handles })
    | .pushing slot head =>
      some (.running, { s.setControl t (.linked slot head) with
        next := Function.update s.next slot head })
    | .linked slot head =>
      match compareExchangeWeak s.head head (some slot) spurious with
      | none => some (.running, s.setControl t (.pushing slot s.head))
      | some head => some (.returned, { s.setControl t .idle with head := head })

abbrev StepEvent (T : Type*) := Event (System T) (Action T) StepResult

/-- Walking from `head` along the links visits exactly these slots. -/
def Linked (next : Slot → Option Slot) : Option Slot → List Slot → Prop
  | head, [] => head = none
  | head, slot :: rest => head = some slot ∧ Linked next (next slot) rest

/-- No slot has two owners, and the free list is finite, without repetition and
apart from the owned slots. -/
structure PoolSafe (s : System T) : Prop where
  owners : s.handles.Nodup
  free : ∃ free, Linked s.next s.head free ∧ free.Nodup ∧ ∀ slot ∈ free, slot ∉ s.handles

/-- An acquire that is about to succeed still finds the link it loaded. -/
def LinkCurrent (s : System T) : Action T → Prop
  | .proceed t spurious =>
    match s.control t with
    | .exchanging slot next => s.head = some slot → spurious = false → s.next slot = next
    | _ => True
  | _ => True

/-- The slot a release has in hand, neither owned nor free. -/
def Control.held? : Control → Option Slot
  | .pushing slot _ => some slot
  | .linked slot _ => some slot
  | _ => none

/-- What a step can do. -/
inductive StepSpec [DecidableEq T] (s : System T) : Action T → StepResult → System T → Prop
  | quiet {a : Action T} {r : StepResult} {t : T} {c : Control} (hs : (s.control t).held? = none)
      (hc : c.held? = none) : StepSpec s a r (s.setControl t c)
  | reset {t : T} {slot : Slot} (ht : s.control t = .idle) (hmem : slot ∈ s.handles) :
      StepSpec s (.reset t slot) .running { s.setControl t (.pushing slot s.head) with
        handles := s.handles.erase slot }
  | detach {slot : Slot} (hmem : slot ∈ s.handles) :
      StepSpec s (.release slot) (.detached slot) { s with handles := s.handles.erase slot }
  | pop {t : T} {slot : Slot} {next : Option Slot} (ht : s.control t = .exchanging slot next)
      (hhead : s.head = some slot) :
      StepSpec s (.proceed t false) (.acquired slot) { s.setControl t .idle with
        head := next
        handles := slot :: s.handles }
  | link {t : T} {spurious : Bool} {slot : Slot} {head : Option Slot}
      (ht : s.control t = .pushing slot head) :
      StepSpec s (.proceed t spurious) .running { s.setControl t (.linked slot head) with
        next := Function.update s.next slot head }
  | retry {t : T} {spurious : Bool} {slot : Slot} {head : Option Slot}
      (ht : s.control t = .linked slot head) :
      StepSpec s (.proceed t spurious) .running (s.setControl t (.pushing slot s.head))
  | push {t : T} {spurious : Bool} {slot : Slot} (ht : s.control t = .linked slot s.head) :
      StepSpec s (.proceed t spurious) .returned { s.setControl t .idle with head := some slot }

section Steps
variable [DecidableEq T] {s s' : System T} {a : Action T} {r : StepResult}

theorem System.tryPop_spec {t : T} (hs : (s.control t).held? = none) :
    StepSpec s a (s.tryPop t).1 (s.tryPop t).2 := by
  unfold System.tryPop
  cases s.head with
  | none => exact .quiet hs rfl
  | some slot => exact .quiet hs rfl

theorem System.step_spec (h : s.step a = some (r, s')) : StepSpec s a r s' := by
  cases a with
  | acquire t =>
    simp only [System.step] at h
    split at h
    · rename_i hidle
      have hspec := System.tryPop_spec (a := .acquire t) (s := s) (t := t) (by rw [hidle]; rfl)
      rwa [Option.some.inj h] at hspec
    · cases h
  | reset t slot =>
    simp only [System.step] at h
    split at h
    · rename_i hidle
      split_ifs at h with hmem
      cases h
      exact .reset hidle hmem
    · cases h
  | release slot =>
    simp only [System.step] at h
    split_ifs at h with hmem
    cases h
    exact .detach hmem
  | proceed t spurious =>
    simp only [System.step] at h
    split at h
    · cases h
    · rename_i slot hcontrol
      cases h
      exact .quiet (by rw [hcontrol]; rfl) rfl
    · rename_i slot next hcontrol
      split at h
      · have hspec := System.tryPop_spec (a := .proceed t spurious) (s := s) (t := t)
          (by rw [hcontrol]; rfl)
        rwa [Option.some.inj h] at hspec
      · rename_i head hcas
        cases h
        unfold compareExchangeWeak at hcas
        split_ifs at hcas with hc
        obtain ⟨hhead, rfl⟩ := hc
        cases hcas
        exact .pop hcontrol hhead
    · rename_i slot head hcontrol
      cases h
      exact .link hcontrol
    · rename_i slot head hcontrol
      split at h
      · cases h
        exact .retry hcontrol
      · rename_i new hcas
        cases h
        obtain ⟨rfl, rfl⟩ := compareExchangeWeak_eq_some hcas
        exact .push hcontrol

end Steps

section Linked
variable {next : Slot → Option Slot} {slot : Slot} {head : Option Slot} {free : List Slot}

theorem Linked.pop (h : Linked next (some slot) free) :
    ∃ rest, free = slot :: rest ∧ Linked next (next slot) rest := by
  cases free with
  | nil => cases h
  | cons a rest =>
    obtain ⟨heq, hrest⟩ := h
    cases heq
    exact ⟨rest, rfl, hrest⟩

/-- Relinking a slot outside the list leaves the list alone. -/
theorem Linked.update (h : Linked next head free) (hslot : slot ∉ free) (link : Option Slot) :
    Linked (Function.update next slot link) head free := by
  induction free generalizing head with
  | nil => exact h
  | cons a rest ih =>
    obtain ⟨heq, hrest⟩ := h
    have hne : a ≠ slot := fun he => hslot (he ▸ List.mem_cons_self)
    refine ⟨heq, ?_⟩
    rw [Function.update_of_ne hne]
    exact ih hrest (fun hmem => hslot (List.mem_cons_of_mem a hmem))

theorem linked_arena (capacity n : ℕ) (hn : n ≤ capacity) :
    Linked (fun i => if i + 1 < capacity then some (i + 1) else none)
      (if n < capacity then some n else none) (List.range' n (capacity - n)) := by
  obtain ⟨m, rfl⟩ : ∃ m, capacity = n + m := ⟨capacity - n, by omega⟩
  rw [Nat.add_sub_cancel_left]
  clear hn
  induction m generalizing n with
  | zero => simp [Linked]
  | succ m ih =>
    rw [List.range'_succ, if_pos (by omega)]
    refine ⟨rfl, ?_⟩
    have hrest := ih (n + 1)
    rwa [Nat.add_right_comm, Nat.add_assoc n m 1] at hrest

end Linked

/-- Free slots, owned slots and slots in the hands of a release are all apart,
and a release that has linked its slot still finds its link there. -/
structure PoolInv (s : System T) (free : List Slot) : Prop where
  linked : Linked s.next s.head free
  distinct : free.Nodup
  owners : s.handles.Nodup
  apart : ∀ slot ∈ free, slot ∉ s.handles
  held : ∀ t slot, (s.control t).held? = some slot → slot ∉ free ∧ slot ∉ s.handles
  unique : ∀ t t' slot, (s.control t).held? = some slot → (s.control t').held? = some slot → t = t'
  link : ∀ t slot head, s.control t = .linked slot head → s.next slot = head

section Invariant
variable {s s' : System T} {a : Action T} {r : StepResult} {free : List Slot}
variable {t : T} {slot : Slot}

theorem PoolInv.poolSafe (h : PoolInv s free) : PoolSafe s :=
  ⟨h.owners, free, h.linked, h.distinct, h.apart⟩

theorem poolInv_init (capacity : ℕ) :
    PoolInv (System.init capacity : System T) (List.range' 0 capacity) := by
  have hlinked := linked_arena capacity 0 (Nat.zero_le capacity)
  rw [Nat.sub_zero] at hlinked
  refine ⟨?_, List.nodup_range', List.nodup_nil, ?_, ?_, ?_, ?_⟩
  · have hhead : (System.init capacity : System T).head =
        if 0 < capacity then some 0 else none := by
      cases capacity <;> rfl
    rw [hhead]
    exact hlinked
  · intro slot _ hmem
    cases hmem
  · intro t slot hheld
    cases hheld
  · intro t t' slot hheld
    cases hheld
  · intro t slot head hcontrol
    cases hcontrol

theorem PoolInv.drop (h : PoolInv s free) (slot : Slot) :
    PoolInv { s with handles := s.handles.erase slot } free where
  linked := h.linked
  distinct := h.distinct
  owners := h.owners.erase slot
  apart := fun slot' hfree hmem => h.apart slot' hfree (List.mem_of_mem_erase hmem)
  held := fun t slot' hheld =>
    ⟨(h.held t slot' hheld).1, fun hmem => (h.held t slot' hheld).2 (List.mem_of_mem_erase hmem)⟩
  unique := h.unique
  link := h.link

/-- Popping the head is safe when the new head is the link of the old one. -/
theorem PoolInv.pop (h : PoolInv s free) (hhead : s.head = some slot) :
    ∃ rest, PoolInv { s with head := s.next slot, handles := slot :: s.handles } rest := by
  obtain ⟨rest, rfl, hlinked⟩ := Linked.pop (hhead ▸ h.linked)
  have hslot : slot ∉ rest := (List.nodup_cons.mp h.distinct).1
  refine ⟨rest, hlinked, (List.nodup_cons.mp h.distinct).2, ?_, ?_, ?_, h.unique, h.link⟩
  · exact List.nodup_cons.mpr ⟨h.apart slot List.mem_cons_self, h.owners⟩
  · intro slot' hfree hmem
    rcases List.mem_cons.mp hmem with rfl | hmem
    · exact hslot hfree
    · exact h.apart slot' (List.mem_cons_of_mem slot hfree) hmem
  · intro t slot' hheld
    obtain ⟨hfree, hown⟩ := h.held t slot' hheld
    refine ⟨fun hmem => hfree (List.mem_cons_of_mem slot hmem), fun hmem => ?_⟩
    rcases List.mem_cons.mp hmem with rfl | hmem
    · exact hfree List.mem_cons_self
    · exact hown hmem

theorem PoolInv.relink (h : PoolInv s free) {head : Option Slot}
    (ht : s.control t = .pushing slot head) :
    PoolInv { s with next := Function.update s.next slot head } free := by
  have hheld : (s.control t).held? = some slot := by
    rw [ht]
    rfl
  refine ⟨h.linked.update (h.held t slot hheld).1 head, h.distinct, h.owners, h.apart, h.held,
    h.unique, ?_⟩
  intro t' slot' head' ht'
  have hne : slot' ≠ slot := by
    rintro rfl
    have hheld' : (s.control t').held? = some slot' := by
      rw [ht']
      rfl
    rw [h.unique t t' slot' hheld hheld', ht'] at ht
    cases ht
  dsimp only
  rw [Function.update_of_ne hne]
  exact h.link t' slot' head' ht'

/-- A slot that nobody else has may become the head once it links to the old one. -/
theorem PoolInv.push (h : PoolInv s free) (hfree : slot ∉ free) (hown : slot ∉ s.handles)
    (hheld : ∀ t, (s.control t).held? ≠ some slot) (hnext : s.next slot = s.head) :
    PoolInv { s with head := some slot } (slot :: free) := by
  refine ⟨⟨rfl, hnext ▸ h.linked⟩, List.nodup_cons.mpr ⟨hfree, h.distinct⟩, h.owners, ?_, ?_,
    h.unique, h.link⟩
  · intro slot' hmem
    rcases List.mem_cons.mp hmem with rfl | hmem
    · exact hown
    · exact h.apart slot' hmem
  · intro t slot' hheld'
    refine ⟨fun hmem => ?_, (h.held t slot' hheld').2⟩
    rcases List.mem_cons.mp hmem with rfl | hmem
    · exact hheld t hheld'
    · exact (h.held t slot' hheld').1 hmem

variable [DecidableEq T]

/-- A thread may take up any state in which it holds a slot of its own. -/
theorem PoolInv.setControl (h : PoolInv s free) {c : Control}
    (hheld : ∀ slot, c.held? = some slot → (slot ∉ free ∧ slot ∉ s.handles) ∧
      ∀ t', (s.control t').held? = some slot → t' = t)
    (hlink : ∀ slot head, c = .linked slot head → s.next slot = head) :
    PoolInv (s.setControl t c) free := by
  have hself : (s.setControl t c).control t = c := Function.update_self _ _ _
  have hother : ∀ t', t' ≠ t → (s.setControl t c).control t' = s.control t' :=
    fun t' hne => Function.update_of_ne hne _ _
  refine ⟨h.linked, h.distinct, h.owners, h.apart, ?_, ?_, ?_⟩
  · intro t' slot ht'
    by_cases hne : t' = t
    · rw [hne, hself] at ht'
      exact (hheld slot ht').1
    · rw [hother t' hne] at ht'
      exact h.held t' slot ht'
  · intro t₁ t₂ slot h₁ h₂
    by_cases hne₁ : t₁ = t
    · rw [hne₁, hself] at h₁
      by_cases hne₂ : t₂ = t
      · rw [hne₁, hne₂]
      · rw [hother t₂ hne₂] at h₂
        rw [hne₁, (hheld slot h₁).2 t₂ h₂]
    · rw [hother t₁ hne₁] at h₁
      by_cases hne₂ : t₂ = t
      · rw [hne₂, hself] at h₂
        rw [hne₂, (hheld slot h₂).2 t₁ h₁]
      · rw [hother t₂ hne₂] at h₂
        exact h.unique t₁ t₂ slot h₁ h₂
  · intro t' slot head ht'
    by_cases hne : t' = t
    · rw [hne, hself] at ht'
      exact hlink slot head ht'
    · rw [hother t' hne] at ht'
      exact h.link t' slot head ht'

theorem PoolInv.letGo (h : PoolInv s free) {c : Control} (hc : c.held? = none) :
    PoolInv (s.setControl t c) free := by
  apply h.setControl
  · intro slot hheld
    rw [hc] at hheld
    cases hheld
  · rintro slot head rfl
    cases hc

theorem PoolInv.step (h : PoolInv s free) (hs : StepSpec s a r s') (hlink : LinkCurrent s a) :
    ∃ free', PoolInv s' free' := by
  cases hs with
  | quiet _ hc => exact ⟨free, h.letGo hc⟩
  | @reset t slot ht hmem =>
    refine ⟨free, (h.drop slot).setControl ?_ ?_⟩
    · intro slot' hheld
      cases hheld
      refine ⟨⟨fun hfree => h.apart slot hfree hmem, h.owners.not_mem_erase⟩, ?_⟩
      intro t' ht'
      exact absurd hmem (h.held t' slot ht').2
    · intro slot' head hcontrol
      cases hcontrol
  | @detach slot hmem => exact ⟨free, h.drop slot⟩
  | @pop t slot next ht hhead =>
    simp only [LinkCurrent, ht] at hlink
    have hnext : s.next slot = next := hlink hhead trivial
    obtain ⟨rest, hrest⟩ := h.pop hhead
    rw [hnext] at hrest
    exact ⟨rest, hrest.letGo rfl⟩
  | @link t spurious slot head ht =>
    have hheld : (s.control t).held? = some slot := by
      rw [ht]
      rfl
    refine ⟨free, (h.relink ht).setControl ?_ ?_⟩
    · intro slot' hslot'
      cases hslot'
      exact ⟨h.held t slot hheld, fun t' ht' => h.unique t' t slot ht' hheld⟩
    · intro slot' head' hcontrol
      cases hcontrol
      exact Function.update_self _ _ _
  | @retry t spurious slot head ht =>
    have hheld : (s.control t).held? = some slot := by
      rw [ht]
      rfl
    refine ⟨free, h.setControl ?_ ?_⟩
    · intro slot' hslot'
      cases hslot'
      exact ⟨h.held t slot hheld, fun t' ht' => h.unique t' t slot ht' hheld⟩
    · intro slot' head' hcontrol
      cases hcontrol
  | @push t spurious slot ht =>
    have hheld : (s.control t).held? = some slot := by
      rw [ht]
      rfl
    obtain ⟨hfree, hown⟩ := h.held t slot hheld
    have hidle : PoolInv (s.setControl t .idle) free := h.letGo rfl
    refine ⟨slot :: free, hidle.push hfree hown ?_ (h.link t slot s.head ht)⟩
    intro t' ht'
    by_cases hne : t' = t
    · rw [hne] at ht'
      simp [System.setControl, Control.held?] at ht'
    · have hcontrol : (s.setControl t .idle).control t' = s.control t' :=
        Function.update_of_ne hne _ _
      rw [hcontrol] at ht'
      exact hne (h.unique t' t slot ht' hheld)

end Invariant

/-- As long as every acquire that succeeds still finds the link it loaded, no
slot has two owners and the free list is sound, however the threads interleave. -/
theorem objectPool_safe [DecidableEq T] (capacity : ℕ) (actions : List (Action T))
    (es : List (StepEvent T)) (s : System T)
    (hr : exec System.step (System.init capacity) actions = some (es, s))
    (hlink : ∀ e ∈ es, LinkCurrent e.before e.call) : PoolSafe s := by
  suffices hinv : (∀ e ∈ es, LinkCurrent e.before e.call) → ∃ free, PoolInv s free by
    obtain ⟨free, hfree⟩ := hinv hlink
    exact hfree.poolSafe
  refine exec_invariant (fun es s =>
    (∀ e ∈ es, LinkCurrent e.before e.call) → ∃ free, PoolInv s free) ?_ ?_ hr
  · intro h s a r s' ih hstep hall
    obtain ⟨free, hfree⟩ := ih (fun e he => hall e (List.mem_append_left _ he))
    have hcurrent := hall ⟨s, a, r⟩ (List.mem_append_right h List.mem_cons_self)
    exact hfree.step (System.step_spec hstep) hcurrent
  · intro _
    exact ⟨_, poolInv_init capacity⟩

/-- One thread acquires the only slot and returns it, the other takes it next. -/
theorem objectPool_safe_handover :
    ∃ (es : List (StepEvent Bool)) (s : System Bool), exec System.step (System.init 1)
        [.acquire false, .proceed false false, .proceed false true, .proceed false false,
          .proceed false false, .acquire true, .reset false 0, .proceed false false,
          .proceed false false, .acquire true, .proceed true false, .proceed true false] =
          some (es, s) ∧
      s.handles = [0] ∧ (∀ e ∈ es, LinkCurrent e.before e.call) ∧ PoolSafe s := by
  have hrun : ∃ (es : List (StepEvent Bool)) (s : System Bool), exec System.step (System.init 1)
        [.acquire false, .proceed false false, .proceed false true, .proceed false false,
          .proceed false false, .acquire true, .reset false 0, .proceed false false,
          .proceed false false, .acquire true, .proceed true false, .proceed true false] =
          some (es, s) ∧
      s.handles = [0] ∧ ∀ e ∈ es, LinkCurrent e.before e.call := by
    refine ⟨_, _, rfl, rfl, ?_⟩
    simp [LinkCurrent, System.tryPop, System.setControl, System.init]
  obtain ⟨es, s, hr, hhandles, hlink⟩ := hrun
  exact ⟨es, s, hr, hhandles, hlink, objectPool_safe 1 _ es s hr hlink⟩

/-- The first thread loads slot 0 and its link 1. The second acquires both slots
and returns slot 0, which now links to nothing. The exchange of the first thread
still succeeds and makes slot 1 the head, so the second acquires it twice. -/
theorem objectPool_two_owners :
    ∃ (es : List (StepEvent Bool)) (s : System Bool), exec System.step (System.init 2)
        [.acquire false, .proceed false false,
          .acquire true, .proceed true false, .proceed true false,
          .acquire true, .proceed true false, .proceed true false,
          .reset true 0, .proceed true false, .proceed true false,
          .proceed false false,
          .acquire true, .proceed true false, .proceed true false] = some (es, s) ∧
      s.handles = [1, 0, 1] ∧ ¬ PoolSafe s := by
  refine ⟨_, _, rfl, rfl, ?_⟩
  intro hsafe
  exact absurd hsafe.owners (by decide)

end HftExercises.Pool
