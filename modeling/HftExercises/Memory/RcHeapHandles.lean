import HftExercises.Memory.RcHeapCollect
import HftExercises.Memory.RcHeapDrop

/-! # The handle operations keep the counts

Copying, moving and assigning a handle are sequences of small changes: a count
goes up, a handle is taken out of its place, another one is put in. Between them
some handles are in nobody's place; `Sound` counts these too.
-/
namespace HftExercises.Rc
open Cascade (Moment deaths die releaseAll Balanced Dies)
variable {N : Type*} [DecidableEq N]

namespace RcHeap

/-- `bump()` -/
def bump (h : RcHeap N) : Option N → RcHeap N
  | none => h
  | some n => { h with strong := Function.update h.strong n (h.strong n + 1) }

/-- A new `RcPtr`, outside or as the last member of a payload. -/
def construct (h : RcHeap N) (dst : Option N) (v : Option N) : Option (RcHeap N) :=
  match dst with
  | none => some { h with outside := h.outside ++ [v] }
  | some n =>
    if n ∈ h.live ∧ n ∉ h.destroyed then
      some { h with payload := Function.update h.payload n (h.payload n ++ [v]) }
    else none

/-- The storage of an `RcPtr` goes away. -/
def removeHandle (h : RcHeap N) : Place N → RcHeap N
  | .outside i => { h with outside := h.outside.eraseIdx i }
  | .inside n i => { h with payload := Function.update h.payload n ((h.payload n).eraseIdx i) }

/-- `make`, of a payload with `width` empty handles, at an address that is not in use. -/
def make (h : RcHeap N) (n : N) (width : ℕ) : RcHeap N :=
  { h with
    nodes := h.nodes ++ [some n]
    live := insert n h.live
    strong := Function.update h.strong n 1
    marked := Function.update h.marked n false
    payload := Function.update h.payload n (List.replicate width none)
    outside := h.outside ++ [some n]
    destroyed := h.destroyed.filter (· ≠ n) }

/-- Consistent and closed with the handles `temps` that are in no place. -/
structure Sound (h : RcHeap N) (temps : List (Option N)) : Prop where
  registered : ∃ ids : List N, h.nodes = ids.map some ∧ ids.Nodup ∧ ids.toFinset = h.live
  idle : h.sweeping = false
  unmarked : ∀ n ∈ h.live, h.marked n = false
  counted : ∀ n ∈ h.live, h.strong n = h.handles n + temps.count (some n)
  outside : ∀ n, some n ∈ h.outside → n ∈ h.live
  payload : ∀ y ∈ h.live, ∀ n, some n ∈ h.payload y → n ∈ h.live
  temps : ∀ n, some n ∈ temps → n ∈ h.live
  destroyed : ∀ n ∈ h.destroyed, n ∉ h.live

theorem sound_nil_iff {h : RcHeap N} : h.Sound [] ↔ h.Consistent ∧ h.Closed := by
  constructor
  · intro hs
    exact ⟨⟨hs.registered, hs.idle, hs.unmarked, fun n hn => by simpa using hs.counted n hn⟩,
      ⟨hs.outside, hs.payload, hs.destroyed⟩⟩
  · rintro ⟨hc, hcl⟩
    exact ⟨hc.registered, hc.idle, hc.unmarked, fun n hn => by simpa using hc.counted n hn,
      hcl.outside, hcl.payload, nofun, hcl.destroyed⟩

section Small
variable {h h' : RcHeap N} {temps : List (Option N)} {p : Place N} {v w : Option N}

theorem Sound.skip (hs : h.Sound (none :: temps)) : h.Sound temps where
  registered := hs.registered
  idle := hs.idle
  unmarked := hs.unmarked
  counted n hn := by simpa using hs.counted n hn
  outside := hs.outside
  payload := hs.payload
  temps n hn := hs.temps n (List.mem_cons_of_mem _ hn)
  destroyed := hs.destroyed

theorem Sound.setRoots (hs : h.Sound temps) (roots : List N) :
    Sound { h with roots := roots } temps :=
  ⟨hs.registered, hs.idle, hs.unmarked, hs.counted, hs.outside, hs.payload, hs.temps, hs.destroyed⟩

theorem Sound.bump (hs : h.Sound temps) (hv : ∀ n, v = some n → n ∈ h.live) :
    (h.bump v).Sound (v :: temps) := by
  cases v with
  | none => exact { hs with
      counted := fun n hn => by simpa [RcHeap.bump] using hs.counted n hn
      temps := fun n hn => hs.temps n ((List.mem_cons.mp hn).resolve_left nofun) }
  | some m =>
    constructor
    case registered => exact hs.registered
    case idle => exact hs.idle
    case unmarked => exact hs.unmarked
    case outside => exact hs.outside
    case payload => exact hs.payload
    case destroyed => exact hs.destroyed
    case counted =>
      intro n hn
      have hcount := hs.counted n hn
      by_cases hnm : n = m
      · subst hnm
        simp only [RcHeap.bump, Function.update_self, List.count_cons_self]
        simp only [handles, incoming] at hcount ⊢
        omega
      · rw [List.count_cons_of_ne (by simpa using Ne.symm hnm)]
        simp only [RcHeap.bump, Function.update_of_ne hnm]
        exact hcount
    case temps =>
      intro n hn
      rcases List.mem_cons.mp hn with hn | hn
      · exact hv n hn.symm
      · exact hs.temps n hn

@[simp] theorem bump_live (h : RcHeap N) (v : Option N) : (h.bump v).live = h.live := by
  cases v <;> rfl

@[simp] theorem bump_roots (h : RcHeap N) (v : Option N) : (h.bump v).roots = h.roots := by
  cases v <;> rfl

@[simp] theorem bump_handleAt (h : RcHeap N) (v : Option N) (p : Place N) :
    (h.bump v).handleAt p = h.handleAt p := by
  cases v <;> rfl

@[simp] theorem removeHandle_live (h : RcHeap N) (p : Place N) :
    (h.removeHandle p).live = h.live := by
  cases p <;> rfl

@[simp] theorem removeHandle_roots (h : RcHeap N) (p : Place N) :
    (h.removeHandle p).roots = h.roots := by
  cases p <;> rfl

theorem construct_frame {dst : Option N} (hh : h.construct dst v = some h') :
    h'.live = h.live ∧ h'.roots = h.roots := by
  cases dst with
  | none =>
    cases hh
    exact ⟨rfl, rfl⟩
  | some n =>
    simp only [construct] at hh
    split_ifs at hh
    cases hh
    exact ⟨rfl, rfl⟩

theorem Sound.live_of_handleAt {m : N} (hs : h.Sound temps) (hp : h.handleAt p = some (some m)) :
    m ∈ h.live :=
  Closed.live_of_handleAt ⟨hs.outside, hs.payload, hs.destroyed⟩ hp

/-- Only handles move: each is counted before and after, and none is made up. -/
theorem Sound.rehandle {temps' : List (Option N)} (hs : h.Sound temps)
    (hframe : h' = { h with outside := h'.outside, payload := h'.payload })
    (hcount : ∀ n ∈ h.live,
      h'.handles n + temps'.count (some n) = h.handles n + temps.count (some n))
    (hout : ∀ n, some n ∈ h'.outside → some n ∈ h.outside ∨ some n ∈ temps)
    (hpay : ∀ y n, some n ∈ h'.payload y → some n ∈ h.payload y ∨ some n ∈ temps)
    (htemps : ∀ n, some n ∈ temps' → n ∈ h.live) : h'.Sound temps' := by
  have hlive : h'.live = h.live := by rw [hframe]
  have hstrong : h'.strong = h.strong := by rw [hframe]
  constructor
  case registered =>
    rw [hframe]
    exact hs.registered
  case idle =>
    rw [hframe]
    exact hs.idle
  case unmarked =>
    rw [hframe]
    exact hs.unmarked
  case destroyed =>
    rw [hframe]
    exact hs.destroyed
  case counted =>
    intro n hn
    rw [hlive] at hn
    rw [hstrong, hs.counted n hn, hcount n hn]
  case outside =>
    intro n hn
    rw [hlive]
    exact (hout n hn).elim (hs.outside n) (hs.temps n)
  case payload =>
    intro y hy n hn
    rw [hlive] at hy ⊢
    exact (hpay y n hn).elim (hs.payload y hy n) (hs.temps n)
  case temps =>
    rw [hlive]
    exact htemps

theorem setHandle_frame (h : RcHeap N) (p : Place N) (v : Option N) :
    h.setHandle p v = { h with
      outside := (h.setHandle p v).outside, payload := (h.setHandle p v).payload } := by
  cases p <;> rfl

theorem count_in_flight (v : Option N) (temps : List (Option N)) (n : N) :
    (v :: temps).count (some n) = [v].count (some n) + temps.count (some n) := by
  rw [← List.count_append, List.singleton_append]

/-- A handle takes the one in flight. -/
theorem Sound.put (hs : h.Sound (v :: temps)) (hp : h.handleAt p = some none) :
    (h.setHandle p v).Sound temps := by
  have hmem : ∀ n, some n = v → some n ∈ v :: temps := fun n hn => hn ▸ List.mem_cons_self
  refine hs.rehandle (setHandle_frame h p v) (fun n _ => ?_) (fun n hn => ?_) (fun y n hn => ?_)
    fun n hn => hs.temps n (List.mem_cons_of_mem _ hn)
  · have hset := handles_setHandle hp v n
    have hempty := count_empty n
    rw [count_in_flight]
    omega
  · exact (mem_setHandle_outside hn).imp_right (hmem n)
  · exact (mem_setHandle_payload hn).imp_right (hmem n)

/-- A handle is emptied, and what it named is in flight. -/
theorem Sound.take (hs : h.Sound temps) (hp : h.handleAt p = some w) :
    (h.setHandle p none).Sound (w :: temps) := by
  refine hs.rehandle (setHandle_frame h p none) (fun n _ => ?_) (fun n hn => ?_)
    (fun y n hn => ?_) fun n hn => ?_
  · have hset := handles_setHandle hp none n
    have hempty := count_empty n
    rw [count_in_flight]
    omega
  · exact .inl ((mem_setHandle_outside hn).resolve_right nofun)
  · exact .inl ((mem_setHandle_payload hn).resolve_right nofun)
  · rcases List.mem_cons.mp hn with rfl | hn
    · exact hs.live_of_handleAt hp
    · exact hs.temps n hn

/-- A new handle takes the one in flight. -/
theorem Sound.construct (hs : h.Sound (v :: temps)) {dst : Option N}
    (hh : h.construct dst v = some h') : h'.Sound temps := by
  have hmem : ∀ n, some n = v → some n ∈ v :: temps := fun n hn => hn ▸ List.mem_cons_self
  have htemps : ∀ n, some n ∈ temps → n ∈ h.live :=
    fun n hn => hs.temps n (List.mem_cons_of_mem _ hn)
  cases dst with
  | none =>
    cases hh
    refine hs.rehandle rfl (fun n _ => ?_) (fun n hn => ?_) (fun y n hn => .inl hn) htemps
    · simp only [handles, incoming, List.count_append, count_in_flight v temps]
      omega
    · rcases List.mem_append.mp hn with hn | hn
      · exact .inl hn
      · exact .inr (hmem n (List.mem_singleton.mp hn))
  | some x =>
    simp only [RcHeap.construct] at hh
    split_ifs at hh with hx
    cases hh
    refine hs.rehandle rfl (fun n _ => ?_) (fun n hn => .inl hn) (fun y n hn => ?_) htemps
    · have hnew := incoming_update hx.1 (h.payload x ++ [v]) n
      simp only [List.count_append] at hnew
      simp only [handles, count_in_flight v temps]
      omega
    · by_cases hy : y = x
      · subst hy
        simp only [Function.update_self] at hn
        rcases List.mem_append.mp hn with hn | hn
        · exact .inl hn
        · exact .inr (hmem n (List.mem_singleton.mp hn))
      · simp only [Function.update_of_ne hy] at hn
        exact .inl hn

/-- An empty handle goes away. -/
theorem Sound.remove (hs : h.Sound temps) (hp : h.handleAt p = some none) :
    (h.removeHandle p).Sound temps := by
  cases p with
  | outside i =>
    refine hs.rehandle rfl (fun n _ => ?_) (fun n hn => .inl (List.mem_of_mem_eraseIdx hn))
      (fun y n hn => .inl hn) hs.temps
    have herase := count_eraseIdx (show h.outside[i]? = some none from hp) (some n)
    have hempty := count_empty n
    simp only [handles, incoming, removeHandle]
    omega
  | inside x i =>
    simp only [handleAt] at hp
    split_ifs at hp with hx
    refine hs.rehandle rfl (fun n _ => ?_) (fun n hn => .inl hn) (fun y n hn => ?_) hs.temps
    · have hnew := incoming_update hx.1 ((h.payload x).eraseIdx i) n
      have herase := count_eraseIdx hp (some n)
      have hempty := count_empty n
      simp only [handles, removeHandle]
      omega
    · by_cases hy : y = x
      · subst hy
        simp only [removeHandle, Function.update_self] at hn
        exact .inl (List.mem_of_mem_eraseIdx hn)
      · simp only [removeHandle, Function.update_of_ne hy] at hn
        exact .inl hn

end Small

/-! ## The larger steps -/

section Large
variable {h h' : RcHeap N} {p : Place N}

/-- The counts take the drop to no node of `spared` and to no payload that holds the handle,
and every erasure of its cascade resumes at a null entry. -/
def Harmless (h : RcHeap N) (spared : List (Option N)) (p : Place N) : Prop :=
  (∀ n ∈ deaths (h.cascade p).2, some n ∉ spared ∧ p.owner ≠ some n) ∧
    (replay (h.nodes, []) (h.cascade p).2).isSome

instance (h : RcHeap N) (spared : List (Option N)) (p : Place N) :
    Decidable (h.Harmless spared p) :=
  inferInstanceAs (Decidable ((∀ n ∈ deaths (h.cascade p).2, some n ∉ spared ∧
    p.owner ≠ some n) ∧ (replay (h.nodes, []) (h.cascade p).2).isSome))

theorem Sound.dropAt (hs : h.Sound []) {spared : List (Option N)} (hok : h.Harmless spared p)
    (hh : h.dropAt p = some h') :
    h'.Sound [] ∧ h'.handleAt p = some none ∧ h'.roots = h.roots ∧
      ∀ n ∈ h.live, some n ∈ spared → n ∈ h'.live := by
  obtain ⟨hc, hcl⟩ := sound_nil_iff.mp hs
  obtain ⟨v, hp, hrest⟩ := Option.bind_eq_some_iff.mp hh
  obtain ⟨h₁, hrel, hend⟩ := Option.bind_eq_some_iff.mp hrest
  obtain rfl : h₁.setHandle p none = h' := by
    split_ifs at hend
    exact Option.some.inj hend
  cases v with
  | none =>
    cases hrel
    exact ⟨(hs.take hp).skip, handleAt_setHandle_self hp none, setHandle_roots none,
      fun n hn _ => by rwa [setHandle_live]⟩
  | some m =>
    have howner : ∀ n ∈ deaths (h.cascade p).2, p.owner ≠ some n := fun n hn => (hok.1 n hn).2
    obtain ⟨h₂, hrel₂, ht⟩ := release_tracks hc hcl hp howner
    obtain rfl : h₂ = h₁ := Option.some.inj (hrel₂.symm.trans hrel)
    rcases ht with ⟨hf, hst⟩ | hdiv
    · obtain ⟨-, hc', hcl'⟩ := hf.dropAt hc hcl hp howner hrel hst
      have hp' : h₂.handleAt p = some (some m) := hf.handleAt hst.gone hp howner
      refine ⟨sound_nil_iff.mpr ⟨hc', hcl'⟩, handleAt_setHandle_self hp' none, ?_,
        fun n hn hsp => ?_⟩
      · rw [setHandle_roots, hf.rest]
      · rw [setHandle_live, hf.rest, Finset.mem_sdiff, List.mem_toFinset]
        exact ⟨hn, fun hdead => (hok.1 n hdead).1 hsp⟩
    · have hsome := hok.2
      rw [hdiv.slots] at hsome
      cases hsome

/-- A fresh node has one handle. -/
theorem Sound.make (hs : h.Sound []) {n : N} (hn : n ∉ h.live) (width : ℕ) :
    (h.make n width).Sound [] := by
  have hne : ∀ x ∈ h.live, x ≠ n := fun x hx heq => hn (heq ▸ hx)
  obtain ⟨ids, hnodes, hnodup, hids⟩ := hs.registered
  have hfresh : n ∉ ids := by rwa [← List.mem_toFinset, hids]
  have hincoming : ∀ x, (h.make n width).incoming x = h.incoming x := by
    intro x
    simp only [incoming, RcHeap.make]
    rw [Finset.sum_insert hn, Function.update_self]
    have hempty : (List.replicate width (none : Option N)).count (some x) = 0 := by
      simp [List.count_replicate]
    rw [hempty, Nat.zero_add]
    exact Finset.sum_congr rfl fun y hy => by rw [Function.update_of_ne (hne y hy)]
  constructor
  case registered =>
    refine ⟨ids ++ [n], by simp [RcHeap.make, hnodes], ?_, ?_⟩
    · exact List.nodup_append.mpr ⟨hnodup, List.nodup_singleton n, fun x hx y hy hxy =>
        hfresh (List.mem_singleton.mp hy ▸ hxy ▸ hx)⟩
    · ext x
      simp [RcHeap.make, ← hids]
  case idle => exact hs.idle
  case unmarked =>
    intro x hx
    by_cases hxn : x = n
    · simp [RcHeap.make, hxn]
    · have hx' : x ∈ h.live := (Finset.mem_insert.mp hx).resolve_left hxn
      simp [RcHeap.make, hxn, hs.unmarked x hx']
  case counted =>
    intro x hx
    rw [handles, hincoming]
    by_cases hxn : x = n
    · subst hxn
      have hout : some x ∉ h.outside := fun hmem => hn (hs.outside x hmem)
      have hin : h.incoming x = 0 := Finset.sum_eq_zero fun y hy =>
        List.count_eq_zero.mpr fun hmem => hn (hs.payload y hy x hmem)
      simp [RcHeap.make, hin, List.count_eq_zero.mpr hout]
    · have hx' : x ∈ h.live := (Finset.mem_insert.mp hx).resolve_left hxn
      have hcount := hs.counted x hx'
      simp only [handles] at hcount
      simp [RcHeap.make, hxn, Ne.symm hxn, hcount]
  case outside =>
    intro x hx
    rcases List.mem_append.mp hx with hx | hx
    · exact Finset.mem_insert_of_mem (hs.outside x hx)
    · rw [Option.some.inj (List.mem_singleton.mp hx)]
      exact Finset.mem_insert_self n h.live
  case payload =>
    intro y hy x hx
    by_cases hyn : y = n
    · subst hyn
      simp [RcHeap.make] at hx
    · have hy' : y ∈ h.live := (Finset.mem_insert.mp hy).resolve_left hyn
      simp only [RcHeap.make, Function.update_of_ne hyn] at hx
      exact Finset.mem_insert_of_mem (hs.payload y hy' x hx)
  case temps => exact fun x hx => absurd hx List.not_mem_nil
  case destroyed =>
    intro x hx hlive
    obtain ⟨hx, hxn⟩ := List.mem_filter.mp hx
    have hxn' : x ≠ n := by simpa using hxn
    exact hs.destroyed x hx ((Finset.mem_insert.mp hlive).resolve_left hxn')

/-- The collector leaves no handle behind, and keeps what `roots_` names. -/
theorem Sound.collect (hs : h.Sound []) {trace : N → List (Option N) → List N}
    (htrace : ∀ n l, (trace n l).Perm l.reduceOption) {freed : ℕ}
    (hh : h.collectCycles trace = some (freed, h')) :
    h'.Sound [] ∧ h'.roots = h.roots.filter (· ∈ h'.live) ∧
      ∀ n ∈ h.live, n ∈ h.roots → n ∈ h'.live := by
  obtain ⟨hc, hcl⟩ := sound_nil_iff.mp hs
  obtain ⟨ids, keep, -, hnodup, hids, hkeep, heq⟩ := collectCycles_eq htrace hc
  obtain ⟨-, rfl⟩ := Prod.mk.inj (Option.some.inj (heq.symm.trans hh))
  have hlive := mem_collected_iff_reached hids hkeep
  have hseed : ∀ n, h.Seed n → n ∈ (h.collected ids keep).live :=
    fun n hn => (hlive n).mpr ⟨n, hn, .refl⟩
  refine ⟨sound_nil_iff.mpr ⟨collected_consistent hc hnodup hids, ⟨fun n hn => ?_,
    fun y hy n hn => ?_, fun n hn => ?_⟩⟩, rfl, fun n hn hroot => hseed n ⟨hn, .inl hroot⟩⟩
  · -- a handle outside is one more than the edges inside
    have hn' : n ∈ h.live := hcl.outside n hn
    have hone : 0 < h.outside.count (some n) := List.count_pos_iff.mpr hn
    have hcount := hc.counted n hn'
    rw [handles] at hcount
    exact hseed n ⟨hn', .inr (by omega)⟩
  · obtain ⟨s, hs, hpath⟩ := (hlive y).mp hy
    have hy' : y ∈ h.live := ((mem_collected_live hids).mp hy).1
    exact (hlive n).mpr ⟨s, hs, hpath.tail ⟨hn, hcl.payload y hy' n hn⟩⟩
  · rw [mem_collected_live hids]
    rintro ⟨hlive', hk⟩
    rcases List.mem_append.mp hn with hn | hn
    · exact hcl.destroyed n hn hlive'
    · simp [hk] at hn

end Large
end RcHeap
end HftExercises.Rc
