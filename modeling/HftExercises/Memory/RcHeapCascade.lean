import HftExercises.Core.CountingCascade
import HftExercises.Memory.RcHeapRegistry

/-! # Destruction cascades over the registry

The counts alone say which nodes a drop destroys and in which order the
destructions begin and end. `replay` follows the slots of `nodes_` along these
moments as long as every erasure resumes at a null entry. The code does the same
as the counts exactly then; an erasure that resumes at a slot in use destroys a
node that nobody released, and leaves a null entry for good.
-/
namespace HftExercises.Rc
open Cascade (Moment deaths die releaseAll Balanced)
variable {N : Type*} [DecidableEq N]

/-- The slots, and for every destruction under way the slot at which its erasure
resumes, unless the node stood last. -/
def replayStep : List (Option N) × List (Option ℕ) → Moment N →
    Option (List (Option N) × List (Option ℕ))
  | (slots, resumes), .begins n =>
    let i := slots.idxOf (some n)
    if i + 1 = slots.length then some (slots.dropLast, none :: resumes)
    else some (takeOver slots i, some (i + 1) :: resumes)
  | (slots, none :: resumes), .ends _ => some (slots, resumes)
  | (slots, some j :: resumes), .ends _ =>
    -- behind the end nothing is moved, and the last entry is taken off
    let i := min j (slots.length - 1)
    if slotAt slots i = none then some (slots.eraseIdx i, resumes) else none
  | (_, []), .ends _ => none

def replay (s : List (Option N) × List (Option ℕ)) (moments : List (Moment N)) :
    Option (List (Option N) × List (Option ℕ)) :=
  moments.foldlM replayStep s

theorem replay_append (s : List (Option N) × List (Option ℕ)) (ms ms' : List (Moment N)) :
    replay s (ms ++ ms') = (replay s ms).bind (replay · ms') :=
  List.foldlM_append

omit [DecidableEq N] in
theorem holes_add_length (slots : List (Option N)) :
    holes slots + slots.reduceOption.length = slots.length := by
  induction slots with
  | nil => rfl
  | cons e slots ih =>
    cases e with
    | none =>
      rw [holes_none, List.reduceOption_cons_of_none, List.length_cons]
      omega
    | some x =>
      rw [holes_some, List.reduceOption_cons_of_some, List.length_cons, List.length_cons]
      omega

omit [DecidableEq N] in
/-- Taking a null entry out. -/
theorem eraseIdx_null {slots : List (Option N)} {i : ℕ} (hi : i < slots.length)
    (h : slotAt slots i = none) :
    (slots.eraseIdx i).reduceOption = slots.reduceOption ∧
      holes (slots.eraseIdx i) + 1 = holes slots := by
  obtain ⟨A, e, B, rfl, rfl⟩ := exists_split hi
  obtain rfl : e = none := by simpa using h
  simp [List.eraseIdx_append_of_length_le, List.reduceOption_append]
  omega

/-- The slots while the node `n` of `A ++ some n :: B` is being destroyed. -/
def vacated (A : List (Option N)) : List (Option N) → List (Option N)
  | [] => A
  | s :: B => A ++ s :: none :: B

/-- Where the erasure of that node resumes. -/
def resumeAt (A : List (Option N)) : List (Option N) → Option ℕ
  | [] => none
  | _ :: _ => some (A.length + 1)

omit [DecidableEq N] in
theorem vacated_reduceOption (A B : List (Option N)) :
    (vacated A B).reduceOption = A.reduceOption ++ B.reduceOption := by
  cases B with
  | nil => simp [vacated]
  | cons s B =>
    cases s with
    | none => simp [vacated, List.reduceOption_append]
    | some y => simp [vacated, List.reduceOption_append]

theorem idxOf_split {A B : List (Option N)} {n : N} (hA : some n ∉ A) :
    (A ++ some n :: B).idxOf (some n) = A.length := by
  rw [List.idxOf_append_of_notMem hA, List.idxOf_cons_self, Nat.add_zero]

theorem replayStep_begins {A B : List (Option N)} {n : N} (hA : some n ∉ A)
    (resumes : List (Option ℕ)) :
    replayStep (A ++ some n :: B, resumes) (.begins n) =
      some (vacated A B, resumeAt A B :: resumes) := by
  cases B with
  | nil => simp [replayStep, idxOf_split hA, vacated, resumeAt]
  | cons s B => simp [replayStep, idxOf_split hA, vacated, resumeAt]

omit [DecidableEq N] in
theorem holes_vacated_nil (A : List (Option N)) : holes (vacated A []) = holes A := rfl

omit [DecidableEq N] in
theorem holes_vacated_cons (A B : List (Option N)) (s : Option N) :
    holes (vacated A (s :: B)) = holes (A ++ s :: B) + 1 := by
  cases s with
  | none =>
    simp [vacated]
    omega
  | some y =>
    simp [vacated]
    omega

namespace RcHeap

/-- What is left of an erasure when the node's destructor has returned. -/
def finishErase (delete : RcHeap N → N → Option (RcHeap N)) (A : List (Option N)) :
    List (Option N) → RcHeap N → Option (RcHeap N)
  | [], h => some h
  | _ :: B, h => (shiftLeft delete B.length (A.length + 1) h).bind (popBack delete)

omit [DecidableEq N] in
theorem erase_eq (delete : RcHeap N → N → Option (RcHeap N)) {h : RcHeap N} {A B : List (Option N)}
    {n : N} (hn : h.nodes = A ++ some n :: B) :
    erase delete h A.length =
      (delete { h with nodes := vacated A B } n).bind (finishErase delete A B) := by
  cases B with
  | nil =>
    rw [erase_last delete hn, vacated]
    exact (Option.bind_fun_some _).symm
  | cons s B => exact erase_owner delete hn

section Finish
variable {delete : RcHeap N → N → Option (RcHeap N)} {bound : ℕ} (hd : Deletes delete bound)
  {h : RcHeap N} (hb : h.owned ≤ bound) {A B : List (Option N)}
include hd hb

omit [DecidableEq N] in
/-- A null entry too many before the erasure resumes stays too many. -/
theorem finishErase_wears (hholes : holes (vacated A B) < holes h.nodes) :
    ∃ h', finishErase delete A B h = some h' ∧ holes (A ++ B) < holes h'.nodes ∧
      h'.owned ≤ h.owned := by
  cases B with
  | nil =>
    rw [holes_vacated_nil] at hholes
    exact ⟨h, rfl, by simpa using hholes, le_rfl⟩
  | cons s B =>
    rw [holes_vacated_cons] at hholes
    obtain ⟨h', hrest, hend, hown⟩ := resume_wears hd hb (by omega) B.length (A.length + 1)
    exact ⟨h', hrest, by omega, hown⟩

/-- The erasure resumes at a null entry, which it takes out, or it leaves one too many. -/
theorem finishErase_follows (n : N) (hholes : holes h.nodes = holes (vacated A B))
    (hown : h.owned ≤ (A ++ B).reduceOption.length) :
    (∃ slots, (∀ resumes, replayStep (h.nodes, resumeAt A B :: resumes) (.ends n) =
          some (slots, resumes)) ∧
        finishErase delete A B h = some { h with nodes := slots } ∧
        slots.reduceOption = h.nodes.reduceOption ∧ holes slots = holes (A ++ B)) ∨
      (∀ resumes, replayStep (h.nodes, resumeAt A B :: resumes) (.ends n) = none) ∧
        ∃ h', finishErase delete A B h = some h' ∧ holes (A ++ B) < holes h'.nodes ∧
          h'.owned ≤ h.owned := by
  cases B with
  | nil =>
    refine .inl ⟨h.nodes, fun resumes => rfl, rfl, rfl, ?_⟩
    rw [hholes, holes_vacated_nil, List.append_nil]
  | cons s B =>
    rw [holes_vacated_cons] at hholes
    have hne : h.nodes ≠ [] := by
      intro hnil
      simp [hnil] at hholes
    have hpos : 0 < h.nodes.length := List.length_pos_iff.mpr hne
    -- the registry has not grown since the end was read
    have hm : h.nodes.length ≤ B.length + (A.length + 1) + 1 := by
      have hlen := holes_add_length h.nodes
      have hstart := holes_add_length (A ++ s :: B)
      simp only [List.length_append, List.length_cons] at hstart
      simp only [owned] at hown
      omega
    by_cases hslot : slotAt h.nodes (min (A.length + 1) (h.nodes.length - 1)) = none
    · obtain ⟨hkeep, hone⟩ := eraseIdx_null (by omega) hslot
      refine .inl ⟨_, fun resumes => ?_, resume_null delete hne hm hslot, hkeep, by omega⟩
      simp [replayStep, resumeAt, hslot]
    · obtain ⟨h', hrest, hend, hown'⟩ := resume_occupied hd hb (by omega) hm hslot
      refine .inr ⟨fun resumes => ?_, h', hrest, by omega, hown'⟩
      simp [replayStep, resumeAt, hslot]

end Finish
/-! ## Following the counts -/

/-- Inside a cascade: the ledger is balanced with the handles that wait, and the registry
owns the live nodes. `out` and `hold` are the handles that are not being dropped. -/
structure Steady (out : List (Option N)) (hold : N → List (Option N)) (h : RcHeap N)
    (waiting : List (Option N)) : Prop where
  ledger : Balanced out hold h.live h.strong waiting
  nodup : h.nodes.reduceOption.Nodup
  registered : h.nodes.reduceOption.toFinset = h.live
  idle : h.sweeping = false
  gone : ∀ n ∈ h.destroyed, n ∉ h.live

/-- `h'` is `h` after the moments and with the counts `r`, and `replay` finds its slots. -/
structure Follows (h h' : RcHeap N) (r : (N → ℕ) × List (Moment N)) : Prop where
  slots : ∀ resumes, replay (h.nodes, resumes) r.2 = some (h'.nodes, resumes)
  holes : holes h'.nodes = holes h.nodes
  owned : h'.owned ≤ h.owned
  rest : h' = { h with
    nodes := h'.nodes
    live := h.live \ (deaths r.2).toFinset
    strong := r.1
    destroyed := h.destroyed ++ deaths r.2 }

/-- `replay` stops, and the registry is left with a null entry more. -/
structure Diverges (h h' : RcHeap N) (moments : List (Moment N)) : Prop where
  slots : ∀ resumes, replay (h.nodes, resumes) moments = none
  holes : holes h.nodes < holes h'.nodes
  owned : h'.owned ≤ h.owned

/-- The code does what the counts say, or `replay` tells that it does not. -/
def Tracks (out : List (Option N)) (hold : N → List (Option N)) (h h' : RcHeap N)
    (r : (N → ℕ) × List (Moment N)) (waiting : List (Option N)) : Prop :=
  (Follows h h' r ∧ Steady out hold h' waiting) ∨ Diverges h h' r.2

section Tracks
variable {out : List (Option N)} {hold : N → List (Option N)} {h h' h'' : RcHeap N}
  {c c' : N → ℕ} {ms ms' : List (Moment N)} {l rest : List (Option N)} {n : N}

theorem Steady.owned_eq (hs : Steady out hold h rest) : h.owned = h.live.card := by
  rw [← hs.registered, List.toFinset_card_of_nodup hs.nodup, owned]

theorem Follows.append (hf : Follows h h' (c, ms)) (hf' : Follows h' h'' (c', ms')) :
    Follows h h'' (c', ms ++ ms') where
  slots resumes := by
    rw [replay_append, hf.slots, Option.bind_some]
    exact hf'.slots resumes
  holes := hf'.holes.trans hf.holes
  owned := hf'.owned.trans hf.owned
  rest := by
    have hset : (h.live \ (deaths ms).toFinset) \ (deaths ms').toFinset =
        h.live \ ((deaths ms).toFinset ∪ (deaths ms').toFinset) := sdiff_sdiff_left
    rw [hf'.rest, hf.rest]
    simp [hset]

theorem Follows.tracks (hf : Follows h h' (c, ms)) (ht : Tracks out hold h' h'' (c', ms') rest) :
    Tracks out hold h h'' (c', ms ++ ms') rest := by
  rcases ht with ⟨hf', hs⟩ | hdiv
  · exact .inl ⟨hf.append hf', hs⟩
  · refine .inr ⟨fun resumes => ?_, hf.holes ▸ hdiv.holes, hdiv.owned.trans hf.owned⟩
    rw [replay_append, hf.slots, Option.bind_some]
    exact hdiv.slots resumes

theorem Diverges.tracks (hdiv : Diverges h h' ms) (hw : Wears h' h'') :
    Tracks out hold h h'' (c', ms ++ ms') rest := by
  refine .inr ⟨fun resumes => ?_, hdiv.holes.trans_le hw.1, hw.2.trans hdiv.owned⟩
  rw [replay_append, hdiv.slots]
  rfl

/-- A node whose last handle is dropped stands in the registry. -/
theorem Steady.split (hs : Steady out hold h (some n :: rest)) :
    ∃ A B, h.nodes = A ++ some n :: B ∧ some n ∉ A := by
  have hmem : n ∈ h.nodes.reduceOption := by
    rw [← List.mem_toFinset, hs.registered]
    exact hs.ledger.pos.1
  exact List.eq_append_cons_of_mem (List.reduceOption_mem_iff.mp hmem)

/-- The heap when the last handle to `n` is gone and `n` has left its slot. -/
def detach (h : RcHeap N) (n : N) (slots : List (Option N)) : RcHeap N :=
  { h with
    nodes := slots
    live := h.live.erase n
    strong := Function.update h.strong n (h.strong n - 1) }

theorem Steady.retire_eq (hs : Steady out hold h (some n :: rest)) :
    h.retire n = { h with strong := Function.update h.strong n (h.strong n - 1) } := by
  obtain ⟨hlive, hpos⟩ := hs.ledger.pos
  have hfresh : n ∉ h.destroyed := fun hn => hs.gone n hn hlive
  have hdec : decrement (h.strong n) = h.strong n - 1 := if_neg (by omega)
  rw [retire, if_neg hfresh, hdec]

theorem Steady.retire (hs : Steady out hold h (some n :: rest)) :
    Steady out hold (h.retire n) rest := by
  rw [hs.retire_eq]
  exact ⟨hs.ledger.retire, hs.nodup, hs.registered, hs.idle, hs.gone⟩

theorem Steady.drop_last (hs : Steady out hold h (some n :: rest)) (hz : h.strong n - 1 = 0)
    (delete : RcHeap N → N → Option (RcHeap N)) {A B : List (Option N)}
    (hn : h.nodes = A ++ some n :: B) (hA : some n ∉ A) :
    drop delete h (some n) =
      (delete (h.detach n (vacated A B)) n).bind (finishErase delete A B) := by
  have hlive : n ∈ h.live := hs.ledger.pos.1
  have hidx : h.nodes.idxOf (some n) = A.length := by rw [hn, idxOf_split hA]
  have hreg : some n ∈ h.nodes := by simp [hn]
  have hzero : (h.retire n).strong n = 0 := by
    rw [hs.retire_eq]
    simp [hz]
  have hdrop : drop delete h (some n) = destroyNow delete (h.retire n) n :=
    if_pos ⟨hzero, hs.idle⟩
  rw [hdrop, hs.retire_eq, destroyNow, if_pos hlive, if_pos hreg, hidx]
  exact erase_eq delete hn

theorem Steady.detach (hs : Steady out hold h (some n :: rest)) (hz : h.strong n - 1 = 0)
    {A B : List (Option N)} (hn : h.nodes = A ++ some n :: B) :
    Steady out hold (h.detach n (vacated A B)) (hold n ++ rest) := by
  have hsplit : h.nodes.reduceOption = A.reduceOption ++ n :: B.reduceOption := by
    simp [hn, List.reduceOption_append]
  have hnodup := hsplit ▸ hs.nodup
  have hslots : (vacated A B).reduceOption = A.reduceOption ++ B.reduceOption :=
    vacated_reduceOption A B
  obtain ⟨hnotin, hnodup'⟩ := List.nodup_cons.mp (List.nodup_middle.mp hnodup)
  refine ⟨hs.ledger.destroy hz, ?_, ?_, hs.idle, fun x hx hlive => ?_⟩
  · rw [RcHeap.detach, hslots]
    exact hnodup'
  · ext x
    have hmem : x ∈ h.live ↔ x = n ∨ x ∈ A.reduceOption ++ B.reduceOption := by
      rw [← hs.registered, hsplit, List.mem_toFinset, List.mem_append, List.mem_cons,
        List.mem_append, or_left_comm]
    rw [RcHeap.detach, hslots, List.mem_toFinset, Finset.mem_erase, hmem]
    constructor
    · intro hx
      exact ⟨fun heq => hnotin (heq ▸ hx), .inr hx⟩
    · rintro ⟨hne, hx⟩
      exact hx.resolve_left hne
  · exact hs.gone x hx (Finset.mem_of_mem_erase hlive)

theorem replay_destruction {A B : List (Option N)} (hn : h.nodes = A ++ some n :: B)
    (hA : some n ∉ A) (resumes : List (Option ℕ)) :
    replay (h.nodes, resumes) (.begins n :: ms ++ [.ends n]) =
      (replay (vacated A B, resumeAt A B :: resumes) ms).bind (replayStep · (.ends n)) := by
  have hfirst : replay (h.nodes, resumes) (.begins n :: ms) =
      replay (vacated A B, resumeAt A B :: resumes) ms := by
    rw [hn, replay, List.foldlM_cons, replayStep_begins hA]
    rfl
  have hlast : ∀ s : List (Option N) × List (Option ℕ), replay s [.ends n] =
      replayStep s (.ends n) := by
    intro s
    rw [replay, List.foldlM_cons]
    exact Option.bind_fun_some _
  rw [replay_append, hfirst]
  exact congrArg _ (funext hlast)

/-- From the return of the destructor on: the node is destroyed and its erasure resumes. -/
theorem finishErase_tracks {delete : RcHeap N → N → Option (RcHeap N)} {bound : ℕ}
    (hd : Deletes delete bound) (hb : h.owned ≤ bound) {A B : List (Option N)}
    (hn : h.nodes = A ++ some n :: B) (hA : some n ∉ A) {r : (N → ℕ) × List (Moment N)}
    (ht : Tracks out hold (h.detach n (vacated A B)) h' r rest) :
    ∃ h'', finishErase delete A B { h' with destroyed := h'.destroyed ++ [n] } = some h'' ∧
      Tracks out hold h h'' (r.1, .begins n :: r.2 ++ [.ends n]) rest := by
  have hholes : holes h.nodes = holes (A ++ B) := by simp [hn]
  have hstart : (h.detach n (vacated A B)).owned = (A ++ B).reduceOption.length := by
    simp [owned, RcHeap.detach, vacated_reduceOption, List.reduceOption_append]
  have hless : (A ++ B).reduceOption.length ≤ h.owned := by
    simp [owned, hn, List.reduceOption_append]
  have hdeaths : deaths (.begins n :: r.2 ++ [.ends n]) = deaths r.2 ++ [n] := by simp
  have hfail : ∀ h'' : RcHeap N, holes (A ++ B) < holes h''.nodes → h''.owned ≤ h'.owned →
      h'.owned ≤ (A ++ B).reduceOption.length →
      (∀ resumes, (replay (vacated A B, resumeAt A B :: resumes) r.2).bind
        (replayStep · (.ends n)) = none) →
      Tracks out hold h h'' (r.1, .begins n :: r.2 ++ [.ends n]) rest := by
    intro h'' hgt hown' hown hstop
    refine .inr ⟨fun resumes => ?_, hholes ▸ hgt, hown'.trans (hown.trans hless)⟩
    rw [replay_destruction hn hA]
    exact hstop resumes
  rcases ht with ⟨hf, hs'⟩ | hdiv
  · have hown : h'.owned ≤ (A ++ B).reduceOption.length := hstart ▸ hf.owned
    have hfin := finishErase_follows hd (h := { h' with destroyed := h'.destroyed ++ [n] })
      (hown.trans (hless.trans hb)) n hf.holes hown
    rcases hfin with ⟨slots, hstep, hfin, hkeep, hend⟩ | ⟨hstep, h'', hfin, hgt, hown'⟩
    · refine ⟨_, hfin, .inl ⟨⟨fun resumes => ?_, ?_, ?_, ?_⟩, ?_⟩⟩
      · rw [replay_destruction hn hA]
        exact (congrArg (Option.bind · _) (hf.slots _)).trans (hstep resumes)
      · rw [hholes]
        exact hend
      · simp only [owned, hkeep]
        exact hown.trans hless
      · have hset : h.live.erase n \ (deaths r.2).toFinset =
            h.live \ (deaths r.2 ++ [n]).toFinset := by
          ext x
          simp only [Finset.mem_sdiff, Finset.mem_erase, List.mem_toFinset, List.mem_append,
            List.mem_singleton]
          tauto
        rw [hf.rest, hdeaths, ← hset]
        simp [RcHeap.detach]
      · have hlive : h'.live ⊆ h.live.erase n := by
          rw [hf.rest]
          exact Finset.sdiff_subset
        refine ⟨hs'.ledger, ?_, ?_, hs'.idle, fun x hx => ?_⟩
        · rw [hkeep]
          exact hs'.nodup
        · rw [hkeep]
          exact hs'.registered
        · rcases List.mem_append.mp hx with hx | hx
          · exact hs'.gone x hx
          · rw [List.mem_singleton.mp hx]
            exact fun hmem => Finset.notMem_erase n h.live (hlive hmem)
    · refine ⟨h'', hfin, hfail h'' hgt hown' hown fun resumes => ?_⟩
      exact (congrArg (Option.bind · _) (hf.slots _)).trans (hstep resumes)
  · have hown : h'.owned ≤ (A ++ B).reduceOption.length := hstart ▸ hdiv.owned
    obtain ⟨h'', hfin, hgt, hown'⟩ := finishErase_wears hd
      (h := { h' with destroyed := h'.destroyed ++ [n] }) (hown.trans (hless.trans hb)) hdiv.holes
    refine ⟨h'', hfin, hfail h'' hgt hown' hown fun resumes => ?_⟩
    exact congrArg (Option.bind · _) (hdiv.slots _)

/-- One destruction, when the cascades of fewer nodes are tracked. -/
theorem drop_last_tracks {fuel : ℕ}
    (ihf : ∀ (h : RcHeap N) (l rest : List (Option N)), Steady out hold h (l ++ rest) →
      h.owned ≤ fuel →
      (∀ x ∈ deaths (releaseAll (die hold fuel) h.strong l).2, h.payload x = hold x) →
      ∃ h', dropAll (deleteNode fuel) h l = some h' ∧
        Tracks out hold h h' (releaseAll (die hold fuel) h.strong l) rest)
    (hs : Steady out hold h (some n :: rest)) (hz : h.strong n - 1 = 0) (hb : h.owned ≤ fuel + 1)
    (hpay : ∀ x ∈ deaths (die hold (fuel + 1)
      (Function.update h.strong n (h.strong n - 1)) n).2, h.payload x = hold x) :
    ∃ h', drop (deleteNode (fuel + 1)) h (some n) = some h' ∧
      Tracks out hold h h'
        (die hold (fuel + 1) (Function.update h.strong n (h.strong n - 1)) n) rest := by
  obtain ⟨A, B, hn, hA⟩ := hs.split
  have hpayn : h.payload n = hold n := hpay n (by simp [die])
  have howned : (h.detach n (vacated A B)).owned ≤ fuel := by
    simp only [owned, hn, RcHeap.detach, vacated_reduceOption, List.reduceOption_append,
      List.reduceOption_cons_of_some, List.length_append, List.length_cons] at hb ⊢
    omega
  obtain ⟨h', hdrop, ht⟩ := ihf (h.detach n (vacated A B)) (hold n) rest (hs.detach hz hn) howned
    fun x hx => hpay x (by simpa [die] using .inl hx)
  obtain ⟨h'', hfin, ht'⟩ := finishErase_tracks (deleteNode_deletes (fuel + 1)) hb hn hA ht
  have hdelete : deleteNode (fuel + 1) (h.detach n (vacated A B)) n =
      some { h' with destroyed := h'.destroyed ++ [n] } := by
    rw [deleteNode, show (h.detach n (vacated A B)).payload n = hold n from hpayn, hdrop]
    rfl
  refine ⟨h'', ?_, ht'⟩
  rw [hs.drop_last hz _ hn hA, hdelete, Option.bind_some, hfin]

theorem Steady.skip (hs : Steady out hold h (none :: rest)) : Steady out hold h rest :=
  ⟨hs.ledger.skip, hs.nodup, hs.registered, hs.idle, hs.gone⟩

theorem Follows.refl (h : RcHeap N) : Follows h h (h.strong, []) :=
  ⟨fun _ => rfl, rfl, le_rfl, by simp⟩

/-- A handle that is not the last one only takes one off its count. -/
theorem drop_kept_tracks (hs : Steady out hold h (some n :: rest)) (hz : h.strong n - 1 ≠ 0)
    (delete : RcHeap N → N → Option (RcHeap N)) :
    drop delete h (some n) = some (h.retire n) ∧
      Follows h (h.retire n) (Function.update h.strong n (h.strong n - 1), []) := by
  have hdrop : (h.retire n).strong n ≠ 0 := by
    rw [hs.retire_eq]
    simpa using hz
  refine ⟨if_neg fun hzero => hdrop hzero.1, fun _ => rfl, rfl, le_rfl, ?_⟩
  rw [hs.retire_eq]
  simp

/-- Whatever handles a destructor drops, the code follows the counts or diverges. -/
theorem dropAll_tracks (fuel : ℕ) (h : RcHeap N) (l rest : List (Option N))
    (hs : Steady out hold h (l ++ rest)) (hb : h.owned ≤ fuel)
    (hpay : ∀ x ∈ deaths (releaseAll (die hold fuel) h.strong l).2, h.payload x = hold x) :
    ∃ h', dropAll (deleteNode fuel) h l = some h' ∧
      Tracks out hold h h' (releaseAll (die hold fuel) h.strong l) rest := by
  -- the fuel bounds the depth; for one depth the handles go one after the other
  induction fuel using Nat.strong_induction_on generalizing h l rest with
  | _ fuel ihf =>
    induction l generalizing h with
    | nil => exact ⟨h, rfl, .inl ⟨.refl h, hs⟩⟩
    | cons p l ih =>
      cases p with
      | none => exact ih h hs.skip hb hpay
      | some n =>
        by_cases hz : h.strong n - 1 = 0
        · have hcard : 0 < h.live.card := Finset.card_pos.mpr ⟨n, hs.ledger.pos.1⟩
          rw [hs.owned_eq] at hb
          cases fuel with
          | zero => omega
          | succ fuel =>
            rw [Cascade.releaseAll_die hz] at hpay ⊢
            rw [Cascade.deaths_append] at hpay
            obtain ⟨h₁, hdrop, ht⟩ := drop_last_tracks
              (fun h l rest hs hb hpay => ihf fuel (Nat.lt_succ_self fuel) h l rest hs hb hpay)
              hs hz (hs.owned_eq ▸ hb) fun x hx => hpay x (List.mem_append_left _ hx)
            rcases ht with ⟨hf, hs₁⟩ | hdiv
            · have hstrong := congrArg RcHeap.strong hf.rest
              have hpayload := congrArg RcHeap.payload hf.rest
              simp only at hstrong hpayload
              obtain ⟨h', hrest, ht'⟩ := ih h₁ hs₁ (hf.owned.trans (hs.owned_eq ▸ hb))
                fun x hx => by
                  rw [hpayload]
                  exact hpay x (List.mem_append_right _ (hstrong ▸ hx))
              refine ⟨h', by rw [dropAll, hdrop, Option.bind_some, hrest], ?_⟩
              rw [hstrong] at ht'
              exact hf.tracks ht'
            · obtain ⟨h', hrest, hw⟩ := dropAll_wears (deleteNode_deletes (fuel + 1))
                (hdiv.owned.trans (hs.owned_eq ▸ hb)) l
              exact ⟨h', by rw [dropAll, hdrop, Option.bind_some, hrest], hdiv.tracks hw⟩
        · obtain ⟨hdrop, hf⟩ := drop_kept_tracks hs hz (deleteNode fuel)
          have hstrong : (h.retire n).strong = Function.update h.strong n (h.strong n - 1) := by
            rw [hs.retire_eq]
          rw [Cascade.releaseAll_keep hz] at hpay ⊢
          rw [← hstrong] at hpay hf ⊢
          obtain ⟨h', hrest, ht⟩ := ih (h.retire n) hs.retire hb hpay
          exact ⟨h', by rw [dropAll, hdrop, Option.bind_some, hrest], hf.tracks ht⟩

end Tracks
end RcHeap
end HftExercises.Rc
