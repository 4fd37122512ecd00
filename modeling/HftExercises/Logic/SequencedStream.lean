import Mathlib.Data.List.Perm.Basic
import Mathlib.Algebra.Ring.Nat
import HftExercises.Core.OrdMap
import HftExercises.Core.Execution

/-! # The sequence gap detector

A reorder buffer in front of a feed: messages ahead of the next expected number
are parked in a map, and an arrival that bridges the gap flushes the run behind
it. What is delivered depends only on the first message of each number, and is
the longest run from 1 that has arrived.
-/
namespace HftExercises.Sequenced

abbrev SeqNum := UInt64

structure Message where
  seq : SeqNum
  payload : UInt64
  deriving DecidableEq, Repr

abbrev Buffer := OrdMap (fun a b : SeqNum => a < b) Message

structure SequencedStream where
  next : SeqNum
  buffer : Buffer

def SequencedStream.init : SequencedStream := ⟨1, OrdMap.empty⟩

/-- The variables of the loop that swallows the buffered followers. -/
structure Flush where
  next : SeqNum
  buffer : Buffer
  out : List Message

def flushGuard (f : Flush) : Bool := (f.buffer.find? f.next).isSome

def flushBody (f : Flush) : Option Flush :=
  (f.buffer.find? f.next).map fun msg => ⟨f.next + 1, f.buffer.erase f.next, f.out ++ [msg]⟩

def flush (f : Flush) : Option Flush := whileLoop flushGuard flushBody f.buffer.entries.length f

/-- The arguments of one `on_message` call. -/
structure Arrival where
  seq : SeqNum
  msg : Message
  deriving DecidableEq, Repr

def SequencedStream.onMessage (s : SequencedStream) (c : Arrival) :
    Option (List Message × SequencedStream) :=
  if c.seq < s.next then some ([], s)
  else if c.seq > s.next then some ([], { s with buffer := s.buffer.emplace c.seq c.msg })
  else (flush ⟨c.seq + 1, s.buffer, [c.msg]⟩).map fun f => (f.out, ⟨f.next, f.buffer⟩)

/-- The variables of the loop of `pending_gaps`. -/
structure GapScan where
  seq : SeqNum
  gaps : List SeqNum

def gapGuard (first : SeqNum) (g : GapScan) : Bool := decide (g.seq < first)

def gapBody (g : GapScan) : Option GapScan := some ⟨g.seq + 1, g.gaps ++ [g.seq]⟩

/-- Everything from `next_` up to the first buffered number. -/
def SequencedStream.pendingGaps (s : SequencedStream) : Option (List SeqNum) :=
  match s.buffer.begin? with
  | none => some []
  | some (first, _) =>
    (whileLoop (gapGuard first) gapBody (first.toNat - s.next.toNat) ⟨s.next, []⟩).map GapScan.gaps

/-- The message of the first arrival with number `n`. -/
def firstArrival? (calls : List Arrival) (n : ℕ) : Option Message :=
  (calls.find? (fun c => c.seq.toNat == n)).map Arrival.msg

/-- Every call whose number no earlier call carried. -/
def firstArrivals : List Arrival → List Arrival
  | [] => []
  | c :: cs => c :: (firstArrivals cs).filter (fun d => d.seq ≠ c.seq)

abbrev ArrivalEvent := Event SequencedStream Arrival (List Message)

/-- The concatenation of everything a run returned. -/
def delivered (es : List ArrivalEvent) : List Message := es.flatMap Event.result

section Arrivals
variable {calls : List Arrival} {c : Arrival} {n : ℕ} {m : Message}

theorem firstArrival?_append : firstArrival? (calls ++ [c]) n =
    (firstArrival? calls n).or (if c.seq.toNat = n then some c.msg else none) := by
  unfold firstArrival?
  rw [List.find?_append, List.find?_singleton]
  cases calls.find? (fun c => c.seq.toNat == n) with
  | none => by_cases h : c.seq.toNat = n <;> simp [h]
  | some d => rfl

theorem exists_of_firstArrival? (h : firstArrival? calls n = some m) :
    ∃ c ∈ calls, c.seq.toNat = n := by
  obtain ⟨c, hc, _⟩ := Option.map_eq_some_iff.mp h
  have hn := List.find?_some hc
  exact ⟨c, List.mem_of_find?_eq_some hc, beq_iff_eq.mp hn⟩

theorem firstArrival?_eq_none_iff :
    firstArrival? calls n = none ↔ ∀ c ∈ calls, c.seq.toNat ≠ n := by
  simp [firstArrival?]

theorem firstArrivals_seqs_nodup (calls : List Arrival) :
    ((firstArrivals calls).map (fun c => c.seq.toNat)).Nodup := by
  induction calls with
  | nil => exact List.nodup_nil
  | cons c calls ih =>
    apply List.nodup_cons.mpr
    constructor
    · intro h
      obtain ⟨d, hd, he⟩ := List.mem_map.mp h
      have hne : d.seq ≠ c.seq := by simpa using (List.mem_filter.mp hd).2
      exact hne (UInt64.toNat_inj.mp he)
    · exact ih.sublist (List.filter_sublist.map _)

theorem firstArrival?_firstArrivals (calls : List Arrival) (n : ℕ) :
    firstArrival? (firstArrivals calls) n = firstArrival? calls n := by
  induction calls with
  | nil => rfl
  | cons c calls ih =>
    unfold firstArrival? at *
    by_cases hc : c.seq.toNat = n
    · simp [firstArrivals, hc]
    · have hsame : ((firstArrivals calls).filter (fun d => d.seq ≠ c.seq)).find?
          (fun d => d.seq.toNat == n) = (firstArrivals calls).find? (fun d => d.seq.toNat == n) := by
        rw [List.find?_filter]
        apply congrArg (fun p => (firstArrivals calls).find? p)
        funext d
        by_cases hd : d.seq.toNat = n
        · have hne : d.seq ≠ c.seq := fun he => hc (he ▸ hd)
          simp [hd, hne]
        · simp [hd]
      rw [firstArrivals, List.find?_cons_of_neg (by simpa using hc),
        List.find?_cons_of_neg (by simpa using hc), hsame, ih]

/-- The first message of each number survives any rearrangement of the first
arrivals. -/
theorem firstArrival?_perm {calls' : List Arrival}
    (h : (firstArrivals calls').Perm (firstArrivals calls)) (n : ℕ) :
    firstArrival? calls' n = firstArrival? calls n := by
  rw [← firstArrival?_firstArrivals calls', ← firstArrival?_firstArrivals calls]
  unfold firstArrival?
  cases hf : (firstArrivals calls).find? (fun c => c.seq.toNat == n) with
  | none =>
    have hnone : (firstArrivals calls').find? (fun c => c.seq.toNat == n) = none := by
      rw [List.find?_eq_none] at hf ⊢
      exact fun c hc => hf c (h.subset hc)
    rw [hnone]
  | some c =>
    have hn : c.seq.toNat = n := by simpa using List.find?_some hf
    have hc : c ∈ firstArrivals calls' := h.symm.subset (List.mem_of_find?_eq_some hf)
    rw [← hn, find?_key_of_mem (firstArrivals_seqs_nodup calls') hc]

end Arrivals

/-- What the stream knows of its arrivals: it has delivered every number below
`next` once and in order, and parks the first message of every later one. -/
structure Parked (calls : List Arrival) (out : List Message) (next : SeqNum) (buffer : Buffer) :
    Prop where
  positive : 0 < next.toNat
  out : out.map some = (List.range' 1 (next.toNat - 1)).map (firstArrival? calls)
  buffered : ∀ q m, buffer.find? q = some m ↔
    next ≤ q ∧ firstArrival? calls q.toNat = some m

/-- Between two calls nothing parked is deliverable. -/
structure StreamInv (calls : List Arrival) (out : List Message) (s : SequencedStream) : Prop where
  parked : Parked calls out s.next s.buffer
  stopped : s.buffer.find? s.next = none

section Invariant
variable {calls : List Arrival} {out : List Message} {next : SeqNum} {buffer : Buffer}
variable {s : SequencedStream} {c : Arrival}

theorem Parked.arrived (h : Parked calls out next buffer) {n : ℕ} (hpos : 1 ≤ n)
    (hn : n < next.toNat) : ∃ m, firstArrival? calls n = some m := by
  have hmem : firstArrival? calls n ∈ out.map some := by
    rw [h.out]
    apply List.mem_map_of_mem
    apply List.mem_range'_1.mpr
    omega
  obtain ⟨m, _, hm⟩ := List.mem_map.mp hmem
  exact ⟨m, hm.symm⟩

/-- The invariant only reads the first messages of positive numbers. -/
theorem Parked.congr {calls' : List Arrival} (h : Parked calls out next buffer)
    (hc : ∀ n, 1 ≤ n → firstArrival? calls' n = firstArrival? calls n) :
    Parked calls' out next buffer where
  positive := h.positive
  out := by
    rw [h.out]
    apply List.map_congr_left
    intro n hn
    exact (hc n (List.mem_range'_1.mp hn).1).symm
  buffered := by
    intro q m
    rw [h.buffered q m]
    apply and_congr_right
    intro hq
    have hle := UInt64.le_iff_toNat_le.mp hq
    rw [hc q.toNat (by have := h.positive; omega)]

/-- A late number changes nothing: 0 is never awaited, the others were delivered. -/
theorem Parked.late (h : Parked calls out next buffer) (hc : c.seq < next) :
    Parked (calls ++ [c]) out next buffer := by
  apply h.congr
  intro n hn
  have hlt := UInt64.lt_iff_toNat_lt.mp hc
  rw [firstArrival?_append]
  split_ifs with he
  · obtain ⟨m, hm⟩ := h.arrived hn (he ▸ hlt)
    rw [hm]
    rfl
  · exact Option.or_none

/-- Parking a number that is not late, the awaited one included. -/
theorem Parked.park (h : Parked calls out next buffer) (hc : next ≤ c.seq) :
    Parked (calls ++ [c]) out next (buffer.emplace c.seq c.msg) where
  positive := h.positive
  out := by
    rw [h.out]
    apply List.map_congr_left
    intro n hn
    have hle := UInt64.le_iff_toNat_le.mp hc
    have hrange := List.mem_range'_1.mp hn
    rw [firstArrival?_append, if_neg (by omega), Option.or_none]
  buffered := by
    intro q m
    have hseq : c.seq.toNat = q.toNat ↔ q = c.seq := by
      rw [UInt64.toNat_inj, eq_comm]
    have hb := h.buffered q
    simp only [OrdMap.find?_emplace, firstArrival?_append, hseq]
    by_cases hq : q = c.seq
    · subst hq
      have hsame : buffer.find? c.seq = firstArrival? calls c.seq.toNat := by
        apply Option.ext
        intro m'
        rw [hb m']
        exact and_iff_right hc
      rw [hsame]
      exact (and_iff_right hc).symm
    · simp only [hq, if_false, Option.or_none, hb]

theorem toNat_add_one {a : UInt64} (h : a.toNat < 2 ^ 64 - 1) : (a + 1).toNat = a.toNat + 1 := by
  rw [UInt64.toNat_add, UInt64.toNat_one]
  exact Nat.mod_eq_of_lt (by omega)

/-- The parked message with the awaited number leaves for the output. -/
theorem Parked.deliver (h : Parked calls out next buffer) {m : Message}
    (hm : buffer.find? next = some m) (hlt : next.toNat < 2 ^ 64 - 1) {buffer' : Buffer}
    (hb : ∀ q, buffer'.find? q = if q = next then none else buffer.find? q) :
    Parked calls (out ++ [m]) (next + 1) buffer' := by
  have hpos := h.positive
  have hsucc := toNat_add_one hlt
  refine ⟨by omega, ?_, ?_⟩
  · have hlast : firstArrival? calls (1 + (next.toNat - 1)) = some m := by
      rw [Nat.add_sub_cancel' hpos]
      exact ((h.buffered next m).mp hm).2
    have hlen : (next + 1).toNat - 1 = next.toNat - 1 + 1 := by omega
    simp only [hlen, List.range'_1_concat, List.map_append, h.out, List.map_cons, List.map_nil, hlast]
  · intro q m'
    rw [hb, UInt64.le_iff_toNat_le, hsucc]
    split_ifs with hq
    · subst hq
      simp
    · have hne : q.toNat ≠ next.toNat := fun he => hq (UInt64.toNat_inj.mp he)
      rw [h.buffered, UInt64.le_iff_toNat_le]
      exact and_congr_left (fun _ => by omega)

/-- The flush delivers the whole run behind the awaited number. -/
theorem Parked.flush {f : Flush} (h : Parked calls (out ++ f.out) f.next f.buffer)
    (hseq : ∀ c ∈ calls, c.seq.toNat < 2 ^ 64 - 1) :
    ∃ f', flush f = some f' ∧ StreamInv calls (out ++ f'.out) ⟨f'.next, f'.buffer⟩ := by
  have hbody : ∀ f : Flush, Parked calls (out ++ f.out) f.next f.buffer → flushGuard f = true →
      ∃ f', (∀ _ : Unit, flushBody f = some f') ∧
        Parked calls (out ++ f'.out) f'.next f'.buffer ∧
        f'.buffer.entries.length < f.buffer.entries.length := by
    intro f hf hg
    obtain ⟨m, hm⟩ := Option.isSome_iff_exists.mp hg
    obtain ⟨_, hfirst⟩ := (hf.buffered f.next m).mp hm
    obtain ⟨c, hc, he⟩ := exists_of_firstArrival? hfirst
    refine ⟨⟨f.next + 1, f.buffer.erase f.next, f.out ++ [m]⟩, fun _ => ?_, ?_,
      OrdMap.length_erase_lt hm⟩
    · simp [flushBody, hm]
    · rw [← List.append_assoc]
      exact hf.deliver hm (he ▸ hseq c hc) (OrdMap.find?_erase f.buffer f.next)
  obtain ⟨f', hf', hi, hg⟩ := whileLoop_total (fun _ : Unit => flushBody)
    (fun f => Parked calls (out ++ f.out) f.next f.buffer) (fun f => f.buffer.entries.length)
    hbody (Nat.le_refl _) h
  refine ⟨f', hf' (), hi, ?_⟩
  simpa [flushGuard] using hg

theorem StreamInv.onMessage (h : StreamInv calls out s)
    (hseq : ∀ d ∈ calls ++ [c], d.seq.toNat < 2 ^ 64 - 1) :
    ∃ ms s', s.onMessage c = some (ms, s') ∧ StreamInv (calls ++ [c]) (out ++ ms) s' := by
  unfold SequencedStream.onMessage
  by_cases hlate : c.seq < s.next
  · refine ⟨[], s, if_pos hlate, ?_⟩
    rw [List.append_nil]
    exact ⟨h.parked.late hlate, h.stopped⟩
  have hle : s.next ≤ c.seq := by
    rw [UInt64.le_iff_toNat_le]
    rw [UInt64.lt_iff_toNat_lt] at hlate
    omega
  have hpark := h.parked.park hle
  by_cases hahead : c.seq > s.next
  · refine ⟨[], _, by rw [if_neg hlate, if_pos hahead], ?_⟩
    rw [List.append_nil]
    refine ⟨hpark, ?_⟩
    have hne : s.next ≠ c.seq := fun he => irrefl_of (fun a b : SeqNum => a < b) c.seq (he ▸ hahead)
    rw [OrdMap.find?_emplace, h.stopped, if_neg hne]
    rfl
  · have heq : c.seq = s.next := by
      rw [gt_iff_lt, UInt64.lt_iff_toNat_lt] at hahead
      rw [UInt64.le_iff_toNat_le] at hle
      apply UInt64.toNat_inj.mp
      omega
    have hlt : s.next.toNat < 2 ^ 64 - 1 := heq ▸ hseq c (by simp)
    have hfind : ∀ q, (s.buffer.emplace c.seq c.msg).find? q =
        if q = s.next then some c.msg else s.buffer.find? q := by
      intro q
      rw [OrdMap.find?_emplace, heq]
      split_ifs with hq
      · rw [hq, h.stopped]
        rfl
      · exact Option.or_none
    have hdeliver : Parked (calls ++ [c]) (out ++ [c.msg]) (s.next + 1) s.buffer := by
      apply hpark.deliver (by rw [hfind, if_pos rfl]) hlt
      intro q
      rw [hfind]
      split_ifs with hq
      · rw [hq, h.stopped]
      · rfl
    obtain ⟨f, hf, hi⟩ := hdeliver.flush (f := ⟨s.next + 1, s.buffer, [c.msg]⟩) hseq
    refine ⟨f.out, ⟨f.next, f.buffer⟩, ?_, hi⟩
    rw [if_neg hlate, if_neg hahead, heq, hf]
    rfl

/-- The loop of `pending_gaps` lists every number it passes. -/
theorem gapScan_eq (first : SeqNum) (g : GapScan) (n : ℕ) (hn : first.toNat - g.seq.toNat = n) :
    ∃ g', whileLoop (gapGuard first) gapBody n g = some g' ∧
      g'.gaps.map UInt64.toNat = g.gaps.map UInt64.toNat ++ List.range' g.seq.toNat n := by
  induction n generalizing g with
  | zero =>
    have hstop : gapGuard first g = false := by
      rw [gapGuard, decide_eq_false_iff_not, UInt64.lt_iff_toNat_lt]
      omega
    exact ⟨g, whileLoop_stop hstop 0, by simp⟩
  | succ n ih =>
    have hrun : gapGuard first g = true := by
      rw [gapGuard, decide_eq_true_iff, UInt64.lt_iff_toNat_lt]
      omega
    have hfits := first.toNat_lt
    have hsucc := toNat_add_one (a := g.seq) (by omega)
    obtain ⟨g', hg', hgaps⟩ := ih ⟨g.seq + 1, g.gaps ++ [g.seq]⟩ (by dsimp only; omega)
    refine ⟨g', ?_, ?_⟩
    · rw [whileLoop_next hrun]
      exact hg'
    · rw [hgaps, hsucc, List.range'_succ]
      simp

theorem StreamInv.init : StreamInv [] [] SequencedStream.init where
  parked := ⟨by decide, rfl, fun q m => by simp [SequencedStream.init, firstArrival?]⟩
  stopped := rfl

theorem StreamInv.next_missing (h : StreamInv calls out s) :
    firstArrival? calls s.next.toNat = none := by
  apply Option.eq_none_iff_forall_ne_some.mpr
  intro m hm
  have hfind := (h.parked.buffered s.next m).mpr ⟨UInt64.le_refl _, hm⟩
  rw [h.stopped] at hfind
  cases hfind

theorem StreamInv.next_lt_of_mem_keys (h : StreamInv calls out s) {q : SeqNum}
    (hq : q ∈ s.buffer.keys) : s.next < q := by
  obtain ⟨m, hm⟩ := OrdMap.mem_keys_iff.mp hq
  have hle := ((h.parked.buffered q m).mp hm).1
  have hne : s.next ≠ q := by
    rintro rfl
    rw [h.stopped] at hm
    cases hm
  rw [UInt64.le_iff_toNat_le] at hle
  rw [UInt64.lt_iff_toNat_lt]
  have hne' : s.next.toNat ≠ q.toNat := fun he => hne (UInt64.toNat_inj.mp he)
  omega

/-- Two histories with the same first messages have delivered the same. -/
theorem StreamInv.out_eq {calls' : List Arrival} {out' : List Message} {s' : SequencedStream}
    (h : StreamInv calls out s) (h' : StreamInv calls' out' s')
    (hc : ∀ n, firstArrival? calls' n = firstArrival? calls n) : out' = out := by
  have hnext : s'.next.toNat = s.next.toNat := by
    rcases Nat.lt_trichotomy s'.next.toNat s.next.toNat with hlt | heq | hlt
    · obtain ⟨m, hm⟩ := h.parked.arrived h'.parked.positive hlt
      rw [← hc, h'.next_missing] at hm
      cases hm
    · exact heq
    · obtain ⟨m, hm⟩ := h'.parked.arrived h.parked.positive hlt
      rw [hc, h.next_missing] at hm
      cases hm
  have hmap : out'.map some = out.map some := by
    rw [h.parked.out, h'.parked.out, hnext]
    exact List.map_congr_left (fun n _ => hc n)
  exact List.map_injective_iff.mpr (fun _ _ h => Option.some.inj h) hmap

end Invariant

/-- A message with this number has arrived. -/
def Arrived (calls : List Arrival) (n : ℕ) : Prop := ∃ c ∈ calls, c.seq.toNat = n

theorem arrived_iff {calls : List Arrival} {n : ℕ} :
    Arrived calls n ↔ ∃ m, firstArrival? calls n = some m := by
  rw [← Option.ne_none_iff_exists', ne_eq, firstArrival?_eq_none_iff]
  simp [Arrived]

/-- The gaps reported after delivering up to `k`: the numbers below the smallest
parked one, none of which has arrived. -/
structure GapsExact (calls : List Arrival) (k : ℕ) (buffer : Buffer) (gaps : List SeqNum) : Prop where
  empty : gaps = [] ↔ buffer.entries = []
  range : ∀ first ∈ buffer.keys, (∀ q ∈ buffer.keys, first ≤ q) →
    gaps.map UInt64.toNat = List.range' (k + 1) (first.toNat - (k + 1))
  missing : ∀ q ∈ gaps, ¬ Arrived calls q.toNat

theorem StreamInv.pendingGaps {calls : List Arrival} {out : List Message} {s : SequencedStream}
    (h : StreamInv calls out s) {k : ℕ} (hk : s.next.toNat = k + 1) :
    ∃ gaps, s.pendingGaps = some gaps ∧ GapsExact calls k s.buffer gaps := by
  unfold SequencedStream.pendingGaps
  cases hb : s.buffer.begin? with
  | none =>
    have hnil := OrdMap.begin?_eq_none_iff.mp hb
    refine ⟨[], rfl, ⟨by simp [hnil], ?_, by simp⟩⟩
    intro first hfirst
    simp [OrdMap.keys, hnil] at hfirst
  | some e =>
    obtain ⟨first, m⟩ := e
    have hmem : first ∈ s.buffer.keys := List.mem_map_of_mem (OrdMap.begin?_mem hb)
    have hleast : ∀ q ∈ s.buffer.keys, first ≤ q := by
      intro q hq
      obtain ⟨e, he, rfl⟩ := List.mem_map.mp hq
      rcases OrdMap.begin?_least hb he with rfl | hlt
      · exact UInt64.le_refl _
      · exact UInt64.le_of_lt hlt
    have hlt := UInt64.lt_iff_toNat_lt.mp (h.next_lt_of_mem_keys hmem)
    obtain ⟨g, hg, hgaps⟩ := gapScan_eq first ⟨s.next, []⟩ _ rfl
    simp only [List.map_nil, List.nil_append, hk] at hgaps
    simp only [hg, Option.map_some]
    refine ⟨g.gaps, rfl, ?_, ?_, ?_⟩
    · have hlen := congrArg List.length hgaps
      simp only [List.length_map, List.length_range'] at hlen
      have hne : s.buffer.entries ≠ [] := List.ne_nil_of_mem (OrdMap.begin?_mem hb)
      simp only [hne, iff_false]
      intro hnil
      rw [hnil, List.length_nil] at hlen
      omega
    · intro first' hmem' hleast'
      have hle := UInt64.le_iff_toNat_le.mp (hleast' first hmem)
      have hge := UInt64.le_iff_toNat_le.mp (hleast first' hmem')
      rw [hgaps, Nat.le_antisymm hle hge]
    · intro q hq ha
      have hrange : q.toNat ∈ List.range' (k + 1) (first.toNat - (k + 1)) :=
        hgaps ▸ List.mem_map_of_mem hq
      obtain ⟨hlo, hhi⟩ := List.mem_range'_1.mp hrange
      obtain ⟨m', hm'⟩ := arrived_iff.mp ha
      have hnext : s.next ≤ q := UInt64.le_iff_toNat_le.mpr (by omega)
      have hfind := (h.parked.buffered q m').mpr ⟨hnext, hm'⟩
      have hle := UInt64.le_iff_toNat_le.mp (hleast q (OrdMap.mem_keys_iff.mpr ⟨m', hfind⟩))
      omega

/-- The invariant over the calls and results of a run. -/
def RunInv (es : List ArrivalEvent) (s : SequencedStream) : Prop :=
  StreamInv (es.map Event.call) (delivered es) s

theorem RunInv.step {es : List ArrivalEvent} {s : SequencedStream} {c : Arrival} (h : RunInv es s)
    (hc : ∀ d ∈ es.map Event.call ++ [c], d.seq.toNat < 2 ^ 64 - 1) :
    ∃ ms s', s.onMessage c = some (ms, s') ∧ RunInv (es ++ [⟨s, c, ms⟩]) s' := by
  obtain ⟨ms, s', hs', hi⟩ := StreamInv.onMessage h hc
  refine ⟨ms, s', hs', ?_⟩
  simpa [RunInv, delivered] using hi

theorem exec_streamInv {calls : List Arrival} (hseq : ∀ c ∈ calls, c.seq.toNat < 2 ^ 64 - 1) :
    ∃ es s, exec SequencedStream.onMessage .init calls = some (es, s) ∧
      StreamInv calls (delivered es) s := by
  have hadm : Admissible (fun l c => ∀ d ∈ l ++ [c], d.seq.toNat < 2 ^ 64 - 1) calls := by
    rintro l c r rfl d hd
    apply hseq
    rw [List.append_cons]
    exact List.mem_append_left r hd
  obtain ⟨es, s, hes, hi⟩ := exec_total RunInv (fun _ _ _ hi hc => hi.step hc) StreamInv.init hadm
  unfold RunInv at hi
  rw [exec_calls hes] at hi
  exact ⟨es, s, hes, hi⟩

/-- Whatever the order, the gaps and the repeats of the arrivals, the stream has
delivered the longest run from 1 that has arrived, each number once with its
first message; it parks only later numbers and reports the gap before them. What
it delivers depends on the first arrivals alone, not on their order. -/
theorem sequencedStream_delivers (calls : List Arrival)
    (hseq : ∀ c ∈ calls, c.seq.toNat < 2 ^ 64 - 1) :
    ∃ es s k, exec SequencedStream.onMessage .init calls = some (es, s) ∧
      ((∀ n, 1 ≤ n → n ≤ k → Arrived calls n) ∧ ¬ Arrived calls (k + 1)) ∧
      (delivered es).map some = (List.range' 1 k).map (firstArrival? calls) ∧
      (∀ calls', (firstArrivals calls').Perm (firstArrivals calls) →
        ∃ es' s', exec SequencedStream.onMessage .init calls' = some (es', s') ∧
          delivered es' = delivered es) ∧
      s.next.toNat = k + 1 ∧ (∀ q ∈ s.buffer.keys, s.next < q) ∧
      ∃ gaps, s.pendingGaps = some gaps ∧ GapsExact calls k s.buffer gaps := by
  obtain ⟨es, s, hes, hi⟩ := exec_streamInv hseq
  obtain ⟨k, hk⟩ : ∃ k, s.next.toNat = k + 1 := ⟨s.next.toNat - 1, by
    have := hi.parked.positive
    omega⟩
  refine ⟨es, s, k, hes, ⟨?_, ?_⟩, ?_, ?_, hk, fun q => hi.next_lt_of_mem_keys, hi.pendingGaps hk⟩
  · intro n hpos hn
    exact arrived_iff.mpr (hi.parked.arrived hpos (by omega))
  · rw [arrived_iff, ← hk, hi.next_missing]
    simp
  · have hout := hi.parked.out
    rwa [hk] at hout
  · intro calls' hperm
    have hseq' : ∀ c ∈ calls', c.seq.toNat < 2 ^ 64 - 1 := by
      intro c hc
      have harr : Arrived calls' c.seq.toNat := ⟨c, hc, rfl⟩
      rw [arrived_iff, firstArrival?_perm hperm] at harr
      obtain ⟨m, hm⟩ := harr
      obtain ⟨d, hd, he⟩ := exists_of_firstArrival? hm
      exact he ▸ hseq d hd
    obtain ⟨es', s', hes', hi'⟩ := exec_streamInv hseq'
    exact ⟨es', s', hes', hi.out_eq hi' (firstArrival?_perm hperm)⟩

/-- Arrivals out of order, with a repeat, a number 0 and a parked message left. -/
theorem sequencedStream_delivers_repeat :
    let calls : List Arrival := [⟨3, ⟨3, 30⟩⟩, ⟨0, ⟨0, 0⟩⟩, ⟨1, ⟨1, 10⟩⟩, ⟨3, ⟨3, 31⟩⟩, ⟨6, ⟨6, 60⟩⟩,
      ⟨2, ⟨2, 20⟩⟩]
    (∀ c ∈ calls, c.seq.toNat < 2 ^ 64 - 1) ∧
    ∃ es s k, exec SequencedStream.onMessage .init calls = some (es, s) ∧
      ((∀ n, 1 ≤ n → n ≤ k → Arrived calls n) ∧ ¬ Arrived calls (k + 1)) ∧
      (delivered es).map some = (List.range' 1 k).map (firstArrival? calls) ∧
      (∀ calls', (firstArrivals calls').Perm (firstArrivals calls) →
        ∃ es' s', exec SequencedStream.onMessage .init calls' = some (es', s') ∧
          delivered es' = delivered es) ∧
      s.next.toNat = k + 1 ∧ (∀ q ∈ s.buffer.keys, s.next < q) ∧
      ∃ gaps, s.pendingGaps = some gaps ∧ GapsExact calls k s.buffer gaps :=
  ⟨by decide, sequencedStream_delivers _ (by decide)⟩

end HftExercises.Sequenced
