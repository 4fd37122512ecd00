import HftExercises.Core.Execution
import HftExercises.Core.ListFacts
import Mathlib.Data.List.Nodup
import Mathlib.Data.UInt

/-! # Loans by token

A loan is a record in the box and a token at the borrower. Tokens are plain values: any
id and kind may be presented, any number of times.
-/
namespace HftExercises.Loans

/-- The id `0` stands for no loan. -/
structure Token where
  id : UInt64
  isMut : Bool
  deriving DecidableEq, Repr

structure Record where
  id : UInt64
  isMut : Bool
  live : Bool
  deriving DecidableEq, Repr

/-- The record that is made together with a token. -/
def Token.record (t : Token) : Record := ⟨t.id, t.isMut, true⟩

/-- The first record with the id of the token, with its position. -/
def find (t : Token) : List Record → Option (ℕ × Record)
  | [] => none
  | r :: rest => if r.id = t.id then some (0, r) else (find t rest).map fun p => (p.1 + 1, p.2)

/-- One round of the loop of `prune`, on the records and `kept`. -/
def pruneRound (s : List Record × ℕ) (i : ℕ) : List Record × ℕ :=
  match s.1[i]? with
  | some r => if r.live then (s.1.set s.2 r, s.2 + 1) else s
  | none => s

def prune (loans : List Record) : List Record :=
  let s := (List.range loans.length).foldl pruneRound (loans, 0)
  s.1.take s.2

structure LoanBox (T : Type*) where
  value : T
  loans : List Record
  nextId : UInt64
  writer : Bool

namespace LoanBox
variable {T : Type*}

def create (value : T) : LoanBox T := ⟨value, [], 1, false⟩

def borrow (b : LoanBox T) : Option Token × LoanBox T :=
  if b.writer then (none, b)
  else
    let t : Token := ⟨b.nextId, false⟩
    (some t, { b with nextId := b.nextId + 1, loans := b.loans ++ [⟨t.id, false, true⟩] })

def borrowMut (b : LoanBox T) : Option Token × LoanBox T :=
  if b.writer || !b.loans.isEmpty then (none, b)
  else
    let t : Token := ⟨b.nextId, true⟩
    (some t, { b with
      nextId := b.nextId + 1
      loans := b.loans ++ [⟨t.id, true, true⟩]
      writer := true })

def access (b : LoanBox T) (t : Token) : Except String T :=
  match find t b.loans with
  | none => .error "LoanBox: dead or unknown token"
  | some (_, r) =>
    if !r.live || r.isMut != t.isMut || t.id == 0 then .error "LoanBox: dead or unknown token"
    else .ok b.value

def accessMut (b : LoanBox T) (t : Token) : Except String T :=
  if !t.isMut then .error "LoanBox: not a mutable token"
  else
    match find t b.loans with
    | none => .error "LoanBox: dead or unknown token"
    | some (_, r) =>
      if !r.live then .error "LoanBox: dead or unknown token" else .ok b.value

def repay (b : LoanBox T) (t : Token) : Bool × LoanBox T :=
  match find t b.loans with
  | none => (false, b)
  | some (p, r) =>
    if !r.live || r.isMut != t.isMut || t.id == 0 then (false, b)
    else
      (true, { b with
        loans := prune (b.loans.set p { r with live := false })
        writer := if t.isMut then false else b.writer })

end LoanBox

inductive Call (T : Type*) where
  | borrow
  | borrowMut
  | repay (t : Token)
  | access (t : Token)
  /-- `access_mut(t) = x` -/
  | assign (t : Token) (x : T)

inductive Result (T : Type*) where
  | issued (t : Option Token)
  | repaid (accepted : Bool)
  | accessed (r : Except String T)

namespace LoanBox
variable {T : Type*}

def step (b : LoanBox T) : Call T → Option (Result T × LoanBox T)
  | .borrow => some (.issued b.borrow.1, b.borrow.2)
  | .borrowMut => some (.issued b.borrowMut.1, b.borrowMut.2)
  | .repay t => some (.repaid (b.repay t).1, (b.repay t).2)
  | .access t => some (.accessed (b.access t), b)
  | .assign t x =>
    match b.accessMut t with
    | .ok v => some (.accessed (.ok v), { b with value := x })
    | .error e => some (.accessed (.error e), b)

end LoanBox

/-! ## The loop of `prune` -/

/-- Before round `i` the live ones of the records before `i` are at the front, and the
records from `i` on are where they were. -/
theorem prune_rounds (loans : List Record) {i : ℕ} (hi : i ≤ loans.length) :
    ∃ l kept, (List.range i).foldl pruneRound (loans, 0) = (l, kept) ∧ kept ≤ i ∧
      l.length = loans.length ∧ l.take kept = (loans.take i).filter (·.live) ∧
      l.drop i = loans.drop i := by
  induction i with
  | zero => exact ⟨loans, 0, rfl, Nat.le_refl 0, rfl, rfl, rfl⟩
  | succ i ih =>
    obtain ⟨l, kept, hfold, hkept, hlen, hfront, hback⟩ := ih (by omega)
    have hget : l[i]? = some loans[i] := by
      have h₀ : (l.drop i)[0]? = (loans.drop i)[0]? := by rw [hback]
      rw [List.getElem?_drop, List.getElem?_drop, Nat.add_zero] at h₀
      rw [h₀, List.getElem?_eq_getElem (by omega)]
    have hnext : l.drop (i + 1) = loans.drop (i + 1) := by
      rw [← List.drop_drop, hback, List.drop_drop]
    have htake : (loans.take (i + 1)).filter (·.live) =
        (loans.take i).filter (·.live) ++ [loans[i]].filter (·.live) := by
      rw [← List.take_concat_get' loans i (by omega), List.filter_append]
    rw [List.range_succ, List.foldl_append, hfold, List.foldl_cons, List.foldl_nil, pruneRound, hget]
    cases hlive : loans[i].live with
    | true =>
      refine ⟨l.set kept loans[i], kept + 1, by simp [hlive], by omega, by simpa using hlen, ?_, ?_⟩
      · rw [htake, ← hfront, List.filter_cons_of_pos hlive, List.filter_nil,
          List.take_succ_eq_append_getElem (by rw [List.length_set]; omega), List.take_set_of_le (Nat.le_refl kept),
          List.getElem_set_self]
      · rw [List.drop_set_of_lt (by omega), hnext]
    | false =>
      refine ⟨l, kept, by simp [hlive], by omega, hlen, ?_, hnext⟩
      rw [htake, hfront, List.filter_cons_of_neg (by simp [hlive]), List.filter_nil, List.append_nil]

theorem prune_eq_filter (loans : List Record) : prune loans = loans.filter (·.live) := by
  obtain ⟨l, kept, hfold, -, -, hfront, -⟩ := prune_rounds loans (Nat.le_refl _)
  rw [prune, hfold, hfront, List.take_length]

/-! ## Finding a record -/

theorem find_eq_none {t : Token} {loans : List Record} :
    find t loans = none ↔ ∀ r ∈ loans, r.id ≠ t.id := by
  induction loans with
  | nil => simp [find]
  | cons r rest ih =>
    rw [find, List.forall_mem_cons]
    split_ifs with h
    · simp [h]
    · rw [Option.map_eq_none_iff, ih]
      simp [h]

theorem find_append {t : Token} {l rest : List Record} {r : Record}
    (hl : ∀ r' ∈ l, r'.id ≠ t.id) (hr : r.id = t.id) :
    find t (l ++ r :: rest) = some (l.length, r) := by
  induction l with
  | nil => simp [find, hr]
  | cons r' l ih =>
    obtain ⟨hne, hl⟩ := List.forall_mem_cons.mp hl
    rw [List.cons_append, find, if_neg hne, ih hl]
    rfl

/-- Either no record has the id, or the first one that has it is found. -/
theorem find_cases (t : Token) (loans : List Record) :
    (find t loans = none ∧ ∀ r ∈ loans, r.id ≠ t.id) ∨
      ∃ l r rest, loans = l ++ r :: rest ∧ r.id = t.id ∧ (∀ r' ∈ l, r'.id ≠ t.id) ∧
        find t loans = some (l.length, r) := by
  induction loans with
  | nil => exact .inl ⟨rfl, by simp⟩
  | cons r rest ih =>
    by_cases hr : r.id = t.id
    · exact .inr ⟨[], r, rest, rfl, hr, by simp, by simp [find, hr]⟩
    · rcases ih with ⟨hnone, hne⟩ | ⟨l, r', rest', rfl, hr', hl, -⟩
      · exact .inl ⟨by simp [find, hr, hnone], List.forall_mem_cons.mpr ⟨hr, hne⟩⟩
      · have hl' : ∀ x ∈ r :: l, x.id ≠ t.id := List.forall_mem_cons.mpr ⟨hr, hl⟩
        exact .inr ⟨r :: l, r', rest', rfl, hr', hl', find_append hl' hr'⟩

/-! ## The box in every state of a run -/

namespace LoanBox
variable {T : Type*} {b b' : LoanBox T}

/-- All records are live and of one kind, which the writer flag tells. -/
structure Sound (b : LoanBox T) : Prop where
  live : ∀ r ∈ b.loans, r.live = true
  kind : ∀ r ∈ b.loans, r.isMut = b.writer
  single : b.writer = true → b.loans.length = 1

theorem create_sound (v : T) : (create v).Sound := by
  constructor <;> simp [create]

/-- A token of a live loan ends it; any other token leaves the box as it is. -/
inductive RepaySpec (b : LoanBox T) (t : Token) : Bool × LoanBox T → Prop
  | reject (h : t.id = 0 ∨ t.record ∉ b.loans) : RepaySpec b t (false, b)
  | accept {l rest : List Record} (hid : t.id ≠ 0) (hloans : b.loans = l ++ t.record :: rest) :
      RepaySpec b t (true, { b with loans := l ++ rest, writer := false })

theorem Sound.record_eq (hs : b.Sound) {t : Token} {r : Record} (hr : r ∈ b.loans)
    (hid : r.id = t.id) (hkind : r.isMut = t.isMut) : r = t.record := by
  have hlive := hs.live r hr
  obtain ⟨id, isMut, live⟩ := r
  simp_all [Token.record]

theorem Sound.repay (hs : b.Sound) (t : Token) : RepaySpec b t (b.repay t) := by
  rcases find_cases t b.loans with ⟨hnone, hne⟩ | ⟨l, r, rest, hloans, hid, hl, hfind⟩
  · have hrepay : b.repay t = (false, b) := by rw [LoanBox.repay, hnone]
    rw [hrepay]
    exact .reject (.inr fun hmem => hne _ hmem rfl)
  · have hr : r ∈ b.loans := by simp [hloans]
    have hlive := hs.live r hr
    by_cases hbad : (r.isMut != t.isMut || t.id == 0) = true
    · have hrepay : b.repay t = (false, b) := by
        rw [LoanBox.repay, hfind]
        simp only [hlive, Bool.not_true, Bool.false_or, hbad, if_true]
      rw [hrepay]
      refine .reject ?_
      by_cases h0 : t.id = 0
      · exact .inl h0
      · refine .inr fun hmem => ?_
        have hkind : r.isMut = t.isMut := (hs.kind r hr).trans (hs.kind _ hmem).symm
        simp [hkind, h0] at hbad
    · obtain ⟨hkind, h0⟩ : r.isMut = t.isMut ∧ t.id ≠ 0 := by simpa using hbad
      obtain rfl := hs.record_eq hr hid hkind
      have hdead : prune (b.loans.set l.length { t.record with live := false }) = l ++ rest := by
        have hset : b.loans.set l.length { t.record with live := false } =
            l ++ { t.record with live := false } :: rest := by simp [hloans]
        have hkeep : ∀ r ∈ l ++ rest, r.live = true := by
          intro r hr
          refine hs.live r ?_
          rw [hloans]
          exact ((List.sublist_cons_self _ rest).append_left l).subset hr
        rw [hset, prune_eq_filter, List.filter_append, List.filter_cons_of_neg (by simp),
          ← List.filter_append, List.filter_eq_self.mpr hkeep]
      have hwriter : (if t.isMut then false else b.writer) = false := by
        have hb : t.isMut = b.writer := hs.kind _ hr
        rw [hb]
        cases b.writer <;> rfl
      have hrepay : b.repay t = (true, { b with loans := l ++ rest, writer := false }) := by
        rw [LoanBox.repay, hfind]
        simp only [hlive, Bool.not_true, Bool.false_or, hbad, hdead, hwriter]
        rfl
      rw [hrepay]
      exact .accept h0 hloans

theorem borrow_of_writer (h : b.writer = true) : b.borrow = (none, b) := by rw [borrow, if_pos h]

theorem borrow_of_not_writer (h : b.writer = false) :
    b.borrow = (some ⟨b.nextId, false⟩,
      { b with nextId := b.nextId + 1, loans := b.loans ++ [Token.record ⟨b.nextId, false⟩] }) := by
  rw [borrow, if_neg (by simp [h])]
  rfl

theorem borrowMut_of_loans (h : b.writer = true ∨ b.loans ≠ []) : b.borrowMut = (none, b) := by
  rw [borrowMut, if_pos (by simpa using h)]

theorem borrowMut_of_nil (hw : b.writer = false) (h : b.loans = []) :
    b.borrowMut = (some ⟨b.nextId, true⟩, { b with
      nextId := b.nextId + 1
      loans := [Token.record ⟨b.nextId, true⟩]
      writer := true }) := by
  rw [borrowMut, if_neg (by simp [hw, h])]
  simp [h, Token.record]

/-- What a call does: it issues a token with its record, ends one loan, or leaves the loans
as they are. -/
inductive StepSpec (b : LoanBox T) : Call T → Result T → LoanBox T → Prop
  | borrow (hw : b.writer = false) :
      StepSpec b .borrow (.issued (some ⟨b.nextId, false⟩)) { b with
        nextId := b.nextId + 1, loans := b.loans ++ [Token.record ⟨b.nextId, false⟩] }
  | borrowMut (hw : b.writer = false) (hnil : b.loans = []) :
      StepSpec b .borrowMut (.issued (some ⟨b.nextId, true⟩)) { b with
        nextId := b.nextId + 1, loans := [Token.record ⟨b.nextId, true⟩], writer := true }
  | repay {t : Token} {l rest : List Record} (hid : t.id ≠ 0)
      (hloans : b.loans = l ++ t.record :: rest) :
      StepSpec b (.repay t) (.repaid true) { b with loans := l ++ rest, writer := false }
  | refuse {c : Call T} : StepSpec b c (.issued none) b
  | reject {t : Token} : StepSpec b (.repay t) (.repaid false) b
  | access {c : Call T} {r : Except String T} (v : T) :
      StepSpec b c (.accessed r) { b with value := v }

theorem Sound.step_spec (hs : b.Sound) {c : Call T} {o : Result T}
    (h : b.step c = some (o, b')) : StepSpec b c o b' := by
  cases c with
  | borrow =>
    cases hw : b.writer with
    | true =>
      rw [step, borrow_of_writer hw] at h
      cases h
      exact .refuse
    | false =>
      rw [step, borrow_of_not_writer hw] at h
      cases h
      exact .borrow hw
  | borrowMut =>
    by_cases hl : b.writer = true ∨ b.loans ≠ []
    · rw [step, borrowMut_of_loans hl] at h
      cases h
      exact .refuse
    · obtain ⟨hw, hnil⟩ : b.writer = false ∧ b.loans = [] := by simpa using hl
      rw [step, borrowMut_of_nil hw hnil] at h
      cases h
      exact .borrowMut hw hnil
  | repay t =>
    have hspec := hs.repay t
    rw [step] at h
    generalize hq : b.repay t = q at h hspec
    cases hspec with
    | reject =>
      cases h
      exact .reject
    | accept hid hloans =>
      cases h
      exact .repay hid hloans
  | access t =>
    cases h
    exact .access b.value
  | assign t x =>
    rw [step] at h
    split at h
    · cases h
      exact .access x
    · cases h
      exact .access b.value

theorem StepSpec.sound (hs : b.Sound) {c : Call T} {o : Result T} (h : StepSpec b c o b') :
    b'.Sound := by
  cases h with
  | borrow hw =>
    constructor
    case live => exact List.forall_mem_append.mpr ⟨hs.live, by simp [Token.record]⟩
    case kind => exact List.forall_mem_append.mpr ⟨hs.kind, by simp [Token.record, hw]⟩
    case single => simp [hw]
  | borrowMut hw hnil => constructor <;> simp [Token.record]
  | @repay t l rest hid hloans =>
    have hsub : l ++ rest ⊆ b.loans := by
      rw [hloans]
      exact ((List.sublist_cons_self _ rest).append_left l).subset
    refine ⟨fun r hr => hs.live r (hsub hr), fun r hr => ?_, by simp⟩
    -- the only mutable loan is alone, so a loan that stays is a shared one
    cases hw : b.writer with
    | true =>
      have hone := hs.single hw
      rw [hloans, List.length_append, List.length_cons] at hone
      obtain rfl : l = [] := List.length_eq_zero_iff.mp (by omega)
      obtain rfl : rest = [] := List.length_eq_zero_iff.mp (by omega)
      exact absurd hr List.not_mem_nil
    | false => exact (hs.kind r (hsub hr)).trans hw
  | refuse => exact hs
  | reject => exact hs
  | access v => exact ⟨hs.live, hs.kind, hs.single⟩

end LoanBox

end HftExercises.Loans
