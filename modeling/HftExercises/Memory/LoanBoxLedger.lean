import HftExercises.Memory.LoanBox

/-! # Loans issued and repaid

The records are compared with the loans that the history of the calls has issued and not
repaid, and the accessors with the live loans.
-/
namespace HftExercises.Loans
variable {T : Type*}

abbrev History (T : Type*) := List (Event (LoanBox T) (Call T) (Result T))

def issuedBy (e : Event (LoanBox T) (Call T) (Result T)) : Option Token :=
  match e.result with
  | .issued t => t
  | _ => none

def repaidBy (e : Event (LoanBox T) (Call T) (Result T)) : Option Token :=
  match e.call, e.result with
  | .repay t, .repaid true => some t
  | _, _ => none

/-- The tokens of all loans so far, the first one first. -/
def issued (es : History T) : List Token := es.filterMap issuedBy

def repaid (es : History T) : List Token := es.filterMap repaidBy

def outstanding (es : History T) : List Token := (issued es).filter (· ∉ repaid es)

/-- The ids in the order in which they are issued: `1`, `2` and so on, modulo `2^64`. -/
def idAt (k : ℕ) : UInt64 := UInt64.ofNat (k + 1)

theorem record_injective : Function.Injective Token.record := by
  rintro ⟨id, isMut⟩ ⟨id', isMut'⟩ h
  simp only [Token.record, Record.mk.injEq] at h
  rw [h.1, h.2.1]

theorem idAt_succ (k : ℕ) : idAt k + 1 = idAt (k + 1) := by
  rw [idAt, idAt, UInt64.ofNat_add (k + 1) 1]
  rfl

theorem toNat_idAt {k : ℕ} (hk : k + 1 < 2 ^ 64) : (idAt k).toNat = k + 1 := by
  rw [idAt, UInt64.toNat_ofNat']
  exact Nat.mod_eq_of_lt hk

/-- What the box has to do with the calls so far. -/
structure Ledger (es : History T) (b : LoanBox T) : Prop where
  sound : b.Sound
  ids : (issued es).map Token.id = (List.range (issued es).length).map idAt
  nextId : b.nextId = idAt (issued es).length
  recorded : ∀ r ∈ b.loans, ∃ t ∈ issued es, t.record = r
  paid : repaid es ⊆ issued es
  loans : (issued es).length < 2 ^ 64 → b.loans = (outstanding es).map Token.record

theorem issued_concat (es : History T) (e : Event (LoanBox T) (Call T) (Result T)) :
    issued (es ++ [e]) = issued es ++ (issuedBy e).toList :=
  filterMap_append_singleton issuedBy es e

theorem repaid_concat (es : History T) (e : Event (LoanBox T) (Call T) (Result T)) :
    repaid (es ++ [e]) = repaid es ++ (repaidBy e).toList :=
  filterMap_append_singleton repaidBy es e

section Ids
variable {es : History T} {b : LoanBox T}

theorem Ledger.nodup (h : Ledger es b) (hfew : (issued es).length < 2 ^ 64) :
    ((issued es).map Token.id).Nodup := by
  rw [h.ids]
  refine List.Nodup.map_on ?_ List.nodup_range
  intro j hj k hk heq
  have hj' := List.mem_range.mp hj
  have hk' := List.mem_range.mp hk
  have hnat := congrArg UInt64.toNat heq
  rw [toNat_idAt (by omega), toNat_idAt (by omega)] at hnat
  omega

theorem Ledger.id_ne_zero (h : Ledger es b) (hfew : (issued es).length < 2 ^ 64) {t : Token}
    (ht : t ∈ issued es) : t.id ≠ 0 := by
  have hmem : t.id ∈ (issued es).map Token.id := List.mem_map_of_mem ht
  rw [h.ids] at hmem
  obtain ⟨k, hk, heq⟩ := List.mem_map.mp hmem
  have hk' := List.mem_range.mp hk
  intro h0
  have hnat := congrArg UInt64.toNat (heq.trans h0)
  rw [toNat_idAt (by omega)] at hnat
  exact Nat.succ_ne_zero k hnat

/-- The next token has an id of its own. -/
theorem Ledger.fresh (h : Ledger es b) (hfew : (issued es).length + 1 < 2 ^ 64) {t : Token}
    (ht : t ∈ issued es) : t.id ≠ b.nextId := by
  have hmem : t.id ∈ (issued es).map Token.id := List.mem_map_of_mem ht
  rw [h.ids] at hmem
  obtain ⟨k, hk, heq⟩ := List.mem_map.mp hmem
  have hk' := List.mem_range.mp hk
  rw [h.nextId]
  intro hsame
  have hnat := congrArg UInt64.toNat (heq.trans hsame)
  rw [toNat_idAt (by omega), toNat_idAt (by omega)] at hnat
  omega

theorem Ledger.nodup_loans (h : Ledger es b) (hfew : (issued es).length < 2 ^ 64) :
    b.loans.Nodup := by
  rw [h.loans hfew]
  exact ((h.nodup hfew).of_map.filter _).map record_injective

theorem outstanding_issue {t : Token} {e : Event (LoanBox T) (Call T) (Result T)}
    (hissued : issuedBy e = some t) (hrepaid : repaidBy e = none) (ht : t ∉ repaid es) :
    outstanding (es ++ [e]) = outstanding es ++ [t] := by
  simp [outstanding, issued_concat, repaid_concat, hissued, hrepaid, ht]

theorem outstanding_repay {t : Token} {e : Event (LoanBox T) (Call T) (Result T)}
    (hissued : issuedBy e = none) (hrepaid : repaidBy e = some t) :
    outstanding (es ++ [e]) = (outstanding es).filter (· ≠ t) := by
  simp only [outstanding, issued_concat, repaid_concat, hissued, hrepaid, Option.toList_none,
    Option.toList_some, List.append_nil, List.filter_filter]
  apply List.filter_congr
  intro s _
  by_cases hs : s = t <;> simp [hs]

theorem outstanding_quiet {e : Event (LoanBox T) (Call T) (Result T)} (hissued : issuedBy e = none)
    (hrepaid : repaidBy e = none) : outstanding (es ++ [e]) = outstanding es := by
  simp [outstanding, issued_concat, repaid_concat, hissued, hrepaid]

end Ids

section Steps
variable {es : History T} {b b' : LoanBox T} {c : Call T} {o : Result T}

/-- A call that issues a token enters it with the next id. -/
theorem Ledger.issue (h : Ledger es b) {isMut : Bool} (hb' : b'.Sound)
    (hissued : issuedBy ⟨b, c, o⟩ = some ⟨b.nextId, isMut⟩) (hrepaid : repaidBy ⟨b, c, o⟩ = none)
    (hnext : b'.nextId = b.nextId + 1)
    (hloans : b'.loans = b.loans ++ [Token.record ⟨b.nextId, isMut⟩]) :
    Ledger (es ++ [⟨b, c, o⟩]) b' := by
  have hiss := issued_concat es ⟨b, c, o⟩
  have hrep := repaid_concat es ⟨b, c, o⟩
  rw [hissued, Option.toList_some] at hiss
  rw [hrepaid, Option.toList_none, List.append_nil] at hrep
  have hlen : (issued (es ++ [⟨b, c, o⟩])).length = (issued es).length + 1 := by simp [hiss]
  refine ⟨hb', ?_, ?_, ?_, ?_, ?_⟩
  · rw [hlen, List.range_succ, List.map_append, ← h.ids, hiss, List.map_append, List.map_singleton,
      List.map_singleton, h.nextId]
  · rw [hlen, hnext, h.nextId, idAt_succ]
  · rw [hloans, hiss]
    intro r hr
    rcases List.mem_append.mp hr with hr | hr
    · obtain ⟨t, ht, htr⟩ := h.recorded r hr
      exact ⟨t, List.mem_append_left _ ht, htr⟩
    · exact ⟨_, List.mem_append_right _ List.mem_cons_self, (List.mem_singleton.mp hr).symm⟩
  · rw [hrep, hiss]
    exact List.subset_append_of_subset_left _ h.paid
  · rw [hlen]
    intro hfew
    have hnew : (⟨b.nextId, isMut⟩ : Token) ∉ repaid es := fun hmem => h.fresh hfew (h.paid hmem) rfl
    rw [hloans, h.loans (by omega), outstanding_issue hissued hrepaid hnew, List.map_append,
      List.map_singleton]

theorem Ledger.repay (h : Ledger es b) {t : Token} {l rest : List Record} (hb' : b'.Sound)
    (hissued : issuedBy ⟨b, c, o⟩ = none) (hrepaid : repaidBy ⟨b, c, o⟩ = some t)
    (hbefore : b.loans = l ++ t.record :: rest) (hnext : b'.nextId = b.nextId)
    (hloans : b'.loans = l ++ rest) : Ledger (es ++ [⟨b, c, o⟩]) b' := by
  have hiss := issued_concat es ⟨b, c, o⟩
  have hrep := repaid_concat es ⟨b, c, o⟩
  rw [hissued, Option.toList_none, List.append_nil] at hiss
  rw [hrepaid, Option.toList_some] at hrep
  have ht : t ∈ issued es := by
    obtain ⟨t', ht', heq⟩ := h.recorded t.record (by simp [hbefore])
    exact record_injective heq ▸ ht'
  refine ⟨hb', by rw [hiss, h.ids], by rw [hiss, hnext, h.nextId], ?_, ?_, ?_⟩
  · rw [hloans, hiss]
    intro r hr
    refine h.recorded r ?_
    rw [hbefore]
    exact ((List.sublist_cons_self _ rest).append_left l).subset hr
  · rw [hrep, hiss]
    exact List.append_subset.mpr ⟨h.paid, by simpa using ht⟩
  · rw [hiss]
    intro hfew
    have hnodup := h.nodup_loans hfew
    have herase : l ++ rest = b.loans.erase t.record := by
      rw [hbefore, List.nodup_middle, List.nodup_cons] at hnodup
      rw [hbefore, List.erase_append_right _ fun hl => hnodup.1 (List.mem_append_left _ hl),
        List.erase_cons_head]
    have hout : (outstanding es).Nodup := (h.nodup hfew).of_map.filter _
    rw [hloans, herase, outstanding_repay hissued hrepaid, h.loans hfew,
      ← List.map_erase record_injective, hout.erase_eq_filter]
    congr 1
    apply List.filter_congr
    intro s _
    by_cases hs : s = t <;> simp [hs]

theorem Ledger.quiet (h : Ledger es b) (hb' : b'.Sound) (hissued : issuedBy ⟨b, c, o⟩ = none)
    (hrepaid : repaidBy ⟨b, c, o⟩ = none) (hnext : b'.nextId = b.nextId)
    (hloans : b'.loans = b.loans) : Ledger (es ++ [⟨b, c, o⟩]) b' := by
  have hiss := issued_concat es ⟨b, c, o⟩
  have hrep := repaid_concat es ⟨b, c, o⟩
  rw [hissued, Option.toList_none, List.append_nil] at hiss
  rw [hrepaid, Option.toList_none, List.append_nil] at hrep
  refine ⟨hb', by rw [hiss, h.ids], by rw [hiss, hnext, h.nextId], ?_, ?_, ?_⟩
  · rw [hloans, hiss]
    exact h.recorded
  · rw [hrep, hiss]
    exact h.paid
  · rw [hiss, hloans, outstanding_quiet hissued hrepaid]
    exact h.loans

theorem Ledger.step (h : Ledger es b) (hstep : b.step c = some (o, b')) :
    Ledger (es ++ [⟨b, c, o⟩]) b' := by
  have hspec := h.sound.step_spec hstep
  have hb' := hspec.sound h.sound
  cases hspec with
  | borrow hw => exact h.issue hb' rfl rfl rfl rfl
  | borrowMut hw hnil => exact h.issue hb' rfl rfl rfl (by rw [hnil]; rfl)
  | repay hid hloans => exact h.repay hb' rfl rfl hloans rfl rfl
  | refuse => exact h.quiet hb' rfl (by cases c <;> rfl) rfl rfl
  | reject => exact h.quiet hb' rfl rfl rfl rfl
  | access v => exact h.quiet hb' rfl (by cases c <;> rfl) rfl rfl

end Steps

theorem exec_ledger {v : T} {calls : List (Call T)} {es : History T} {b : LoanBox T}
    (hrun : exec LoanBox.step (LoanBox.create v) calls = some (es, b)) : Ledger es b := by
  refine exec_invariant Ledger (fun es b c o b' h hstep => h.step hstep) ?_ hrun
  refine ⟨LoanBox.create_sound v, rfl, rfl, ?_, ?_, fun _ => rfl⟩
  · simp [LoanBox.create]
  · exact List.Subset.refl _

/-! ## What the calls answer -/

namespace LoanBox
variable {b : LoanBox T}

theorem Sound.borrow_iff (hs : b.Sound) :
    (∃ t, b.borrow.1 = some t) ↔ ∀ r ∈ b.loans, r.isMut = false := by
  cases hw : b.writer with
  | true =>
    rw [borrow_of_writer hw]
    obtain ⟨r, hr⟩ := List.length_eq_one_iff.mp (hs.single hw)
    have hmut : r.isMut = true := (hs.kind r (by simp [hr])).trans hw
    simp [hr, hmut]
  | false =>
    rw [borrow_of_not_writer hw]
    exact iff_of_true ⟨_, rfl⟩ fun r hr => (hs.kind r hr).trans hw

theorem Sound.borrowMut_iff (hs : b.Sound) : (∃ t, b.borrowMut.1 = some t) ↔ b.loans = [] := by
  by_cases hl : b.loans = []
  · have hw : b.writer = false := by
      cases hw : b.writer with
      | true => simpa [hl] using hs.single hw
      | false => rfl
    rw [borrowMut_of_nil hw hl]
    exact iff_of_true ⟨_, rfl⟩ hl
  · rw [borrowMut_of_loans (.inr hl)]
    simp [hl]

theorem Sound.writer_iff (hs : b.Sound) :
    b.writer = true ↔ ∃ r, b.loans = [r] ∧ r.isMut = true := by
  constructor
  · intro hw
    obtain ⟨r, hr⟩ := List.length_eq_one_iff.mp (hs.single hw)
    exact ⟨r, hr, (hs.kind r (by simp [hr])).trans hw⟩
  · rintro ⟨r, hr, hmut⟩
    exact (hs.kind r (by simp [hr])).symm.trans hmut

/-- What `repay` does with any token. -/
structure RepaysExactly (b : LoanBox T) (t : Token) : Prop where
  accepts : (b.repay t).1 = true ↔ t.record ∈ b.loans
  ends : t.record ∈ b.loans →
    (b.repay t).2 = { b with loans := b.loans.erase t.record, writer := false }
  refuses : t.record ∉ b.loans → (b.repay t).2 = b

theorem Sound.repaysExactly (hs : b.Sound) (hnodup : b.loans.Nodup) (hzero : ∀ r ∈ b.loans, r.id ≠ 0)
    (t : Token) : b.RepaysExactly t := by
  have hspec := hs.repay t
  generalize hq : b.repay t = q at hspec
  cases hspec with
  | reject h =>
    have hnot : t.record ∉ b.loans := fun hmem =>
      h.elim (hzero _ hmem) fun hnot => hnot hmem
    constructor <;> simp [hq, hnot]
  | @accept l rest hid hloans =>
    have hmem : t.record ∈ b.loans := by simp [hloans]
    have herase : b.loans.erase t.record = l ++ rest := by
      rw [hloans, List.nodup_middle, List.nodup_cons] at hnodup
      rw [hloans, List.erase_append_right _ fun hl => hnodup.1 (List.mem_append_left _ hl),
        List.erase_cons_head]
    constructor <;> simp [hq, hmem, herase]

end LoanBox

/-- With fewer than `2^64` loans the records are the loans issued and not repaid, all live,
with ids that were never issued before; a mutable loan is alone; the calls that borrow succeed
when the loans allow it; and a token that matches a live loan, and no other one, ends it. -/
theorem loanBox_ledger {v : T} {calls : List (Call T)} {es : History T} {b : LoanBox T}
    (hrun : exec LoanBox.step (LoanBox.create v) calls = some (es, b))
    (hfew : (issued es).length < 2 ^ 64) :
    b.loans = (outstanding es).map Token.record ∧ ((issued es).map Token.id).Nodup ∧
      (∀ t ∈ issued es, t.id ≠ 0) ∧
      (b.writer = true ↔ ∃ r, b.loans = [r] ∧ r.isMut = true) ∧
      (∀ r ∈ b.loans, ∀ r' ∈ b.loans, r.isMut = r'.isMut) ∧
      ((∃ t, b.borrow.1 = some t) ↔ ∀ r ∈ b.loans, r.isMut = false) ∧
      ((∃ t, b.borrowMut.1 = some t) ↔ b.loans = []) ∧
      ∀ t, b.RepaysExactly t := by
  have h := exec_ledger hrun
  have hzero : ∀ r ∈ b.loans, r.id ≠ 0 := by
    intro r hr
    obtain ⟨t, ht, rfl⟩ := h.recorded r hr
    exact h.id_ne_zero hfew ht
  refine ⟨h.loans hfew, h.nodup hfew, fun t ht => h.id_ne_zero hfew ht, h.sound.writer_iff, ?_,
    h.sound.borrow_iff, h.sound.borrowMut_iff,
    fun t => h.sound.repaysExactly (h.nodup_loans hfew) hzero t⟩
  intro r hr r' hr'
  rw [h.sound.kind r hr, h.sound.kind r' hr']

/-- A loan is repaid through a copy of its token, and a second time in vain. -/
theorem loanBox_ledger_copies :
    ∃ es b, exec LoanBox.step (LoanBox.create 'v')
        [.borrow, .borrow, .borrowMut, .repay ⟨1, true⟩, .repay ⟨1, false⟩, .repay ⟨1, false⟩] =
          some (es, b) ∧
      b.loans = (outstanding es).map Token.record ∧ outstanding es = [⟨2, false⟩] ∧
      (b.repay ⟨2, false⟩).1 = true ∧ (b.repay ⟨1, false⟩).1 = false := by
  have hrun : exec LoanBox.step (LoanBox.create 'v')
      [.borrow, .borrow, .borrowMut, .repay ⟨1, true⟩, .repay ⟨1, false⟩, .repay ⟨1, false⟩] =
        some (_, _) := rfl
  have hledger := loanBox_ledger hrun (by decide)
  exact ⟨_, _, hrun, hledger.1, by decide, by decide, by decide⟩

/-! ## Access -/

/-- Both accessors succeed for the tokens of live loans, the second one for those of mutable
loans, and never while a shared loan is live. -/
structure AccessesLoans (b : LoanBox T) (t : Token) : Prop where
  access : b.access t = .ok b.value ↔
    ∃ r ∈ b.loans, r.live = true ∧ r.id = t.id ∧ r.isMut = t.isMut
  accessMut : b.accessMut t = .ok b.value ↔
    t.isMut = true ∧ ∃ r ∈ b.loans, r.live = true ∧ r.id = t.id ∧ r.isMut = true
  exclusive : b.accessMut t = .ok b.value → ∀ r ∈ b.loans, r.live = true → r.isMut = true

namespace LoanBox
variable {b : LoanBox T}

theorem Sound.access_iff (hs : b.Sound) (t : Token) :
    b.access t = .ok b.value ↔ t.id ≠ 0 ∧ ∃ r ∈ b.loans, r.id = t.id ∧ r.isMut = t.isMut := by
  rcases find_cases t b.loans with ⟨hnone, hne⟩ | ⟨l, r, rest, hloans, hid, -, hfind⟩
  · have hnot : ¬∃ r ∈ b.loans, r.id = t.id ∧ r.isMut = t.isMut := fun ⟨r, hr, hid, _⟩ =>
      hne r hr hid
    simp [access, hnone, hnot]
  · have hr : r ∈ b.loans := by simp [hloans]
    have hkinds : (∃ r ∈ b.loans, r.id = t.id ∧ r.isMut = t.isMut) ↔ r.isMut = t.isMut := by
      constructor
      · rintro ⟨r', hr', -, hkind⟩
        exact ((hs.kind r hr).trans (hs.kind r' hr').symm).trans hkind
      · exact fun hkind => ⟨r, hr, hid, hkind⟩
    rw [hkinds, access, hfind]
    simp only [hs.live r hr, Bool.not_true, Bool.false_or]
    by_cases hkind : r.isMut = t.isMut <;> by_cases h0 : t.id = 0 <;> simp [hkind, h0]

theorem Sound.accessMut_iff (hs : b.Sound) (t : Token) :
    b.accessMut t = .ok b.value ↔ t.isMut = true ∧ ∃ r ∈ b.loans, r.id = t.id := by
  cases ht : t.isMut with
  | false => simp [accessMut, ht]
  | true =>
    rcases find_cases t b.loans with ⟨hnone, hne⟩ | ⟨l, r, rest, hloans, hid, -, hfind⟩
    · have hnot : ¬∃ r ∈ b.loans, r.id = t.id := fun ⟨r, hr, hid⟩ => hne r hr hid
      simp [accessMut, ht, hnone, hnot]
    · have hr : r ∈ b.loans := by simp [hloans]
      have hmem : ∃ r ∈ b.loans, r.id = t.id := ⟨r, hr, hid⟩
      simp [accessMut, ht, hfind, hs.live r hr, hmem]

end LoanBox

/-- In every reachable box the accessors keep to the live loans for exactly the tokens that do
not claim to be mutable for a shared loan, and whose id is not `0` while a loan of that kind
has the id `0`. -/
theorem loanBox_access_iff {v : T} {calls : List (Call T)} {es : History T} {b : LoanBox T}
    (hrun : exec LoanBox.step (LoanBox.create v) calls = some (es, b)) (t : Token) :
    AccessesLoans b t ↔
      ¬(t.isMut = true ∧ ∃ r ∈ b.loans, r.id = t.id ∧ r.isMut = false) ∧
      ¬(t.id = 0 ∧ ∃ r ∈ b.loans, r.id = 0 ∧ r.isMut = t.isMut) := by
  have hs := (exec_ledger hrun).sound
  constructor
  · intro h
    constructor
    · rintro ⟨ht, r, hr, hid, hkind⟩
      have hgranted := (hs.accessMut_iff t).mpr ⟨ht, r, hr, hid⟩
      have hmut := h.exclusive hgranted r hr (hs.live r hr)
      rw [hkind] at hmut
      cases hmut
    · rintro ⟨h0, r, hr, hid, hkind⟩
      have hgranted := h.access.mpr ⟨r, hr, hs.live r hr, hid.trans h0.symm, hkind⟩
      exact ((hs.access_iff t).mp hgranted).1 h0
  · rintro ⟨hforged, hzero⟩
    -- a record that a token claiming to be mutable finds is of a mutable loan
    have hmut : ∀ r ∈ b.loans, t.isMut = true → r.id = t.id → r.isMut = true := by
      intro r hr ht hid
      by_contra hkind
      exact hforged ⟨ht, r, hr, hid, by simpa using hkind⟩
    refine ⟨?_, ?_, ?_⟩
    · rw [hs.access_iff]
      constructor
      · rintro ⟨-, r, hr, hid, hkind⟩
        exact ⟨r, hr, hs.live r hr, hid, hkind⟩
      · rintro ⟨r, hr, -, hid, hkind⟩
        exact ⟨fun h0 => hzero ⟨h0, r, hr, hid.trans h0, hkind⟩, r, hr, hid, hkind⟩
    · rw [hs.accessMut_iff]
      refine and_congr_right fun ht => ?_
      constructor
      · rintro ⟨r, hr, hid⟩
        exact ⟨r, hr, hs.live r hr, hid, hmut r hr ht hid⟩
      · rintro ⟨r, hr, -, hid, -⟩
        exact ⟨r, hr, hid⟩
    · intro hgranted r hr _
      obtain ⟨ht, r', hr', hid⟩ := (hs.accessMut_iff t).mp hgranted
      rw [hs.kind r hr, ← hs.kind r' hr']
      exact hmut r' hr' ht hid

/-- The token of a mutable loan. -/
theorem loanBox_access_iff_mutable :
    ∃ es b, exec LoanBox.step (LoanBox.create 'v') [.borrowMut] = some (es, b) ∧
      AccessesLoans b ⟨1, true⟩ := by
  have hrun : exec LoanBox.step (LoanBox.create 'v') [.borrowMut] = some (_, _) := rfl
  refine ⟨_, _, hrun, (loanBox_access_iff hrun ⟨1, true⟩).mpr ⟨?_, ?_⟩⟩
  · rintro ⟨-, r, hr, -, hkind⟩
    obtain rfl : r = ⟨1, true, true⟩ := List.mem_singleton.mp hr
    cases hkind
  · rintro ⟨h0, -⟩
    exact absurd h0 (by decide)

/-- A shared loan is accessed as a mutable one through a token with its id. -/
theorem loanBox_forged_token :
    ∃ es b, exec LoanBox.step (LoanBox.create 'v') [.borrow] = some (es, b) ∧
      b.accessMut ⟨1, true⟩ = .ok 'v' ∧
      ¬(∃ r ∈ b.loans, r.live = true ∧ r.id = 1 ∧ r.isMut = true) ∧
      ∃ r ∈ b.loans, r.live = true ∧ r.isMut = false :=
  ⟨_, _, rfl, by decide, by decide, by decide⟩

end HftExercises.Loans
