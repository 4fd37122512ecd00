import Mathlib.Algebra.BigOperators.Group.Multiset.Basic
import Mathlib.Tactic.Abel
import HftExercises.Core.ListFacts
import HftExercises.Domain.RiskGate

/-! # The risk gate over call sequences

The gate is compared with a ledger of live orders, those reserved and not yet
released. The notional half is the exact sum over the ledger; the position half
is the exact sum modulo the width of the half, and never leaks into the other.
-/
namespace HftExercises.Risk

/-- A committed call. -/
inductive Commit where
  | reserve (order : Order)
  | release (order : Order)
  deriving DecidableEq, Repr

def Commit.reserved? : Commit → Option Order
  | .reserve o => some o
  | .release _ => none

def Commit.released? : Commit → Option Order
  | .reserve _ => none
  | .release o => some o

def reservedOrders (cs : List Commit) : Multiset Order := cs.filterMap Commit.reserved?

def releasedOrders (cs : List Commit) : Multiset Order := cs.filterMap Commit.released?

/-- The orders reserved and not released. -/
def live (cs : List Commit) : Multiset Order := reservedOrders cs - releasedOrders cs

def exactPosition (m : Multiset Order) : ℤ := (m.map Order.delta).sum

def exactNotional (m : Multiset Order) : ℤ := (m.map Order.notional).sum

/-- An order the contract admits whose product fits a 64-bit integer. -/
structure Order.Bounded (o : Order) : Prop extends o.Valid where
  product : o.notional < 2 ^ 63

instance (o : Order) : Decidable o.Bounded :=
  decidable_of_iff (o.Valid ∧ o.notional < 2 ^ 63)
    ⟨fun h => ⟨h.1, h.2⟩, fun h => ⟨h.toValid, h.product⟩⟩

@[simp] theorem exactPosition_cons (o : Order) (m : Multiset Order) :
    exactPosition (o ::ₘ m) = o.delta + exactPosition m := by
  simp [exactPosition]

@[simp] theorem exactNotional_cons (o : Order) (m : Multiset Order) :
    exactNotional (o ::ₘ m) = o.notional + exactNotional m := by
  simp [exactNotional]

theorem exactNotional_nonneg {m : Multiset Order} (h : ∀ o ∈ m, o.Bounded) :
    0 ≤ exactNotional m := by
  induction m using Multiset.induction_on with
  | empty => simp [exactNotional]
  | cons o m ih =>
    have ho := (h o (Multiset.mem_cons_self o m)).notional_nonneg
    have hm := ih (fun x hx => h x (Multiset.mem_cons_of_mem hx))
    rw [exactNotional_cons]
    omega

/-- The gate holds the sums of its live orders. -/
structure Ledger (g : RiskGate) (m : Multiset Order) : Prop where
  bounded : ∀ o ∈ m, o.Bounded
  position : g.position.toInt = (exactPosition m).bmod (2 ^ 32)
  notional : g.notionalUsed.toInt = exactNotional m
  limit : exactNotional m ≤ g.maxNotional.toInt

section Ledger
variable {g : RiskGate} {m : Multiset Order} {o : Order} {word : UInt64}

theorem Ledger.create {maxPosition maxNotional : Int64} (h : 0 ≤ maxNotional.toInt) :
    Ledger (.create maxPosition maxNotional) 0 where
  bounded := by simp
  position := by
    show (unpackPosition 0).toInt = _
    decide
  notional := by
    show (unpackNotional 0).toInt = _
    decide
  limit := h

theorem Ledger.reserve (h : Ledger g m) (hg : g.Limits) (ho : o.Bounded)
    (hc : g.reserveCandidate o g.state = some word) :
    Ledger { g with state := word } (o ::ₘ m) ∧
      WithinPosition g.maxPosition (unpackPosition word).toInt ∧
      (unpackPosition word).toInt = g.position.toInt + o.delta := by
  rcases reserveCandidate_cases hg ho.toValid g.state with
    ⟨hnone, _⟩ | ⟨w, hsome, ⟨hwithin, hle⟩, hpos, hnot⟩
  · rw [hnone] at hc
    cases hc
  · rw [hsome] at hc
    cases hc
    have hn := unpackNotional_bounds g.state
    have hN := hg.notional_lt
    have h0 := ho.notional_nonneg
    have hprod := ho.product
    have hsum : exactNotional (o ::ₘ m) = (unpackNotional g.state).toInt + o.notional := by
      rw [exactNotional_cons, ← h.notional, Int.add_comm, RiskGate.notionalUsed]
    rw [Int.emod_eq_of_lt (by omega) (by omega), ← hsum] at hle hnot
    refine ⟨⟨?_, ?_, hnot, hle⟩, hpos ▸ hwithin, hpos⟩
    · intro x hx
      rcases Multiset.mem_cons.mp hx with rfl | hx
      · exact ho
      · exact h.bounded x hx
    · have hb := unpackPosition_bounds word
      have hp := h.position
      unfold RiskGate.position at hp ⊢
      rw [exactPosition_cons, Int.add_comm, ← Int.bmod_add_bmod, ← hp, ← hpos,
        Int.bmod_eq_of_le (by omega) (by omega)]

theorem Ledger.notional_le (h : Ledger g m) (ho : o ∈ m) :
    o.notional ≤ g.notionalUsed.toInt := by
  obtain ⟨m, rfl⟩ := Multiset.exists_cons_of_mem ho
  have hrest := exactNotional_nonneg (fun x hx => h.bounded x (Multiset.mem_cons_of_mem hx))
  rw [h.notional, exactNotional_cons]
  omega

/-- Releasing a live order needs no clamp. -/
theorem Ledger.release (h : Ledger g (o ::ₘ m)) : Ledger (g.release o) m := by
  have ho := h.bounded o (Multiset.mem_cons_self o m)
  obtain ⟨_, hpos, hnot⟩ := releaseCandidate_spec ho.toValid ho.product
    (h.notional_le (Multiset.mem_cons_self o m))
  have hp := h.position
  have hn := h.notional
  have h0 := ho.notional_nonneg
  have hlimit := h.limit
  rw [exactPosition_cons] at hp
  rw [exactNotional_cons] at hn hlimit
  refine ⟨fun x hx => h.bounded x (Multiset.mem_cons_of_mem hx), ?_, ?_, ?_⟩
  · unfold RiskGate.position RiskGate.release at *
    rw [hpos, hp, Int.bmod_sub_bmod]
    congr 1
    omega
  · unfold RiskGate.notionalUsed RiskGate.release at *
    rw [hnot, hn]
    omega
  · show exactNotional m ≤ g.maxNotional.toInt
    omega

/-- Live orders of one side all move the position the same way. -/
theorem exactPosition_oneSided {side : Side} (h : ∀ o ∈ m, o.Bounded ∧ o.side = side) :
    if side = .buy then 0 ≤ exactPosition m else exactPosition m ≤ 0 := by
  induction m using Multiset.induction_on with
  | empty => simp [exactPosition]
  | cons o m ih =>
    obtain ⟨ho, rfl⟩ := h o (Multiset.mem_cons_self o m)
    have hm := ih (fun x hx => h x (Multiset.mem_cons_of_mem hx))
    have hq := ho.qty
    rw [exactPosition_cons, Order.delta]
    split_ifs at hm ⊢ <;> omega

theorem withinPosition_of_cons {side : Side} {maxPosition : Int64}
    (h : ∀ x ∈ o ::ₘ m, x.Bounded ∧ x.side = side)
    (hw : WithinPosition maxPosition (exactPosition (o ::ₘ m))) :
    WithinPosition maxPosition (exactPosition m) := by
  obtain ⟨ho, hs⟩ := h o (Multiset.mem_cons_self o m)
  have hm := exactPosition_oneSided (fun x hx => h x (Multiset.mem_cons_of_mem hx))
  have hq := ho.qty
  rw [exactPosition_cons, Order.delta, hs] at hw
  unfold WithinPosition at *
  split_ifs at hm hw <;> omega

end Ledger

/-- The ledger a list of commits leaves. -/
structure Balance (cs : List Commit) (g : RiskGate) (m : Multiset Order) : Prop where
  split : reservedOrders cs = m + releasedOrders cs
  ledger : Ledger g m

section Balance
variable {cs : List Commit} {g : RiskGate} {m : Multiset Order} {o : Order} {word : UInt64}

@[simp] theorem reservedOrders_append (cs cs' : List Commit) :
    reservedOrders (cs ++ cs') = reservedOrders cs + reservedOrders cs' := by
  simp [reservedOrders]

@[simp] theorem releasedOrders_append (cs cs' : List Commit) :
    releasedOrders (cs ++ cs') = releasedOrders cs + releasedOrders cs' := by
  simp [releasedOrders]

@[simp] theorem reservedOrders_reserve (o : Order) : reservedOrders [.reserve o] = {o} := rfl

@[simp] theorem reservedOrders_release (o : Order) : reservedOrders [.release o] = 0 := rfl

@[simp] theorem releasedOrders_reserve (o : Order) : releasedOrders [.reserve o] = 0 := rfl

@[simp] theorem releasedOrders_release (o : Order) : releasedOrders [.release o] = {o} := rfl

theorem Balance.live_eq (h : Balance cs g m) : live cs = m := by
  rw [live, h.split, Multiset.add_sub_cancel_right]

theorem Balance.reserve (h : Balance cs g m) (hg : g.Limits) (ho : o.Bounded)
    (hc : g.reserveCandidate o g.state = some word) :
    Balance (cs ++ [.reserve o]) { g with state := word } (o ::ₘ m) where
  split := by
    simp only [reservedOrders_append, releasedOrders_append, reservedOrders_reserve,
      releasedOrders_reserve, h.split, ← Multiset.singleton_add, add_zero]
    abel
  ledger := (h.ledger.reserve hg ho hc).1

theorem Balance.release (h : Balance cs g (o ::ₘ m)) :
    Balance (cs ++ [.release o]) (g.release o) m where
  split := by
    simp only [reservedOrders_append, releasedOrders_append, reservedOrders_release,
      releasedOrders_release, h.split, ← Multiset.singleton_add, add_zero]
    abel
  ledger := h.ledger.release

end Balance

inductive Call where
  | checkAndReserve (order : Order)
  | release (order : Order)
  deriving DecidableEq, Repr

inductive Result where
  | checked (accepted : Bool)
  | released
  deriving DecidableEq, Repr

def RiskGate.step (g : RiskGate) : Call → Option (Result × RiskGate)
  | .checkAndReserve order =>
    some (.checked (g.checkAndReserve order).1, (g.checkAndReserve order).2)
  | .release order => some (.released, g.release order)

abbrev CallEvent := Event RiskGate Call Result

def CallEvent.commit? (e : CallEvent) : Option Commit :=
  match e.call, e.result with
  | .checkAndReserve order, .checked true => some (.reserve order)
  | .checkAndReserve _, _ => none
  | .release order, _ => some (.release order)

def commits (es : List CallEvent) : List Commit := es.filterMap CallEvent.commit?

def Call.order : Call → Order
  | .checkAndReserve order => order
  | .release order => order

def Call.released? : Call → Option Order
  | .checkAndReserve _ => none
  | .release order => some order

/-- Orders are bounded, and every release is of a live order. -/
structure Lawful (es : List CallEvent) : Prop where
  bounded : ∀ e ∈ es, e.call.order.Bounded
  releases : Admissible (fun h e => ∀ o ∈ e.call.released?, o ∈ live (commits h)) es

instance (es : List CallEvent) : Decidable (Lawful es) :=
  decidable_of_iff ((∀ e ∈ es, e.call.order.Bounded) ∧
      Admissible (fun h e => ∀ o ∈ e.call.released?, o ∈ live (commits h)) es)
    ⟨fun h => ⟨h.1, h.2⟩, fun h => ⟨h.bounded, h.releases⟩⟩

theorem lawful_append_singleton {es : List CallEvent} {e : CallEvent} :
    Lawful (es ++ [e]) ↔ Lawful es ∧ e.call.order.Bounded ∧
      ∀ o ∈ e.call.released?, o ∈ live (commits es) := by
  constructor
  · rintro ⟨hb, hr⟩
    obtain ⟨hr, he⟩ := admissible_append_singleton.mp hr
    exact ⟨⟨fun x hx => hb x (List.mem_append_left _ hx), hr⟩,
      hb e (List.mem_append_right es List.mem_cons_self), he⟩
  · rintro ⟨⟨hb, hr⟩, he, her⟩
    refine ⟨?_, admissible_append_singleton.mpr ⟨hr, her⟩⟩
    intro x hx
    rcases List.mem_append.mp hx with hx | hx
    · exact hb x hx
    · rw [List.mem_singleton.mp hx]
      exact he

theorem commits_append_singleton (es : List CallEvent) (e : CallEvent) :
    commits (es ++ [e]) = commits es ++ e.commit?.toList :=
  filterMap_append_singleton _ es e

/-- What every run keeps. Only a release moves the position without a check. -/
structure RunInv (es : List CallEvent) (g : RiskGate) (m : Multiset Order) : Prop where
  balance : Balance (commits es) g m
  afterReserve : (∀ o, (commits es).getLast? ≠ some (.release o)) →
    WithinPosition g.maxPosition g.position.toInt
  oneSided : ∀ side, (∀ o ∈ reservedOrders (commits es), o.side = side) →
    WithinPosition g.maxPosition (exactPosition m)

section RunInv
variable {es : List CallEvent} {g : RiskGate} {m : Multiset Order} {o : Order}

theorem RunInv.create {maxPosition maxNotional : Int64} (hp : 0 ≤ maxPosition.toInt)
    (hn : 0 ≤ maxNotional.toInt) : RunInv [] (.create maxPosition maxNotional) 0 := by
  have hzero : WithinPosition maxPosition 0 := ⟨by omega, hp⟩
  exact ⟨⟨rfl, Ledger.create hn⟩, fun _ => hzero, fun _ _ => hzero⟩

theorem RunInv.position_eq (h : RunInv es g m) (hg : g.Limits)
    (hw : WithinPosition g.maxPosition (exactPosition m)) : g.position.toInt = exactPosition m := by
  have hM := hg.position_lt
  obtain ⟨hlo, hhi⟩ := hw
  rw [h.balance.ledger.position, Int.bmod_eq_of_le (by omega) (by omega)]

theorem RunInv.reserve (h : RunInv es g m) (hg : g.Limits) (ho : o.Bounded) {word : UInt64}
    (hc : g.reserveCandidate o g.state = some word) :
    RunInv (es ++ [⟨g, .checkAndReserve o, .checked true⟩]) { g with state := word } (o ::ₘ m) := by
  have hcommit : commits (es ++ [⟨g, .checkAndReserve o, .checked true⟩]) =
      commits es ++ [.reserve o] := commits_append_singleton _ _
  obtain ⟨_, hwithin, hpos⟩ := h.balance.ledger.reserve hg ho hc
  refine ⟨?_, fun _ => hwithin, ?_⟩
  · rw [hcommit]
    exact h.balance.reserve hg ho hc
  · intro side hs
    rw [hcommit, reservedOrders_append] at hs
    have hold := h.oneSided side (fun x hx => hs x (Multiset.mem_add.mpr (Or.inl hx)))
    rw [h.position_eq hg hold, Int.add_comm, ← exactPosition_cons] at hpos
    rwa [hpos] at hwithin

theorem RunInv.release (h : RunInv es g (o ::ₘ m)) :
    RunInv (es ++ [⟨g, .release o, .released⟩]) (g.release o) m := by
  have hcommit : commits (es ++ [⟨g, .release o, .released⟩]) =
      commits es ++ [.release o] := commits_append_singleton _ _
  refine ⟨?_, ?_, ?_⟩
  · rw [hcommit]
    exact h.balance.release
  · intro hlast
    exact absurd (by simp [hcommit]) (hlast o)
  · intro side hs
    rw [hcommit, reservedOrders_append, reservedOrders_release, add_zero] at hs
    have hlive : ∀ x ∈ o ::ₘ m, x.Bounded ∧ x.side = side := by
      intro x hx
      refine ⟨h.balance.ledger.bounded x hx, hs x ?_⟩
      rw [h.balance.split]
      exact Multiset.mem_add.mpr (Or.inl hx)
    exact withinPosition_of_cons hlive (h.oneSided side hs)

theorem RunInv.reject (h : RunInv es g m) :
    RunInv (es ++ [⟨g, .checkAndReserve o, .checked false⟩]) g m := by
  have hcommit : commits (es ++ [⟨g, .checkAndReserve o, .checked false⟩]) = commits es := by
    rw [commits_append_singleton]
    exact List.append_nil _
  exact ⟨hcommit ▸ h.balance, hcommit ▸ h.afterReserve, hcommit ▸ h.oneSided⟩

end RunInv

/-- A run from a gate within its limits, along lawful calls. -/
theorem exec_runInv {maxPosition maxNotional : Int64}
    (hlim : (RiskGate.create maxPosition maxNotional).Limits) {calls : List Call}
    {es : List CallEvent} {g : RiskGate}
    (hr : exec RiskGate.step (.create maxPosition maxNotional) calls = some (es, g))
    (hl : Lawful es) :
    (g.maxPosition = maxPosition ∧ g.maxNotional = maxNotional) ∧ ∃ m, RunInv es g m := by
  refine exec_invariant (fun es g => Lawful es →
    (g.maxPosition = maxPosition ∧ g.maxNotional = maxNotional) ∧ ∃ m, RunInv es g m) ?_
    (fun _ => ⟨⟨rfl, rfl⟩, 0, .create hlim.position_nonneg hlim.notional_nonneg⟩) hr hl
  intro h g c o g' ih hstep hl'
  obtain ⟨hl, hb, hrel⟩ := lawful_append_singleton.mp hl'
  obtain ⟨hmax, m, hi⟩ := ih hl
  have hg : g.Limits := hlim.congr hmax.1 hmax.2
  cases c with
  | checkAndReserve order =>
    simp only [RiskGate.step, RiskGate.checkAndReserve] at hstep
    cases hc : g.reserveCandidate order g.state with
    | none =>
      simp only [hc, Option.some.injEq, Prod.mk.injEq] at hstep
      obtain ⟨rfl, rfl⟩ := hstep
      exact ⟨hmax, m, hi.reject⟩
    | some word =>
      simp only [hc, Option.some.injEq, Prod.mk.injEq] at hstep
      obtain ⟨rfl, rfl⟩ := hstep
      exact ⟨hmax, order ::ₘ m, hi.reserve hg hb hc⟩
  | release order =>
    simp only [RiskGate.step, Option.some.injEq, Prod.mk.injEq] at hstep
    obtain ⟨rfl, rfl⟩ := hstep
    have hlive := hrel order rfl
    rw [hi.balance.live_eq] at hlive
    obtain ⟨rest, rfl⟩ := Multiset.exists_cons_of_mem hlive
    exact ⟨hmax, rest, hi.release⟩

/-- Every reachable gate keeps the notional limit. The position limit holds
whenever the last commit was a reserve, and always when every reserved order is
on one side; a release commits without a check. -/
theorem riskGate_limits (maxPosition maxNotional : Int64)
    (hlim : (RiskGate.create maxPosition maxNotional).Limits) (calls : List Call)
    (es : List CallEvent) (g : RiskGate)
    (hr : exec RiskGate.step (.create maxPosition maxNotional) calls = some (es, g))
    (hl : Lawful es) :
    (0 ≤ g.notionalUsed.toInt ∧ g.notionalUsed.toInt ≤ maxNotional.toInt) ∧
      ((∀ o, (commits es).getLast? ≠ some (.release o)) →
        WithinPosition maxPosition g.position.toInt) ∧
      ∀ side, (∀ o ∈ reservedOrders (commits es), o.side = side) →
        WithinPosition maxPosition g.position.toInt := by
  obtain ⟨⟨rfl, rfl⟩, m, hi⟩ := exec_runInv hlim hr hl
  have hg : g.Limits := hlim.congr rfl rfl
  refine ⟨⟨(unpackNotional_bounds g.state).1, ?_⟩, hi.afterReserve, ?_⟩
  · rw [hi.balance.ledger.notional]
    exact hi.balance.ledger.limit
  · intro side hs
    have hw := hi.oneSided side hs
    rwa [hi.position_eq hg hw]

/-- Two reserves of opposite sides, and a release back inside the limit. -/
theorem riskGate_limits_sides :
    ∃ es g, exec RiskGate.step (.create 10 1000)
        [.checkAndReserve ⟨1, .buy, 5, 10⟩, .checkAndReserve ⟨2, .sell, 5, 10⟩,
          .release ⟨2, .sell, 5, 10⟩, .checkAndReserve ⟨3, .buy, 5, 1⟩] = some (es, g) ∧
      Lawful es ∧
      (0 ≤ g.notionalUsed.toInt ∧ g.notionalUsed.toInt ≤ (1000 : Int64).toInt) ∧
      ((∀ o, (commits es).getLast? ≠ some (.release o)) →
        WithinPosition 10 g.position.toInt) ∧
      ∀ side, (∀ o ∈ reservedOrders (commits es), o.side = side) →
        WithinPosition 10 g.position.toInt := by
  have hrun : ∃ es g, exec RiskGate.step (.create 10 1000)
      [.checkAndReserve ⟨1, .buy, 5, 10⟩, .checkAndReserve ⟨2, .sell, 5, 10⟩,
        .release ⟨2, .sell, 5, 10⟩, .checkAndReserve ⟨3, .buy, 5, 1⟩] = some (es, g) ∧
      Lawful es := ⟨_, _, rfl, by decide⟩
  obtain ⟨es, g, hr, hl⟩ := hrun
  exact ⟨es, g, hr, hl, riskGate_limits 10 1000 (by decide) _ es g hr hl⟩

/-- Releasing the sell between two buys leaves the position at twice the limit. -/
theorem riskGate_release_breaches_position :
    ¬ ∀ (calls : List Call) es g, exec RiskGate.step (.create 10 1000) calls = some (es, g) →
      Lawful es → WithinPosition 10 g.position.toInt := by
  intro h
  have hw := h [.checkAndReserve ⟨1, .buy, 5, 10⟩, .checkAndReserve ⟨2, .sell, 5, 10⟩,
    .checkAndReserve ⟨3, .buy, 5, 10⟩, .release ⟨2, .sell, 5, 10⟩] _ _ rfl (by decide)
  revert hw
  decide

/-- `check_and_reserve` returns true exactly when the contract's limits hold
over the integers, unless the exact notional wraps into the limit. -/
theorem checkAndReserve_exact_iff (g : RiskGate) (hg : g.Limits) (o : Order) (ho : o.Valid) :
    ((g.checkAndReserve o).1 = true ↔
        WithinPosition g.maxPosition (g.position.toInt + o.delta) ∧
          g.notionalUsed.toInt + o.notional ≤ g.maxNotional.toInt) ↔
      ¬ (WithinPosition g.maxPosition (g.position.toInt + o.delta) ∧
        2 ^ 64 ≤ g.notionalUsed.toInt + o.notional ∧
        (g.notionalUsed.toInt + o.notional) % 2 ^ 64 ≤ g.maxNotional.toInt) := by
  have hn := unpackNotional_bounds g.state
  have h0 := ho.notional_nonneg
  have haccept : (g.checkAndReserve o).1 = true ↔ g.Admits o g.state := by
    unfold RiskGate.checkAndReserve
    rcases reserveCandidate_cases hg ho g.state with ⟨hnone, hno⟩ | ⟨word, hsome, hyes, _, _⟩
    · simp [hnone, hno]
    · simp [hsome, hyes]
  have hN := hg.notional_lt
  rw [haccept]
  unfold RiskGate.Admits RiskGate.position RiskGate.notionalUsed
  by_cases hw : WithinPosition g.maxPosition ((unpackPosition g.state).toInt + o.delta)
  · simp only [hw, true_and]
    omega
  · simp only [hw, false_and, not_false_eq_true]

theorem checkAndReserve_exact_iff_rest :
    let g := RiskGate.create 100 10000
    let o : Order := ⟨1, .buy, 100, 100⟩
    g.Limits ∧ o.Valid ∧
      (((g.checkAndReserve o).1 = true ↔
          WithinPosition g.maxPosition (g.position.toInt + o.delta) ∧
            g.notionalUsed.toInt + o.notional ≤ g.maxNotional.toInt) ↔
        ¬ (WithinPosition g.maxPosition (g.position.toInt + o.delta) ∧
          2 ^ 64 ≤ g.notionalUsed.toInt + o.notional ∧
          (g.notionalUsed.toInt + o.notional) % 2 ^ 64 ≤ g.maxNotional.toInt)) :=
  ⟨by decide, by decide, checkAndReserve_exact_iff _ (by decide) _ (by decide)⟩

/-- The product `2 ^ 62 * 4` wraps to zero, so an order far over the notional
limit is accepted by a fresh gate. -/
theorem checkAndReserve_accepts_wrapped_notional :
    ¬ ∀ (calls : List Call) es g, exec RiskGate.step (.create 10 1000) calls = some (es, g) →
      Admissible (fun h e => ∀ o ∈ e.call.released?, o ∈ live (commits h)) es →
      ∀ o : Order, o.Valid → ((g.checkAndReserve o).1 = true ↔
        WithinPosition 10 (g.position.toInt + o.delta) ∧
          g.notionalUsed.toInt + o.notional ≤ (1000 : Int64).toInt) := by
  intro h
  have hw := h [] _ _ rfl admissible_nil ⟨1, .buy, 4611686018427387904, 4⟩ (by decide)
  revert hw
  decide

end HftExercises.Risk
