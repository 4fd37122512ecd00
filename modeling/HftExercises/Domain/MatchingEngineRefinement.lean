import HftExercises.Core.ListFacts
import HftExercises.Domain.PriceTimeBook

/-! # The matching engine refines the price-time specification

Each tree of the engine holds, level by level, the resting orders of the flat
list in arrival order. The sweep loop and the flat match run in lockstep from
such a state, so both return the same trades and end in related books.
-/
namespace HftExercises.Matching

section Levels

@[simp] theorem levelOf_append (l₁ l₂ : List Resting) (side : Side) (price : ℤ) :
    levelOf (l₁ ++ l₂) side price = levelOf l₁ side price ++ levelOf l₂ side price := by
  simp [levelOf]

theorem levelOf_eq_nil_iff {l : List Resting} {side : Side} {price : ℤ} :
    levelOf l side price = [] ↔ ∀ r ∈ l, r.side = side → r.price ≠ price := by
  simp [levelOf]

theorem levelOf_cons (r : Resting) (l : List Resting) (side : Side) (price : ℤ) :
    levelOf (r :: l) side price =
      if r.side = side ∧ r.price = price then ⟨r.id, r.qty⟩ :: levelOf l side price
      else levelOf l side price := by
  unfold levelOf
  by_cases h : r.side = side ∧ r.price = price
  · rw [if_pos h, List.filter_cons_of_pos (by simpa using h), List.map_cons]
  · rw [if_neg h, List.filter_cons_of_neg (by simpa using h)]

theorem levelOf_filter_side {l m : List Resting} {side : Side}
    (h : m.filter (fun r => r.side = side) = l.filter (fun r => r.side = side)) (price : ℤ) :
    levelOf m side price = levelOf l side price := by
  have hf : ∀ k : List Resting, k.filter (fun r => r.side = side && r.price = price) =
      (k.filter (fun r => r.side = side)).filter (fun r => r.price = price) := by
    intro k
    rw [List.filter_filter]
    exact List.filter_congr (fun r _ => Bool.and_comm _ _)
  simp only [levelOf, hf, h]

end Levels

/-- A tree stores exactly the orders of its side, and no drained level. -/
structure SideRefines {side : Side} (book : Book side) (l : List Resting) : Prop where
  queue : ∀ price, (book.find? price).getD [] = levelOf l side price
  drained : ∀ price, book.find? price ≠ some []

namespace SideRefines
variable {side : Side} {book : Book side} {l : List Resting}

theorem find? (h : SideRefines book l) {price : ℤ} {queue : List LevelEntry}
    (hf : book.find? price = some queue) : queue = levelOf l side price := by
  simpa [hf] using h.queue price

theorem find?_isSome (h : SideRefines book l) {r : Resting} (hr : r ∈ l) (hs : r.side = side) :
    book.find? r.price = some (levelOf l side r.price) := by
  cases hf : book.find? r.price with
  | none =>
    have hq := h.queue r.price
    rw [hf] at hq
    exact absurd rfl (levelOf_eq_nil_iff.mp hq.symm r hr hs)
  | some queue => rw [h.find? hf]

theorem find?_eq (h : SideRefines book l) (price : ℤ) : book.find? price =
    if levelOf l side price = [] then none else some (levelOf l side price) := by
  cases hf : book.find? price with
  | none =>
    have hq : levelOf l side price = [] := by simpa [hf] using (h.queue price).symm
    rw [if_pos hq]
  | some queue =>
    obtain rfl := h.find? hf
    have hne : levelOf l side price ≠ [] := fun hn => h.drained price (hn ▸ hf)
    rw [if_neg hne]

theorem storeQueue (h : SideRefines book l) (price : ℤ) {l' : List Resting}
    (hl : ∀ p, p ≠ price → levelOf l' side p = levelOf l side p) :
    SideRefines (storeQueue book price (levelOf l' side price)) l' := by
  unfold Matching.storeQueue
  constructor
  · intro p
    split_ifs with he
    · rw [OrdMap.find?_erase]
      split_ifs with hp
      · subst hp
        exact (List.isEmpty_iff.mp he).symm
      · rw [h.queue, hl p hp]
    · rw [OrdMap.find?_set]
      split_ifs with hp
      · subst hp
        rfl
      · rw [h.queue, hl p hp]
  · intro p
    split_ifs with he
    · rw [OrdMap.find?_erase]
      split_ifs with hp
      · simp
      · exact h.drained p
    · rw [OrdMap.find?_set]
      split_ifs with hp
      · simpa using he
      · exact h.drained p

theorem congr (h : SideRefines book l) {l' : List Resting}
    (hl : ∀ p, levelOf l' side p = levelOf l side p) : SideRefines book l' :=
  ⟨fun p => by rw [h.queue, hl], h.drained⟩

/-- Level by level, the tree lists the orders of its side. -/
theorem entries_perm (h : SideRefines book l) :
    (book.entries.flatMap Prod.snd).Perm
      ((l.filter (fun r => r.side = side)).map (fun r => ⟨r.id, r.qty⟩)) := by
  have hcover : ∀ r ∈ l.filter (fun r => r.side = side), r.price ∈ book.entries.map Prod.fst := by
    intro r hr
    obtain ⟨hr, hs⟩ := List.mem_filter.mp hr
    exact List.mem_map.mpr ⟨_, OrdMap.mem_of_find? (h.find?_isSome hr (by simpa using hs)), rfl⟩
  have hlevels : book.entries.flatMap Prod.snd =
      ((book.entries.map Prod.fst).flatMap
        (fun p => (l.filter (fun r => r.side = side)).filter (fun r => r.price = p))).map
        (fun r => (⟨r.id, r.qty⟩ : LevelEntry)) := by
    rw [List.map_flatMap, List.flatMap_map]
    apply List.flatMap_congr
    intro e he
    rw [h.find? (OrdMap.find?_eq_some_iff.mpr he), levelOf, List.filter_filter]
    congr 1
    exact List.filter_congr (fun r _ => Bool.and_comm _ _)
  rw [hlevels]
  exact (flatMap_fibres_perm book.keys_nodup hcover).map _

/-- The number of queued entries is the number of orders of the side. -/
theorem queued_eq (h : SideRefines book l) :
    queued book = (l.filter (fun r => r.side = side)).length := by
  have hlen := h.entries_perm.length_eq
  rwa [List.length_map, List.length_flatMap] at hlen

/-- No order of the side outranks the head of the first level. -/
theorem begin?_spec (h : SideRefines book l) (ha : Arranged l) {price : ℤ}
    {queue : List LevelEntry} (hb : book.begin? = some (price, queue)) :
    ∃ r l₁ l₂, l = l₁ ++ r :: l₂ ∧ r.side = side ∧ r.price = price ∧
      levelOf l₁ side price = [] ∧ queue = ⟨r.id, r.qty⟩ :: levelOf l₂ side price ∧
      ∀ x ∈ l, x.side = side → ¬ outranks side x r := by
  have hf := OrdMap.find?_of_begin? hb
  have hq := h.find? hf
  cases hl : l.filter (fun r => r.side = side && r.price = price) with
  | nil =>
    have hnil : queue = [] := by simp [hq, levelOf, hl]
    exact absurd (hnil ▸ hf) (h.drained price)
  | cons r rs =>
    obtain ⟨l₁, l₂, rfl, h₁, hr, h₂⟩ := List.filter_eq_cons_iff.mp hl
    simp only [Bool.and_eq_true, decide_eq_true_eq] at hr
    refine ⟨r, l₁, l₂, rfl, hr.1, hr.2, ?_, ?_, ?_⟩
    · exact levelOf_eq_nil_iff.mpr (fun x hx hs hp => h₁ x hx (by simp [hs, hp]))
    · simp [hq, levelOf, hl, h₂]
    · intro x hx hs hrank
      have hx' := OrdMap.mem_of_find? (h.find?_isSome hx hs)
      have hxp : x.price = price ∨ better side price x.price :=
        (OrdMap.begin?_least hb hx').imp (congrArg Prod.fst) id
      rcases hrank with hrank | ⟨hp, hlt⟩
      · rw [hr.2] at hrank
        rcases hxp with hxp | hxp
        · exact irrefl_of (better side) price (hxp ▸ hrank)
        · exact irrefl_of (better side) price (trans_of (better side) hxp hrank)
      · have hmem : x ∈ r :: l₂ := by
          rcases List.mem_append.mp hx with hx | hx
          · exact absurd (by simp [hs, hp, hr.2]) (h₁ x hx)
          · exact hx
        rcases List.mem_cons.mp hmem with rfl | hmem
        · exact lt_irrefl _ hlt
        · have ha₂ := (List.pairwise_append.mp ha).2.1
          exact lt_asymm hlt ((List.pairwise_cons.mp ha₂).1 x hmem)

theorem begin?_eq_none (h : SideRefines book l) (hb : book.begin? = none) {x : Resting}
    (hx : x ∈ l) : x.side ≠ side := by
  intro hs
  have hmem := OrdMap.mem_of_find? (h.find?_isSome hx hs)
  rw [OrdMap.begin?_eq_none_iff.mp hb] at hmem
  simp at hmem

end SideRefines

section Sweeps
variable {side : Side} {order : Order}

theorem crosses_of_better {a : Side} {limit p q : ℤ} (h : better a.opposite p q)
    (hc : crosses a limit q = true) : crosses a limit p = true := by
  cases a <;> simp only [Side.opposite, better, crosses, decide_eq_true_eq] at * <;> omega

/-- In related states the head of the best level is the order the specification
picks, and both loops agree on whether to go on. -/
theorem best?_of_begin? {book : Book side} {l : List Resting} (hside : order.side.opposite = side)
    (h : SideRefines book l) (ha : Arranged l) {price : ℤ} {queue : List LevelEntry}
    (hb : book.begin? = some (price, queue)) :
    (crosses order.side order.price price = false → best? order l = none) ∧
    (crosses order.side order.price price = true →
      ∃ r l₁ l₂, best? order l = some r ∧ l = l₁ ++ r :: l₂ ∧ r.side = side ∧ r.price = price ∧
        levelOf l₁ side price = [] ∧ queue = ⟨r.id, r.qty⟩ :: levelOf l₂ side price) := by
  constructor
  · intro hc
    rw [best?_eq_none_iff, List.eq_nil_iff_forall_not_mem]
    intro x hx
    obtain ⟨hxl, hxs, hxc⟩ := mem_candidates.mp hx
    have hmem := OrdMap.mem_of_find? (h.find?_isSome hxl (hxs.trans hside))
    rcases OrdMap.begin?_least hb hmem with he | hbetter
    · rw [show x.price = price from congrArg Prod.fst he, hc] at hxc
      exact absurd hxc (by simp)
    · rw [crosses_of_better (hside ▸ hbetter) hxc] at hc
      exact absurd hc (by simp)
  · intro hc
    obtain ⟨r, l₁, l₂, hl, hrs, hrp, h₁, hq, hmin⟩ := h.begin?_spec ha hb
    refine ⟨r, l₁, l₂, ?_, hl, hrs, hrp, h₁, hq⟩
    apply best?_eq_some ha
    · exact mem_candidates.mpr ⟨by simp [hl], hrs.trans hside.symm, hrp ▸ hc⟩
    · intro x hx
      obtain ⟨hxl, hxs, _⟩ := mem_candidates.mp hx
      rw [hside]
      exact hmin x hxl (hxs.trans hside)

theorem levelOf_leftover (fill : ℤ) {r : Resting} (hr : r.side = side) (price : ℤ) :
    levelOf (leftover fill r) side price =
      if r.price = price ∧ r.qty - fill ≠ 0 then [⟨r.id, r.qty - fill⟩] else [] := by
  unfold leftover
  by_cases hz : r.qty - fill = 0
  · simp [hz, levelOf]
  · by_cases hp : r.price = price <;> simp [hz, hp, levelOf, hr]

/-- One loop iteration of the engine against one trade of the specification. -/
def SweepRefines (order : Order) (l : List Resting) (w : Sweep side) (m : Match) : Prop :=
  SideRefines w.book m.resting ∧ w.qty = m.qty ∧ w.trades = m.trades ∧ MatchInv order l m

variable {l : List Resting} {w : Sweep side} {m : Match}

theorem SweepRefines.guard_eq (hside : order.side.opposite = side) (hl : Arranged l)
    (h : SweepRefines order l w m) :
    sweepGuard (crosses order.side order.price) w = matchGuard order m := by
  obtain ⟨hbook, hqty, _, hinv⟩ := h
  have ha := hl.of_stamps hinv.stamps
  unfold sweepGuard matchGuard
  rw [hqty]
  congr 1
  cases hb : w.book.begin? with
  | none =>
    have hnone : best? order m.resting = none := by
      rw [best?_eq_none_iff, List.eq_nil_iff_forall_not_mem]
      intro x hx
      obtain ⟨hxl, hxs, _⟩ := mem_candidates.mp hx
      exact hbook.begin?_eq_none hb hxl (hxs.trans hside)
    simp [hnone]
  | some e =>
    obtain ⟨hf, ht⟩ := best?_of_begin? hside hbook ha hb
    cases hc : crosses order.side order.price e.1 with
    | false => simp [hc, hf hc]
    | true =>
      obtain ⟨r, _, _, hr, _⟩ := ht hc
      simp [hc, hr]

theorem SweepRefines.body (hside : order.side.opposite = side) (hl : Arranged l)
    (h : SweepRefines order l w m) (hg : sweepGuard (crosses order.side order.price) w = true) :
    ∃ w' m', sweepBody order.id w = some w' ∧ matchBody order m = some m' ∧
      SweepRefines order l w' m' ∧ matchMeasure order m' < matchMeasure order m := by
  obtain ⟨hbook, hqty, htrades, hinv⟩ := h
  have ha := hl.of_stamps hinv.stamps
  simp only [sweepGuard, Bool.and_eq_true, decide_eq_true_eq] at hg
  obtain ⟨hpos, hg⟩ := hg
  cases hb : w.book.begin? with
  | none => simp [hb] at hg
  | some e =>
    obtain ⟨price, queue⟩ := e
    simp only [hb] at hg
    obtain ⟨r, l₁, l₂, hbest, hm, hrs, hrp, h₁, hq⟩ := (best?_of_begin? hside hbook ha hb).2 hg
    subst hq
    have hcand := best?_mem hbest
    let fill := min m.qty r.qty
    have hlevel : levelOf (m.trade order l₁ l₂ r).resting side price =
        if r.qty - fill = 0 then levelOf l₂ side price
        else ⟨r.id, r.qty - fill⟩ :: levelOf l₂ side price := by
      simp only [Match.trade, levelOf_append, h₁, levelOf_leftover _ hrs, hrp, fill]
      split_ifs <;> simp_all
    have hother : ∀ p, p ≠ price →
        levelOf (m.trade order l₁ l₂ r).resting side p = levelOf m.resting side p := by
      intro p hp
      have hne : ¬ (r.price = p) := fun he => hp (he.symm.trans hrp)
      simp [Match.trade, hm, levelOf_leftover _ hrs, levelOf_cons, hne]
    let m' := m.trade order l₁ l₂ r
    refine ⟨⟨storeQueue w.book price (levelOf m'.resting side price), m'.qty, m'.trades⟩, m',
      ?_, matchBody_eq ha hbest hm, ?_,
      matchMeasure_trade hm (hrs.trans hside.symm) (hqty ▸ hpos)⟩
    · rw [hlevel]
      simp only [sweepBody, hb, hqty, htrades, m', fill, Match.trade, hrp]
    · exact ⟨hbook.storeQueue price hother, rfl, rfl, hinv.trade hm hcand (hqty ▸ hpos)⟩

/-- The sweep returns, and returns what the specification's match returns. -/
theorem sweep_refines (hside : order.side.opposite = side) {book : Book side}
    (hl : Arranged l) (hp : ∀ r ∈ l, 0 < r.qty) (h : SideRefines book l) :
    ∃ w m, sweep (crosses order.side order.price) order book = some w ∧
      matchOrder order l = some m ∧ SweepRefines order l w m ∧ matchGuard order m = false := by
  have hstart : SweepRefines order l ⟨book, order.qty, []⟩ ⟨l, order.qty, []⟩ :=
    ⟨h, rfl, rfl, MatchInv.start hp⟩
  have hle := wanting_le_one order.qty
  have hmeasure : matchMeasure order ⟨l, order.qty, []⟩ = queued book + wanting order.qty := by
    rw [matchMeasure, h.queued_eq, hside]
  obtain ⟨m, w, hm, hw, hr, hg⟩ := whileLoop_lockstep
    (fun (m : Match) (w : Sweep side) => SweepRefines order l w m) (matchMeasure order)
    (fun m w hr => (hr.guard_eq hside hl).symm)
    (fun m w hr hg => by
      obtain ⟨w', m', hw, hm, hr', hlt⟩ := hr.body hside hl ((hr.guard_eq hside hl).trans hg)
      exact ⟨m', w', hm, hw, hr', hlt⟩)
    (n := l.length + 1) (m := queued book + 1) (s := ⟨l, order.qty, []⟩) (a := ⟨book, order.qty, []⟩)
    (by
      rw [hmeasure, h.queued_eq]
      have := List.length_filter_le (fun r : Resting => r.side = side) l
      omega)
    (by omega) hstart
  exact ⟨w, m, hw, hm, hr, hg⟩

end Sweeps

section Removal
variable {side : Side} {book : Book side} {l : List Resting} {id : OrderId}

theorem levelOf_filter_id (l : List Resting) (id : OrderId) (side : Side) (price : ℤ) :
    levelOf (l.filter (fun r => r.id ≠ id)) side price =
      (levelOf l side price).filter (fun e => !(e.id == id)) := by
  simp only [levelOf, List.filter_map, List.filter_filter]
  congr 1
  apply List.filter_congr
  intro r _
  rw [Bool.eq_iff_iff]
  simp only [Function.comp_apply, Bool.and_eq_true, Bool.not_eq_true', beq_eq_false_iff_ne,
    decide_eq_true_eq, ne_eq]
  exact and_comm

theorem levelOf_ids_sublist (l : List Resting) (side : Side) (price : ℤ) :
    ((levelOf l side price).map LevelEntry.id).Sublist (l.map Resting.id) := by
  rw [levelOf, List.map_map]
  exact List.filter_sublist.map _

theorem SideRefines.filter_other (h : SideRefines book l)
    (hid : ∀ r ∈ l, r.id = id → r.side ≠ side) :
    SideRefines book (l.filter (fun r => r.id ≠ id)) := by
  apply h.congr
  intro price
  rw [levelOf_filter_id, List.filter_eq_self]
  intro e he
  obtain ⟨r, hr, rfl⟩ := List.mem_map.mp he
  obtain ⟨hr, hs⟩ := List.mem_filter.mp hr
  simp only [Bool.and_eq_true, decide_eq_true_eq] at hs
  simpa using fun he => hid r hr he hs.1

/-- Removing an id whose only possible place is the given level removes exactly
that order, and reports whether it was there. -/
theorem removeFromLevel_refines (h : SideRefines book l) (hn : (l.map Resting.id).Nodup)
    {price : ℤ} (hid : ∀ r ∈ l, r.id = id → r.side = side ∧ r.price = price) :
    (removeFromLevel id price book).1 = l.any (fun r => r.id == id) ∧
      SideRefines (removeFromLevel id price book).2 (l.filter (fun r => r.id ≠ id)) := by
  have hany : (levelOf l side price).any (fun e => e.id == id) = l.any (fun r => r.id == id) := by
    rw [Bool.eq_iff_iff]
    simp only [levelOf, List.any_map, List.any_filter, List.any_eq_true, Function.comp_apply,
      Bool.and_eq_true, decide_eq_true_eq, beq_iff_eq]
    exact ⟨fun ⟨r, hr, _, he⟩ => ⟨r, hr, he⟩, fun ⟨r, hr, he⟩ => ⟨r, hr, hid r hr he, he⟩⟩
  have habsent : (levelOf l side price).any (fun e => e.id == id) = false →
      SideRefines book (l.filter (fun r => r.id ≠ id)) := by
    intro hf
    rw [hany, List.any_eq_false] at hf
    apply h.filter_other
    intro r hr he
    exact absurd he (by simpa using hf r hr)
  unfold removeFromLevel
  cases hf : book.find? price with
  | none =>
    have hnil : levelOf l side price = [] := by simpa [hf] using (h.queue price).symm
    have hfalse : (levelOf l side price).any (fun e => e.id == id) = false := by simp [hnil]
    exact ⟨hany ▸ hfalse.symm, habsent hfalse⟩
  | some queue =>
    obtain rfl := h.find? hf
    dsimp only
    split_ifs with hq
    · refine ⟨hany ▸ hq.symm, ?_⟩
      have hnl := hn.sublist (levelOf_ids_sublist l side price)
      rw [eraseP_key_eq_filter hnl, ← levelOf_filter_id]
      apply h.storeQueue
      intro p hp
      rw [levelOf_filter_id, List.filter_eq_self]
      intro e he
      obtain ⟨r, hr, rfl⟩ := List.mem_map.mp he
      obtain ⟨hr, hs⟩ := List.mem_filter.mp hr
      simp only [Bool.and_eq_true, decide_eq_true_eq] at hs
      simpa using fun he => hp (hs.2.symm.trans (hid r hr he).2)
    · have hfalse := Bool.eq_false_iff.mpr hq
      exact ⟨hany ▸ hfalse.symm, habsent hfalse⟩

end Removal

section Resting
variable {side : Side} {book : Book side} {order : Order} {b : PriceTimeBook} {m : Match}

theorem MatchInv.sideRefines_own {l : List Resting} (hm : MatchInv order l m)
    (hside : order.side = side) (h : SideRefines book l) : SideRefines book m.resting := by
  subst hside
  exact h.congr (levelOf_filter_side hm.ownSide)

theorem SideRefines.pushBack (h : SideRefines book m.resting) (hside : order.side = side)
    (hq : 0 < m.qty) :
    SideRefines (pushBack book order.price ⟨order.id, m.qty⟩) (b.settle order m).resting := by
  have hlevel : ∀ p, levelOf (b.settle order m).resting side p =
      levelOf m.resting side p ++ if order.price = p then [⟨order.id, m.qty⟩] else [] := by
    intro p
    by_cases hp : order.price = p <;>
      simp [PriceTimeBook.settle, hq, hside, hp, levelOf]
  constructor
  · intro p
    rw [Matching.pushBack, OrdMap.find?_set, hlevel, h.queue]
    split_ifs with h₁ h₂ h₂
    · subst h₁; rfl
    · exact absurd h₁.symm h₂
    · exact absurd h₂.symm h₁
    · rw [h.queue, List.append_nil]
  · intro p
    rw [Matching.pushBack, OrdMap.find?_set]
    split_ifs with hp
    · simp
    · exact h.drained p

theorem SideRefines.settle_other (h : SideRefines book m.resting)
    (hside : order.side.opposite = side) : SideRefines book (b.settle order m).resting := by
  apply h.congr
  intro p
  unfold PriceTimeBook.settle
  split_ifs
  · have hne : order.side ≠ side := fun he => Side.opposite_ne side (he ▸ hside)
    simp [hne, levelOf]
  · rfl

theorem SideRefines.settle_done (h : SideRefines book m.resting) (hq : ¬ 0 < m.qty) :
    SideRefines book (b.settle order m).resting := by
  simpa [PriceTimeBook.settle, hq] using h

end Resting

/-- The simulation relation: both trees hold the flat list, and the index knows
where every resting order is. It may also remember orders that were filled. -/
structure Refines (s : MatchingEngine) (b : PriceTimeBook) : Prop where
  bids : SideRefines s.bids b.resting
  asks : SideRefines s.asks b.resting
  index : ∀ r ∈ b.resting, s.index.lookup r.id = some ⟨r.side, r.price⟩

theorem Refines.init : Refines MatchingEngine.init PriceTimeBook.init := by
  refine ⟨⟨?_, ?_⟩, ⟨?_, ?_⟩, ?_⟩ <;>
    simp [MatchingEngine.init, PriceTimeBook.init, levelOf]

theorem Refines.level?_eq {s : MatchingEngine} {b : PriceTimeBook} (h : Refines s b) :
    s.level? = b.level? := by
  funext side price
  cases side with
  | buy => exact h.bids.find?_eq price
  | sell => exact h.asks.find?_eq price

theorem Refines.queueAt_eq {s : MatchingEngine} {b : PriceTimeBook} (h : Refines s b)
    (side : Side) (price : ℤ) : s.queueAt side price = levelOf b.resting side price := by
  cases side with
  | buy => exact h.bids.queue price
  | sell => exact h.asks.queue price

theorem Refines.queuedEntries_perm {s : MatchingEngine} {b : PriceTimeBook} (h : Refines s b) :
    s.queuedEntries.Perm (b.resting.map (fun r => ⟨r.id, r.qty⟩)) := by
  have hsell : b.resting.filter (fun r => r.side = .sell) =
      b.resting.filter (fun r => !decide (r.side = .buy)) := by
    apply List.filter_congr
    intro r _
    cases r.side <;> rfl
  refine (h.bids.entries_perm.append h.asks.entries_perm).trans ?_
  rw [hsell, ← List.map_append]
  exact (List.filter_append_perm _ b.resting).map _

section Index
variable {b : PriceTimeBook} {order : Order} {m : Match} {index : AList (fun _ : OrderId => Loc)}

theorem index_of_match (hm : MatchInv order b.resting m)
    (hi : ∀ r ∈ b.resting, index.lookup r.id = some ⟨r.side, r.price⟩) :
    ∀ r ∈ m.resting, index.lookup r.id = some ⟨r.side, r.price⟩ := by
  intro r hr
  obtain ⟨x, hx, he⟩ := List.mem_map.mp (hm.stamps.subset (List.mem_map_of_mem hr))
  simp only [Resting.stamp, Prod.mk.injEq] at he
  rw [← he.1, ← he.2.1, ← he.2.2.1]
  exact hi x hx

theorem index_of_settle (hm : MatchInv order b.resting m)
    (hfresh : order.id ∉ b.resting.map Resting.id) (hq : 0 < m.qty)
    (hi : ∀ r ∈ b.resting, index.lookup r.id = some ⟨r.side, r.price⟩) :
    ∀ r ∈ (b.settle order m).resting,
      (index.insert order.id ⟨order.side, order.price⟩).lookup r.id = some ⟨r.side, r.price⟩ := by
  intro r hr
  simp only [PriceTimeBook.settle, hq, ↓reduceIte, List.mem_append, List.mem_singleton] at hr
  rcases hr with hr | rfl
  · have hne : r.id ≠ order.id := by
      obtain ⟨x, hx, he⟩ := List.mem_map.mp (hm.stamps.subset (List.mem_map_of_mem hr))
      intro hid
      have hxid : x.id = r.id := congrArg Prod.fst he
      exact hfresh (List.mem_map.mpr ⟨x, hx, hxid.trans hid⟩)
    rw [AList.lookup_insert_ne hne]
    exact index_of_match hm hi r hr
  · exact AList.lookup_insert _

end Index

theorem crosses_buy (limit : ℤ) : (fun price => !decide (price > limit)) = crosses .buy limit := by
  funext price
  rw [crosses, Bool.eq_iff_iff]
  simp

theorem crosses_sell (limit : ℤ) : (fun price => !decide (price < limit)) = crosses .sell limit := by
  funext price
  rw [crosses, Bool.eq_iff_iff]
  simp

/-- `add_order` never faults. It returns the trades of the specification's match
and leaves a book related to the settled one. -/
theorem Refines.addOrder {s : MatchingEngine} {b : PriceTimeBook} (h : Refines s b)
    (hb : BookInv b) {order : Order} (hfresh : order.id ∉ b.resting.map Resting.id) :
    ∃ m s', matchOrder order b.resting = some m ∧ MatchInv order b.resting m ∧
      matchGuard order m = false ∧ s.addOrder order = some (m.trades, s') ∧
      Refines s' (b.settle order m) ∧
      s'.index = if 0 < m.qty then s.index.insert order.id ⟨order.side, order.price⟩ else s.index := by
  cases hs : order.side with
  | buy =>
    have hopp : order.side.opposite = .sell := by rw [hs]; rfl
    obtain ⟨w, m, hw, hmatch, ⟨hbook, hqty, htrades, hm⟩, hg⟩ :=
      sweep_refines hopp hb.arranged hb.positive h.asks
    have hown := hm.sideRefines_own hs h.bids
    rw [hs, ← crosses_buy, ← sweepAsks] at hw
    by_cases hq : 0 < m.qty
    · refine ⟨m, ⟨Matching.pushBack s.bids order.price ⟨order.id, m.qty⟩, w.book,
        s.index.insert order.id ⟨.buy, order.price⟩⟩, hmatch, hm, hg, ?_, ⟨?_, ?_, ?_⟩, ?_⟩
      · simp [MatchingEngine.addOrder, hs, hw, hqty, htrades, hq]
      · exact hown.pushBack hs hq
      · exact hbook.settle_other hopp
      · have hi := index_of_settle hm hfresh hq h.index
        rw [hs] at hi
        exact hi
      · simp [hq]
    · refine ⟨m, { s with asks := w.book }, hmatch, hm, hg, ?_, ⟨?_, ?_, ?_⟩, ?_⟩
      · simp [MatchingEngine.addOrder, hs, hw, hqty, htrades, hq]
      · exact hown.settle_done hq
      · exact hbook.settle_done hq
      · simpa [PriceTimeBook.settle, hq] using index_of_match hm h.index
      · simp [hq]
  | sell =>
    have hopp : order.side.opposite = .buy := by rw [hs]; rfl
    obtain ⟨w, m, hw, hmatch, ⟨hbook, hqty, htrades, hm⟩, hg⟩ :=
      sweep_refines hopp hb.arranged hb.positive h.bids
    have hown := hm.sideRefines_own hs h.asks
    rw [hs, ← crosses_sell, ← sweepBids] at hw
    by_cases hq : 0 < m.qty
    · refine ⟨m, ⟨w.book, Matching.pushBack s.asks order.price ⟨order.id, m.qty⟩,
        s.index.insert order.id ⟨.sell, order.price⟩⟩, hmatch, hm, hg, ?_, ⟨?_, ?_, ?_⟩, ?_⟩
      · simp [MatchingEngine.addOrder, hs, hw, hqty, htrades, hq]
      · exact hbook.settle_other hopp
      · exact hown.pushBack hs hq
      · have hi := index_of_settle hm hfresh hq h.index
        rw [hs] at hi
        exact hi
      · simp [hq]
    · refine ⟨m, { s with bids := w.book }, hmatch, hm, hg, ?_, ⟨?_, ?_, ?_⟩, ?_⟩
      · simp [MatchingEngine.addOrder, hs, hw, hqty, htrades, hq]
      · exact hbook.settle_done hq
      · exact hown.settle_done hq
      · simpa [PriceTimeBook.settle, hq] using index_of_match hm h.index
      · simp [hq]

/-- `cancel_order` answers whether the id is resting and removes exactly it. -/
theorem Refines.cancelOrder {s : MatchingEngine} {b : PriceTimeBook} (h : Refines s b)
    (hb : BookInv b) (id : OrderId) :
    (s.cancelOrder id).1 = (b.cancelOrder id).1 ∧
      Refines (s.cancelOrder id).2 (b.cancelOrder id).2 := by
  cases hl : s.index.lookup id with
  | none =>
    have habsent : ∀ r ∈ b.resting, r.id ≠ id := by
      intro r hr he
      have hr' := h.index r hr
      rw [he, hl] at hr'
      cases hr'
    have hkeep : b.resting.filter (fun r => r.id ≠ id) = b.resting := by
      rw [List.filter_eq_self]
      exact fun r hr => decide_eq_true (habsent r hr)
    simp only [MatchingEngine.cancelOrder, hl, PriceTimeBook.cancelOrder, hkeep]
    refine ⟨?_, h⟩
    symm
    rw [List.any_eq_false]
    exact fun r hr => by simpa using habsent r hr
  | some loc =>
    have hid : ∀ r ∈ b.resting, r.id = id → r.side = loc.side ∧ r.price = loc.price := by
      intro r hr he
      have hr' := h.index r hr
      rw [he, hl] at hr'
      cases hr'
      exact ⟨rfl, rfl⟩
    have hindex : ∀ r ∈ b.resting.filter (fun r => r.id ≠ id),
        (s.index.erase id).lookup r.id = some ⟨r.side, r.price⟩ := by
      intro r hr
      obtain ⟨hr, hne⟩ := List.mem_filter.mp hr
      rw [AList.lookup_erase_ne (of_decide_eq_true hne)]
      exact h.index r hr
    cases hs : loc.side with
    | buy =>
      obtain ⟨hfound, hbids⟩ := removeFromLevel_refines h.bids hb.ids
        (fun r hr he => hs ▸ hid r hr he)
      have hasks : SideRefines s.asks (b.resting.filter (fun r => r.id ≠ id)) :=
        h.asks.filter_other (fun r hr he hsell => by simp [(hid r hr he).1, hs] at hsell)
      simp only [MatchingEngine.cancelOrder, hl, hs]
      exact ⟨hfound, ⟨hbids, hasks, hindex⟩⟩
    | sell =>
      obtain ⟨hfound, hasks⟩ := removeFromLevel_refines h.asks hb.ids
        (fun r hr he => hs ▸ hid r hr he)
      have hbids : SideRefines s.bids (b.resting.filter (fun r => r.id ≠ id)) :=
        h.bids.filter_other (fun r hr he hbuy => by simp [(hid r hr he).1, hs] at hbuy)
      simp only [MatchingEngine.cancelOrder, hl, hs]
      exact ⟨hfound, ⟨hbids, hasks, hindex⟩⟩

theorem cancelOrder_index (s : MatchingEngine) (id x : OrderId) :
    (s.cancelOrder id).2.index.lookup x = if x = id then none else s.index.lookup x := by
  have herase : (s.index.erase id).lookup x = if x = id then none else s.index.lookup x := by
    split_ifs with h
    · rw [h, AList.lookup_erase]
    · exact AList.lookup_erase_ne h
  cases hl : s.index.lookup id with
  | none =>
    simp only [MatchingEngine.cancelOrder, hl]
    split_ifs with h
    · rw [h, hl]
    · rfl
  | some loc =>
    cases hs : loc.side <;> simpa [MatchingEngine.cancelOrder, hl, hs] using herase

end HftExercises.Matching
