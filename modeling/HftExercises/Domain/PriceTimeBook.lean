import HftExercises.Core.ListFacts
import HftExercises.Domain.MatchingEngine

/-! # The price-time specification of matching

The book is one flat list of resting orders stamped with their arrival number.
An incoming order repeatedly trades with the crossing order of the opposite side
that no other one outranks; what is left of it rests with the next stamp.
The invariants of a match are proved here, on the flat list.
-/
namespace HftExercises.Matching

structure Resting where
  id : OrderId
  side : Side
  price : ℤ
  qty : ℤ
  arrival : ℕ
  deriving DecidableEq, Repr

structure PriceTimeBook where
  resting : List Resting
  next : ℕ

def PriceTimeBook.init : PriceTimeBook := ⟨[], 0⟩

def Side.opposite : Side → Side
  | .buy => .sell
  | .sell => .buy

/-- An order on `side` with limit `limit` may trade at `price`. -/
def crosses (side : Side) (limit price : ℤ) : Bool :=
  match side with
  | .buy => decide (price ≤ limit)
  | .sell => decide (limit ≤ price)

/-- Price priority first, then arrival: lower asks, higher bids, older orders. -/
def outranks (side : Side) (a b : Resting) : Prop :=
  better side a.price b.price ∨ a.price = b.price ∧ a.arrival < b.arrival

instance (side : Side) (a b : Resting) : Decidable (outranks side a b) :=
  inferInstanceAs (Decidable (_ ∨ _))

def candidates (order : Order) (l : List Resting) : List Resting :=
  l.filter fun r => r.side = order.side.opposite && crosses order.side order.price r.price

/-- The candidate that no candidate outranks. -/
def best? (order : Order) (l : List Resting) : Option Resting :=
  (candidates order l).find? fun r =>
    decide (∀ x ∈ candidates order l, ¬ outranks order.side.opposite x r)

/-- What a resting order becomes after a fill: nothing when it is exhausted. -/
def leftover (fill : ℤ) (r : Resting) : List Resting :=
  if r.qty - fill = 0 then [] else [{ r with qty := r.qty - fill }]

def reduce (fill : ℤ) (arrival : ℕ) : List Resting → List Resting
  | [] => []
  | r :: rest => if r.arrival = arrival then leftover fill r ++ rest else r :: reduce fill arrival rest

structure Match where
  resting : List Resting
  qty : ℤ
  trades : List Trade

def matchGuard (order : Order) (m : Match) : Bool :=
  decide (0 < m.qty) && (best? order m.resting).isSome

def matchBody (order : Order) (m : Match) : Option Match :=
  (best? order m.resting).map fun r =>
    let fill := min m.qty r.qty
    { resting := reduce fill r.arrival m.resting
      qty := m.qty - fill
      trades := m.trades ++ [⟨r.id, order.id, r.price, fill⟩] }

def matchOrder (order : Order) (l : List Resting) : Option Match :=
  whileLoop (matchGuard order) (matchBody order) (l.length + 1) ⟨l, order.qty, []⟩

/-- What the aggressor did not trade rests with the next arrival number. -/
def PriceTimeBook.settle (b : PriceTimeBook) (order : Order) (m : Match) : PriceTimeBook :=
  if 0 < m.qty then
    ⟨m.resting ++ [⟨order.id, order.side, order.price, m.qty, b.next⟩], b.next + 1⟩
  else ⟨m.resting, b.next⟩

def PriceTimeBook.addOrder (b : PriceTimeBook) (order : Order) :
    Option (List Trade × PriceTimeBook) :=
  (matchOrder order b.resting).map fun m => (m.trades, b.settle order m)

def PriceTimeBook.cancelOrder (b : PriceTimeBook) (id : OrderId) : Bool × PriceTimeBook :=
  (b.resting.any (fun r => r.id == id), ⟨b.resting.filter (fun r => r.id ≠ id), b.next⟩)

def PriceTimeBook.step (b : PriceTimeBook) : Call → Option (Result × PriceTimeBook)
  | .addOrder order => (b.addOrder order).map fun p => (.trades p.1, p.2)
  | .cancelOrder id => some (.cancelled (b.cancelOrder id).1, (b.cancelOrder id).2)

/-- The resting orders of one price on one side, oldest first. -/
def levelOf (l : List Resting) (side : Side) (price : ℤ) : List LevelEntry :=
  (l.filter (fun r => r.side = side && r.price = price)).map (fun r => ⟨r.id, r.qty⟩)

/-- The level a tree must have: none when nothing rests at the price. -/
def PriceTimeBook.level? (b : PriceTimeBook) (side : Side) (price : ℤ) : Option (List LevelEntry) :=
  if levelOf b.resting side price = [] then none else some (levelOf b.resting side price)

section Arrivals

def Arranged (l : List Resting) : Prop := l.Pairwise (fun a b => a.arrival < b.arrival)

theorem Arranged.eq_of_arrival {l : List Resting} (hl : Arranged l) {a b : Resting}
    (ha : a ∈ l) (hb : b ∈ l) (h : a.arrival = b.arrival) : a = b := by
  have hnd : (l.map Resting.arrival).Nodup := List.pairwise_map.mpr (hl.imp (fun h => h.ne))
  exact List.inj_on_of_nodup_map hnd ha hb h

/-- Reducing an order rewrites it in place and touches nothing else. -/
theorem reduce_append {l₁ l₂ : List Resting} {r : Resting} (hl : Arranged (l₁ ++ r :: l₂))
    (fill : ℤ) : reduce fill r.arrival (l₁ ++ r :: l₂) = l₁ ++ leftover fill r ++ l₂ := by
  induction l₁ with
  | nil => simp [reduce]
  | cons a l₁ ih =>
    obtain ⟨ha, hl⟩ := List.pairwise_cons.mp hl
    have hne : a.arrival ≠ r.arrival := (ha r (by simp)).ne
    simp [reduce, hne, ih hl]

theorem mem_leftover {fill : ℤ} {r x : Resting} (hx : x ∈ leftover fill r) :
    x = { r with qty := r.qty - fill } ∧ r.qty - fill ≠ 0 := by
  unfold leftover at hx
  split_ifs at hx with h
  · simp at hx
  · exact ⟨List.mem_singleton.mp hx, h⟩

end Arrivals

section Best
variable {order : Order} {l : List Resting} {r : Resting}

theorem mem_candidates : r ∈ candidates order l ↔
    r ∈ l ∧ r.side = order.side.opposite ∧ crosses order.side order.price r.price = true := by
  simp [candidates]

theorem best?_mem (h : best? order l = some r) : r ∈ candidates order l :=
  List.mem_of_find?_eq_some h

theorem best?_unoutranked (h : best? order l = some r) :
    ∀ x ∈ candidates order l, ¬ outranks order.side.opposite x r := by
  have hd := List.find?_some h
  exact of_decide_eq_true hd

instance (side : Side) : IsStrictOrder Resting (outranks side) where
  irrefl a h := by
    rcases h with h | h
    · exact irrefl_of (better side) a.price h
    · exact lt_irrefl _ h.2
  trans a b c hab hbc := by
    rcases hab with hab | ⟨hab, hlt⟩ <;> rcases hbc with hbc | ⟨hbc, hlt'⟩
    · exact Or.inl (trans_of (better side) hab hbc)
    · exact Or.inl (hbc ▸ hab)
    · exact Or.inl (hab ▸ hbc)
    · exact Or.inr ⟨hab.trans hbc, hlt.trans hlt'⟩

theorem best?_eq_none_iff : best? order l = none ↔ candidates order l = [] := by
  constructor
  · intro h
    by_contra hne
    obtain ⟨m, hm, hmin⟩ := exists_unoutranked (outranks order.side.opposite) hne
    exact absurd (decide_eq_true hmin) (List.find?_eq_none.mp h m hm)
  · intro h
    simp [best?, h]

/-- A candidate that no candidate outranks is the best order. -/
theorem best?_eq_some (hl : Arranged l) (hr : r ∈ candidates order l)
    (hmin : ∀ x ∈ candidates order l, ¬ outranks order.side.opposite x r) :
    best? order l = some r := by
  cases hb : best? order l with
  | none =>
    rw [best?_eq_none_iff.mp hb] at hr
    simp at hr
  | some m =>
    have hm := best?_mem hb
    have hmr : ¬ outranks order.side.opposite m r := hmin m hm
    have hrm : ¬ outranks order.side.opposite r m := best?_unoutranked hb r hr
    simp only [outranks, not_or, not_and, not_lt] at hmr hrm
    have hprice : m.price = r.price :=
      ((trichotomous_of (better order.side.opposite) m.price r.price).resolve_left hmr.1).resolve_right
        hrm.1
    have harr : m.arrival = r.arrival := le_antisymm (hrm.2 hprice.symm) (hmr.2 hprice)
    rw [hl.eq_of_arrival (mem_candidates.mp hm).1 (mem_candidates.mp hr).1 harr]

end Best

section Accounting

/-- Quantity resting under an id. -/
def restingQty (l : List Resting) (id : OrderId) : ℤ :=
  ((l.filter (fun r => r.id = id)).map Resting.qty).sum

/-- Quantity traded by an id while it was resting. -/
def restingFills (ts : List Trade) (id : OrderId) : ℤ :=
  ((ts.filter (fun t => t.restingId = id)).map Trade.qty).sum

/-- Quantity traded by an id on arrival. -/
def aggressorFills (ts : List Trade) (id : OrderId) : ℤ :=
  ((ts.filter (fun t => t.aggressorId = id)).map Trade.qty).sum

@[simp] theorem restingQty_nil (id : OrderId) : restingQty [] id = 0 := rfl

@[simp] theorem restingQty_cons (r : Resting) (l : List Resting) (id : OrderId) :
    restingQty (r :: l) id = (if r.id = id then r.qty else 0) + restingQty l id := by
  by_cases h : r.id = id <;> simp [restingQty, h]

@[simp] theorem restingQty_append (l₁ l₂ : List Resting) (id : OrderId) :
    restingQty (l₁ ++ l₂) id = restingQty l₁ id + restingQty l₂ id := by
  simp [restingQty]

@[simp] theorem restingFills_nil (id : OrderId) : restingFills [] id = 0 := rfl

@[simp] theorem restingFills_append (ts us : List Trade) (id : OrderId) :
    restingFills (ts ++ us) id = restingFills ts id + restingFills us id := by
  simp [restingFills]

@[simp] theorem restingFills_singleton (t : Trade) (id : OrderId) :
    restingFills [t] id = if t.restingId = id then t.qty else 0 := by
  by_cases h : t.restingId = id <;> simp [restingFills, h]

@[simp] theorem restingQty_leftover (fill : ℤ) (r : Resting) (id : OrderId) :
    restingQty (leftover fill r) id = if r.id = id then r.qty - fill else 0 := by
  unfold leftover
  split_ifs with h₁ h₂ h₂ <;> simp_all

end Accounting

section Matches

def Resting.stamp (r : Resting) : OrderId × Side × ℤ × ℕ := (r.id, r.side, r.price, r.arrival)

theorem leftover_stamps (fill : ℤ) (r : Resting) :
    ((leftover fill r).map Resting.stamp).Sublist [r.stamp] := by
  unfold leftover
  split_ifs
  · exact List.nil_sublist _
  · exact List.Sublist.refl _

theorem Arranged.of_stamps {l l' : List Resting} (hl : Arranged l)
    (h : (l'.map Resting.stamp).Sublist (l.map Resting.stamp)) : Arranged l' := by
  have hs : (l.map Resting.stamp).Pairwise (fun a b => a.2.2.2 < b.2.2.2) := List.pairwise_map.mpr hl
  have hs' : (l'.map Resting.stamp).Pairwise (fun a b => a.2.2.2 < b.2.2.2) := hs.sublist h
  rw [List.pairwise_map] at hs'
  exact hs'

/-- Everything a match keeps while it consumes the list `l`: the survivors are a
sublist of `l` up to their quantity, the aggressor's own side is untouched, and
each id's resting quantity plus its fills adds up to what it had. -/
structure MatchInv (order : Order) (l : List Resting) (m : Match) : Prop where
  stamps : (m.resting.map Resting.stamp).Sublist (l.map Resting.stamp)
  positive : ∀ r ∈ m.resting, 0 < r.qty
  ownSide : m.resting.filter (fun r => r.side = order.side) = l.filter (fun r => r.side = order.side)
  untouched : order.qty ≤ 0 → m.qty = order.qty ∧ m.trades = [] ∧ m.resting = l
  remaining : 0 < order.qty → 0 ≤ m.qty
  balance : ∀ id, restingQty m.resting id + restingFills m.trades id = restingQty l id
  spent : m.qty + (m.trades.map Trade.qty).sum = order.qty
  trades : ∀ t ∈ m.trades, 0 < t.qty ∧ t.aggressorId = order.id ∧
    crosses order.side order.price t.price = true ∧
    ∃ r ∈ l, r.id = t.restingId ∧ r.side = order.side.opposite ∧ r.price = t.price

/-- One while a quantity is still wanted. -/
def wanting (qty : ℤ) : ℕ := if 0 < qty then 1 else 0

theorem wanting_le_one (qty : ℤ) : wanting qty ≤ 1 := by
  unfold wanting
  split_ifs <;> omega

/-- Orders left on the consumed side, plus one while the aggressor wants more. -/
def matchMeasure (order : Order) (m : Match) : ℕ :=
  (m.resting.filter (fun r => r.side = order.side.opposite)).length + wanting m.qty

theorem Side.opposite_ne (side : Side) : side.opposite ≠ side := by cases side <;> decide

variable {order : Order} {l : List Resting}

theorem MatchInv.start (hl : ∀ r ∈ l, 0 < r.qty) : MatchInv order l ⟨l, order.qty, []⟩ where
  stamps := List.Sublist.refl _
  positive := hl
  ownSide := rfl
  untouched := fun _ => ⟨rfl, rfl, rfl⟩
  remaining := le_of_lt
  balance := by simp
  spent := by simp
  trades := by simp

/-- The state after trading with the order `r` found between `l₁` and `l₂`. -/
def Match.trade (m : Match) (order : Order) (l₁ l₂ : List Resting) (r : Resting) : Match where
  resting := l₁ ++ leftover (min m.qty r.qty) r ++ l₂
  qty := m.qty - min m.qty r.qty
  trades := m.trades ++ [⟨r.id, order.id, r.price, min m.qty r.qty⟩]

theorem MatchInv.trade {m : Match} (h : MatchInv order l m) {l₁ l₂ : List Resting} {r : Resting}
    (hm : m.resting = l₁ ++ r :: l₂) (hr : r ∈ candidates order m.resting) (hq : 0 < m.qty) :
    MatchInv order l (m.trade order l₁ l₂ r) := by
  obtain ⟨hmem, hside, hcross⟩ := mem_candidates.mp hr
  have hrq := h.positive r hmem
  have hfill : 0 < min m.qty r.qty := lt_min hq hrq
  have hstamps : ((m.trade order l₁ l₂ r).resting.map Resting.stamp).Sublist
      (m.resting.map Resting.stamp) := by
    rw [hm]
    simp only [Match.trade, List.map_append, List.map_cons, List.append_assoc]
    exact (List.Sublist.refl _).append
      ((leftover_stamps _ r).append (List.Sublist.refl (l₂.map Resting.stamp)))
  refine ⟨hstamps.trans h.stamps, ?_, ?_, ?_, ?_, ?_, ?_, ?_⟩
  · intro x hx
    simp only [Match.trade, List.mem_append] at hx
    rcases hx with (hx | hx) | hx
    · exact h.positive x (by simp [hm, hx])
    · obtain ⟨rfl, hne⟩ := mem_leftover hx
      dsimp only
      omega
    · exact h.positive x (by simp [hm, hx])
  · have hne : r.side ≠ order.side := hside ▸ order.side.opposite_ne
    have hout : (leftover (min m.qty r.qty) r).filter (fun r => r.side = order.side) = [] := by
      rw [List.filter_eq_nil_iff]
      intro x hx
      obtain ⟨rfl, _⟩ := mem_leftover hx
      simpa using hne
    rw [← h.ownSide, hm]
    simp [Match.trade, hout, hne]
  · intro hle
    have := (h.untouched hle).1
    omega
  · intro _
    dsimp only [Match.trade]
    omega
  · intro id
    have hb := h.balance id
    rw [hm] at hb
    simp only [restingQty_append, restingQty_cons] at hb
    simp only [Match.trade, restingQty_append, restingQty_leftover, restingFills_append,
      restingFills_singleton]
    split_ifs at hb ⊢ <;> omega
  · have hs := h.spent
    simp only [Match.trade, List.map_append, List.sum_append, List.map_cons, List.map_nil,
      List.sum_cons, List.sum_nil]
    omega
  · intro t ht
    rcases List.mem_append.mp ht with ht | ht
    · exact h.trades t ht
    · obtain rfl := List.mem_singleton.mp ht
      obtain ⟨x, hx, hxr⟩ := List.mem_map.mp (h.stamps.subset (List.mem_map_of_mem hmem))
      simp only [Resting.stamp, Prod.mk.injEq] at hxr
      exact ⟨hfill, rfl, hcross, x, hx, hxr.1, hxr.2.1.trans hside, hxr.2.2.1⟩

theorem matchMeasure_trade {m : Match} {l₁ l₂ : List Resting} {r : Resting}
    (hm : m.resting = l₁ ++ r :: l₂) (hside : r.side = order.side.opposite) (hq : 0 < m.qty) :
    matchMeasure order (m.trade order l₁ l₂ r) < matchMeasure order m := by
  have hcons : ((r :: l₂).filter (fun x => x.side = order.side.opposite)).length =
      (l₂.filter (fun x => x.side = order.side.opposite)).length + 1 := by simp [hside]
  have hlive : wanting m.qty = 1 := if_pos hq
  simp only [matchMeasure, hm, Match.trade, hlive, List.filter_append, List.length_append, hcons]
  by_cases hz : r.qty - min m.qty r.qty = 0
  · have hout : leftover (min m.qty r.qty) r = [] := if_pos hz
    have hle := wanting_le_one (m.qty - min m.qty r.qty)
    rw [hout, List.filter_nil, List.length_nil]
    omega
  · have hout : ((leftover (min m.qty r.qty) r).filter
        (fun x => x.side = order.side.opposite)).length ≤ 1 := by
      refine (List.length_filter_le _ _).trans ?_
      simp [leftover, hz]
    have hdone : wanting (m.qty - min m.qty r.qty) = 0 := if_neg (by omega)
    omega

theorem matchBody_eq {m : Match} (ha : Arranged m.resting) {r : Resting} {l₁ l₂ : List Resting}
    (hb : best? order m.resting = some r) (hm : m.resting = l₁ ++ r :: l₂) :
    matchBody order m = some (m.trade order l₁ l₂ r) := by
  rw [hm] at ha
  simp only [matchBody, hb, Option.map_some, Match.trade]
  rw [hm, reduce_append ha]

theorem reduce_stamps (fill : ℤ) (arrival : ℕ) (l : List Resting) :
    ((reduce fill arrival l).map Resting.stamp).Sublist (l.map Resting.stamp) := by
  induction l with
  | nil => exact List.Sublist.refl _
  | cons r rest ih =>
    simp only [reduce]
    split_ifs
    · rw [List.map_append, List.map_cons, ← List.singleton_append]
      exact (leftover_stamps fill r).append (List.Sublist.refl _)
    · exact ih.cons_cons _

theorem matchBody_stamps {m m' : Match} (h : matchBody order m = some m') :
    (m'.resting.map Resting.stamp).Sublist (m.resting.map Resting.stamp) := by
  obtain ⟨r, _, rfl⟩ := Option.map_eq_some_iff.mp h
  exact reduce_stamps _ _ _

/-- A match without trades did nothing. -/
theorem matchOrder_eq_of_no_trades {m : Match} (hm : matchOrder order l = some m)
    (ht : m.trades = []) : m = ⟨l, order.qty, []⟩ := by
  refine (whileLoop_invariant (fun m : Match => m.trades = [] → m = ⟨l, order.qty, []⟩) ?_
    (fun _ => rfl) hm).1 ht
  intro m m' _ _ hb hnil
  obtain ⟨r, _, rfl⟩ := Option.map_eq_some_iff.mp hb
  simp at hnil

/-- The order is about to exhaust the best opposite order. -/
def Exhausts (order : Order) (l : List Resting) : Prop :=
  ∃ r, best? order l = some r ∧ 0 < order.qty ∧ r.qty ≤ order.qty

theorem matchOrder_stamps_of_not_exhausts (ha : Arranged l) {m : Match}
    (hm : matchOrder order l = some m) (hx : ¬ Exhausts order l) :
    m.resting.map Resting.stamp = l.map Resting.stamp := by
  cases hg : matchGuard order ⟨l, order.qty, []⟩ with
  | false =>
    rw [matchOrder, whileLoop_stop hg] at hm
    cases hm
    rfl
  | true =>
    simp only [matchGuard, Bool.and_eq_true, decide_eq_true_eq, Option.isSome_iff_exists] at hg
    obtain ⟨hq, r, hbest⟩ := hg
    have hlt : order.qty < r.qty := by
      by_contra hle
      exact hx ⟨r, hbest, hq, by omega⟩
    obtain ⟨l₁, l₂, hl⟩ := List.append_of_mem (mem_candidates.mp (best?_mem hbest)).1
    let m₀ : Match := ⟨l, order.qty, []⟩
    have hfill : min m₀.qty r.qty = order.qty := min_eq_left hlt.le
    have hdone : matchGuard order (m₀.trade order l₁ l₂ r) = false := by
      simp [matchGuard, Match.trade, hfill, m₀]
    have hg : matchGuard order m₀ = true := by simp [matchGuard, m₀, hq, hbest]
    rw [matchOrder, whileLoop_next hg, matchBody_eq ha hbest hl, Option.bind_some,
      whileLoop_stop hdone] at hm
    cases hm
    have hkeep : leftover (min m₀.qty r.qty) r = [{ r with qty := r.qty - min m₀.qty r.qty }] :=
      if_neg (by omega)
    simp only [Match.trade, hkeep, hl, List.map_append, List.map_cons,
      List.append_assoc, List.singleton_append]
    rfl

theorem matchOrder_drops_of_exhausts (ha : Arranged l) (hn : (l.map Resting.id).Nodup) {m : Match}
    (hm : matchOrder order l = some m) (hx : Exhausts order l) :
    ∃ r ∈ l, r.id ∉ m.resting.map Resting.id := by
  obtain ⟨r, hbest, hq, hle⟩ := hx
  have hr := (mem_candidates.mp (best?_mem hbest)).1
  obtain ⟨l₁, l₂, hl⟩ := List.append_of_mem hr
  let m₀ : Match := ⟨l, order.qty, []⟩
  have hfill : min m₀.qty r.qty = r.qty := min_eq_right hle
  have hg : matchGuard order m₀ = true := by simp [matchGuard, m₀, hq, hbest]
  rw [matchOrder, whileLoop_next hg, matchBody_eq ha hbest hl, Option.bind_some] at hm
  have hgone : leftover (min m₀.qty r.qty) r = [] := if_pos (by omega)
  have hnot : r.id ∉ (m₀.trade order l₁ l₂ r).resting.map Resting.id := by
    simp only [Match.trade, hgone, List.append_nil]
    rw [hl, List.map_append, List.map_cons, List.nodup_middle] at hn
    simpa using (List.nodup_cons.mp hn).1
  refine ⟨r, hr, ?_⟩
  refine (whileLoop_invariant (fun m => r.id ∉ m.resting.map Resting.id) ?_ hnot hm).1
  intro m m' hmem _ hbody hin
  have hids := (matchBody_stamps hbody).map Prod.fst
  rw [List.map_map, List.map_map] at hids
  exact hmem (hids.subset hin)

end Matches

section Books

/-- The invariant of every reachable flat book. -/
structure BookInv (b : PriceTimeBook) : Prop where
  arranged : Arranged b.resting
  stamped : ∀ r ∈ b.resting, r.arrival < b.next
  ids : (b.resting.map Resting.id).Nodup
  positive : ∀ r ∈ b.resting, 0 < r.qty
  uncrossed : ∀ r ∈ b.resting, ∀ x ∈ b.resting, r.side = .buy → x.side = .sell → r.price < x.price

theorem BookInv.init : BookInv PriceTimeBook.init := by
  constructor <;> simp [PriceTimeBook.init, Arranged]

theorem BookInv.of_stamps {b : PriceTimeBook} (h : BookInv b) {l : List Resting}
    (hs : (l.map Resting.stamp).Sublist (b.resting.map Resting.stamp))
    (hp : ∀ r ∈ l, 0 < r.qty) : BookInv ⟨l, b.next⟩ := by
  have hmem : ∀ r ∈ l, ∃ x ∈ b.resting, x.stamp = r.stamp :=
    fun r hr => List.mem_map.mp (hs.subset (List.mem_map_of_mem hr))
  refine ⟨h.arranged.of_stamps hs, ?_, ?_, hp, ?_⟩
  · intro r hr
    obtain ⟨x, hx, he⟩ := hmem r hr
    simp only [Resting.stamp, Prod.mk.injEq] at he
    exact he.2.2.2 ▸ h.stamped x hx
  · have hid := hs.map Prod.fst
    rw [List.map_map, List.map_map] at hid
    exact h.ids.sublist hid
  · intro r hr y hy hbuy hsell
    obtain ⟨x, hx, he⟩ := hmem r hr
    obtain ⟨z, hz, hf⟩ := hmem y hy
    simp only [Resting.stamp, Prod.mk.injEq] at he hf
    rw [← he.2.2.1, ← hf.2.2.1]
    exact h.uncrossed x hx z hz (he.2.1.trans hbuy) (hf.2.1.trans hsell)

/-- A finished match leaves no opposite order that its remainder could trade with. -/
theorem not_crosses_of_finished {order : Order} {m : Match} (hg : matchGuard order m = false)
    (hq : 0 < m.qty) {x : Resting} (hx : x ∈ m.resting) (hside : x.side = order.side.opposite) :
    crosses order.side order.price x.price = false := by
  have hnone : best? order m.resting = none := by simpa [matchGuard, hq] using hg
  by_contra hc
  have hmem : x ∈ candidates order m.resting :=
    mem_candidates.mpr ⟨hx, hside, by simpa using hc⟩
  rw [best?_eq_none_iff.mp hnone] at hmem
  simp at hmem

theorem BookInv.settle {b : PriceTimeBook} (h : BookInv b) {order : Order} {m : Match}
    (hm : MatchInv order b.resting m) (hg : matchGuard order m = false)
    (hfresh : order.id ∉ b.resting.map Resting.id) : BookInv (b.settle order m) := by
  have hi := h.of_stamps hm.stamps hm.positive
  unfold PriceTimeBook.settle
  split_ifs with hq
  · refine ⟨?_, ?_, ?_, ?_, ?_⟩
    · refine List.pairwise_append.mpr ⟨hi.arranged, List.pairwise_singleton _ _, ?_⟩
      intro r hr x hx
      obtain rfl := List.mem_singleton.mp hx
      exact hi.stamped r hr
    · intro r hr
      rcases List.mem_append.mp hr with hr | hr
      · exact (hi.stamped r hr).trans (Nat.lt_succ_self _)
      · obtain rfl := List.mem_singleton.mp hr
        exact Nat.lt_succ_self _
    · have hid := hm.stamps.map Prod.fst
      rw [List.map_map, List.map_map] at hid
      rw [List.map_append, List.nodup_append]
      refine ⟨hi.ids, List.nodup_singleton _, ?_⟩
      intro x hx y hy hxy
      simp only [List.map_cons, List.map_nil, List.mem_singleton] at hy
      exact hfresh (hy ▸ hxy ▸ hid.subset hx)
    · intro r hr
      rcases List.mem_append.mp hr with hr | hr
      · exact hi.positive r hr
      · obtain rfl := List.mem_singleton.mp hr
        exact hq
    · intro r hr x hx hbuy hsell
      rcases List.mem_append.mp hr with hr | hr <;> rcases List.mem_append.mp hx with hx | hx
      · exact hi.uncrossed r hr x hx hbuy hsell
      · obtain rfl := List.mem_singleton.mp hx
        have hc := not_crosses_of_finished hg hq hr (by simp_all [Side.opposite])
        simpa [crosses, show order.side = .sell from hsell] using hc
      · obtain rfl := List.mem_singleton.mp hr
        have hc := not_crosses_of_finished hg hq hx (by simp_all [Side.opposite])
        simpa [crosses, show order.side = .buy from hbuy] using hc
      · obtain rfl := List.mem_singleton.mp hr
        obtain rfl := List.mem_singleton.mp hx
        simp_all
  · exact hi

theorem BookInv.cancelOrder {b : PriceTimeBook} (h : BookInv b) (id : OrderId) :
    BookInv (b.cancelOrder id).2 :=
  h.of_stamps (List.filter_sublist.map _) (fun r hr => h.positive r (List.mem_filter.mp hr).1)

end Books
end HftExercises.Matching
