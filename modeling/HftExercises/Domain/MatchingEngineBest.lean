import HftExercises.Core.Allocation
import HftExercises.Domain.MatchingEngineConservation

/-! # Best execution

What an incoming order trades is the most it can trade, at the best total price any choice
of resting orders could give it.
-/
namespace HftExercises.Matching

/-- A price as the side that trades sees it: less is better. -/
def Side.cost : Side → ℤ → ℤ
  | .buy, price => price
  | .sell, price => -price

theorem better_iff_cost {side : Side} {p q : ℤ} :
    better side.opposite p q ↔ side.cost p < side.cost q := by
  cases side <;> simp [Side.opposite, better, Side.cost]

/-- The queued entries of one side with their prices, level by level. -/
def MatchingEngine.offers (s : MatchingEngine) : Side → List (ℤ × LevelEntry)
  | .buy => s.bids.entries.flatMap fun level => level.2.map fun e => (level.1, e)
  | .sell => s.asks.entries.flatMap fun level => level.2.map fun e => (level.1, e)

/-- A choice of what to take of each offer, within its quantity and the order's limit. -/
structure Allocation (order : Order) (offers : List (ℤ × LevelEntry)) (alloc : OrderId → ℤ) :
    Prop where
  nonneg : ∀ o ∈ offers, 0 ≤ alloc o.2.id
  le_qty : ∀ o ∈ offers, alloc o.2.id ≤ o.2.qty
  crosses : ∀ o ∈ offers, alloc o.2.id ≠ 0 → crosses order.side order.price o.1 = true

/-! ## The greedy match -/

/-- Each trade was at a price no worse than any left, and no better than any before it. -/
structure Greedy (order : Order) (m : Match) : Prop where
  left : ∀ t ∈ m.trades, ∀ x ∈ candidates order m.resting,
    order.side.cost t.price ≤ order.side.cost x.price
  sorted : m.trades.Pairwise fun t u => order.side.cost t.price ≤ order.side.cost u.price

section Greedy
variable {order : Order} {l : List Resting} {m m' : Match}

/-- What a candidate offers was on offer before the trade. -/
theorem candidates_of_stamps {l l' : List Resting}
    (hs : (l'.map Resting.stamp).Sublist (l.map Resting.stamp)) {x : Resting}
    (hx : x ∈ candidates order l') : ∃ y ∈ candidates order l, y.id = x.id ∧ y.price = x.price := by
  obtain ⟨hx, hside, hcross⟩ := mem_candidates.mp hx
  obtain ⟨y, hy, he⟩ := List.mem_map.mp (hs.subset (List.mem_map_of_mem hx))
  simp only [Resting.stamp, Prod.mk.injEq] at he
  exact ⟨y, mem_candidates.mpr ⟨hy, he.2.1 ▸ hside, he.2.2.1 ▸ hcross⟩, he.1, he.2.2.1⟩

theorem Greedy.body (h : Greedy order m) (hb : matchBody order m = some m') : Greedy order m' := by
  have hstamps := matchBody_stamps hb
  obtain ⟨r, hbest, rfl⟩ := Option.map_eq_some_iff.mp hb
  have hr := best?_mem hbest
  have hfirst : ∀ x ∈ candidates order m.resting, order.side.cost r.price ≤ order.side.cost x.price := by
    intro x hx
    have hnot := best?_unoutranked hbest x hx
    rw [outranks, not_or, better_iff_cost, not_lt] at hnot
    exact hnot.1
  refine ⟨fun t ht x hx => ?_, ?_⟩
  · obtain ⟨y, hy, -, hprice⟩ := candidates_of_stamps hstamps hx
    rw [← hprice]
    rcases List.mem_append.mp ht with ht | ht
    · exact h.left t ht y hy
    · rw [List.mem_singleton.mp ht]
      exact hfirst y hy
  · refine List.pairwise_append.mpr ⟨h.sorted, List.pairwise_singleton _ _, fun t ht u hu => ?_⟩
    rw [List.mem_singleton.mp hu]
    exact h.left t ht r hr

theorem matchOrder_greedy (hm : matchOrder order l = some m) : Greedy order m :=
  (whileLoop_invariant (Greedy order) (fun _ _ h _ hb => h.body hb)
    ⟨by simp, List.Pairwise.nil⟩ hm).1

end Greedy

/-! ## Fills beside another choice -/

section Fills
variable {order : Order} {l : List Resting} {m : Match} {alloc : OrderId → ℤ}

/-- The resting orders an incoming order could trade with at all. -/
def opposed (order : Order) (l : List Resting) : List Resting :=
  l.filter fun r => r.side = order.side.opposite

theorem MatchInv.fills_nonneg (hm : MatchInv order l m) (id : OrderId) :
    0 ≤ restingFills m.trades id := by
  refine List.sum_nonneg fun q hq => ?_
  obtain ⟨t, ht, rfl⟩ := List.mem_map.mp hq
  exact (hm.trades t (List.mem_filter.mp ht).1).1.le

theorem restingQty_of_mem (hids : (l.map Resting.id).Nodup) {r : Resting} (hr : r ∈ l) :
    restingQty l r.id = r.qty := by
  obtain ⟨l₁, l₂, rfl⟩ := List.append_of_mem hr
  rw [List.map_append, List.map_cons, List.nodup_middle, List.nodup_cons, ← List.map_append] at hids
  have hothers : ∀ x ∈ l₁ ++ l₂, x.id ≠ r.id :=
    fun x hx heq => hids.1 (heq ▸ List.mem_map_of_mem hx)
  rw [restingQty_append, restingQty_cons, if_pos rfl,
    restingQty_eq_zero fun x hx => hothers x (List.mem_append_left _ hx),
    restingQty_eq_zero fun x hx => hothers x (List.mem_append_right _ hx)]
  omega

/-- An order that is left with nothing to offer at its limit was filled. -/
theorem MatchInv.filled (hm : MatchInv order l m) (hids : (l.map Resting.id).Nodup) {r : Resting}
    (hr : r ∈ opposed order l) (hcross : crosses order.side order.price r.price = true)
    (hgone : ∀ x ∈ candidates order m.resting, x.price ≠ r.price) :
    restingFills m.trades r.id = r.qty := by
  obtain ⟨hmem, hside⟩ := List.mem_filter.mp hr
  have hdrained : restingQty m.resting r.id = 0 := by
    refine restingQty_eq_zero fun x hx hid => ?_
    obtain ⟨y, hy, he⟩ := List.mem_map.mp (hm.stamps.subset (List.mem_map_of_mem hx))
    simp only [Resting.stamp, Prod.mk.injEq] at he
    obtain rfl : y = r := List.inj_on_of_nodup_map hids hy hmem (he.1.trans hid)
    refine hgone x (mem_candidates.mpr ⟨hx, ?_, ?_⟩) he.2.2.1.symm
    · rw [← he.2.1]
      simpa using hside
    · rw [← he.2.2.1]
      exact hcross
  have hbalance := hm.balance r.id
  rw [hdrained, restingQty_of_mem hids hmem, zero_add] at hbalance
  exact hbalance

/-- A trade is at the price of the order it fills. -/
theorem MatchInv.trade_price (hm : MatchInv order l m) (hids : (l.map Resting.id).Nodup)
    {t : Trade} (ht : t ∈ m.trades) {r : Resting} (hr : r ∈ l) (hid : t.restingId = r.id) :
    t.price = r.price := by
  obtain ⟨-, -, -, x, hx, hxid, -, hprice⟩ := hm.trades t ht
  rw [← hprice, List.inj_on_of_nodup_map hids hx hr (hxid.trans hid)]

theorem MatchInv.opposed_id (hm : MatchInv order l m) {t : Trade} (ht : t ∈ m.trades) :
    t.restingId ∈ (opposed order l).map Resting.id := by
  obtain ⟨-, -, -, x, hx, hxid, hside, -⟩ := hm.trades t ht
  exact List.mem_map.mpr ⟨x, List.mem_filter.mpr ⟨hx, by simpa using hside⟩, hxid⟩

theorem opposed_nodup (hids : (l.map Resting.id).Nodup) :
    ((opposed order l).map Resting.id).Nodup :=
  hids.sublist (List.filter_sublist.map _)

theorem MatchInv.sum_qty (hm : MatchInv order l m) (hids : (l.map Resting.id).Nodup) :
    (m.trades.map Trade.qty).sum =
      ((opposed order l).map fun r => restingFills m.trades r.id).sum :=
  sum_by_key (opposed_nodup hids) (fun _ ht => hm.opposed_id ht) Trade.qty

theorem MatchInv.sum_cost (hm : MatchInv order l m) (hids : (l.map Resting.id).Nodup) :
    (m.trades.map fun t => order.side.cost t.price * t.qty).sum =
      ((opposed order l).map fun r => order.side.cost r.price * restingFills m.trades r.id).sum := by
  rw [sum_by_key (opposed_nodup hids) (fun _ ht => hm.opposed_id ht)]
  refine congrArg List.sum (List.map_congr_left fun r hr => ?_)
  have hprices : ∀ t ∈ m.trades.filter (fun t => t.restingId = r.id),
      order.side.cost t.price * t.qty = order.side.cost r.price * t.qty := by
    intro t ht
    obtain ⟨ht, hid⟩ := List.mem_filter.mp ht
    rw [hm.trade_price hids ht (List.mem_filter.mp hr).1 (by simpa using hid)]
  rw [List.map_congr_left hprices, List.sum_map_mul_left, restingFills]

theorem MatchInv.unfilled (hm : MatchInv order l m) (hids : (l.map Resting.id).Nodup) {r : Resting}
    (hr : r ∈ opposed order l) (hprice : ∀ t ∈ m.trades, t.price ≠ r.price) :
    restingFills m.trades r.id = 0 := by
  have hnone : m.trades.filter (fun t => t.restingId = r.id) = [] := by
    rw [List.filter_eq_nil_iff]
    intro t ht hid
    exact hprice t ht (hm.trade_price hids ht (List.mem_filter.mp hr).1 (by simpa using hid))
  rw [restingFills, hnone]
  rfl

/-- No trade costs more than the last one. -/
theorem Greedy.le_final (h : Greedy order m) {before : List Trade} {final t : Trade}
    (hsplit : m.trades = before ++ [final]) (ht : t ∈ m.trades) :
    order.side.cost t.price ≤ order.side.cost final.price := by
  have hsorted := h.sorted
  rw [hsplit] at ht hsorted
  rcases List.mem_append.mp ht with ht | ht
  · exact (List.pairwise_append.mp hsorted).2.2 t ht final (List.mem_singleton_self _)
  · rw [List.mem_singleton.mp ht]

/-- Another choice from the same resting orders. -/
structure Chooses (order : Order) (l : List Resting) (alloc : OrderId → ℤ) : Prop where
  nonneg : ∀ r ∈ opposed order l, 0 ≤ alloc r.id
  le_qty : ∀ r ∈ opposed order l, alloc r.id ≤ r.qty
  crosses : ∀ r ∈ opposed order l, alloc r.id ≠ 0 → crosses order.side order.price r.price = true

theorem Chooses.le_fills (h : Chooses order l alloc) (hm : MatchInv order l m)
    (hids : (l.map Resting.id).Nodup) {r : Resting} (hr : r ∈ opposed order l)
    (hgone : ∀ x ∈ candidates order m.resting, x.price ≠ r.price) :
    alloc r.id ≤ restingFills m.trades r.id := by
  by_cases hzero : alloc r.id = 0
  · rw [hzero]
    exact hm.fills_nonneg r.id
  · rw [hm.filled hids hr (h.crosses r hr hzero) hgone]
    exact h.le_qty r hr

theorem Chooses.sum_le (h : Chooses order l alloc) (hm : MatchInv order l m)
    (hids : (l.map Resting.id).Nodup) (hg : matchGuard order m = false)
    (htotal : ((opposed order l).map fun r => alloc r.id).sum ≤ order.qty) :
    ((opposed order l).map fun r => alloc r.id).sum ≤ (m.trades.map Trade.qty).sum := by
  by_cases hpos : 0 < order.qty
  · by_cases hwant : 0 < m.qty
    · -- something is still wanted: every order within the limit was filled
      have hnone : candidates order m.resting = [] := by
        have hbest : best? order m.resting = none := by simpa [matchGuard, hwant] using hg
        exact best?_eq_none_iff.mp hbest
      rw [hm.sum_qty hids]
      exact List.sum_le_sum fun r hr => h.le_fills hm hids hr (by simp [hnone])
    · have hspent := hm.spent
      have hrest := hm.remaining hpos
      omega
  · obtain ⟨-, hnil, -⟩ := hm.untouched (not_lt.mp hpos)
    rw [hnil]
    exact htotal.trans (not_lt.mp hpos)

theorem Chooses.cost_le (h : Chooses order l alloc) (hm : MatchInv order l m)
    (hgreedy : Greedy order m) (hids : (l.map Resting.id).Nodup)
    (htotal : ((opposed order l).map fun r => alloc r.id).sum = (m.trades.map Trade.qty).sum) :
    (m.trades.map fun t => order.side.cost t.price * t.qty).sum ≤
      ((opposed order l).map fun r => order.side.cost r.price * alloc r.id).sum := by
  rcases List.eq_nil_or_concat' m.trades with hnil | ⟨before, final, hsplit⟩
  · -- no trade at all: the other choice is of nothing either
    rw [hnil, List.map_nil, List.sum_nil] at htotal ⊢
    refine List.sum_nonneg fun x hx => ?_
    obtain ⟨r, hr, rfl⟩ := List.mem_map.mp hx
    have hle := List.single_le_sum (l := (opposed order l).map fun r => alloc r.id)
      (List.forall_mem_map.mpr h.nonneg) _ (List.mem_map_of_mem hr)
    rw [htotal] at hle
    rw [le_antisymm hle (h.nonneg r hr), mul_zero]
  · have hfinal : final ∈ m.trades := by simp [hsplit]
    rw [hm.sum_cost hids]
    refine cost_le_of_greedy (order.side.cost final.price) ?_ ?_ ?_
    · intro r hr hlt
      refine h.le_fills hm hids hr fun x hx hprice => ?_
      have hle := hgreedy.left final hfinal x hx
      rw [hprice] at hle
      exact absurd hlt (not_lt.mpr hle)
    · intro r hr hlt
      have hnone : restingFills m.trades r.id = 0 := by
        refine hm.unfilled hids hr fun t ht hprice => ?_
        have hle := hgreedy.le_final hsplit ht
        rw [hprice] at hle
        exact absurd hlt (not_lt.mpr hle)
      rw [hnone]
      exact h.nonneg r hr
    · rw [← hm.sum_qty hids, htotal]

end Fills

/-! ## The engine -/

/-- Level by level, the offers are the orders of the side at their prices. -/
theorem SideRefines.offers_perm {side : Side} {book : Book side} {l : List Resting}
    (h : SideRefines book l) :
    (book.entries.flatMap fun level => level.2.map fun e => (level.1, e)).Perm
      ((l.filter fun r => r.side = side).map fun r => (r.price, ⟨r.id, r.qty⟩)) := by
  have hcover : ∀ r ∈ l.filter (fun r => r.side = side), r.price ∈ book.entries.map Prod.fst := by
    intro r hr
    obtain ⟨hr, hs⟩ := List.mem_filter.mp hr
    exact List.mem_map.mpr ⟨_, OrdMap.mem_of_find? (h.find?_isSome hr (by simpa using hs)), rfl⟩
  have hlevels : (book.entries.flatMap fun level => level.2.map fun e => (level.1, e)) =
      ((book.entries.map Prod.fst).flatMap
        (fun p => (l.filter (fun r => r.side = side)).filter (fun r => r.price = p))).map
        (fun r => ((r.price, ⟨r.id, r.qty⟩) : ℤ × LevelEntry)) := by
    rw [List.map_flatMap, List.flatMap_map]
    refine List.flatMap_congr fun level hlevel => ?_
    rw [h.find? (OrdMap.find?_eq_some_iff.mpr hlevel), levelOf, List.map_map, List.filter_filter]
    have hfilter : l.filter (fun r => decide (r.price = level.1) && decide (r.side = side)) =
        l.filter (fun r => decide (r.side = side) && decide (r.price = level.1)) :=
      List.filter_congr fun r _ => Bool.and_comm ..
    rw [hfilter]
    refine List.map_congr_left fun r hr => ?_
    have hprice : r.price = level.1 := by
      have hboth := (List.mem_filter.mp hr).2
      simp only [Bool.and_eq_true, decide_eq_true_eq] at hboth
      exact hboth.2
    rw [Function.comp_apply, hprice]
  rw [hlevels]
  exact (flatMap_fibres_perm book.keys_nodup hcover).map _

theorem Refines.offers_perm {s : MatchingEngine} {b : PriceTimeBook} (h : Refines s b)
    (order : Order) : (s.offers order.side.opposite).Perm
      ((opposed order b.resting).map fun r => (r.price, ⟨r.id, r.qty⟩)) := by
  unfold opposed
  cases order.side with
  | buy => exact h.asks.offers_perm
  | sell => exact h.bids.offers_perm

theorem Allocation.chooses {s : MatchingEngine} {b : PriceTimeBook} (h : Refines s b)
    {order : Order} {alloc : OrderId → ℤ}
    (ha : Allocation order (s.offers order.side.opposite) alloc) :
    Chooses order b.resting alloc := by
  have hmem : ∀ r ∈ opposed order b.resting,
      (r.price, (⟨r.id, r.qty⟩ : LevelEntry)) ∈ s.offers order.side.opposite := by
    intro r hr
    rw [(h.offers_perm order).mem_iff]
    exact List.mem_map.mpr ⟨r, hr, rfl⟩
  exact ⟨fun r hr => ha.nonneg _ (hmem r hr), fun r hr => ha.le_qty _ (hmem r hr),
    fun r hr => ha.crosses _ (hmem r hr)⟩

theorem Refines.sum_offers {s : MatchingEngine} {b : PriceTimeBook} (h : Refines s b)
    (order : Order) (f : ℤ → OrderId → ℤ) :
    ((s.offers order.side.opposite).map fun o => f o.1 o.2.id).sum =
      ((opposed order b.resting).map fun r => f r.price r.id).sum := by
  rw [((h.offers_perm order).map _).sum_eq, List.map_map]
  rfl

/-- The trades take of each order within its quantity and the limit. -/
theorem MatchInv.allocation {s : MatchingEngine} {b : PriceTimeBook} (h : Refines s b)
    {order : Order} {m : Match} (hm : MatchInv order b.resting m)
    (hids : (b.resting.map Resting.id).Nodup) :
    Allocation order (s.offers order.side.opposite) (restingFills m.trades) := by
  have hresting : ∀ o ∈ s.offers order.side.opposite,
      ∃ r ∈ opposed order b.resting, o = (r.price, ⟨r.id, r.qty⟩) := by
    intro o ho
    obtain ⟨r, hr, heq⟩ := List.mem_map.mp ((h.offers_perm order).mem_iff.mp ho)
    exact ⟨r, hr, heq.symm⟩
  refine ⟨fun o _ => hm.fills_nonneg _, fun o ho => ?_, fun o ho hfilled => ?_⟩
  · obtain ⟨r, hr, rfl⟩ := hresting o ho
    have hbalance := hm.balance r.id
    have hrest : 0 ≤ restingQty m.resting r.id := by
      refine List.sum_nonneg fun q hq => ?_
      obtain ⟨x, hx, rfl⟩ := List.mem_map.mp hq
      exact (hm.positive x (List.mem_filter.mp hx).1).le
    rw [restingQty_of_mem hids (List.mem_filter.mp hr).1] at hbalance
    dsimp only
    omega
  · obtain ⟨r, hr, rfl⟩ := hresting o ho
    by_contra hcross
    refine hfilled (hm.unfilled hids hr fun t ht hprice => hcross ?_)
    rw [← hprice]
    exact (hm.trades t ht).2.2.1

/-- In every reachable state the trades of an incoming order are themselves a choice from the
opposite offers; they trade as much as any such choice of at most its quantity, and at
the least cost of those of their own quantity, the proceeds of a sale counted negative. -/
theorem addOrder_best_execution {calls : List Call} {order : Order}
    (h : DistinctIds (calls ++ [.addOrder order])) :
    ∃ es s ts s', exec MatchingEngine.step .init calls = some (es, s) ∧
      s.addOrder order = some (ts, s') ∧
      Allocation order (s.offers order.side.opposite) (restingFills ts) ∧
      ((s.offers order.side.opposite).map fun o => restingFills ts o.2.id).sum =
        (ts.map Trade.qty).sum ∧
      ∀ alloc, Allocation order (s.offers order.side.opposite) alloc →
        (((s.offers order.side.opposite).map fun o => alloc o.2.id).sum ≤ order.qty →
          ((s.offers order.side.opposite).map fun o => alloc o.2.id).sum ≤ (ts.map Trade.qty).sum) ∧
        (((s.offers order.side.opposite).map fun o => alloc o.2.id).sum = (ts.map Trade.qty).sum →
          (ts.map fun t => order.side.cost t.price * t.qty).sum ≤
            ((s.offers order.side.opposite).map fun o =>
              order.side.cost o.1 * alloc o.2.id).sum) := by
  obtain ⟨hearlier, hfresh⟩ := admissible_append_singleton.mp h.admissible
  obtain ⟨es, s, hes, b, hr⟩ := exec_total (fun es s => ∃ b, RunInv (es.map Event.call) s b)
    (fun es s c hr hf => by
      obtain ⟨b, hr⟩ := hr
      obtain ⟨o, s', b', hs, -, hr'⟩ := hr.step hf
      exact ⟨o, s', hs, b', by simpa using hr'⟩)
    ⟨PriceTimeBook.init, RunInv.init⟩ hearlier
  rw [exec_calls hes] at hr
  obtain ⟨m, s', hmatch, hm, hg, hs, -, -⟩ := hr.addOrder hfresh
  have hids := hr.inv.ids
  refine ⟨es, s, m.trades, s', hes, hs, ?_, ?_, fun alloc ha => ⟨fun hle => ?_, fun heq => ?_⟩⟩
  · exact hm.allocation hr.refines hids
  · rw [hr.refines.sum_offers order fun _ id => restingFills m.trades id, hm.sum_qty hids]
  · rw [hr.refines.sum_offers order fun _ id => alloc id] at hle ⊢
    exact (ha.chooses hr.refines).sum_le hm hids hg hle
  · rw [hr.refines.sum_offers order fun _ id => alloc id] at heq
    rw [hr.refines.sum_offers order fun price id => order.side.cost price * alloc id]
    exact (ha.chooses hr.refines).cost_le hm (matchOrder_greedy hmatch) hids heq

/-- A purchase of 6 takes the cheaper offer whole; the same 6 from the other offer cost more. -/
theorem addOrder_best_execution_dearer :
    ∃ es s ts s', exec MatchingEngine.step .init
        [.addOrder ⟨1, .sell, 101, 6⟩, .addOrder ⟨2, .sell, 100, 5⟩] = some (es, s) ∧
      s.addOrder ⟨3, .buy, 101, 6⟩ = some (ts, s') ∧
      (ts.map fun t => Side.buy.cost t.price * t.qty).sum ≤
        ((s.offers .sell).map fun o => Side.buy.cost o.1 * if o.2.id = 1 then 6 else 0).sum := by
  obtain ⟨es, s, ts, s', hes, hs, -, -, hbest⟩ := @addOrder_best_execution
    [.addOrder ⟨1, .sell, 101, 6⟩, .addOrder ⟨2, .sell, 100, 5⟩] ⟨3, .buy, 101, 6⟩ (by decide)
  have hrun : exec MatchingEngine.step .init
      [.addOrder ⟨1, .sell, 101, 6⟩, .addOrder ⟨2, .sell, 100, 5⟩] = some (_, _) := rfl
  obtain ⟨rfl, rfl⟩ := Prod.mk.inj (Option.some.inj (hrun.symm.trans hes))
  have hadd : MatchingEngine.addOrder _ ⟨3, .buy, 101, 6⟩ = some (_, _) := hs
  obtain ⟨rfl, rfl⟩ := Prod.mk.inj (Option.some.inj hadd.symm)
  refine ⟨_, _, _, _, hes, hs, (hbest (fun id => if id = 1 then 6 else 0) ?_).2 (by decide)⟩
  exact ⟨by decide, by decide, by decide⟩

end HftExercises.Matching
