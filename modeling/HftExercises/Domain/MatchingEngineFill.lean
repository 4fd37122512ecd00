import HftExercises.Core.Consume
import HftExercises.Domain.MatchingEngineConservation

/-! # The sweep of the engine consumes its tree in priority order

A tree is read as one list of lots, best price first and oldest first inside a
price. An aggressor whose limit crosses every price of the tree takes them from
the front. The price of a lot is read through a function into any price type.
-/
namespace HftExercises.Matching
variable {P : Type*} {side : Side} (toPrice : ℤ → P)

/-- A resting order as a lot: its id and price, and the quantity left. -/
def LevelEntry.lot (price : ℤ) (e : LevelEntry) : (OrderId × P) × ℤ := ((e.id, toPrice price), e.qty)

/-- The trade as seen by the resting order. -/
def Trade.lot (t : Trade) : (OrderId × P) × ℤ := ((t.restingId, toPrice t.price), t.qty)

def levelLots (level : ℤ × List LevelEntry) : List ((OrderId × P) × ℤ) :=
  level.2.map (LevelEntry.lot toPrice level.1)

def treeLots (book : Book side) : List ((OrderId × P) × ℤ) :=
  book.entries.flatMap (levelLots toPrice)

/-- The resting orders of one side in priority order. -/
def MatchingEngine.lots (s : MatchingEngine) : Side → List ((OrderId × P) × ℤ)
  | .buy => treeLots toPrice s.bids
  | .sell => treeLots toPrice s.asks

section Head
variable {book : Book side} {price : ℤ} {queue : List LevelEntry} {rest : List (ℤ × List LevelEntry)}

/-- Writing back the queue of the best level. -/
theorem entries_storeQueue (h : book.entries = (price, queue) :: rest) (queue' : List LevelEntry) :
    (storeQueue book price queue').entries =
      if queue' = [] then rest else (price, queue') :: rest := by
  have hsplit : book.entries = [] ++ (price, queue) :: rest := h
  unfold storeQueue
  cases queue' with
  | nil => exact OrdMap.entries_erase hsplit
  | cons e queue' => exact OrdMap.entries_set hsplit (e :: queue')

theorem mem_storeQueue (h : book.entries = (price, queue) :: rest) {queue' : List LevelEntry}
    {e : ℤ × List LevelEntry} (he : e ∈ (storeQueue book price queue').entries) :
    e.1 = price ∨ e ∈ rest := by
  rw [entries_storeQueue h] at he
  split_ifs at he
  · exact Or.inr he
  · exact (List.mem_cons.mp he).imp (congrArg Prod.fst) id

theorem treeLots_storeQueue (h : book.entries = (price, queue) :: rest)
    (queue' : List LevelEntry) : treeLots toPrice (storeQueue book price queue') =
      levelLots toPrice (price, queue') ++ rest.flatMap (levelLots toPrice) := by
  rw [treeLots, entries_storeQueue h]
  split_ifs with hq
  · rw [hq]
    rfl
  · rw [List.flatMap_cons]

/-- The front entry keeps what a fill leaves of it. -/
theorem levelLots_front (price : ℤ) (head : LevelEntry) (rest : List LevelEntry) (left : ℤ) :
    levelLots toPrice (price, if left = 0 then rest else ⟨head.id, left⟩ :: rest) =
      remainder (head.id, toPrice price) left ++ levelLots toPrice (price, rest) := by
  unfold remainder
  split_ifs <;> rfl

end Head

/-- The sweep of the tree `book`, part of the way: what it still has to do and
the trades it made are what the demand takes from the whole tree. -/
structure SweepTakes (crosses : ℤ → Bool) (want : ℤ) (book : Book side) (w : Sweep side) : Prop where
  takes : consume want (treeLots toPrice book) =
    (consume w.qty (treeLots toPrice w.book)).after (w.trades.map (Trade.lot toPrice))
  crossing : ∀ e ∈ w.book.entries, crosses e.1 = true

variable {toPrice} {crosses : ℤ → Bool} {want : ℤ} {book : Book side} {w w' : Sweep side}

theorem SweepTakes.body (h : SweepTakes toPrice crosses want book w)
    (hg : sweepGuard crosses w = true) {aggressor : OrderId}
    (hb : sweepBody aggressor w = some w') : SweepTakes toPrice crosses want book w' := by
  simp only [sweepGuard, Bool.and_eq_true, decide_eq_true_eq] at hg
  unfold sweepBody at hb
  split at hb
  · cases hb
  · cases hb
  · rename_i price head rest hbegin
    cases hb
    obtain ⟨levels, hlevels⟩ := List.head?_eq_some_iff.mp hbegin
    refine ⟨?_, ?_⟩
    · have hlots : treeLots toPrice w.book = ((head.id, toPrice price), head.qty) ::
          (levelLots toPrice (price, rest) ++ levels.flatMap (levelLots toPrice)) := by
        rw [treeLots, hlevels]
        rfl
      rw [h.takes, hlots, consume_cons hg.1, Consumed.after_after,
        treeLots_storeQueue toPrice hlevels, levelLots_front, List.append_assoc, List.map_append]
      rfl
    · intro e he
      rcases mem_storeQueue hlevels he with hprice | he
      · rw [hprice]
        exact h.crossing (price, head :: rest) (by simp [hlevels])
      · exact h.crossing e (by simp [hlevels, he])

variable (toPrice)

/-- A sweep that no limit stops takes exactly the demand. -/
theorem sweep_takes {order : Order} (hcross : ∀ e ∈ book.entries, crosses e.1 = true)
    (hw : sweep crosses order book = some w) :
    consume order.qty (treeLots toPrice book) =
      ⟨w.trades.map (Trade.lot toPrice), treeLots toPrice w.book, w.qty⟩ := by
  have hstart : SweepTakes toPrice crosses order.qty book ⟨book, order.qty, []⟩ := ⟨rfl, hcross⟩
  obtain ⟨hend, hg⟩ := whileLoop_invariant _ (fun s s' hs hg hb => hs.body hg hb) hstart hw
  rw [hend.takes]
  by_cases hq : 0 < w.qty
  · cases hb : w.book.begin? with
    | none =>
      have hempty : treeLots toPrice w.book = [] := by
        rw [treeLots, OrdMap.begin?_eq_none_iff.mp hb]
        rfl
      rw [hempty]
      simp [consume, Consumed.after]
    | some level =>
      have hc : crosses level.1 = true := hend.crossing level (OrdMap.begin?_mem hb)
      simp [sweepGuard, hq, hb, hc] at hg
  · rw [consume_of_not_pos hq]
    simp [Consumed.after]

/-- An aggressor that crosses every price of the other side takes its lots in
priority order. -/
theorem addOrder_takes {s s' : MatchingEngine} {b : PriceTimeBook} (h : Refines s b) {order : Order}
    {ts : List Trade} (hs : s.addOrder order = some (ts, s'))
    (hcross : ∀ r ∈ b.resting, r.side = order.side.opposite →
      Matching.crosses order.side order.price r.price = true) :
    ∃ want, consume order.qty (s.lots toPrice order.side.opposite) =
      ⟨ts.map (Trade.lot toPrice), s'.lots toPrice order.side.opposite, want⟩ := by
  have hlevels : ∀ {side : Side} {book : Book side}, side = order.side.opposite →
      SideRefines book b.resting →
      ∀ e ∈ book.entries, Matching.crosses order.side order.price e.1 = true := by
    intro side book hside hbook e he
    obtain ⟨r, hr, hrs, hrp⟩ := hbook.exists_resting he
    rw [← hrp]
    exact hcross r hr (hrs.trans hside)
  cases hside : order.side with
  | buy =>
    have hc := hlevels (by rw [hside]; rfl) h.asks
    simp only [MatchingEngine.addOrder, hside, sweepAsks, crosses_buy] at hs
    rw [hside] at hc
    obtain ⟨w, hw, he⟩ := Option.map_eq_some_iff.mp hs
    have htake := sweep_takes toPrice hc hw
    refine ⟨w.qty, htake.trans ?_⟩
    split_ifs at he <;> cases he <;> rfl
  | sell =>
    have hc := hlevels (by rw [hside]; rfl) h.bids
    simp only [MatchingEngine.addOrder, hside, sweepBids, crosses_sell] at hs
    rw [hside] at hc
    obtain ⟨w, hw, he⟩ := Option.map_eq_some_iff.mp hs
    have htake := sweep_takes toPrice hc hw
    refine ⟨w.qty, htake.trans ?_⟩
    split_ifs at he <;> cases he <;> rfl

/-- What a new order did not trade on arrival is what rests under its id. -/
theorem MatchInv.settle_qty {b : PriceTimeBook} {order : Order} {m : Match}
    (hm : MatchInv order b.resting m) (hfresh : order.id ∉ b.resting.map Resting.id)
    (hq : 0 < order.qty) :
    restingQty (b.settle order m).resting order.id + (m.trades.map Trade.qty).sum = order.qty := by
  have hne : ∀ r ∈ b.resting, r.id ≠ order.id := fun r hr he => hfresh (List.mem_map.mpr ⟨r, hr, he⟩)
  have hfills : restingFills m.trades order.id = 0 := by
    unfold restingFills
    rw [List.filter_eq_nil_iff.mpr]
    · rfl
    · intro t ht
      obtain ⟨_, _, _, r, hr, hid, _⟩ := hm.trades t ht
      simpa [← hid] using hne r hr
  have hbal := hm.settle_balance order.id
  rw [hfills, restingQty_eq_zero hne, aggressorFills_eq (fun t ht => (hm.trades t ht).2.1),
    if_pos rfl, if_pos rfl, max_eq_left hq.le] at hbal
  omega

/-- The same, with the quantity that the engine rests as what is still wanted. -/
theorem RunInv.addOrder_takes {calls : List Call} {s : MatchingEngine} {b : PriceTimeBook}
    (h : RunInv calls s b) {order : Order} (hf : FreshId calls (.addOrder order))
    (hq : 0 < order.qty) (hcross : ∀ r ∈ b.resting, r.side = order.side.opposite →
      Matching.crosses order.side order.price r.price = true) :
    ∃ ts s', s.addOrder order = some (ts, s') ∧
      consume order.qty (s.lots toPrice order.side.opposite) =
        ⟨ts.map (Trade.lot toPrice), s'.lots toPrice order.side.opposite, s'.qtyOf order.id⟩ := by
  obtain ⟨m, s', _, hm, _, hs, hr, _⟩ := h.addOrder hf
  obtain ⟨want, htake⟩ := Matching.addOrder_takes toPrice h.refines hs hcross
  refine ⟨m.trades, s', hs, ?_⟩
  have hspent := consume_spent order.qty (s.lots toPrice order.side.opposite)
  have hsum : (m.trades.map (Trade.lot toPrice)).map Prod.snd = m.trades.map Trade.qty := by
    rw [List.map_map]
    rfl
  have hrest := hm.settle_qty (h.fresh_resting hf) hq
  rw [htake, hsum] at hspent
  rw [htake, hr.refines.qtyOf_eq]
  congr 1
  dsimp only at hspent
  omega

end HftExercises.Matching
