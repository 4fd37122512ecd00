import HftExercises.Domain.MatchingEngineRefinement

/-! # Whole runs of the matching engine

Along every call sequence with distinct ids the engine stays related to the flat
book of the specification. Returned trades, the reachable-state invariant and
what is known about the side index all come from that relation.
-/
namespace HftExercises.Matching

/-- An added id has not been added before. -/
def FreshId (calls : List Call) : Call → Prop
  | .addOrder order => order.id ∉ addedIds calls
  | .cancelOrder _ => True

theorem addedIds_append (l r : List Call) : addedIds (l ++ r) = addedIds l ++ addedIds r :=
  List.filterMap_append

theorem mem_addedIds {calls : List Call} {id : OrderId} :
    id ∈ addedIds calls ↔ ∃ order, Call.addOrder order ∈ calls ∧ order.id = id := by
  simp only [addedIds, List.mem_filterMap]
  constructor
  · rintro ⟨c, hc, he⟩
    cases c with
    | addOrder order => exact ⟨order, hc, Option.some.inj he⟩
    | cancelOrder _ => cases he
  · rintro ⟨order, hc, rfl⟩
    exact ⟨_, hc, rfl⟩

theorem DistinctIds.admissible {calls : List Call} (h : DistinctIds calls) :
    Admissible FreshId calls := by
  rintro l c r rfl
  cases c with
  | cancelOrder id => trivial
  | addOrder order =>
    intro hmem
    rw [DistinctIds, addedIds_append, List.nodup_append] at h
    exact h.2.2 order.id hmem order.id (by simp [addedIds]) rfl

/-- Two adds of one id in a call sequence with distinct ids are the same order. -/
theorem DistinctIds.order_eq {calls : List Call} (h : DistinctIds calls) {a b : Order}
    (ha : Call.addOrder a ∈ calls) (hb : Call.addOrder b ∈ calls) (hid : a.id = b.id) : a = b := by
  induction calls with
  | nil => simp at ha
  | cons c calls ih =>
    have htail : DistinctIds calls := by
      rw [DistinctIds, ← List.singleton_append, addedIds_append] at h
      exact (List.nodup_append.mp h).2.1
    have hhead : ∀ o o' : Order, c = .addOrder o → Call.addOrder o' ∈ calls → o.id ≠ o'.id := by
      rintro o o' rfl ho' he
      have hn := (List.nodup_cons.mp h).1
      exact hn (he ▸ mem_addedIds.mpr ⟨o', ho', rfl⟩)
    rcases List.mem_cons.mp ha with rfl | ha <;> rcases List.mem_cons.mp hb with hb | hb
    · exact (Call.addOrder.inj hb).symm
    · exact absurd hid (hhead a b rfl hb)
    · exact absurd hid.symm (hhead b a hb.symm ha)
    · exact ih htail ha hb

/-- The relation carried along a run: each resting order was added, with a
positive quantity, by one of the calls made so far. -/
structure RunInv (calls : List Call) (s : MatchingEngine) (b : PriceTimeBook) : Prop where
  refines : Refines s b
  inv : BookInv b
  known : ∀ r ∈ b.resting, ∃ order, Call.addOrder order ∈ calls ∧ order.id = r.id ∧
    order.side = r.side ∧ order.price = r.price ∧ 0 < order.qty

namespace RunInv
variable {calls : List Call} {s : MatchingEngine} {b : PriceTimeBook}

theorem init : RunInv [] MatchingEngine.init PriceTimeBook.init :=
  ⟨Refines.init, BookInv.init, by simp [PriceTimeBook.init]⟩

theorem fresh_resting (h : RunInv calls s b) {order : Order}
    (hf : FreshId calls (.addOrder order)) : order.id ∉ b.resting.map Resting.id := by
  intro hmem
  obtain ⟨r, hr, he⟩ := List.mem_map.mp hmem
  obtain ⟨o, ho, hid, _⟩ := h.known r hr
  exact hf (mem_addedIds.mpr ⟨o, ho, hid.trans he⟩)

theorem addOrder (h : RunInv calls s b) {order : Order} (hf : FreshId calls (.addOrder order)) :
    ∃ m s', matchOrder order b.resting = some m ∧ MatchInv order b.resting m ∧
      matchGuard order m = false ∧ s.addOrder order = some (m.trades, s') ∧
      RunInv (calls ++ [.addOrder order]) s' (b.settle order m) ∧
      s'.index = if 0 < m.qty then s.index.insert order.id ⟨order.side, order.price⟩ else s.index := by
  have hfresh := h.fresh_resting hf
  obtain ⟨m, s', hmatch, hm, hg, hs, hr, hi⟩ := h.refines.addOrder h.inv hfresh
  refine ⟨m, s', hmatch, hm, hg, hs, ⟨hr, h.inv.settle hm hg hfresh, ?_⟩, hi⟩
  have hold : ∀ r ∈ m.resting, ∃ o, Call.addOrder o ∈ calls ++ [.addOrder order] ∧ o.id = r.id ∧
      o.side = r.side ∧ o.price = r.price ∧ 0 < o.qty := by
    intro r hr
    obtain ⟨x, hx, he⟩ := List.mem_map.mp (hm.stamps.subset (List.mem_map_of_mem hr))
    simp only [Resting.stamp, Prod.mk.injEq] at he
    obtain ⟨o, ho, h₁, h₂, h₃, h₄⟩ := h.known x hx
    exact ⟨o, List.mem_append_left _ ho, h₁.trans he.1, h₂.trans he.2.1, h₃.trans he.2.2.1, h₄⟩
  intro r hr
  unfold PriceTimeBook.settle at hr
  split_ifs at hr with hq
  · rcases List.mem_append.mp hr with hr | hr
    · exact hold r hr
    · obtain rfl := List.mem_singleton.mp hr
      refine ⟨order, by simp, rfl, rfl, rfl, ?_⟩
      by_contra hneg
      have := (hm.untouched (by omega)).1
      omega
  · exact hold r hr

theorem cancelOrder (h : RunInv calls s b) (id : OrderId) :
    (s.cancelOrder id).1 = (b.cancelOrder id).1 ∧
      RunInv (calls ++ [.cancelOrder id]) (s.cancelOrder id).2 (b.cancelOrder id).2 := by
  obtain ⟨hfound, hr⟩ := h.refines.cancelOrder h.inv id
  refine ⟨hfound, hr, h.inv.cancelOrder id, ?_⟩
  intro r hr
  obtain ⟨o, ho, hrest⟩ := h.known r (List.mem_filter.mp hr).1
  exact ⟨o, List.mem_append_left _ ho, hrest⟩

/-- Both machines answer the next call alike and stay related. -/
theorem step (h : RunInv calls s b) {c : Call} (hf : FreshId calls c) :
    ∃ o s' b', s.step c = some (o, s') ∧ b.step c = some (o, b') ∧ RunInv (calls ++ [c]) s' b' := by
  cases c with
  | addOrder order =>
    obtain ⟨m, s', hmatch, _, _, hs, hr, _⟩ := h.addOrder hf
    refine ⟨.trades m.trades, s', b.settle order m, ?_, ?_, hr⟩
    · simp [MatchingEngine.step, hs]
    · simp [PriceTimeBook.step, PriceTimeBook.addOrder, hmatch]
  | cancelOrder id =>
    obtain ⟨hfound, hr⟩ := h.cancelOrder id
    exact ⟨.cancelled (s.cancelOrder id).1, _, _, rfl, by rw [hfound]; rfl, hr⟩

end RunInv

/-- Every call sequence with distinct ids returns, call by call, what the
price-time specification returns, and leaves exactly the levels of its book. -/
theorem engine_refines_priceTime (calls : List Call) (h : DistinctIds calls) :
    ∃ es fs s b, exec MatchingEngine.step .init calls = some (es, s) ∧
      exec PriceTimeBook.step .init calls = some (fs, b) ∧
      es.map Event.result = fs.map Event.result ∧ s.level? = b.level? := by
  obtain ⟨es, fs, s, b, hes, hfs, hres, hr⟩ := exec_lockstep
    (fun h s b => RunInv (h.map Event.call) s b)
    (fun h s b c hr hf => by simpa using hr.step hf) RunInv.init h.admissible
  exact ⟨es, fs, s, b, hes, hfs, hres, hr.refines.level?_eq⟩

/-- A sweep over two levels, a partial fill, a rest and a cancel. -/
theorem engine_refines_priceTime_sweep :
    let calls := [.addOrder ⟨1, .sell, 100, 5⟩, .addOrder ⟨2, .sell, 101, 5⟩,
      .addOrder ⟨3, .buy, 101, 7⟩, .addOrder ⟨4, .buy, 99, 2⟩, .cancelOrder 2]
    DistinctIds calls ∧
      ∃ es fs s b, exec MatchingEngine.step .init calls = some (es, s) ∧
        exec PriceTimeBook.step .init calls = some (fs, b) ∧
        es.map Event.result = fs.map Event.result ∧ s.level? = b.level? :=
  ⟨by decide, engine_refines_priceTime _ (by decide)⟩

/-- The invariant of every reachable engine state. -/
structure EngineInv (s : MatchingEngine) : Prop where
  uncrossed : ∀ bid ∈ s.bids.entries, ∀ ask ∈ s.asks.entries, bid.1 < ask.1
  bidLevels : ∀ level ∈ s.bids.entries, level.2 ≠ []
  askLevels : ∀ level ∈ s.asks.entries, level.2 ≠ []
  positive : ∀ e ∈ s.queuedEntries, 0 < e.qty
  ids : (s.queuedEntries.map LevelEntry.id).Nodup

theorem SideRefines.exists_resting {side : Side} {book : Book side} {l : List Resting}
    (h : SideRefines book l) {level : ℤ × List LevelEntry} (hl : level ∈ book.entries) :
    ∃ r ∈ l, r.side = side ∧ r.price = level.1 := by
  have hf : book.find? level.1 = some level.2 := OrdMap.find?_eq_some_iff.mpr hl
  by_contra hnone
  have hnil : levelOf l side level.1 = [] :=
    levelOf_eq_nil_iff.mpr (fun r hr hs hp => hnone ⟨r, hr, hs, hp⟩)
  rw [h.find? hf, hnil] at hf
  exact h.drained _ hf

theorem RunInv.engineInv {calls : List Call} {s : MatchingEngine} {b : PriceTimeBook}
    (h : RunInv calls s b) : EngineInv s := by
  have hperm := h.refines.queuedEntries_perm
  constructor
  · intro bid hbid ask hask
    obtain ⟨r, hr, hrs, hrp⟩ := h.refines.bids.exists_resting hbid
    obtain ⟨x, hx, hxs, hxp⟩ := h.refines.asks.exists_resting hask
    rw [← hrp, ← hxp]
    exact h.inv.uncrossed r hr x hx hrs hxs
  · intro level hl hn
    exact h.refines.bids.drained level.1 (hn ▸ OrdMap.find?_eq_some_iff.mpr hl)
  · intro level hl hn
    exact h.refines.asks.drained level.1 (hn ▸ OrdMap.find?_eq_some_iff.mpr hl)
  · intro e he
    obtain ⟨r, hr, rfl⟩ := List.mem_map.mp (hperm.subset he)
    exact h.inv.positive r hr
  · rw [(hperm.map LevelEntry.id).nodup_iff, List.map_map]
    exact h.inv.ids

/-- No run with distinct ids faults, so the front of an empty queue is never
taken, and every state it reaches is uncrossed and well formed. -/
theorem engine_invariant (calls : List Call) (h : DistinctIds calls) :
    ∃ es s, exec MatchingEngine.step .init calls = some (es, s) ∧ EngineInv s := by
  obtain ⟨es, s, hes, b, hr⟩ := exec_total
    (fun h s => ∃ b, RunInv (h.map Event.call) s b)
    (fun h s c hr hf => by
      obtain ⟨b, hr⟩ := hr
      obtain ⟨o, s', b', hs, _, hr'⟩ := hr.step hf
      exact ⟨o, s', hs, b', by simpa using hr'⟩)
    ⟨PriceTimeBook.init, RunInv.init⟩ h.admissible
  exact ⟨es, s, hes, hr.engineInv⟩

theorem engine_invariant_rest :
    let calls := [.addOrder ⟨1, .sell, 100, 5⟩, .addOrder ⟨2, .buy, 98, 3⟩,
      .addOrder ⟨3, .buy, 100, 9⟩, .addOrder ⟨4, .sell, 98, -2⟩, .cancelOrder 1]
    DistinctIds calls ∧
      ∃ es s, exec MatchingEngine.step .init calls = some (es, s) ∧ EngineInv s :=
  ⟨by decide, engine_invariant _ (by decide)⟩

end HftExercises.Matching
