import HftExercises.Domain.MatchingEngineRuns

/-! # The side index along a run

The index always covers the resting orders, but the sweep pops filled orders
without erasing them from it. It is exact along a run precisely when no add
exhausts a resting order.
-/
namespace HftExercises.Matching

/-- The index maps an id to a place exactly when the order rests there. -/
def IndexExact (s : MatchingEngine) : Prop :=
  (∀ id loc, s.index.lookup id = some loc ↔
    ∃ qty, ⟨id, qty⟩ ∈ s.queueAt loc.side loc.price) ∧
  s.index.entries.length = s.queuedEntries.length

/-- The head of the best level crosses and is no larger than the order. -/
def fillsHead {side : Side} (crosses : ℤ → Bool) (qty : ℤ) (book : Book side) : Bool :=
  match book.begin? with
  | some (price, head :: _) => decide (0 < qty) && crosses price && decide (head.qty ≤ qty)
  | _ => false

def MatchingEngine.fillsResting (s : MatchingEngine) : Call → Bool
  | .addOrder order =>
    match order.side with
    | .buy => fillsHead (fun price => !decide (price > order.price)) order.qty s.asks
    | .sell => fillsHead (fun price => !decide (price < order.price)) order.qty s.bids
  | .cancelOrder _ => false

section Flat
variable {calls : List Call} {s : MatchingEngine} {b : PriceTimeBook}

theorem mem_levelOf {l : List Resting} {side : Side} {price : ℤ} {e : LevelEntry} :
    e ∈ levelOf l side price ↔ ∃ r ∈ l, r.side = side ∧ r.price = price ∧ ⟨r.id, r.qty⟩ = e := by
  simp [levelOf, and_assoc]

/-- In flat terms the index is exact when it knows no id but the resting ones. -/
theorem RunInv.indexExact_iff (h : RunInv calls s b) :
    IndexExact s ↔ ∀ id, id ∈ s.index → id ∈ b.resting.map Resting.id := by
  constructor
  · intro hx id hid
    obtain ⟨loc, hloc⟩ := Option.isSome_iff_exists.mp (AList.lookup_isSome.mpr hid)
    obtain ⟨qty, hq⟩ := (hx.1 id loc).mp hloc
    rw [h.refines.queueAt_eq] at hq
    obtain ⟨r, hr, _, _, he⟩ := mem_levelOf.mp hq
    exact List.mem_map.mpr ⟨r, hr, congrArg LevelEntry.id he⟩
  · intro hx
    constructor
    · intro id loc
      rw [h.refines.queueAt_eq]
      simp only [mem_levelOf]
      constructor
      · intro hloc
        have hid : id ∈ s.index := AList.lookup_isSome.mp (by simp [hloc])
        obtain ⟨r, hr, rfl⟩ := List.mem_map.mp (hx id hid)
        have hr' := h.refines.index r hr
        rw [hloc] at hr'
        cases hr'
        exact ⟨r.qty, r, hr, rfl, rfl, rfl⟩
      · rintro ⟨qty, r, hr, hs, hp, he⟩
        have hid : r.id = id := congrArg LevelEntry.id he
        rw [← hid, h.refines.index r hr, hs, hp]
    · have hperm : s.index.keys.Perm (b.resting.map Resting.id) := by
        rw [List.perm_ext_iff_of_nodup s.index.keys_nodup h.inv.ids]
        intro id
        refine ⟨fun hid => hx id (AList.mem_keys.mpr hid), fun hid => ?_⟩
        obtain ⟨r, hr, rfl⟩ := List.mem_map.mp hid
        exact AList.mem_keys.mp (AList.lookup_isSome.mp (by simp [h.refines.index r hr]))
      have hk := hperm.length_eq
      have hq := h.refines.queuedEntries_perm.length_eq
      simp only [AList.keys, List.keys, List.length_map] at hk hq
      omega

theorem fillsHead_iff {side : Side} {book : Book side} {order : Order} {l : List Resting}
    (hside : order.side.opposite = side) (h : SideRefines book l) (ha : Arranged l) :
    fillsHead (crosses order.side order.price) order.qty book = true ↔ Exhausts order l := by
  unfold fillsHead
  cases hb : book.begin? with
  | none =>
    have hnone : ¬ Exhausts order l := by
      rintro ⟨r, hbest, _⟩
      obtain ⟨hr, hs, _⟩ := mem_candidates.mp (best?_mem hbest)
      exact h.begin?_eq_none hb hr (hs.trans hside)
    simpa using hnone
  | some e =>
    obtain ⟨price, queue⟩ := e
    obtain ⟨hf, ht⟩ := best?_of_begin? hside h ha hb
    cases hc : crosses order.side order.price price with
    | false =>
      have hnone : ¬ Exhausts order l := by
        rintro ⟨r, hbest, _⟩
        rw [hf hc] at hbest
        cases hbest
      cases queue <;> simpa [hc] using hnone
    | true =>
      obtain ⟨r, l₁, l₂, hbest, _, _, _, _, rfl⟩ := ht hc
      simp [hc, Exhausts, hbest]

theorem RunInv.fillsResting_iff (h : RunInv calls s b) (order : Order) :
    s.fillsResting (.addOrder order) = true ↔ Exhausts order b.resting := by
  cases hs : order.side with
  | buy =>
    have hopp : order.side.opposite = .sell := by rw [hs]; rfl
    rw [← fillsHead_iff hopp h.refines.asks h.inv.arranged]
    simp only [MatchingEngine.fillsResting, hs, crosses_buy]
  | sell =>
    have hopp : order.side.opposite = .buy := by rw [hs]; rfl
    rw [← fillsHead_iff hopp h.refines.bids h.inv.arranged]
    simp only [MatchingEngine.fillsResting, hs, crosses_sell]

/-- One call from a state with an exact index leaves it exact, unless it
exhausts a resting order. -/
theorem RunInv.step_indexExact (h : RunInv calls s b) {c : Call} (hf : FreshId calls c)
    (hx : IndexExact s) :
    ∃ o s' b', s.step c = some (o, s') ∧ RunInv (calls ++ [c]) s' b' ∧
      (IndexExact s' ↔ s.fillsResting c = false) := by
  rw [h.indexExact_iff] at hx
  cases c with
  | cancelOrder id =>
    obtain ⟨_, hr⟩ := h.cancelOrder id
    refine ⟨.cancelled (s.cancelOrder id).1, _, _, rfl, hr, ?_⟩
    refine iff_of_true ?_ rfl
    rw [hr.indexExact_iff]
    intro x hin
    have hin' := AList.lookup_isSome.mpr hin
    rw [cancelOrder_index] at hin'
    split_ifs at hin' with he
    · simp at hin'
    · obtain ⟨r, hr, hid⟩ := List.mem_map.mp (hx x (AList.lookup_isSome.mp hin'))
      refine List.mem_map.mpr ⟨r, List.mem_filter.mpr ⟨hr, ?_⟩, hid⟩
      simpa [hid] using he
  | addOrder order =>
    obtain ⟨m, s', hmatch, hm, _, hs, hr, hi⟩ := h.addOrder hf
    refine ⟨.trades m.trades, s', b.settle order m, by simp [MatchingEngine.step, hs], hr, ?_⟩
    have hfresh := h.fresh_resting hf
    have hids : ∀ x, x ∈ (b.settle order m).resting.map Resting.id ↔
        x ∈ m.resting.map Resting.id ∨ (0 < m.qty ∧ x = order.id) := by
      intro x
      unfold PriceTimeBook.settle
      by_cases hq : 0 < m.qty <;> simp [hq]
    have hkeys : ∀ x, x ∈ s'.index ↔ x ∈ s.index ∨ (0 < m.qty ∧ x = order.id) := by
      intro x
      rw [hi]
      by_cases hq : 0 < m.qty <;> simp [hq, or_comm]
    rw [← Bool.not_eq_true, h.fillsResting_iff, hr.indexExact_iff]
    constructor
    · intro hexact hex
      obtain ⟨r, hrl, hgone⟩ :=
        matchOrder_drops_of_exhausts h.inv.arranged h.inv.ids hmatch hex
      have hin : r.id ∈ s.index := AList.lookup_isSome.mp (by simp [h.refines.index r hrl])
      rcases (hids r.id).mp (hexact r.id ((hkeys r.id).mpr (Or.inl hin))) with hmem | ⟨_, he⟩
      · exact hgone hmem
      · exact hfresh (he ▸ List.mem_map_of_mem hrl)
    · intro hnot x hin
      have hsame := matchOrder_stamps_of_not_exhausts h.inv.arranged hmatch hnot
      have hsame' := congrArg (List.map Prod.fst) hsame
      rw [List.map_map, List.map_map] at hsame'
      rw [hids]
      refine ((hkeys x).mp hin).imp (fun hin => ?_) id
      have hxr := hx x hin
      rwa [show b.resting.map Resting.id = m.resting.map Resting.id from hsame'.symm] at hxr

end Flat

/-- Every state of the run that led to `s` has an exact index. -/
def RunExact (es : List (Event MatchingEngine Call Result)) (s : MatchingEngine) : Prop :=
  (∀ e ∈ es, IndexExact e.before) ∧ IndexExact s

theorem runExact_append {es : List (Event MatchingEngine Call Result)} {s s' : MatchingEngine}
    {c : Call} {o : Result} :
    RunExact (es ++ [⟨s, c, o⟩]) s' ↔ RunExact es s ∧ IndexExact s' := by
  simp only [RunExact, List.forall_mem_append, List.forall_mem_singleton]

theorem indexExact_init : IndexExact MatchingEngine.init :=
  RunInv.init.indexExact_iff.mpr (by simp [MatchingEngine.init])

theorem RunInv.step_runExact {es : List (Event MatchingEngine Call Result)} {s : MatchingEngine}
    {b : PriceTimeBook} (h : RunInv (es.map Event.call) s b)
    (hiff : RunExact es s ↔ ∀ e ∈ es, e.before.fillsResting e.call = false)
    {c : Call} (hf : FreshId (es.map Event.call) c) :
    ∃ o s', s.step c = some (o, s') ∧
      ∃ b', RunInv ((es ++ [Event.mk s c o]).map Event.call) s' b' ∧
        (RunExact (es ++ [⟨s, c, o⟩]) s' ↔
          ∀ e ∈ es ++ [Event.mk s c o], e.before.fillsResting e.call = false) := by
  by_cases hx : IndexExact s
  · obtain ⟨o, s', b', hs, hr', hstep⟩ := h.step_indexExact hf hx
    refine ⟨o, s', hs, b', by simpa using hr', ?_⟩
    rw [runExact_append, hstep, hiff, List.forall_mem_append, List.forall_mem_singleton]
  · obtain ⟨o, s', b', hs, _, hr'⟩ := h.step hf
    refine ⟨o, s', hs, b', by simpa using hr', ?_⟩
    refine iff_of_false (fun hex => hx (runExact_append.mp hex).1.2) ?_
    intro hall
    exact hx (hiff.mpr (fun e he => hall e (List.mem_append_left _ he))).2

/-- The index is exact in every state of a run exactly when no add of the run
exhausts a resting order. -/
theorem index_exact_iff_no_fill (calls : List Call) (h : DistinctIds calls) :
    ∃ es s, exec MatchingEngine.step .init calls = some (es, s) ∧
      (RunExact es s ↔ ∀ e ∈ es, e.before.fillsResting e.call = false) := by
  obtain ⟨es, s, hes, _, _, hiff⟩ := exec_total
    (fun es s => ∃ b, RunInv (es.map Event.call) s b ∧
      (RunExact es s ↔ ∀ e ∈ es, e.before.fillsResting e.call = false))
    (fun es s c hr hf => by
      obtain ⟨b, hr, hiff⟩ := hr
      exact hr.step_runExact hiff hf)
    ⟨PriceTimeBook.init, RunInv.init, by simp [RunExact, indexExact_init]⟩ h.admissible
  exact ⟨es, s, hes, hiff⟩

theorem index_exact_iff_no_fill_partial :
    let calls := [.addOrder ⟨1, .sell, 100, 5⟩, .addOrder ⟨2, .buy, 100, 3⟩, .cancelOrder 1]
    DistinctIds calls ∧
      ∃ es s, exec MatchingEngine.step .init calls = some (es, s) ∧
        (RunExact es s ↔ ∀ e ∈ es, e.before.fillsResting e.call = false) :=
  ⟨by decide, index_exact_iff_no_fill _ (by decide)⟩

/-- After a buy fills the only ask, the index still holds the filled id. -/
theorem index_keeps_filled_order :
    ¬ ∀ calls, DistinctIds calls → ∀ es s, exec MatchingEngine.step .init calls = some (es, s) →
      IndexExact s := by
  intro h
  have hx := h [.addOrder ⟨1, .sell, 100, 10⟩, .addOrder ⟨2, .buy, 100, 10⟩] (by decide) _ _ rfl
  exact absurd hx.2 (by decide)

end HftExercises.Matching
