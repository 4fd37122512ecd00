import HftExercises.Domain.MatchingEngineRuns

/-! # An order that never trades

Leaving out an order that never trades changes no other answer of the engine. Arrival
numbers shift when a call is left out, so the flat books are compared without them.
-/
namespace HftExercises.Matching

/-- A resting order without its arrival number. -/
def Resting.offer (r : Resting) : OrderId × Side × ℤ × ℤ := (r.id, r.side, r.price, r.qty)

/-- The second list has the orders of the first one, in the same order, but for one id. -/
def Hides (id : OrderId) (l l' : List Resting) : Prop :=
  l'.map Resting.offer = (l.filter fun r => r.id ≠ id).map Resting.offer

section Lists
variable {id : OrderId} {l l' l₁ l₂ : List Resting} {r : Resting}

theorem offer_eq_iff {r x : Resting} : r.offer = x.offer ↔
    r.id = x.id ∧ r.side = x.side ∧ r.price = x.price ∧ r.qty = x.qty := by
  simp [Resting.offer]

theorem Hides.split (h : Hides id (l₁ ++ r :: l₂) l') (hr : r.id ≠ id) :
    ∃ l₁' r' l₂', l' = l₁' ++ r' :: l₂' ∧ r'.offer = r.offer ∧ Hides id l₁ l₁' ∧
      Hides id l₂ l₂' := by
  rw [Hides, List.filter_append, List.filter_cons_of_pos (by simpa using hr), List.map_append,
    List.map_cons, List.map_eq_append_iff] at h
  obtain ⟨l₁', rest, rfl, h₁, hrest⟩ := h
  obtain ⟨r', l₂', rfl, hoffer, h₂⟩ := List.map_eq_cons_iff.mp hrest
  exact ⟨l₁', r', l₂', rfl, hoffer, h₁, h₂⟩

theorem Hides.append {m m' : List Resting} (h : Hides id l l') (hm : Hides id m m') :
    Hides id (l ++ m) (l' ++ m') := by
  rw [Hides, List.map_append, List.filter_append, List.map_append, h, hm]

theorem Hides.counterpart (h : Hides id l l') {x' : Resting} (hx : x' ∈ l') :
    ∃ x ∈ l, x.id ≠ id ∧ x'.offer = x.offer := by
  have hmem := List.mem_map_of_mem (f := Resting.offer) hx
  rw [h, List.mem_map] at hmem
  obtain ⟨x, hx, hoffer⟩ := hmem
  obtain ⟨hx, hne⟩ := List.mem_filter.mp hx
  exact ⟨x, hx, by simpa using hne, hoffer.symm⟩

/-- A predicate that reads no arrival number filters both lists alike. -/
theorem Hides.filter (h : Hides id l l') {p : Resting → Bool} {q : OrderId × Side × ℤ × ℤ → Bool}
    (hp : ∀ r, p r = q r.offer) : Hides id (l.filter p) (l'.filter p) := by
  have hfilter : ∀ k : List Resting, (k.filter p).map Resting.offer = (k.map Resting.offer).filter q := by
    intro k
    rw [List.filter_map]
    exact congrArg _ (List.filter_congr fun r _ => hp r)
  rw [Hides, hfilter, h, List.filter_filter, ← hfilter, List.filter_filter]
  exact congrArg _ (List.filter_congr fun r _ => Bool.and_comm ..)

theorem hides_leftover {r r' : Resting} (hr : r.id ≠ id) (hoffer : r'.offer = r.offer) (fill : ℤ) :
    Hides id (leftover fill r) (leftover fill r') := by
  obtain ⟨hid, hside, hprice, hqty⟩ := offer_eq_iff.mp hoffer
  unfold leftover
  rw [hqty]
  split_ifs
  · rfl
  · simp [Hides, Resting.offer, hr, hid, hside, hprice]

end Lists

/-! ## One match beside another -/

section Match
variable {id : OrderId} {order : Order} {l l' : List Resting}

theorem Hides.mem_candidates (h : Hides id l l') {x' : Resting} (hx : x' ∈ candidates order l') :
    ∃ x ∈ candidates order l, x.id ≠ id ∧ x'.offer = x.offer := by
  obtain ⟨hmem, hside, hcross⟩ := Matching.mem_candidates.mp hx
  obtain ⟨x, hx, hne, hoffer⟩ := h.counterpart hmem
  obtain ⟨-, hside', hprice, -⟩ := offer_eq_iff.mp hoffer
  exact ⟨x, Matching.mem_candidates.mpr ⟨hx, hside' ▸ hside, hprice ▸ hcross⟩, hne, hoffer⟩

/-- The best order is the same in both lists, unless it is the hidden one. -/
theorem Hides.best (ha : Arranged l) (ha' : Arranged l') {l₁ l₂ l₁' l₂' : List Resting}
    {r r' : Resting} (hl : l = l₁ ++ r :: l₂) (hl' : l' = l₁' ++ r' :: l₂')
    (hoffer : r'.offer = r.offer) (h₁ : Hides id l₁ l₁') (h₂ : Hides id l₂ l₂')
    (hbest : best? order l = some r) : best? order l' = some r' := by
  obtain ⟨-, hrside, hrcross⟩ := Matching.mem_candidates.mp (best?_mem hbest)
  obtain ⟨-, hside, hprice, -⟩ := offer_eq_iff.mp hoffer
  have hfirst := best?_unoutranked hbest
  subst hl hl'
  refine best?_eq_some ha' (Matching.mem_candidates.mpr ⟨by simp, hside ▸ hrside, hprice ▸ hrcross⟩) ?_
  intro x' hx' hout
  obtain ⟨hmem, hxside, hxcross⟩ := Matching.mem_candidates.mp hx'
  have hcounterpart : ∀ x ∈ l₁ ++ r :: l₂, x'.offer = x.offer → ¬ outranks order.side.opposite x r := by
    intro x hx hxoffer
    obtain ⟨-, hs, hp, -⟩ := offer_eq_iff.mp hxoffer
    exact hfirst x (Matching.mem_candidates.mpr ⟨hx, hs ▸ hxside, hp ▸ hxcross⟩)
  rcases List.mem_append.mp hmem with hx | hx
  · -- an older order: its counterpart is older than the best one too
    obtain ⟨x, hx, -, hxoffer⟩ := h₁.counterpart hx
    obtain ⟨-, -, hp, -⟩ := offer_eq_iff.mp hxoffer
    have holder : x.arrival < r.arrival :=
      (List.pairwise_append.mp ha).2.2 x hx r List.mem_cons_self
    refine hcounterpart x (List.mem_append_left _ hx) hxoffer ?_
    rcases hout with hbetter | ⟨hsame, -⟩
    · exact .inl (by rwa [← hp, ← hprice])
    · exact .inr ⟨by rw [← hp, ← hprice, hsame], holder⟩
  · rcases List.mem_cons.mp hx with rfl | hx
    · exact irrefl_of (outranks order.side.opposite) _ hout
    · -- a younger order outranks by its price alone
      obtain ⟨x, hx, -, hxoffer⟩ := h₂.counterpart hx
      obtain ⟨-, -, hp, -⟩ := offer_eq_iff.mp hxoffer
      have hyounger : r'.arrival < x'.arrival :=
        (List.pairwise_cons.mp (List.pairwise_append.mp ha').2.1).1 x' ‹_›
      refine hcounterpart x (List.mem_append_right _ (List.mem_cons_of_mem _ hx)) hxoffer ?_
      rcases hout with hbetter | ⟨-, hlt⟩
      · exact .inl (by rwa [← hp, ← hprice])
      · omega

/-- The two loops beside each other. -/
structure HidesMatch (id : OrderId) (m m' : Match) : Prop where
  resting : Hides id m.resting m'.resting
  qty : m.qty = m'.qty
  trades : m.trades = m'.trades
  arranged : Arranged m.resting
  arranged' : Arranged m'.resting

/-- The order has been traded with. -/
def Match.TradedWith (id : OrderId) (m : Match) : Prop := ∃ t ∈ m.trades, t.restingId = id

theorem HidesMatch.stop {m m' : Match} (h : HidesMatch id m m') (hg : matchGuard order m = false) :
    matchGuard order m' = false := by
  rw [matchGuard, Bool.and_eq_false_iff, decide_eq_false_iff_not, Option.isSome_eq_false_iff,
    Option.isNone_iff_eq_none] at hg ⊢
  rcases hg with hqty | hnone
  · exact .inl (h.qty ▸ hqty)
  · refine .inr (best?_eq_none_iff.mpr (List.eq_nil_iff_forall_not_mem.mpr fun x' hx' => ?_))
    obtain ⟨x, hx, -⟩ := h.resting.mem_candidates hx'
    rw [best?_eq_none_iff.mp hnone] at hx
    cases hx

theorem HidesMatch.body {m m' n : Match} (h : HidesMatch id m m') (hg : matchGuard order m = true)
    (hn : matchBody order m = some n) : n.TradedWith id ∨ matchGuard order m' = true ∧
      ∀ n', matchBody order m' = some n' → HidesMatch id n n' := by
  obtain ⟨hpos, hsome⟩ := Bool.and_eq_true_iff.mp hg
  obtain ⟨r, hbest⟩ := Option.isSome_iff_exists.mp hsome
  obtain ⟨l₁, l₂, hsplit⟩ := List.append_of_mem (Matching.mem_candidates.mp (best?_mem hbest)).1
  have harranged := h.arranged.of_stamps (matchBody_stamps hn)
  rw [matchBody_eq h.arranged hbest hsplit] at hn
  cases hn
  by_cases hr : r.id = id
  · exact .inl ⟨_, List.mem_append_right _ (List.mem_singleton_self _), hr⟩
  · obtain ⟨l₁', r', l₂', hsplit', hoffer, h₁, h₂⟩ := (hsplit ▸ h.resting).split hr
    have hbest' := Hides.best h.arranged h.arranged' hsplit hsplit' hoffer h₁ h₂ hbest
    refine .inr ⟨?_, fun n' hn' => ?_⟩
    · rw [matchGuard, ← h.qty, hpos, hbest']
      rfl
    · have harranged' := h.arranged'.of_stamps (matchBody_stamps hn')
      rw [matchBody_eq h.arranged' hbest' hsplit'] at hn'
      cases hn'
      obtain ⟨hid, -, hprice, hqty⟩ := offer_eq_iff.mp hoffer
      refine ⟨?_, ?_, ?_, harranged, harranged'⟩
      · dsimp only [Match.trade]
        rw [← h.qty, hqty]
        exact (h₁.append (hides_leftover hr hoffer _)).append h₂
      · dsimp only [Match.trade]
        rw [← h.qty, hqty]
      · dsimp only [Match.trade]
        rw [← h.qty, hqty, hid, hprice, h.trades]

/-- A match that does not trade with the hidden order is the same without it. -/
theorem matchOrder_hides {m m' : Match} (h : Hides id l l') (ha : Arranged l) (ha' : Arranged l')
    (hm : matchOrder order l = some m) (hm' : matchOrder order l' = some m')
    (huntraded : ¬ m.TradedWith id) : HidesMatch id m m' := by
  have hspoiled : ∀ n k : Match, n.TradedWith id → matchBody order n = some k → k.TradedWith id := by
    rintro n k ⟨t, ht, hid⟩ hk
    obtain ⟨r, -, rfl⟩ := Option.map_eq_some_iff.mp hk
    exact ⟨t, List.mem_append_left _ ht, hid⟩
  have hstart : HidesMatch id ⟨l, order.qty, []⟩ ⟨l', order.qty, []⟩ := ⟨h, rfl, rfl, ha, ha'⟩
  exact (whileLoop_related (HidesMatch id) (Match.TradedWith id) hspoiled
    (fun _ _ h hg => h.stop hg) (fun _ _ _ h hg hn => h.body hg hn) hstart hm hm').resolve_left
      huntraded

end Match

/-! ## One run beside another -/

/-- The id a call is about. -/
def Call.id : Call → OrderId
  | .addOrder order => order.id
  | .cancelOrder id => id

/-- Nothing that was traded is the order's. -/
def Result.Spares (id : OrderId) : Result → Prop
  | .trades ts => ∀ t ∈ ts, t.restingId ≠ id ∧ t.aggressorId ≠ id
  | .cancelled _ => True

instance (id : OrderId) (r : Result) : Decidable (r.Spares id) :=
  match r with
  | .trades ts => inferInstanceAs (Decidable (∀ t ∈ ts, t.restingId ≠ id ∧ t.aggressorId ≠ id))
  | .cancelled _ => inferInstanceAs (Decidable True)

section Steps
variable {id : OrderId} {b b' : PriceTimeBook}

theorem hides_settle_own {order : Order} (hid : order.id = id) {m : Match}
    (h : Hides id b.resting b'.resting) (hm : m = ⟨b.resting, order.qty, []⟩) :
    Hides id (b.settle order m).resting b'.resting := by
  rw [hm, PriceTimeBook.settle]
  split_ifs
  · rw [Hides, List.filter_append, List.filter_cons_of_neg (by simp [hid]), List.filter_nil,
      List.append_nil]
    exact h
  · exact h

theorem HidesMatch.settle {order : Order} (hid : order.id ≠ id) {m m' : Match}
    (h : HidesMatch id m m') :
    Hides id (b.settle order m).resting (b'.settle order m').resting := by
  unfold PriceTimeBook.settle
  rw [← h.qty]
  split_ifs
  · refine h.resting.append ?_
    simp [Hides, Resting.offer, hid]
  · exact h.resting

theorem Hides.cancel (h : Hides id b.resting b'.resting) {other : OrderId} (hne : other ≠ id) :
    (b'.cancelOrder other).1 = (b.cancelOrder other).1 ∧
      Hides id (b.cancelOrder other).2.resting (b'.cancelOrder other).2.resting := by
  refine ⟨?_, h.filter (q := fun o => decide (o.1 ≠ other)) fun r => rfl⟩
  rw [Bool.eq_iff_iff, PriceTimeBook.cancelOrder, PriceTimeBook.cancelOrder, List.any_eq_true,
    List.any_eq_true]
  constructor
  · rintro ⟨x', hx', hxid⟩
    obtain ⟨x, hx, -, hoffer⟩ := h.counterpart hx'
    exact ⟨x, hx, (offer_eq_iff.mp hoffer).1 ▸ hxid⟩
  · rintro ⟨x, hx, hxid⟩
    obtain ⟨l₁, l₂, hsplit⟩ := List.append_of_mem hx
    have hxne : x.id ≠ id := fun heq => hne ((beq_iff_eq.mp hxid).symm.trans heq)
    obtain ⟨l₁', x', l₂', hsplit', hoffer, -⟩ := (hsplit ▸ h).split hxne
    exact ⟨x', by simp [hsplit'], (offer_eq_iff.mp hoffer).1.symm ▸ hxid⟩

theorem hides_cancel_own (h : Hides id b.resting b'.resting) :
    Hides id (b.cancelOrder id).2.resting b'.resting := by
  rw [Hides, PriceTimeBook.cancelOrder, List.filter_filter]
  simpa [Hides] using h

theorem Hides.levelOf (h : Hides id b.resting b'.resting) (side : Side) (price : ℤ) :
    levelOf b'.resting side price =
      (levelOf b.resting side price).filter (fun e => !(e.id == id)) := by
  have hlevel : ∀ l : List Resting, Matching.levelOf l side price =
      ((l.map Resting.offer).filter fun o => o.2.1 = side && o.2.2.1 = price).map
        fun o => ⟨o.1, o.2.2.2⟩ := by
    intro l
    rw [List.filter_map, List.map_map]
    rfl
  rw [← levelOf_filter_id, hlevel, h, ← hlevel]

end Steps

/-- The calls that are not about the order. -/
def others (id : OrderId) (calls : List Call) : List Call := calls.filter fun c => c.id ≠ id

section Runs
variable {id : OrderId} {calls : List Call} {s t : MatchingEngine} {b b' : PriceTimeBook}

theorem FreshId.others {c : Call} (h : FreshId calls c) : FreshId (others id calls) c := by
  cases c with
  | addOrder order => exact fun hmem => h ((List.filter_sublist.filterMap _).subset hmem)
  | cancelOrder id => trivial

theorem others_append_own {c : Call} (h : c.id = id) :
    others id (calls ++ [c]) = others id calls := by
  simp [others, h]

theorem others_append_other {c : Call} (h : c.id ≠ id) :
    others id (calls ++ [c]) = others id calls ++ [c] := by
  simp [others, h]

/-- A call about the order itself is unseen by the engine that never heard of it. -/
theorem RunInv.step_own (h : RunInv calls s b) {c : Call} (hf : FreshId calls c) (hc : c.id = id)
    {o : Result} {s' : MatchingEngine} (hstep : s.step c = some (o, s')) (ho : o.Spares id)
    (hides : Hides id b.resting b'.resting) :
    ∃ b₁, RunInv (calls ++ [c]) s' b₁ ∧ Hides id b₁.resting b'.resting := by
  cases c with
  | addOrder order =>
    obtain ⟨m, s₁, hmatch, hm, -, hs, hr, -⟩ := h.addOrder hf
    rw [MatchingEngine.step, hs] at hstep
    cases hstep
    have hnone : m.trades = [] := by
      refine List.eq_nil_iff_forall_not_mem.mpr fun t ht => ?_
      exact (ho t ht).2 ((hm.trades t ht).2.1.trans hc)
    exact ⟨_, hr, hides_settle_own hc hides (matchOrder_eq_of_no_trades hmatch hnone)⟩
  | cancelOrder other =>
    cases hstep
    obtain rfl : other = id := hc
    exact ⟨_, (h.cancelOrder other).2, hides_cancel_own hides⟩

/-- A call about another order is answered alike with and without this one. -/
theorem RunInv.step_other (h : RunInv calls s b) (h' : RunInv (others id calls) t b') {c : Call}
    (hf : FreshId calls c) (hc : c.id ≠ id) {o : Result} {s' : MatchingEngine}
    (hstep : s.step c = some (o, s')) (ho : o.Spares id) (hides : Hides id b.resting b'.resting) :
    ∃ b₁ t' b₁', t.step c = some (o, t') ∧ RunInv (calls ++ [c]) s' b₁ ∧
      RunInv (others id calls ++ [c]) t' b₁' ∧ Hides id b₁.resting b₁'.resting := by
  cases c with
  | addOrder order =>
    obtain ⟨m, s₁, hmatch, -, -, hs, hr, -⟩ := h.addOrder hf
    obtain ⟨m', t₁, hmatch', -, -, ht, hr', -⟩ := h'.addOrder hf.others
    rw [MatchingEngine.step, hs] at hstep
    cases hstep
    have huntraded : ¬ m.TradedWith id := by
      rintro ⟨t, ht, hid⟩
      exact (ho t ht).1 hid
    have hmatches := matchOrder_hides hides h.inv.arranged h'.inv.arranged hmatch hmatch' huntraded
    refine ⟨_, t₁, _, ?_, hr, hr', hmatches.settle hc⟩
    rw [MatchingEngine.step, ht, Option.map_some, hmatches.trades]
  | cancelOrder other =>
    cases hstep
    have hne : other ≠ id := hc
    obtain ⟨hfound, hhides⟩ := hides.cancel hne
    obtain ⟨hs, hr⟩ := h.cancelOrder other
    obtain ⟨ht, hr'⟩ := h'.cancelOrder other
    refine ⟨_, _, _, ?_, hr, hr', hhides⟩
    rw [MatchingEngine.step, ht, hfound, ← hs]

end Runs

/-- The run without the order, as far as it has come. -/
def Shadowed (id : OrderId) (es : List (Event MatchingEngine Call Result)) (s : MatchingEngine) :
    Prop :=
  DistinctIds (es.map Event.call) → (∀ e ∈ es, e.result.Spares id) → ∃ fs t b b',
    exec MatchingEngine.step .init (others id (es.map Event.call)) = some (fs, t) ∧
      fs.map Event.result = (es.filter fun e => e.call.id ≠ id).map Event.result ∧
      RunInv (es.map Event.call) s b ∧ RunInv (others id (es.map Event.call)) t b' ∧
      Hides id b.resting b'.resting

theorem Shadowed.step {id : OrderId} {es : List (Event MatchingEngine Call Result)}
    {s s' : MatchingEngine} (h : Shadowed id es s) {c : Call} {o : Result}
    (hstep : s.step c = some (o, s')) : Shadowed id (es ++ [⟨s, c, o⟩]) s' := by
  intro hdistinct hspares
  rw [List.map_append, List.map_singleton] at hdistinct ⊢
  rw [List.forall_mem_append, List.forall_mem_singleton] at hspares
  obtain ⟨hearlier, hfresh⟩ := admissible_append_singleton.mp hdistinct.admissible
  have hbefore : DistinctIds (es.map Event.call) := by
    rw [DistinctIds, addedIds_append] at hdistinct
    exact hdistinct.of_append_left
  obtain ⟨fs, t, b, b', hrun, hresults, hr, hr', hides⟩ := h hbefore hspares.1
  by_cases hc : c.id = id
  · obtain ⟨b₁, hr₁, hides₁⟩ := hr.step_own hfresh hc hstep hspares.2 hides
    refine ⟨fs, t, b₁, b', ?_, ?_, hr₁, ?_, hides₁⟩
    · rw [others_append_own hc, hrun]
    · rw [List.filter_append, List.filter_cons_of_neg (by simpa using hc), List.filter_nil,
        List.append_nil, hresults]
    · rw [others_append_own hc]
      exact hr'
  · obtain ⟨b₁, t', b₁', ht, hr₁, hr₁', hides₁⟩ := hr.step_other hr' hfresh hc hstep hspares.2 hides
    refine ⟨fs ++ [⟨t, c, o⟩], t', b₁, b₁', ?_, ?_, hr₁, ?_, hides₁⟩
    · rw [others_append_other hc]
      exact exec_snoc hrun ht
    · rw [List.filter_append, List.filter_cons_of_pos (by simpa using hc), List.filter_nil,
        List.map_append, List.map_append, hresults]
      rfl
    · rw [others_append_other hc]
      exact hr₁'

/-- An order that never trades is invisible: without it every other call is answered the
same, and every level ends up the same but for the order itself. -/
theorem untraded_order_invisible {calls : List Call} (hdistinct : DistinctIds calls) {id : OrderId}
    {es : List (Event MatchingEngine Call Result)} {s : MatchingEngine}
    (hrun : exec MatchingEngine.step .init calls = some (es, s))
    (huntraded : ∀ e ∈ es, e.result.Spares id) :
    ∃ fs t, exec MatchingEngine.step .init (calls.filter fun c => c.id ≠ id) = some (fs, t) ∧
      fs.map Event.result = (es.filter fun e => e.call.id ≠ id).map Event.result ∧
      ∀ side price,
        t.queueAt side price = (s.queueAt side price).filter (fun e => !(e.id == id)) := by
  have hstart : Shadowed id [] MatchingEngine.init :=
    fun _ _ => ⟨[], .init, .init, .init, rfl, rfl, RunInv.init, RunInv.init, rfl⟩
  have hshadow := exec_invariant (Shadowed id) (fun _ _ _ _ _ h hstep => h.step hstep) hstart hrun
  have hcalls := exec_calls hrun
  rw [Shadowed, hcalls] at hshadow
  obtain ⟨fs, t, b, b', hshadowed, hresults, hr, hr', hides⟩ := hshadow hdistinct huntraded
  refine ⟨fs, t, hshadowed, hresults, fun side price => ?_⟩
  rw [hr.refines.queueAt_eq, hr'.refines.queueAt_eq]
  exact hides.levelOf side price

/-- A bid at the best price that is passed over in time priority, and cancelled. -/
theorem untraded_order_invisible_queued :
    ∃ fs t, exec MatchingEngine.step .init
        [.addOrder ⟨1, .buy, 100, 5⟩, .addOrder ⟨3, .sell, 100, 4⟩, .addOrder ⟨4, .sell, 101, 1⟩] =
          some (fs, t) ∧
      fs.map Event.result = [.trades [], .trades [⟨1, 3, 100, 4⟩], .trades []] ∧
      t.queueAt .buy 100 = [⟨1, 1⟩] := by
  have hrun : exec MatchingEngine.step .init
      [.addOrder ⟨1, .buy, 100, 5⟩, .addOrder ⟨2, .buy, 100, 7⟩, .addOrder ⟨3, .sell, 100, 4⟩,
        .cancelOrder 2, .addOrder ⟨4, .sell, 101, 1⟩] = some (_, _) := rfl
  obtain ⟨fs, t, hfs, hresults, hqueue⟩ :=
    @untraded_order_invisible _ (by decide) 2 _ _ hrun (by decide)
  exact ⟨fs, t, hfs, hresults, hqueue .buy 100⟩

end HftExercises.Matching
