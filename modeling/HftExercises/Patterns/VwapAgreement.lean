import HftExercises.Core.ListFacts
import HftExercises.Logic.VwapSlicer
import HftExercises.Patterns.VwapExecution

/-! # The slicer and the strategy round alike

One sorts the remainders once, the other searches for the largest again and again with
a tolerance. Both serve the slots that are ahead of all others.
-/
namespace HftExercises.Strategies
open Apportionment Slicing

section Sorted
variable {total : ℤ} {norm : List ℚ} {f : Floored}

theorem sortsBefore_iff (a b : WeightedSlice) :
    (!sortsBefore b a) = true ↔
      b.remainder < a.remainder ∨ a.remainder = b.remainder ∧ a.index ≤ b.index := by
  unfold sortsBefore
  rcases lt_trichotomy a.remainder b.remainder with hlt | heq | hgt
  · simp [hlt.ne', hlt, hlt.not_gt, hlt.ne]
  · simp [heq]
  · simp [hgt.ne, hgt, hgt.le]

theorem Floored.sorted_pairwise (f : Floored) :
    f.sorted.Pairwise fun a b =>
      b.remainder < a.remainder ∨ a.remainder = b.remainder ∧ a.index ≤ b.index := by
  refine (List.pairwise_mergeSort ?_ ?_ f.slices).imp fun {a b} => (sortsBefore_iff a b).mp
  · intro a b c hab hbc
    rw [sortsBefore_iff] at hab hbc ⊢
    rcases hab with hab | ⟨heq, hab⟩ <;> rcases hbc with hbc | ⟨heq', hbc⟩
    · exact .inl (hbc.trans hab)
    · exact .inl (heq' ▸ hab)
    · exact .inl (heq ▸ hbc)
    · exact .inr ⟨heq.trans heq', hab.trans hbc⟩
  · intro a b
    rw [Bool.or_eq_true, sortsBefore_iff, sortsBefore_iff]
    rcases lt_trichotomy a.remainder b.remainder with hlt | heq | hgt
    · exact .inr (.inl hlt)
    · rcases le_total a.index b.index with hle | hle
      · exact .inl (.inr ⟨heq, hle⟩)
      · exact .inr (.inr ⟨heq.symm, hle⟩)
    · exact .inl (.inl hgt)

/-- The strategy serves the slots that are ahead. -/
theorem FlooredInv.topServed (hf : FlooredInv total norm f) (hnorm : ∀ x ∈ norm, 0 ≤ x)
    (hleft : 0 ≤ total - f.assigned) :
    TopServed (norm.map fun x : ℚ => total * x) (f.handed total) := by
  have hslot : ∀ {i : ℕ} {x : ℚ}, norm[i]? = some x →
      (norm.map fun x : ℚ => total * x)[i]? = some (total * x) := by
    intro i x hx
    rw [List.getElem?_map, hx, Option.map_some]
  refine ⟨⟨hf.handed_nodup, ?_⟩, ?_⟩
  · intro i hi
    obtain ⟨x, hx, -, hrem⟩ := hf.handed_slice hi
    exact ⟨_, hslot hx, hrem⟩
  · intro i hi j hj hout
    have hhanded : f.handed total =
        (f.sorted.take (total - f.assigned).toNat).map WeightedSlice.index := by
      rw [Floored.handed, if_pos hleft]
    rw [hhanded] at hi hout
    obtain ⟨a, ha, rfl⟩ := List.mem_map.mp hi
    obtain ⟨x, hx, -, harem, hapos⟩ :=
      (hf.mem a).mp (f.sorted_perm.mem_iff.mp (List.mem_of_mem_take ha))
    rw [List.length_map] at hj
    obtain ⟨y, hy⟩ : ∃ y, norm[j]? = some y := ⟨_, List.getElem?_eq_getElem hj⟩
    refine ⟨_, _, hslot hx, hslot hy, ?_⟩
    rw [← harem]
    by_cases hzero : 0 < Int.fract (total * y)
    · have hypos : 0 < y := by
        refine lt_of_le_of_ne (hnorm y (List.mem_of_getElem? hy)) ?_
        rintro rfl
        simp at hzero
      have hb : (⟨j, Int.fract (total * y)⟩ : WeightedSlice) ∈ f.sorted :=
        f.sorted_perm.mem_iff.mpr ((hf.mem _).mpr ⟨y, hy, hypos, rfl, hzero⟩)
      rw [← List.take_append_drop (total - f.assigned).toNat f.sorted] at hb
      rcases List.mem_append.mp hb with hb | hb
      · exact absurd (List.mem_map.mpr ⟨_, hb, rfl⟩) hout
      · have hpairs := f.sorted_pairwise
        rw [← List.take_append_drop (total - f.assigned).toNat f.sorted] at hpairs
        rcases (List.pairwise_append.mp hpairs).2.2 a ha _ hb with hlt | ⟨heq, hle⟩
        · exact .inl hlt
        · refine .inr ⟨heq, lt_of_le_of_ne hle ?_⟩
          rintro rfl
          exact hout hi
    · exact .inl (lt_of_le_of_lt (not_lt.mp hzero) hapos)

end Sorted

section Search
variable {fracs : List ℚ} {m : ℚ}

theorem search_keep (hmax : ∀ x ∈ fracs, x ≤ m) (i best : ℕ) :
    search fracs i (best, m) = (best, m) := by
  induction fracs generalizing i with
  | nil => rfl
  | cons x fracs ih =>
    obtain ⟨hx, hrest⟩ := List.forall_mem_cons.mp hmax
    have hlow : ¬ x > m + tolerance :=
      not_lt.mpr (hx.trans (le_add_of_nonneg_right tolerance_pos.le))
    rw [search, if_neg hlow, ih hrest]

/-- The search finds the first of the largest remainders, when all smaller ones are below
it by more than the tolerance. -/
theorem search_first (hmax : ∀ x ∈ fracs, x ≤ m) {j : ℕ} (hj : fracs[j]? = some m)
    (hapart : ∀ k < j, ∀ x, fracs[k]? = some x → x + tolerance < m) (i best : ℕ) {bestFrac : ℚ}
    (hbest : bestFrac + tolerance < m) : search fracs i (best, bestFrac) = (i + j, m) := by
  induction fracs generalizing i j best bestFrac with
  | nil => simp at hj
  | cons x fracs ih =>
    have hrest := (List.forall_mem_cons.mp hmax).2
    rw [search]
    cases j with
    | zero =>
      obtain rfl := Option.some.inj hj
      rw [if_pos hbest]
      exact search_keep hrest (i + 1) i
    | succ j =>
      have hapart' : ∀ k < j, ∀ y, fracs[k]? = some y → y + tolerance < m :=
        fun k hk y hy => hapart (k + 1) (Nat.succ_lt_succ hk) y hy
      have hindex : i + 1 + j = i + (j + 1) := by omega
      split_ifs
      · rw [ih hrest hj hapart' (i + 1) i (hapart 0 (Nat.zero_lt_succ j) x rfl), hindex]
      · rw [ih hrest hj hapart' (i + 1) best hbest, hindex]

end Search

/-- The remainders of the shares are equal or more than the tolerance apart. -/
def Apart (xs : List ℚ) : Prop :=
  ∀ x ∈ xs, ∀ y ∈ xs, Int.fract x = Int.fract y ∨ tolerance < |Int.fract x - Int.fract y|

section Rounding
variable {s : VwapSlicer} {r : Rounding}

/-- Among fewer than `10 ^ 12` slots with a whole unit to serve, the largest remainder is
more than the tolerance. -/
theorem tolerance_lt_max {fracs : List ℚ} {m : ℚ} (hlength : fracs.length < 10 ^ 12)
    (hsum : 1 ≤ fracs.sum) (hmax : ∀ x ∈ fracs, x ≤ m) : tolerance < m := by
  by_contra hle
  have hshare : fracs.sum ≤ fracs.length * m := by
    rw [← nsmul_eq_mul]
    exact List.sum_le_card_nsmul _ _ hmax
  have hless : fracs.length * m ≤ fracs.length * tolerance :=
    mul_le_mul_of_nonneg_left (not_lt.mp hle) (Nat.cast_nonneg _)
  have hcount : (fracs.length : ℚ) < 10 ^ 12 := by exact_mod_cast hlength
  have hunit : (fracs.length : ℚ) * tolerance < 10 ^ 12 * tolerance :=
    mul_lt_mul_of_pos_right hcount tolerance_pos
  have hone : (10 : ℚ) ^ 12 * tolerance = 1 := by norm_num [tolerance]
  linarith

theorem remainder_slot (hr : s.RoundingInv r) (htop : TopServed s.ideal r.served) (i : ℕ) :
    (remainders s.ideal r.qty)[i]? =
      s.ideal[i]?.map fun x => Int.fract x - if i ∈ r.served then 1 else 0 := by
  rw [hr.qty]
  exact htop.getElem?_remainders i

/-- A slot that was not served has the largest remainder, or one below it by more than the
tolerance. -/
theorem remainder_below (hapart : Apart s.ideal) (hr : s.RoundingInv r)
    (htop : TopServed s.ideal r.served) {x y : ℚ} {k : ℕ} (hx : x ∈ s.ideal)
    (hmax : ∀ z ∈ remainders s.ideal r.qty, z ≤ Int.fract x) (hy : s.ideal[k]? = some y)
    (hout : k ∉ r.served) : Int.fract y = Int.fract x ∨ Int.fract y + tolerance < Int.fract x := by
  have hslot : (remainders s.ideal r.qty)[k]? = some (Int.fract y) := by
    rw [remainder_slot hr htop, hy, Option.map_some, if_neg hout, sub_zero]
  have hle := hmax _ (List.mem_of_getElem? hslot)
  rcases hapart x hx y (List.mem_of_getElem? hy) with heq | hgap
  · exact .inl heq.symm
  · rw [abs_of_nonneg (sub_nonneg.mpr hle)] at hgap
    exact .inr (by linarith)

/-- The search finds the slot that is ahead of all that were not served. -/
theorem search_ahead (hs : s.Valid) (hapart : Apart s.ideal) (hr : s.RoundingInv r)
    (htop : TopServed s.ideal r.served) (hleft : 0 < r.leftover) :
    ∃ j x, (search (remainders s.ideal r.qty) 0 (0, -1)).1 = j ∧ s.ideal[j]? = some x ∧
      (remainders s.ideal r.qty)[j]? = some (Int.fract x) ∧ 0 < Int.fract x ∧
      ∀ k y, s.ideal[k]? = some y → k ∉ r.served → k ≠ j →
        Int.fract y < Int.fract x ∨ Int.fract x = Int.fract y ∧ j < k := by
  have hslot := remainder_slot hr htop
  have hlength : (remainders s.ideal r.qty).length < 10 ^ 12 := by
    rw [remainders, List.length_zipWith, ← hr.qty_length, Nat.min_self, VwapSlicer.ideal_length]
    exact hs.short
  have hunit : 1 ≤ (remainders s.ideal r.qty).sum := by
    rw [hr.remainders_sum hs]
    exact_mod_cast hleft
  have hne : remainders s.ideal r.qty ≠ [] := by
    intro h
    norm_num [h] at hunit
  obtain ⟨j, m, hj, hmax, hfirst⟩ := exists_first_max hne
  have hm : tolerance < m := tolerance_lt_max hlength hunit hmax
  have htol := tolerance_pos
  obtain ⟨x, hx, rfl⟩ : ∃ x, s.ideal[j]? = some x ∧ m = Int.fract x := by
    rw [hslot] at hj
    obtain ⟨x, hx, hxm⟩ := Option.map_eq_some_iff.mp hj
    have hlt := Int.fract_lt_one x
    split_ifs at hxm with hserved
    · linarith
    · exact ⟨x, hx, by rw [← hxm, sub_zero]⟩
  have hbelow := fun {k y} => @remainder_below s r hapart hr htop x y k (List.mem_of_getElem? hx) hmax
  have hearlier : ∀ k < j, ∀ z, (remainders s.ideal r.qty)[k]? = some z →
      z + tolerance < Int.fract x := by
    intro k hk z hz
    have hlt := hfirst k hk z hz
    rw [hslot] at hz
    obtain ⟨y, hy, rfl⟩ := Option.map_eq_some_iff.mp hz
    by_cases hserved : k ∈ r.served
    · have hone := Int.fract_lt_one y
      rw [if_pos hserved]
      linarith
    · rw [if_neg hserved, sub_zero] at hlt ⊢
      exact (hbelow hy hserved).resolve_left hlt.ne
  refine ⟨j, x, ?_, hx, hj, htol.trans hm, ?_⟩
  · rw [search_first hmax hj hearlier 0 0 (by linarith), Nat.zero_add]
  · intro k y hy hout hkj
    rcases hbelow hy hout with heq | hlt
    · refine .inr ⟨heq.symm, lt_of_not_ge fun hle => ?_⟩
      have hk : (remainders s.ideal r.qty)[k]? = some (Int.fract x) := by
        rw [hslot, hy, Option.map_some, if_neg hout, sub_zero, heq]
      exact (hfirst k (lt_of_le_of_ne hle hkj) _ hk).false
    · exact .inl ((lt_add_of_pos_right _ htol).trans hlt)

theorem serve_topServed (hs : s.Valid) (hapart : Apart s.ideal) (hr : s.RoundingInv r)
    (htop : TopServed s.ideal r.served) (hleft : 0 < r.leftover) :
    TopServed s.ideal (serve s.ideal r).served := by
  obtain ⟨j, x, hbest, hx, hj, hpos, hahead⟩ := search_ahead hs hapart hr htop hleft
  unfold serve
  dsimp only
  rw [hbest]
  rw [hr.qty] at hj
  refine ⟨htop.append hj hpos, ?_⟩
  intro i hi k hk hout
  rw [List.mem_append, not_or, List.mem_singleton] at hout
  rcases List.mem_append.mp hi with hi | hi
  · exact htop.top i hi k hk hout.1
  · obtain rfl := List.mem_singleton.mp hi
    have hy := List.getElem?_eq_getElem hk
    exact ⟨x, _, hx, hy, hahead k _ hy hout.1 hout.2⟩

end Rounding

/-- The whole parts of the shares are those that the strategy starts from. -/
theorem floors_ideal {s : VwapSlicer} (hnonneg : ∀ f ∈ s.fractions, 0 ≤ f)
    (hsum : 0 < s.fractions.sum) :
    floors s.ideal = (s.fractions.map fun f => f / s.fractions.sum).map fun x : ℚ =>
      if x ≤ 0 then 0 else ⌊s.totalQty * x⌋ := by
  rw [floors, VwapSlicer.ideal, List.map_map, List.map_map]
  refine List.map_congr_left fun f hf => ?_
  simp only [Function.comp_apply]
  split_ifs with hzero
  · have hshare := le_antisymm hzero (div_nonneg (hnonneg f hf) hsum.le)
    rw [hshare, mul_zero, Int.floor_zero]
  · rfl

/-- The quantities of the strategy are those of the loop of the slicer. -/
theorem quantities_eq_round {s : VwapSlicer} (hs : s.Valid) (hapart : Apart s.ideal) {fuel : ℕ}
    (hfuel : s.fractions.length ≤ fuel) :
    ∃ r, s.round fuel = some r ∧ r.qty.sum = s.totalQty ∧ r.qty.length = s.fractions.length ∧
      VwapExecutionStrategy.quantities s.totalQty
        (s.fractions.map fun f => f / s.fractions.sum) = r.qty := by
  obtain ⟨r, hround, hr, htop, hdone⟩ := hs.round_run topServed_nil
    (fun _ hr htop hleft => serve_topServed hs hapart hr htop hleft) hfuel
  have hqty : r.qty.sum = s.totalQty := by
    have hleft := hr.leftover
    omega
  refine ⟨r, hround, hqty, by rw [← hr.qty_length, VwapSlicer.ideal_length], ?_⟩
  obtain ⟨norm, hnorm⟩ : ∃ norm, norm = s.fractions.map fun f => f / s.fractions.sum := ⟨_, rfl⟩
  have hf := flooredInv s.totalQty norm
  rw [← hnorm, quantities_eq]
  obtain ⟨f, hdef⟩ : ∃ f, f = norm.foldl (floorSlice s.totalQty) ⟨[], [], 0⟩ := ⟨_, rfl⟩
  rw [← hdef] at hf ⊢
  dsimp only
  have hstart : f.qty = floors s.ideal := by rw [hf.qty, floors_ideal hs.nonneg hs.sum, hnorm]
  have hassigned : f.assigned = (floors s.ideal).sum := by rw [hf.assigned, hstart]
  have hfit : 0 ≤ s.totalQty - f.assigned := hassigned ▸ hs.leftover_bounds.1
  have hshares : (norm.map fun x : ℚ => s.totalQty * x) = s.ideal := by
    rw [hnorm, List.map_map]
    rfl
  have hhanded : TopServed s.ideal (f.handed s.totalQty) := by
    rw [← hshares]
    refine hf.topServed (fun x hx => ?_) hfit
    rw [hnorm] at hx
    obtain ⟨w, hw, rfl⟩ := List.mem_map.mp hx
    exact div_nonneg (hs.nonneg w hw) hs.sum.le
  have hcount : (f.handed s.totalQty).length = r.served.length := by
    have hserved := hr.served.sum
    rw [← hr.qty, hqty, ← hassigned] at hserved
    rw [hnorm] at hf
    have hleft := @leftover_le ⟨0, .buy, s.totalQty, 0, 0, s.fractions, false⟩ hs.sum f hf hs.total
    rcases Floored.handed_length hleft with ⟨hsame, -⟩ | ⟨hover, -⟩
    · dsimp only at hsame
      omega
    · dsimp only at hover
      omega
  rw [hstart, hhanded.bump_eq htop hcount, ← hr.qty]

/-- The quantities of a plan are those of the loop. -/
theorem plan_qty {s : VwapSlicer} (htotal : 0 < s.totalQty) (hsum : 0 < s.fractions.sum)
    {fuel : ℕ} {r : Rounding} (hround : s.round fuel = some r) (hqty : r.qty.sum = s.totalQty)
    (hlength : r.qty.length = s.fractions.length) :
    ∃ slices, s.plan fuel = some slices ∧ slices.map Slice.qty = r.qty := by
  rw [VwapSlicer.plan_eq_of_pos htotal hsum, hround, Option.map_some]
  refine ⟨_, rfl, ?_⟩
  split_ifs with hone
  · obtain ⟨q, hq⟩ := List.length_eq_one_iff.mp (hlength.trans hone)
    rw [hq, List.sum_singleton] at hqty
    rw [hq, hqty]
    rfl
  · rw [List.map_map]
    refine List.map_fst_zip ?_
    rw [sendTimes_length, hlength]

/-- The slicer and the strategy cut a parent order into the same quantities. -/
theorem vwapSlicer_agrees {s : VwapSlicer} (htotal : 0 < s.totalQty)
    (hnonneg : ∀ f ∈ s.fractions, 0 ≤ f) (hsum : 0 < s.fractions.sum)
    (hshort : s.fractions.length < 10 ^ 12) (hapart : Apart s.ideal) {ctx : ExecutionContext ℤ}
    (hqty : ctx.totalQty = s.totalQty) (hweights : ctx.weights = s.fractions) {fuel : ℕ}
    (hfuel : s.fractions.length ≤ fuel) :
    ∃ slices, s.plan fuel = some slices ∧
      (slices.map Slice.qty).filter (· ≠ 0) =
        (VwapExecutionStrategy.run ctx).map ChildOrder.qty ∧
      (VwapExecutionStrategy.run ctx).map ChildOrder.seq =
        (List.range (VwapExecutionStrategy.run ctx).length).map (fun (k : ℕ) => (k : ℤ) + 1) ∧
      (slices.map Slice.qty).sum = s.totalQty ∧
      ((VwapExecutionStrategy.run ctx).map ChildOrder.qty).sum = s.totalQty := by
  -- the rounding does not depend on the duration
  have hvalid : ({ s with duration := 0 } : VwapSlicer).Valid :=
    ⟨htotal, le_rfl, hnonneg, hsum, hshort⟩
  obtain ⟨r, hround, hrsum, hrlength, hquantities⟩ := quantities_eq_round hvalid hapart hfuel
  obtain ⟨slices, hplan, hslices⟩ := plan_qty (s := s) htotal hsum hround hrsum hrlength
  have htotal' : 0 < ctx.totalQty := hqty ▸ htotal
  have hsum' : 0 < ctx.weights.sum := hweights ▸ hsum
  have hrun : VwapExecutionStrategy.run ctx = emit ctx r.qty 0 := by
    rw [VwapExecutionStrategy.run_eq htotal' hsum', hqty, hweights]
    exact congrArg (emit ctx · 0) hquantities
  refine ⟨slices, hplan, ?_, ?_, ?_, ?_⟩
  · rw [hslices, hrun, emit_qty]
  · rw [hrun, emit_seq]
    exact List.map_congr_left fun k _ => by rw [zero_add]
  · rw [hslices]
    exact hrsum
  · rw [hrun, emit_qty, sum_filter_ne_zero]
    exact hrsum

/-- Three units over two equal buckets: a tie in the remainders. -/
theorem vwapSlicer_agrees_tie :
    ∃ slices, (VwapSlicer.mk 3 1000 [1, 1]).plan 2 = some slices ∧
      (slices.map Slice.qty).filter (· ≠ 0) =
        (VwapExecutionStrategy.run ⟨7, .sell, 3, 0, 1, [1, 1], false⟩).map ChildOrder.qty := by
  have hideal : (VwapSlicer.mk 3 1000 [1, 1]).ideal = List.replicate 2 (3 / 2) := by
    norm_num [VwapSlicer.ideal, List.replicate]
  have hapart : Apart (VwapSlicer.mk 3 1000 [1, 1]).ideal := by
    rw [hideal]
    intro x hx y hy
    rw [List.eq_of_mem_replicate hx, List.eq_of_mem_replicate hy]
    exact .inl rfl
  obtain ⟨slices, hplan, hsame, -⟩ := @vwapSlicer_agrees ⟨3, 1000, [1, 1]⟩
    (by norm_num) (by norm_num) (by norm_num) (by norm_num) hapart
    ⟨7, .sell, 3, 0, 1, [1, 1], false⟩ rfl rfl 2 le_rfl
  exact ⟨slices, hplan, hsame⟩

end HftExercises.Strategies
