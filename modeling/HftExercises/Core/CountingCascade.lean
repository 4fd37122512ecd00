import Mathlib.Algebra.BigOperators.Group.Finset.Basic
import Mathlib.Algebra.Order.BigOperators.Group.Finset
import Mathlib.Logic.Relation

/-! # Reference counting without a registry

Handles are released one after the other; a node whose count reaches zero is
destroyed on the spot, which releases the handles it holds. Only the counts are
kept, together with the moments at which a destruction begins and ends. In a
ledger where every count is the number of handles the nodes destroyed are those
that lose their last handle, and the ledger stays balanced.
-/
namespace HftExercises.Cascade
variable {N : Type*}

/-- The destruction of a node begins, or has released all that the node held. -/
inductive Moment (N : Type*) where
  | begins (n : N)
  | ends (n : N)
  deriving DecidableEq, Repr

def Moment.ended : Moment N → Option N
  | .begins _ => none
  | .ends n => some n

/-- The nodes destroyed, in the order of the ends. -/
def deaths (moments : List (Moment N)) : List N := moments.filterMap Moment.ended

@[simp] theorem deaths_nil : deaths ([] : List (Moment N)) = [] := rfl

@[simp] theorem deaths_append (ms ms' : List (Moment N)) :
    deaths (ms ++ ms') = deaths ms ++ deaths ms' := List.filterMap_append

@[simp] theorem deaths_begins (n : N) (ms : List (Moment N)) :
    deaths (.begins n :: ms) = deaths ms := rfl

@[simp] theorem deaths_ends (n : N) (ms : List (Moment N)) :
    deaths (.ends n :: ms) = n :: deaths ms := rfl

variable [DecidableEq N]

/-- Releasing one handle. -/
def release (die : (N → ℕ) → N → (N → ℕ) × List (Moment N)) (count : N → ℕ) :
    Option N → (N → ℕ) × List (Moment N)
  | none => (count, [])
  | some n =>
    if count n - 1 = 0 then die (Function.update count n (count n - 1)) n
    else (Function.update count n (count n - 1), [])

def releaseAll (die : (N → ℕ) → N → (N → ℕ) × List (Moment N)) :
    (N → ℕ) → List (Option N) → (N → ℕ) × List (Moment N)
  | count, [] => (count, [])
  | count, p :: ps =>
    let first := release die count p
    let rest := releaseAll die first.1 ps
    (rest.1, first.2 ++ rest.2)

/-- The destruction of a node. Each nested one needs one node more. -/
def die (hold : N → List (Option N)) : ℕ → (N → ℕ) → N → (N → ℕ) × List (Moment N)
  | 0, count, _ => (count, [])
  | fuel + 1, count, n =>
    let inner := releaseAll (die hold fuel) count (hold n)
    (inner.1, .begins n :: inner.2 ++ [.ends n])

section Equations
variable {hold : N → List (Option N)} {c : N → ℕ} {n : N} {fuel : ℕ} {l : List (Option N)}

theorem releaseAll_keep (hz : c n - 1 ≠ 0) : releaseAll (die hold fuel) c (some n :: l) =
    releaseAll (die hold fuel) (Function.update c n (c n - 1)) l := by
  simp only [releaseAll, release, if_neg hz, List.nil_append]

theorem releaseAll_die (hz : c n - 1 = 0) : releaseAll (die hold fuel) c (some n :: l) =
    ((releaseAll (die hold fuel) (die hold fuel (Function.update c n (c n - 1)) n).1 l).1,
      (die hold fuel (Function.update c n (c n - 1)) n).2 ++
        (releaseAll (die hold fuel) (die hold fuel (Function.update c n (c n - 1)) n).1 l).2) := by
  simp only [releaseAll, release, if_pos hz]

end Equations

section Rule
variable {hold : N → List (Option N)} {I : Finset N → (N → ℕ) → List (Option N) → Prop} {Q : N → Prop}

/-- What a cascade from the nodes `a` leaves behind: the invariant with the handles that
wait, and `Q` of every node destroyed, none of them twice. -/
structure Settled (I : Finset N → (N → ℕ) → List (Option N) → Prop) (Q : N → Prop)
    (a : Finset N) (waiting : List (Option N)) (r : (N → ℕ) × List (Moment N)) : Prop where
  kept : I (a \ (deaths r.2).toFinset) r.1 waiting
  nodup : (deaths r.2).Nodup
  dead : ∀ n ∈ deaths r.2, n ∈ a ∧ Q n

theorem Settled.nil {a : Finset N} {c : N → ℕ} {ps : List (Option N)} (h : I a c ps) :
    Settled I Q a ps (c, []) :=
  ⟨by simpa using h, List.nodup_nil, nofun⟩

theorem Settled.append {a : Finset N} {c c' : N → ℕ} {ms ms' : List (Moment N)}
    {ps ps' : List (Option N)} (h : Settled I Q a ps' (c, ms))
    (h' : Settled I Q (a \ (deaths ms).toFinset) ps (c', ms')) :
    Settled I Q a ps (c', ms ++ ms') := by
  constructor
  case kept =>
    have hset : a \ (deaths (ms ++ ms')).toFinset =
        (a \ (deaths ms).toFinset) \ (deaths ms').toFinset := by
      rw [deaths_append, List.toFinset_append, sdiff_sdiff_left, Finset.sup_eq_union]
    exact hset ▸ h'.kept
  case nodup =>
    rw [deaths_append]
    refine List.nodup_append.mpr ⟨h.nodup, h'.nodup, ?_⟩
    rintro x hx _ hy rfl
    have hgone := (h'.dead x hy).1
    simp [hx] at hgone
  case dead =>
    intro n hn
    rw [deaths_append] at hn
    rcases List.mem_append.mp hn with hn | hn
    · exact h.dead n hn
    · exact ⟨Finset.sdiff_subset (h'.dead n hn).1, (h'.dead n hn).2⟩

theorem Settled.destroy {a : Finset N} {c : N → ℕ} {ms : List (Moment N)} {ps : List (Option N)}
    {n : N} (hn : n ∈ a) (hq : Q n) (h : Settled I Q (a.erase n) ps (c, ms)) :
    Settled I Q a ps (c, .begins n :: ms ++ [.ends n]) := by
  have hdeaths : deaths (.begins n :: ms ++ [.ends n]) = deaths ms ++ [n] := by simp
  have hset : a \ (deaths ms ++ [n]).toFinset = a.erase n \ (deaths ms).toFinset := by
    ext x
    simp only [Finset.mem_sdiff, Finset.mem_erase, List.mem_toFinset, List.mem_append,
      List.mem_singleton]
    tauto
  constructor
  case kept =>
    simp only [hdeaths, hset]
    exact h.kept
  case nodup =>
    simp only [hdeaths]
    refine List.nodup_append.mpr ⟨h.nodup, List.nodup_singleton n, ?_⟩
    intro x hx y hy hxy
    obtain rfl : y = n := List.mem_singleton.mp hy
    exact Finset.ne_of_mem_erase (h.dead x hx).1 hxy
  case dead =>
    intro x hx
    simp only [hdeaths] at hx
    rcases List.mem_append.mp hx with hx | hx
    · exact ⟨Finset.mem_of_mem_erase (h.dead x hx).1, (h.dead x hx).2⟩
    · rw [List.mem_singleton.mp hx]
      exact ⟨hn, hq⟩

/-- What every release keeps and every destruction establishes holds of a whole cascade. -/
theorem releaseAll_settled (hskip : ∀ a c ps, I a c (none :: ps) → I a c ps)
    (hkeep : ∀ a c n ps, I a c (some n :: ps) → c n - 1 ≠ 0 →
      I a (Function.update c n (c n - 1)) ps)
    (hdie : ∀ a c n ps, I a c (some n :: ps) → c n - 1 = 0 →
      n ∈ a ∧ Q n ∧ I (a.erase n) (Function.update c n (c n - 1)) (hold n ++ ps))
    {fuel : ℕ} {a : Finset N} (hfuel : a.card ≤ fuel) {c : N → ℕ} {l rest : List (Option N)}
    (h : I a c (l ++ rest)) : Settled I Q a rest (releaseAll (die hold fuel) c l) := by
  -- on the fuel for a destruction, and for one fuel along the handles
  induction fuel using Nat.strong_induction_on generalizing a c l rest with
  | _ fuel ihf =>
    induction l generalizing a c with
    | nil => exact .nil h
    | cons p l ih =>
      cases p with
      | none => exact ih hfuel (hskip _ _ _ h)
      | some n =>
        by_cases hz : c n - 1 = 0
        · obtain ⟨hn, hq, hi⟩ := hdie _ _ _ _ h hz
          have hcard := Finset.card_erase_add_one hn
          cases fuel with
          | zero => omega
          | succ fuel =>
            have hfirst : Settled I Q a (l ++ rest)
                (die hold (fuel + 1) (Function.update c n (c n - 1)) n) :=
              .destroy hn hq (ihf fuel (Nat.lt_succ_self fuel) (by omega) hi)
            rw [releaseAll_die hz]
            exact hfirst.append
              (ih ((Finset.card_le_card Finset.sdiff_subset).trans hfuel) hfirst.kept)
        · rw [releaseAll_keep hz]
          exact ih hfuel (hkeep _ _ _ _ h hz)

end Rule

section Ledger
variable {out : List (Option N)} {hold : N → List (Option N)} {a : Finset N} {c : N → ℕ}
  {ps : List (Option N)} {n : N}

/-- Every count is the number of handles: those outside, those of the nodes alive, and
those that wait for their release. All of them name nodes alive. -/
structure Balanced (out : List (Option N)) (hold : N → List (Option N)) (a : Finset N)
    (c : N → ℕ) (ps : List (Option N)) : Prop where
  counted : ∀ n ∈ a,
    c n = out.count (some n) + ∑ y ∈ a, (hold y).count (some n) + ps.count (some n)
  outside : ∀ n, some n ∈ out → n ∈ a
  held : ∀ y ∈ a, ∀ n, some n ∈ hold y → n ∈ a
  waiting : ∀ n, some n ∈ ps → n ∈ a

theorem Balanced.pos (h : Balanced out hold a c (some n :: ps)) : n ∈ a ∧ 0 < c n := by
  have hn : n ∈ a := h.waiting n List.mem_cons_self
  have hcount := h.counted n hn
  rw [List.count_cons_self] at hcount
  exact ⟨hn, by omega⟩

theorem Balanced.skip (h : Balanced out hold a c (none :: ps)) : Balanced out hold a c ps where
  counted n hn := by simpa using h.counted n hn
  outside := h.outside
  held := h.held
  waiting n hn := h.waiting n (List.mem_cons_of_mem _ hn)

theorem Balanced.retire (h : Balanced out hold a c (some n :: ps)) :
    Balanced out hold a (Function.update c n (c n - 1)) ps where
  counted x hx := by
    have hcount := h.counted x hx
    by_cases hxn : x = n
    · subst hxn
      rw [List.count_cons_self] at hcount
      rw [Function.update_self]
      omega
    · rw [List.count_cons_of_ne (by simpa using Ne.symm hxn)] at hcount
      rw [Function.update_of_ne hxn]
      exact hcount
  outside := h.outside
  held := h.held
  waiting x hx := h.waiting x (List.mem_cons_of_mem _ hx)

/-- A node without a count has no handle anywhere. -/
theorem Balanced.unheld (h : Balanced out hold a c ps) (hn : n ∈ a) (hz : c n = 0) :
    some n ∉ out ∧ (∀ y ∈ a, some n ∉ hold y) ∧ some n ∉ ps := by
  have hcount := h.counted n hn
  have hsum : ∑ y ∈ a, (hold y).count (some n) = 0 := by omega
  refine ⟨List.count_eq_zero.mp (by omega), fun y hy => ?_, List.count_eq_zero.mp (by omega)⟩
  exact List.count_eq_zero.mp (Finset.sum_eq_zero_iff.mp hsum y hy)

/-- Its own handles wait once it is gone. -/
theorem Balanced.remove (h : Balanced out hold a c ps) (hn : n ∈ a) (hz : c n = 0) :
    Balanced out hold (a.erase n) c (hold n ++ ps) := by
  obtain ⟨hout, hheld, hwait⟩ := h.unheld hn hz
  have hstays : ∀ x ∈ a, x ≠ n → x ∈ a.erase n := fun x hx hne => Finset.mem_erase.mpr ⟨hne, hx⟩
  constructor
  case counted =>
    intro x hx
    have hcount := h.counted x (Finset.mem_of_mem_erase hx)
    have hsum := Finset.add_sum_erase a (fun y => (hold y).count (some x)) hn
    rw [List.count_append]
    omega
  case outside =>
    intro x hx
    exact hstays x (h.outside x hx) fun heq => hout (heq ▸ hx)
  case held =>
    intro y hy x hx
    have hya := Finset.mem_of_mem_erase hy
    exact hstays x (h.held y hya x hx) fun heq => hheld y hya (heq ▸ hx)
  case waiting =>
    intro x hx
    rcases List.mem_append.mp hx with hx | hx
    · exact hstays x (h.held n hn x hx) fun heq => hheld n hn (heq ▸ hx)
    · exact hstays x (h.waiting x hx) fun heq => hwait (heq ▸ hx)

theorem Balanced.destroy (h : Balanced out hold a c (some n :: ps)) (hz : c n - 1 = 0) :
    Balanced out hold (a.erase n) (Function.update c n (c n - 1)) (hold n ++ ps) :=
  h.retire.remove h.pos.1 (by rw [Function.update_self, hz])

/-- A cascade balances the ledger again, and takes no count it leaves to zero. -/
theorem Balanced.settled {fuel : ℕ} (hfuel : a.card ≤ fuel) {l : List (Option N)}
    (h : Balanced out hold a c (l ++ ps)) :
    Settled (fun a' c' ps' => Balanced out hold a' c' ps' ∧ ∀ n ∈ a', 0 < c n → 0 < c' n)
      (fun _ => True) a ps (releaseAll (die hold fuel) c l) := by
  refine releaseAll_settled (fun a' c' ps' hi => ⟨hi.1.skip, hi.2⟩) (fun a' c' n ps' hi hz => ?_)
    (fun a' c' n ps' hi hz => ?_) hfuel ⟨h, fun _ _ hpos => hpos⟩
  · refine ⟨hi.1.retire, fun x hx hpos => ?_⟩
    by_cases hxn : x = n
    · rw [hxn, Function.update_self]
      omega
    · rw [Function.update_of_ne hxn]
      exact hi.2 x hx hpos
  · refine ⟨hi.1.pos.1, trivial, hi.1.destroy hz, fun x hx hpos => ?_⟩
    rw [Function.update_of_ne (Finset.ne_of_mem_erase hx)]
    exact hi.2 x (Finset.mem_of_mem_erase hx) hpos

/-- The nodes that lose their last handle with a handle to `first`: all the handles to
them are those of nodes that do. -/
inductive Dies (out : List (Option N)) (hold : N → List (Option N)) (a : Finset N) (first : N) :
    N → Prop where
  | first : Dies out hold a first first
  | next {n y : N} (hout : some n ∉ out) (hy : Dies out hold a first y) (hn : some n ∈ hold y)
      (hall : ∀ z ∈ a, some n ∈ hold z → Dies out hold a first z) : Dies out hold a first n

/-- They are alive, and joined to the first one by handles. -/
theorem Balanced.dies_path {m : N} (h : Balanced out hold a c ps) (hm : m ∈ a)
    (hn : Dies out hold a m n) :
    n ∈ a ∧ Relation.ReflTransGen (fun x y => x ∈ a ∧ some y ∈ hold x) m n := by
  induction hn with
  | first => exact ⟨hm, .refl⟩
  | next _ _ hn _ ih _ => exact ⟨h.held _ ih.1 _ hn, ih.2.tail ⟨ih.1, hn⟩⟩

theorem dies_of_mem_deaths {m : N} {fuel : ℕ} (hfuel : a.card ≤ fuel)
    (h : Balanced out hold a c [some m]) (hn : n ∈ deaths (releaseAll (die hold fuel) c [some m]).2) :
    Dies out hold a m n := by
  -- whoever is gone was dying, and every handle that waits was held by one of them
  have hsettled : Settled (fun a' c' ps' => Balanced out hold a' c' ps' ∧
      (∀ y ∈ a, y ∉ a' → Dies out hold a m y) ∧
      ∀ x, some x ∈ ps' → x = m ∨ ∃ y, Dies out hold a m y ∧ some x ∈ hold y)
      (Dies out hold a m) a [] (releaseAll (die hold fuel) c [some m]) := by
    refine releaseAll_settled ?_ ?_ ?_ hfuel ⟨by simpa using h, fun y hy hgone => absurd hy hgone, ?_⟩
    · rintro a' c' ps' ⟨hb, hgone, hwait⟩
      exact ⟨hb.skip, hgone, fun x hx => hwait x (List.mem_cons_of_mem _ hx)⟩
    · rintro a' c' x ps' ⟨hb, hgone, hwait⟩ _
      exact ⟨hb.retire, hgone, fun z hz => hwait z (List.mem_cons_of_mem _ hz)⟩
    · rintro a' c' x ps' ⟨hb, hgone, hwait⟩ hz
      have hzero : Function.update c' x (c' x - 1) x = 0 := by rw [Function.update_self, hz]
      obtain ⟨hout, hheld, _⟩ := hb.retire.unheld hb.pos.1 hzero
      have hx : Dies out hold a m x := by
        rcases hwait x List.mem_cons_self with rfl | ⟨y, hy, hxy⟩
        · exact .first
        · exact .next hout hy hxy fun z hza hxz => hgone z hza fun hza' => hheld z hza' hxz
      refine ⟨hb.pos.1, hx, hb.destroy hz, fun y hy hya => ?_, fun z hz => ?_⟩
      · by_cases hyx : y = x
        · exact hyx ▸ hx
        · exact hgone y hy fun hya' => hya (Finset.mem_erase.mpr ⟨hyx, hya'⟩)
      · rcases List.mem_append.mp hz with hz | hz
        · exact .inr ⟨x, hx, hz⟩
        · exact hwait z (List.mem_cons_of_mem _ hz)
    · intro x hx
      exact .inl (by simpa using hx)
  exact (hsettled.dead n hn).2

theorem mem_deaths_of_dies {m : N} {fuel : ℕ} (hfuel : a.card ≤ fuel)
    (h : Balanced out hold a c [some m]) (hm : c m = 1) (hn : Dies out hold a m n) :
    n ∈ deaths (releaseAll (die hold fuel) c [some m]).2 := by
  have hsettled := Balanced.settled hfuel (show Balanced out hold a c ([some m] ++ []) from h)
  generalize releaseAll (die hold fuel) c [some m] = r at hsettled
  obtain ⟨⟨hb, hpos⟩, -, hdead⟩ := hsettled
  -- a survivor whose handles are all gone would have been taken to zero
  have hlast : ∀ x ∈ a, 0 < c x → some x ∉ out → (∀ z ∈ a, some x ∈ hold z → z ∈ deaths r.2) →
      x ∈ deaths r.2 := by
    intro x hx hcx hout hall
    by_contra hxd
    have hxa : x ∈ a \ (deaths r.2).toFinset := by simp [hx, hxd]
    have hsum : ∑ y ∈ a \ (deaths r.2).toFinset, (hold y).count (some x) = 0 := by
      refine Finset.sum_eq_zero fun y hy => List.count_eq_zero.mpr fun hxy => ?_
      obtain ⟨hya, hyd⟩ := Finset.mem_sdiff.mp hy
      exact hyd (List.mem_toFinset.mpr (hall y hya hxy))
    have hcount := hb.counted x hxa
    rw [hsum, List.count_eq_zero.mpr hout] at hcount
    have := hpos x hxa hcx
    simp only [List.count_nil] at hcount
    omega
  induction hn with
  | first =>
    obtain ⟨hma, hcm⟩ := h.pos
    obtain ⟨hout, hheld, -⟩ := h.retire.unheld hma (by simp [hm])
    exact hlast m hma hcm hout fun z hz hmz => absurd hmz (hheld z hz)
  | @next x y hout hy hxy _ ihy ihall =>
    have hya : y ∈ a := (hdead y ihy).1
    have hxa : x ∈ a := h.held y hya x hxy
    have hcx : 0 < c x := by
      have hcount := h.counted x hxa
      have hle := Finset.single_le_sum (f := fun z => (hold z).count (some x))
        (fun _ _ => Nat.zero_le _) hya
      have hone := List.count_pos_iff.mpr hxy
      omega
    exact hlast x hxa hcx hout ihall

end Ledger
end HftExercises.Cascade
