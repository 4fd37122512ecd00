import Mathlib.Data.Fintype.EquivFin
import Mathlib.Data.List.FinRange
import Mathlib.Data.Multiset.AddSub
import Mathlib.GroupTheory.Perm.Basic
import Mathlib.Order.Lattice
import Mathlib.Order.RelClasses

/-! # Implicit heaps

The children of an index are the two after its double. An array that is a heap everywhere but
at one index becomes one by exchanges along the path from that index: upwards while the
parent sorts lower, downwards while a child sorts higher.
-/
namespace HftExercises.ImplicitHeap
variable {T : Type*} {n : ℕ}

/-! ## Strict weak orders -/

section Weak
variable {lower : T → T → Prop} [IsStrictWeakOrder T lower] {x y z : T}

theorem not_lower_trans (hxy : ¬lower x y) (hyz : ¬lower y z) : ¬lower x z := by
  intro hxz
  have hyx : ¬lower y x := fun h => hyz (trans_of lower h hxz)
  have hzy : ¬lower z y := fun h => hxy (trans_of lower hxz h)
  exact (IsStrictWeakOrder.incomp_trans x y z ⟨hxy, hyx⟩ ⟨hyz, hzy⟩).1 hxz

/-- What does not sort below the lower one does not sort below the higher one. -/
theorem not_lower_of_lower (hxy : lower x y) (hxz : ¬lower x z) : ¬lower y z :=
  fun h => hxz (trans_of lower hxy h)

end Weak

instance strictWeakOrderLt {T : Type*} [LinearOrder T] :
    IsStrictWeakOrder T (fun x y => x < y) :=
  isStrictWeakOrder_of_isOrderConnected

def IsChild (p c : ℕ) : Prop := c = 2 * p + 1 ∨ c = 2 * p + 2

theorem IsChild.lt {p c : ℕ} (h : IsChild p c) : p < c := by
  rw [IsChild] at h
  omega

theorem IsChild.unique {p q c : ℕ} (hp : IsChild p c) (hq : IsChild q c) : p = q := by
  rw [IsChild] at hp hq
  omega

theorem isChild_parent {c : ℕ} (h : 0 < c) : IsChild ((c - 1) / 2) c := by
  rw [IsChild]
  omega

/-- No parent from `lo` on sorts strictly lower than a child of it before `stop`. -/
def Ordered (lower : T → T → Prop) (a : Fin n → T) (lo stop : ℕ) : Prop :=
  ∀ p c : Fin n, IsChild p c → lo ≤ p → c < stop → ¬lower (a p) (a c)

/-- The parent of `i` does not sort lower than the children of `i`. -/
def Bridged (lower : T → T → Prop) (a : Fin n → T) (lo stop : ℕ) (i : Fin n) : Prop :=
  ∀ p c : Fin n, IsChild p i → IsChild i c → lo ≤ p → c < stop → ¬lower (a p) (a c)

/-- A heap but for the children of `i`. -/
structure Sinking (lower : T → T → Prop) (a : Fin n → T) (lo stop : ℕ) (i : Fin n) : Prop where
  edges : ∀ p c : Fin n, IsChild p c → lo ≤ p → c < stop → p ≠ i → ¬lower (a p) (a c)
  bridge : Bridged lower a lo stop i

/-- A heap but for the parent of `i`. -/
structure Climbing (lower : T → T → Prop) (a : Fin n → T) (stop : ℕ) (i : Fin n) : Prop where
  edges : ∀ p c : Fin n, IsChild p c → c < stop → c ≠ i → ¬lower (a p) (a c)
  bridge : Bridged lower a 0 stop i

/-- A heap but for what is next to `i`. -/
structure Loose (lower : T → T → Prop) (a : Fin n → T) (stop : ℕ) (i : Fin n) : Prop where
  edges : ∀ p c : Fin n, IsChild p c → c < stop → p ≠ i → c ≠ i → ¬lower (a p) (a c)
  bridge : Bridged lower a 0 stop i

variable {lower : T → T → Prop} {a b : Fin n → T} {lo stop : ℕ} {i p c : Fin n}

theorem Ordered.mono {lo' stop' : ℕ} (h : Ordered lower a lo stop) (hlo : lo ≤ lo')
    (hstop : stop' ≤ stop) : Ordered lower a lo' stop' :=
  fun p c hc hp hlt => h p c hc (hlo.trans hp) (hlt.trans_le hstop)

/-- Of the second half of an array no index has a child. -/
theorem ordered_of_half (h : stop ≤ 2 * lo + 1) : Ordered lower a lo stop := by
  intro p c hc hp hlt
  rw [IsChild] at hc
  omega

theorem Ordered.of_succ (h : Ordered lower a (i + 1) stop) : Sinking lower a i stop i where
  edges p c hc hp hlt hne := h p c hc (by omega) hlt
  bridge p c hp _ hlo _ := absurd hp.lt (not_lt.mpr hlo)

theorem Ordered.restrict {m : ℕ} (h : Ordered lower a 0 n) (hmn : m ≤ n) {b : Fin m → T}
    (hb : ∀ k, b k = a (Fin.castLE hmn k)) : Ordered lower b 0 m := by
  intro p c hc _ _
  rw [hb, hb]
  exact h _ _ hc (Nat.zero_le _) (Fin.castLE hmn c).isLt

/-- A new last element has no child. -/
theorem Ordered.climbing_last (h : Ordered lower a 0 n) {b : Fin (n + 1) → T}
    (hb : ∀ k : Fin n, b k.castSucc = a k) : Climbing lower b (n + 1) (Fin.last n) where
  edges p c hc _ hlast := by
    have hcn : c.val < n := Nat.lt_of_le_of_ne (Nat.le_of_lt_succ c.isLt) (Fin.val_ne_of_ne hlast)
    have hold := h ⟨p, hc.lt.trans hcn⟩ ⟨c, hcn⟩ hc (Nat.zero_le _) hcn
    rw [← hb, ← hb] at hold
    exact hold
  bridge p c _ hc _ hlt := absurd hc.lt (not_lt.mpr (Nat.le_of_lt_succ c.isLt))

section Climb
variable [IsStrictWeakOrder T lower]

theorem Ordered.bridged (h : Ordered lower a 0 stop) (i : Fin n) : Bridged lower a 0 stop i := by
  intro p c hp hc _ hlt
  exact not_lower_trans (h p i hp (Nat.zero_le _) (hc.lt.trans hlt)) (h i c hc (Nat.zero_le _) hlt)

theorem Ordered.sinking (h : Ordered lower a 0 stop) (i : Fin n) : Sinking lower a 0 stop i where
  edges p c hc hp hlt _ := h p c hc hp hlt
  bridge := h.bridged i

/-- Whatever is put at `i` of a shorter array, the rest stays a heap. -/
theorem Ordered.loose {m : ℕ} (h : Ordered lower a 0 n) (hmn : m ≤ n) {b : Fin m → T} {i : Fin m}
    (hb : ∀ k, k ≠ i → b k = a (Fin.castLE hmn k)) : Loose lower b m i where
  edges p c hc _ hp hci := by
    rw [hb p hp, hb c hci]
    exact h _ _ hc (Nat.zero_le _) (Fin.castLE hmn c).isLt
  bridge p c hp hc hlo _ := by
    rw [hb p (Fin.ne_of_val_ne hp.lt.ne), hb c (Fin.ne_of_val_ne hc.lt.ne')]
    exact h.bridged (Fin.castLE hmn i) _ _ hp hc hlo (Fin.castLE hmn c).isLt

/-- The root is a maximal element. -/
theorem Ordered.not_lower_root (h : Ordered lower a 0 stop) {root : Fin n} (hroot : root.val = 0)
    (k : Fin n) (hk : k < stop) : ¬lower (a root) (a k) := by
  induction hm : k.val using Nat.strong_induction_on generalizing k with
  | _ m ih =>
    rcases Nat.eq_zero_or_pos k.val with hzero | hpos
    · rw [Fin.ext (hzero.trans hroot.symm)]
      exact irrefl_of lower _
    · have hchild := isChild_parent hpos
      let q : Fin n := ⟨(k - 1) / 2, hchild.lt.trans k.isLt⟩
      have hq : ¬lower (a root) (a q) := ih q (hm ▸ hchild.lt) q (hchild.lt.trans hk) rfl
      exact not_lower_trans hq (h q k hchild (Nat.zero_le _) hk)

end Climb

/-! ## Exchanges -/

theorem Sinking.ordered (h : Sinking lower a lo stop i)
    (hi : ∀ c : Fin n, IsChild i c → c < stop → ¬lower (a i) (a c)) : Ordered lower a lo stop := by
  intro p c hc hp hlt
  by_cases hpi : p = i
  · subst hpi
    exact hi c hc hlt
  · exact h.edges p c hc hp hlt hpi

theorem Climbing.ordered (h : Climbing lower a stop i)
    (hi : ∀ p : Fin n, IsChild p i → ¬lower (a p) (a i)) : Ordered lower a 0 stop := by
  intro p c hc _ hlt
  by_cases hci : c = i
  · subst hci
    exact hi p hc
  · exact h.edges p c hc hlt hci

theorem Loose.sinking (h : Loose lower a stop i)
    (hi : ∀ p : Fin n, IsChild p i → ¬lower (a p) (a i)) : Sinking lower a 0 stop i where
  edges p c hc _ hlt hpi := by
    by_cases hci : c = i
    · subst hci
      exact hi p hc
    · exact h.edges p c hc hlt hpi hci
  bridge := h.bridge

section Swap
variable [IsStrictWeakOrder T lower]

theorem Loose.climbing (h : Loose lower a stop i) (hp : IsChild p i) (hlow : lower (a p) (a i)) :
    Climbing lower a stop i where
  edges q c hc hlt hci := by
    by_cases hqi : q = i
    · subst hqi
      exact not_lower_of_lower hlow (h.bridge p c hp hc (Nat.zero_le _) hlt)
    · exact h.edges q c hc hlt hqi hci
  bridge := h.bridge

/-- The value goes down to a highest child, which does not sort lower than its new children. -/
theorem Sinking.swap (h : Sinking lower a lo stop i) (hlo : lo ≤ i) (hc : IsChild i c)
    (hlt : c < stop) (hlow : lower (a i) (a c))
    (hbest : ∀ s : Fin n, IsChild i s → s < stop → ¬lower (a c) (a s)) :
    Sinking lower (a ∘ Equiv.swap i c) lo stop c := by
  have hleft : (a ∘ Equiv.swap i c) i = a c := congrArg a (Equiv.swap_apply_left i c)
  have hright : (a ∘ Equiv.swap i c) c = a i := congrArg a (Equiv.swap_apply_right i c)
  have hother : ∀ k, k ≠ i → k ≠ c → (a ∘ Equiv.swap i c) k = a k :=
    fun k hi hc => congrArg a (Equiv.swap_apply_of_ne_of_ne hi hc)
  constructor
  · intro p k hk hp hks hpc
    by_cases hpi : p = i
    · subst hpi
      rw [hleft]
      by_cases hkc : k = c
      · rw [hkc, hright]
        exact asymm_of lower hlow
      · rw [hother k (Fin.ne_of_val_ne hk.lt.ne') hkc]
        exact hbest k hk hks
    · rw [hother p hpi hpc]
      by_cases hki : k = i
      · subst hki
        rw [hleft]
        exact h.bridge p c hk hc hp hlt
      · have hkc : k ≠ c := by
          rintro rfl
          exact hpi (Fin.ext (hk.unique hc))
        rw [hother k hki hkc]
        exact h.edges p k hk hp hks hpi
  · intro p k hp hk hlop hks
    obtain rfl : p = i := Fin.ext (hp.unique hc)
    have hkc := Fin.ne_of_val_ne hk.lt.ne'
    rw [hleft, hother k (Fin.ne_of_val_ne (hc.lt.trans hk.lt).ne') hkc]
    exact h.edges c k hk (hlo.trans hc.lt.le) hks (Fin.ne_of_val_ne hc.lt.ne')

/-- The value goes up to its parent, and what comes down is above the children there. -/
theorem Climbing.swap (h : Climbing lower a stop i) (hi : i < stop) (hp : IsChild p i)
    (hlow : lower (a p) (a i)) : Climbing lower (a ∘ Equiv.swap i p) stop p := by
  have hpi := Fin.ne_of_val_ne hp.lt.ne
  have hleft : (a ∘ Equiv.swap i p) i = a p := congrArg a (Equiv.swap_apply_left i p)
  have hright : (a ∘ Equiv.swap i p) p = a i := congrArg a (Equiv.swap_apply_right i p)
  have hother : ∀ k, k ≠ i → k ≠ p → (a ∘ Equiv.swap i p) k = a k :=
    fun k hi hp => congrArg a (Equiv.swap_apply_of_ne_of_ne hi hp)
  constructor
  · intro q k hk hks hkp
    by_cases hki : k = i
    · subst hki
      obtain rfl : q = p := Fin.ext (hk.unique hp)
      rw [hright, hleft]
      exact asymm_of lower hlow
    · rw [hother k hki hkp]
      by_cases hqi : q = i
      · subst hqi
        rw [hleft]
        exact h.bridge p k hp hk (Nat.zero_le _) hks
      · by_cases hqp : q = p
        · subst hqp
          rw [hright]
          exact not_lower_of_lower hlow (h.edges q k hk hks hki)
        · rw [hother q hqi hqp]
          exact h.edges q k hk hks hki
  · intro q k hq hk _ hks
    have hqi := Fin.ne_of_val_ne (hq.lt.trans hp.lt).ne
    have hqp := Fin.ne_of_val_ne hq.lt.ne
    have habove : ¬lower (a q) (a p) := h.edges q p hq (hp.lt.trans hi) hpi
    rw [hother q hqi hqp]
    by_cases hki : k = i
    · rw [hki, hleft]
      exact habove
    · rw [hother k hki (Fin.ne_of_val_ne hk.lt.ne')]
      exact not_lower_trans habove (h.edges p k hk hks hki)

end Swap

/-- The elements before `stop` have changed places. -/
def Rearranges (stop : ℕ) (a b : Fin n → T) : Prop :=
  ∃ σ : Equiv.Perm (Fin n), b = a ∘ σ ∧ ∀ k : Fin n, stop ≤ k → σ k = k

namespace Rearranges
variable {d : Fin n → T}

theorem refl (stop : ℕ) (a : Fin n → T) : Rearranges stop a a := ⟨1, rfl, fun _ _ => rfl⟩

theorem trans (hab : Rearranges stop a b) (hbd : Rearranges stop b d) : Rearranges stop a d := by
  obtain ⟨σ, rfl, hσ⟩ := hab
  obtain ⟨τ, rfl, hτ⟩ := hbd
  refine ⟨σ * τ, rfl, fun k hk => ?_⟩
  rw [Equiv.Perm.mul_apply, hτ k hk, hσ k hk]

theorem mono {stop' : ℕ} (h : Rearranges stop a b) (hle : stop ≤ stop') : Rearranges stop' a b := by
  obtain ⟨σ, hb, hσ⟩ := h
  exact ⟨σ, hb, fun k hk => hσ k (hle.trans hk)⟩

theorem swap (a : Fin n → T) {i j : Fin n} (hi : i < stop) (hj : j < stop) :
    Rearranges stop a (a ∘ Equiv.swap i j) := by
  refine ⟨Equiv.swap i j, rfl, fun k hk => Equiv.swap_apply_of_ne_of_ne ?_ ?_⟩
  · rintro rfl
    exact absurd hi (not_lt.mpr hk)
  · rintro rfl
    exact absurd hj (not_lt.mpr hk)

theorem perm (h : Rearranges stop a b) : (List.ofFn b).Perm (List.ofFn a) := by
  obtain ⟨σ, rfl, -⟩ := h
  exact Equiv.Perm.ofFn_comp_perm σ a

theorem eq_of_le (h : Rearranges stop a b) {k : Fin n} (hk : stop ≤ k) : b k = a k := by
  obtain ⟨σ, rfl, hσ⟩ := h
  exact congrArg a (hσ k hk)

/-- What holds of the elements before `stop` still holds of them. -/
theorem forall_lt (h : Rearranges stop a b) (P : T → Prop) (hP : ∀ k : Fin n, k < stop → P (a k))
    (k : Fin n) (hk : k < stop) : P (b k) := by
  obtain ⟨σ, rfl, hσ⟩ := h
  refine hP (σ k) (not_le.mp fun hle => ?_)
  have hfix : σ k = k := σ.injective (hσ (σ k) hle)
  rw [hfix] at hle
  exact absurd hk (not_lt.mpr hle)

end Rearranges

/-! ## Sifting -/

/-- The value at `i` goes up while its parent sorts lower. -/
inductive GoesUp (lower : T → T → Prop) : (Fin n → T) → Fin n → (Fin n → T) → Prop
  | stay {a : Fin n → T} {i : Fin n} (h : ∀ p : Fin n, IsChild p i → ¬lower (a p) (a i)) :
    GoesUp lower a i a
  | move {a b : Fin n → T} {i p : Fin n} (hp : IsChild p i) (hlow : lower (a p) (a i))
    (h : GoesUp lower (a ∘ Equiv.swap i p) p b) : GoesUp lower a i b

/-- The value at `i` goes down to a highest child while a child sorts higher. -/
inductive GoesDown (lower : T → T → Prop) (stop : ℕ) : (Fin n → T) → Fin n → (Fin n → T) → Prop
  | stay {a : Fin n → T} {i : Fin n}
    (h : ∀ c : Fin n, IsChild i c → c < stop → ¬lower (a i) (a c)) : GoesDown lower stop a i a
  | move {a b : Fin n → T} {i c : Fin n} (hc : IsChild i c) (hlt : c < stop)
    (hlow : lower (a i) (a c)) (hbest : ∀ s : Fin n, IsChild i s → s < stop → ¬lower (a c) (a s))
    (h : GoesDown lower stop (a ∘ Equiv.swap i c) c b) : GoesDown lower stop a i b

theorem GoesUp.rearranges (h : GoesUp lower a i b) (hi : i < stop) : Rearranges stop a b := by
  induction h with
  | stay => exact .refl stop _
  | move hp _ _ ih =>
    have hlt := hp.lt.trans hi
    exact (Rearranges.swap _ hi hlt).trans (ih hlt)

theorem GoesDown.rearranges (h : GoesDown lower stop a i b) (hi : i < stop) :
    Rearranges stop a b := by
  induction h with
  | stay => exact .refl stop _
  | move _ hlt _ _ _ ih => exact (Rearranges.swap _ hi hlt).trans (ih hlt)

section Sift
variable [IsStrictWeakOrder T lower]

theorem GoesUp.ordered (h : GoesUp lower a i b) (ha : Climbing lower a stop i) (hi : i < stop) :
    Ordered lower b 0 stop := by
  induction h with
  | stay hstay => exact ha.ordered hstay
  | move hp hlow _ ih => exact ih (ha.swap hi hp hlow) (hp.lt.trans hi)

/-- Where the value went up there is a heap, and otherwise it may still go down. -/
theorem GoesUp.sinking (h : GoesUp lower a i b) (ha : Loose lower a stop i) (hi : i < stop) :
    Sinking lower b 0 stop i := by
  cases h with
  | stay hstay => exact ha.sinking hstay
  | move hp hlow hrest =>
    have hb : GoesUp lower a i b := .move hp hlow hrest
    exact (hb.ordered (ha.climbing hp hlow) hi).sinking i

theorem GoesDown.ordered (h : GoesDown lower stop a i b) (ha : Sinking lower a lo stop i)
    (hlo : lo ≤ i) : Ordered lower b lo stop := by
  induction h with
  | stay hstay => exact ha.ordered hstay
  | move hc hlt hlow hbest _ ih => exact ih (ha.swap hlo hc hlt hlow hbest) (hlo.trans hc.lt.le)

end Sift

/-! ## Draining -/

section Drain
variable {σ : Type*} (popTop : σ → Option (T × σ))

/-- What comes out, in order, when at most that many elements are taken. -/
def drain : ℕ → σ → List T
  | 0, _ => []
  | k + 1, s =>
    match popTop s with
    | none => []
    | some (x, s') => x :: drain k s'

/-- Whatever gives out maximal elements gives out all it has in non-increasing order. -/
theorem drain_spec {popTop : σ → Option (T × σ)} (contents : σ → Multiset T) (I : σ → Prop)
    (hnone : ∀ s, I s → popTop s = none → contents s = 0)
    (hsome : ∀ s x s', I s → popTop s = some (x, s') →
      I s' ∧ contents s = x ::ₘ contents s' ∧ ∀ y ∈ contents s, ¬lower x y)
    {k : ℕ} {s : σ} (hs : I s) (hk : (contents s).card ≤ k) :
    (drain popTop k s : Multiset T) = contents s ∧
      (drain popTop k s).Pairwise (fun x y => ¬lower x y) := by
  induction k generalizing s with
  | zero => exact ⟨(Multiset.card_eq_zero.mp (Nat.le_zero.mp hk)).symm, List.Pairwise.nil⟩
  | succ k ih =>
    rw [drain]
    cases hpop : popTop s with
    | none => exact ⟨(hnone s hs hpop).symm, List.Pairwise.nil⟩
    | some p =>
      obtain ⟨x, s'⟩ := p
      obtain ⟨hs', hcons, hmax⟩ := hsome s x s' hs hpop
      rw [hcons, Multiset.card_cons] at hk
      obtain ⟨hall, hsorted⟩ := ih hs' (Nat.le_of_succ_le_succ hk)
      refine ⟨by rw [← Multiset.cons_coe, hall, hcons], List.pairwise_cons.mpr ⟨fun y hy => ?_, hsorted⟩⟩
      have hy' : y ∈ contents s' := hall ▸ Multiset.mem_coe.mpr hy
      exact hmax y (hcons ▸ Multiset.mem_cons_of_mem hy')

end Drain

end HftExercises.ImplicitHeap
