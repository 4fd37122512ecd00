import HftExercises.Containers.DynamicVectorMemory
import Mathlib.Order.Basic

/-! # Vectors and their elements

A vector owns one block, with its elements in the first cells and raw cells behind them. An
operation on a vector changes its block and new ones, and no other that was there.
-/
namespace HftExercises.DynVector
open Throwing
variable {ι T X : Type} {w w' w'' : World ι T} {v : ι} {f g g' : Vec} {xs ys : List T}
variable {E : Element T} {c k l n : ℕ}

/-- The cells of a block: the elements, and raw ones up to the capacity. -/
def storage (xs : List T) (capacity : ℕ) : List (Option T) :=
  xs.map some ++ List.replicate (capacity - xs.length) none

structure Owns (w : World ι T) (f : Vec) (xs : List T) : Prop where
  size : f.size = xs.length
  le : xs.length ≤ f.capacity
  data : f.data = none ∧ f.capacity = 0 ∨
    ∃ b, f.data = some b ∧ w.block b = some (storage xs f.capacity)

def Fresh (w : World ι T) : Prop := ∀ b, w.next ≤ b → w.block b = none

theorem Owns.congr (ho : Owns w f xs) (h : ∀ b, f.data = some b → w'.block b = w.block b) :
    Owns w' f xs := by
  refine ⟨ho.size, ho.le, ho.data.imp_right ?_⟩
  rintro ⟨b, hdata, hb⟩
  exact ⟨b, hdata, (h b hdata).trans hb⟩

theorem Owns.data_ne (ho : Owns w f xs) (hfresh : Fresh w) {b : ℕ} (hb : w.next ≤ b) :
    f.data ≠ some b := by
  rintro hdata
  rcases ho.data with ⟨hnone, -⟩ | ⟨b', hdata', hblock⟩
  · rw [hdata] at hnone
    cases hnone
  · obtain rfl := Option.some.inj (hdata.symm.trans hdata')
    rw [hfresh b hb] at hblock
    cases hblock

theorem owns_nil : Owns w {} ([] : List T) := ⟨rfl, Nat.le_refl 0, .inl ⟨rfl, rfl⟩⟩

section Release

/-- The block of a vector without its elements. -/
def World.strip (w : World ι T) (f : Vec) : World ι T :=
  f.data.elim w fun b => w.setBlock b (some (List.replicate f.capacity none))

def World.free (w : World ι T) (f : Vec) : World ι T := f.data.elim w fun b => w.setBlock b none

theorem destroyAll_eq (ho : Owns w f xs) :
    (destroyFrom f.data f.size 0 : Throwing (World ι T) X Unit) w =
      some (.ok (), (w.strip f).count 0 0 xs.length) := by
  rw [ho.size]
  rcases ho.data with ⟨hnone, hcap⟩ | ⟨b, hdata, hb⟩
  · obtain rfl := List.eq_nil_of_length_eq_zero (Nat.le_zero.mp (hcap ▸ ho.le))
    rw [World.strip, hnone]
    rfl
  · have hcells : w.block b =
        some ([] ++ xs.map some ++ List.replicate (f.capacity - xs.length) none) := hb
    have hloop := destroyFrom_eq (X := X) hcells
    rw [List.length_nil] at hloop
    rw [World.strip, hdata, hloop, List.nil_append, List.replicate_append_replicate,
      Nat.add_sub_cancel' ho.le]
    rfl

theorem deleteAll_eq (ho : Owns w f xs) (d : ℕ) :
    (operatorDelete f.data : Throwing (World ι T) X Unit) ((w.strip f).count 0 0 d) =
      some (.ok (), (w.free f).count 0 0 d) := by
  rcases ho.data with ⟨hnone, -⟩ | ⟨b, hdata, hb⟩
  · rw [World.strip, World.free, hnone]
    rfl
  · have hcells : ((w.strip f).count 0 0 d).block b = some (List.replicate f.capacity none) := by
      simp [World.strip, hdata]
    rw [hdata, operatorDelete_eq hcells]
    simp [World.strip, World.free, hdata]

theorem free_block (b : ℕ) :
    (w.free f).block b = if f.data = some b then none else w.block b := by
  unfold World.free
  cases hdata : f.data with
  | none => rfl
  | some b' =>
    by_cases hb : b = b'
    · simp [hb]
    · simp [hb, Ne.symm hb]

@[simp] theorem free_vec : (w.free f).vec = w.vec := by
  unfold World.free
  cases f.data <;> rfl

@[simp] theorem free_next : (w.free f).next = w.next := by
  unfold World.free
  cases f.data <;> rfl

@[simp] theorem free_attempts : (w.free f).attempts = w.attempts := by
  unfold World.free
  cases f.data <;> rfl

@[simp] theorem free_constructed : (w.free f).constructed = w.constructed := by
  unfold World.free
  cases f.data <;> rfl

@[simp] theorem free_destroyed : (w.free f).destroyed = w.destroyed := by
  unfold World.free
  cases f.data <;> rfl

theorem Fresh.free (hfresh : Fresh w) : Fresh (w.free f) := by
  intro b hb
  rw [free_next] at hb
  rw [free_block, hfresh b hb, ite_self]

@[simp] theorem strip_vec : (w.strip f).vec = w.vec := by
  unfold World.strip
  cases f.data <;> rfl

@[simp] theorem strip_next : (w.strip f).next = w.next := by
  unfold World.strip
  cases f.data <;> rfl

@[simp] theorem strip_constructed : (w.strip f).constructed = w.constructed := by
  unfold World.strip
  cases f.data <;> rfl

@[simp] theorem strip_destroyed : (w.strip f).destroyed = w.destroyed := by
  unfold World.strip
  cases f.data <;> rfl

theorem strip_block {b : ℕ} (h : f.data ≠ some b) : (w.strip f).block b = w.block b := by
  unfold World.strip
  cases hdata : f.data with
  | none => rfl
  | some b' =>
    have hb : b ≠ b' := fun hb => h (hb ▸ hdata)
    simp [hb]

theorem strip_owns (ho : Owns w f xs) : Owns (w.strip f) { f with size := 0 } [] := by
  refine ⟨rfl, Nat.zero_le _, ho.data.imp_right ?_⟩
  rintro ⟨b, hdata, -⟩
  exact ⟨b, hdata, by simp [World.strip, hdata, storage]⟩

end Release

section Growth

/-- What a growth that fails leaves: the storage as it was, and as many elements destroyed as
constructed. -/
def World.rolledBack (w : World ι T) (j : ℕ) : World ι T :=
  { w with next := w.next + 1 }.count (j + 1) j j

/-- The construction that a growth by copies fails at. -/
def FailsAt (E : Element T) (w : World ι T) (n j : ℕ) : Prop :=
  j < n ∧ E.nothrowMove = false ∧ E.throws (w.attempts + j) = true ∧
    ∀ l < j, E.throws (w.attempts + l) = false

/-- The transfer to a new block, with what it leaves in the old one. -/
structure Transferred (w w' : World ι T) (f : Vec) (xs : List T) (newCap : ℕ) : Prop where
  vec : w'.vec = w.vec
  old : ∃ ys, ys.length = xs.length ∧ Owns w' f ys
  new : w'.block w.next = some (storage xs newCap)
  frame : ∀ b, b ≠ w.next → f.data ≠ some b → w'.block b = w.block b
  next : w'.next = w.next + 1
  attempts : w'.attempts = w.attempts + xs.length
  constructed : w'.constructed = w.constructed + xs.length
  destroyed : w'.destroyed = w.destroyed

theorem not_failsAt_of_steady
    (h : E.nothrowMove = true ∨ ∀ j < n, E.throws (w.attempts + j) = false) (j : ℕ) :
    ¬FailsAt E w n j := by
  rintro ⟨hj, hmove, hthrow, -⟩
  rcases h with hmove' | hall
  · rw [hmove] at hmove'
    cases hmove'
  · rw [hall j hj] at hthrow
    cases hthrow

/-- The rollback ends in the storage before the growth. -/
theorem rollback_meets {Q : Unit → World ι T → Prop} {cells : List (Option T)} {j : ℕ}
    (hfresh : Fresh w) (hj : j ≤ xs.length) :
    Meets (do
        destroyBack (some w.next) j
        operatorDelete (some w.next)
        throwing Thrown.element)
      (({ w with next := w.next + 1 }.setBlock w.next
        (some ((xs.take j).map some ++ cells))).count (j + 1) j 0) Q
      (fun e w' => e = .element ∧ w' = w.rolledBack j) := by
  obtain ⟨w₁, hw₁⟩ : ∃ w₁ : World ι T, w₁ = { w with next := w.next + 1 } := ⟨_, rfl⟩
  have hlength : (xs.take j).length = j := List.length_take_of_le hj
  have hcells : ((w₁.setBlock w.next (some ((xs.take j).map some ++ cells))).count (j + 1) j
      0).block w.next = some ((xs.take j).map some ++ cells) := by simp
  have hback := destroyBack_eq (X := Thrown) hcells
  rw [hlength] at hback
  have hraw : w₁.block w.next = none := by
    rw [hw₁]
    exact hfresh w.next (Nat.le_refl _)
  rw [← hw₁]
  obtain ⟨w₂, hw₂⟩ : ∃ w₂ : World ι T, w₂ = ((w₁.setBlock w.next
      (some (List.replicate j none ++ cells))).count (j + 1) j 0).count 0 0 j := ⟨_, rfl⟩
  rw [count_setBlock, setBlock_setBlock, ← hw₂] at hback
  have hrolled : w₂.block w.next = some (List.replicate j none ++ cells) := by simp [hw₂]
  refine meets_bind_ok hback (meets_bind_ok (operatorDelete_eq hrolled) ?_)
  refine meets_throwing ⟨rfl, ?_⟩
  rw [World.rolledBack, ← hw₁, hw₂]
  simp [setBlock_self hraw]

theorem transfer_meets (ho : Owns w f xs) (hfresh : Fresh w) (hle : xs.length ≤ c) :
    Meets (catching (transferFrom E f.data (some w.next) f.size 0) fun i => do
        destroyBack (some w.next) i
        operatorDelete (some w.next)
        throwing Thrown.element)
      ({ w with next := w.next + 1 }.setBlock w.next (some (List.replicate c none)))
      (fun _ w' => Transferred w w' f xs c ∧ ∀ j, ¬FailsAt E w xs.length j)
      (fun e w' => e = .element ∧ ∃ j, FailsAt E w xs.length j ∧ w' = w.rolledBack j) := by
  rw [ho.size]
  rcases ho.data with ⟨hnone, hcap⟩ | ⟨b, hdata, hb⟩
  · obtain rfl := List.eq_nil_of_length_eq_zero (Nat.le_zero.mp (hcap ▸ ho.le))
    rw [hnone]
    refine Meets.catching (R := fun _ _ => False) (meets_pure ⟨?_, ?_⟩) fun _ _ h => h.elim
    · refine ⟨rfl, ⟨[], rfl, ho.congr fun b hb => ?_⟩, ?_, fun b hb _ => ?_, rfl, rfl, rfl, rfl⟩
      · rw [hnone] at hb
        cases hb
      · simp [storage]
      · simp [hb]
    · exact not_failsAt_of_steady (.inr (by simp))
  · have hne : b ≠ w.next := fun h => ho.data_ne hfresh (Nat.le_refl _) (h ▸ hdata)
    obtain ⟨w₀, hw₀⟩ : ∃ w₀ : World ι T,
        w₀ = { w with next := w.next + 1 }.setBlock w.next (some (List.replicate c none)) := ⟨_, rfl⟩
    have hs : w₀.block b =
        some ([] ++ xs.map some ++ List.replicate (f.capacity - xs.length) none) := by
      rw [hw₀]
      simp [hne, hb, storage]
    have hd : w₀.block w.next = some (([] : List T).map some ++ List.replicate xs.length none ++
        List.replicate (c - xs.length) none) := by
      rw [hw₀]
      simp [List.replicate_append_replicate, Nat.add_sub_cancel' hle]
    have hcells : w₀.attempts = w.attempts := by rw [hw₀]; rfl
    have hloop := transferFrom_meets (E := E) hne hs hd rfl
    rw [hcells] at hloop
    rw [hdata, ← hw₀]
    refine Meets.catching (hloop.imp ?_ fun _ _ h => h) ?_
    · rintro - w' ⟨hsteady, rfl⟩
      refine ⟨?_, not_failsAt_of_steady hsteady⟩
      refine ⟨by rw [hw₀]; rfl, ⟨xs.map E.left, List.length_map .., ho.size.trans ?_, ?_, ?_⟩, ?_,
        fun b' hb' hdata' => ?_, by rw [hw₀]; rfl, ?_, ?_, by rw [hw₀]; rfl⟩
      · rw [List.length_map]
      · rw [List.length_map]
        exact ho.le
      · exact .inr ⟨b, hdata, by simp [hne, storage]⟩
      · simp [storage]
      · have hbb : b' ≠ b := fun h => hdata' (h ▸ hdata)
        rw [hw₀]
        simp [hb', hbb]
      · rw [hw₀]
        rfl
      · rw [hw₀]
        rfl
    · rintro i w' ⟨j, hj, rfl, hmove, hthrow, hbefore, rfl⟩
      rw [hw₀, setBlock_setBlock, List.length_nil, Nat.zero_add, List.nil_append,
        List.append_assoc]
      refine (rollback_meets hfresh (Nat.le_of_lt hj)).imp (fun _ _ h => h) ?_
      rintro e w' ⟨he, hw'⟩
      exact ⟨he, j, ⟨hj, hmove, hthrow, hbefore⟩, hw'⟩

theorem newData_meets (ho : Owns w f xs) (hfresh : Fresh w) (hle : xs.length ≤ c) :
    Meets (newData E f c) w
      (fun nd w' => c = 0 ∧ nd = none ∧ w' = w ∨
        c ≠ 0 ∧ nd = some w.next ∧ Transferred w w' f xs c ∧ ∀ j, ¬FailsAt E w xs.length j)
      (fun e w' => e = .element ∧ ∃ j, FailsAt E w xs.length j ∧ w' = w.rolledBack j) := by
  rw [newData]
  split_ifs with hc
  · exact meets_pure (.inl ⟨hc, rfl, rfl⟩)
  · have hnew : (operatorNew c : Throwing (World ι T) Thrown ℕ) w = some (.ok w.next,
        { w with next := w.next + 1 }.setBlock w.next (some (List.replicate c none))) := rfl
    refine meets_bind_ok hnew ((transfer_meets ho hfresh hle).bind ?_)
    rintro - w' ⟨htransfer, hsteady⟩
    exact meets_pure (.inr ⟨hc, rfl, htransfer, hsteady⟩)

end Growth

section Edits
variable [DecidableEq ι] {r : Option Vec}

def World.setVec (w : World ι T) (v : ι) (r : Option Vec) : World ι T :=
  { w with vec := Function.update w.vec v r }

omit [DecidableEq ι] in
theorem fields_eq (hv : w.vec v = some f) :
    (fields v : Throwing (World ι T) X Vec) w = some (.ok f, w) := perform_eq (by simp [hv])

theorem setFields_eq (hv : w.vec v = some f) (g : Vec) :
    (setFields v g : Throwing (World ι T) X Unit) w = some (.ok (), w.setVec v (some g)) :=
  perform_eq (by simp [hv, World.setVec])

/-- One vector changes, with its block and new ones, from so many elements to so many. -/
structure Edits (w w' : World ι T) (v : ι) (f : Vec) (r : Option Vec) (old new : ℕ) : Prop where
  vec : w'.vec = Function.update w.vec v r
  frame : ∀ b < w.next, f.data ≠ some b → w'.block b = w.block b
  next : w.next ≤ w'.next
  fresh : Fresh w'
  data : ∀ g, r = some g → ∀ b, g.data = some b → f.data = some b ∨ w.next ≤ b
  balance : w'.constructed + w.destroyed + old = w.constructed + w'.destroyed + new

theorem Edits.refl (hv : w.vec v = some f) (hfresh : Fresh w) (n : ℕ) :
    Edits w w v f (some f) n n := by
  refine ⟨?_, fun _ _ _ => rfl, Nat.le_refl _, hfresh, ?_, rfl⟩
  · rw [← hv, Function.update_eq_self]
  · rintro g hg b hb
    obtain rfl := Option.some.inj hg
    exact .inl hb

/-- A change of the own block alone. -/
theorem edits_within (ho : Owns w f xs) (hfresh : Fresh w)
    (hvec : w'.vec = Function.update w.vec v r)
    (hdata : ∀ g, r = some g → ∀ b, g.data = some b → f.data = some b)
    (hframe : ∀ b, f.data ≠ some b → w'.block b = w.block b) (hnext : w'.next = w.next)
    (hbalance : w'.constructed + w.destroyed + k = w.constructed + w'.destroyed + l) :
    Edits w w' v f r k l := by
  refine ⟨hvec, fun b _ => hframe b, Nat.le_of_eq hnext.symm, fun b hb => ?_, ?_, hbalance⟩
  · rw [hnext] at hb
    rw [hframe b (ho.data_ne hfresh hb), hfresh b hb]
  · exact fun g hg b hb => .inl (hdata g hg b hb)

theorem edits_own (ho : Owns w f xs) (hfresh : Fresh w)
    (hvec : w'.vec = Function.update w.vec v (some g)) (hdata : g.data = f.data)
    (hframe : ∀ b, f.data ≠ some b → w'.block b = w.block b) (hnext : w'.next = w.next)
    (hbalance : w'.constructed + w.destroyed + k = w.constructed + w'.destroyed + l) :
    Edits w w' v f (some g) k l :=
  edits_within ho hfresh hvec (fun _ hg _ hb => hdata ▸ Option.some.inj hg ▸ hb) hframe hnext
    hbalance

theorem Edits.trans (h : Edits w w' v f (some g) k l) (h' : Edits w' w'' v g r l n) :
    Edits w w'' v f r k n := by
  refine ⟨?_, fun b hb hdata => ?_, Nat.le_trans h.next h'.next, h'.fresh, fun g' hg' b hb => ?_, ?_⟩
  · rw [h'.vec, h.vec, Function.update_idem]
  · have hkept : g.data ≠ some b := by
      intro hg
      rcases h.data g rfl b hg with hf | hnew
      · exact hdata hf
      · omega
    rw [h'.frame b (Nat.lt_of_lt_of_le hb h.next) hkept, h.frame b hb hdata]
  · rcases h'.data g' hg' b hb with hg | hnew
    · exact h.data g rfl b hg
    · exact .inr (Nat.le_trans h.next hnew)
  · have hbalance := h.balance
    have hbalance' := h'.balance
    omega

theorem edits_rolledBack (hv : w.vec v = some f) (hfresh : Fresh w) (j n : ℕ) :
    Edits w (w.rolledBack j) v f (some f) n n := by
  refine ⟨?_, fun _ _ _ => rfl, Nat.le_succ _, fun b hb => hfresh b (Nat.le_of_succ_le hb), ?_, ?_⟩
  · rw [← hv, Function.update_eq_self]
    rfl
  · rintro g hg b hb
    obtain rfl := Option.some.inj hg
    exact .inl hb
  · change w.constructed + j + w.destroyed + n = w.constructed + (w.destroyed + j) + n
    omega

/-- What a growth leaves: the elements in storage of the new capacity, and the old block gone. -/
structure Regrown (E : Element T) (w w' : World ι T) (v : ι) (f g : Vec) (xs : List T) (c : ℕ) :
    Prop where
  edits : Edits w w' v f (some g) xs.length xs.length
  owns : Owns w' g xs
  capacity : g.capacity = c
  freed : ∀ b, f.data = some b → w'.block b = none
  attempts : w'.attempts = w.attempts + xs.length
  steady : ∀ j, ¬FailsAt E w xs.length j

/-- The end of a growth, once the elements are in the new block. -/
theorem replace_meets {nd : Option ℕ} (hv : w.vec v = some f)
    (ho : Owns w f ys) :
    Meets (do
        destroyFrom f.data f.size 0
        operatorDelete f.data
        setFields v { f with data := nd, capacity := c }) w
      (fun _ w' => w' = ((w.free f).count 0 0 ys.length).setVec v
        (some { f with data := nd, capacity := c })) fun (_ : Thrown) _ => False := by
  have hv' : ((w.free f).count 0 0 ys.length).vec v = some f := by
    rw [← hv]
    exact congrFun free_vec v
  exact meets_bind_ok (destroyAll_eq ho) (meets_bind_ok (deleteAll_eq ho _)
    (meets_of_ok (setFields_eq hv' _) rfl))

theorem growTo_meets (hv : w.vec v = some f) (ho : Owns w f xs) (hfresh : Fresh w)
    (hle : xs.length ≤ c) :
    Meets (growTo E v c) w (fun _ w' => ∃ g, Regrown E w w' v f g xs c)
      (fun e w' => e = .element ∧ ∃ j, FailsAt E w xs.length j ∧ w' = w.rolledBack j) := by
  rw [growTo]
  refine meets_bind_ok (fields_eq hv) ((newData_meets ho hfresh hle).bind ?_)
  rintro nd w₁ (⟨rfl, rfl, rfl⟩ | ⟨hc, rfl, htransfer, hsteady⟩)
  · obtain rfl := List.eq_nil_of_length_eq_zero (Nat.le_zero.mp hle)
    refine (replace_meets hv ho).imp ?_ fun _ _ h => h.elim
    rintro - w' rfl
    refine ⟨{ f with data := none, capacity := 0 }, ⟨?_, ?_, Nat.le_of_eq ?_, hfresh.free, ?_, ?_⟩,
      ⟨ho.size, Nat.le_refl 0, .inl ⟨rfl, rfl⟩⟩, rfl, ?_, ?_, not_failsAt_of_steady (.inr (by simp))⟩
    · simp [World.setVec, World.count]
    · intro b _ hdata
      simp [World.setVec, World.count, free_block, hdata]
    · simp [World.setVec, World.count]
    · rintro g hg b hb
      obtain rfl := Option.some.inj hg
      cases hb
    · simp [World.setVec, World.count]
    · intro b hdata
      simp [World.setVec, World.count, free_block, hdata]
    · simp [World.setVec, World.count]
  · obtain ⟨ys, hys, hold⟩ := htransfer.old
    have hne := ho.data_ne hfresh (Nat.le_refl w.next)
    have hfresh₁ : Fresh w₁ := by
      intro b hb
      rw [htransfer.next] at hb
      rw [htransfer.frame b (by omega) (ho.data_ne hfresh (by omega)), hfresh b (by omega)]
    refine (replace_meets (htransfer.vec ▸ hv) hold).imp ?_ fun _ _ h => h.elim
    rintro - w' rfl
    refine ⟨{ f with data := some w.next, capacity := c }, ⟨?_, ?_, ?_, hfresh₁.free, ?_, ?_⟩,
      ⟨ho.size, hle, .inr ⟨w.next, rfl, ?_⟩⟩, rfl, ?_, ?_, hsteady⟩
    · simp [World.setVec, World.count, htransfer.vec]
    · intro b hb hdata
      simp [World.setVec, World.count, free_block, hdata, htransfer.frame b (by omega) hdata]
    · simp [World.setVec, World.count, htransfer.next]
    · rintro g hg b hb
      obtain rfl := Option.some.inj hg
      exact .inr (Nat.le_of_eq (Option.some.inj hb))
    · simp only [World.setVec, World.count, free_constructed, free_destroyed,
        htransfer.constructed, htransfer.destroyed, hys]
      omega
    · simp [World.setVec, World.count, free_block, hne, htransfer.new]
    · intro b hdata
      simp [World.setVec, World.count, free_block, hdata]
    · simp [World.setVec, World.count, htransfer.attempts]

end Edits

end HftExercises.DynVector
