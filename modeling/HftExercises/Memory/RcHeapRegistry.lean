import HftExercises.Memory.RcHeap

/-! # Erasing from the registry

What the shift of `erase` does to the slots, by where the slot it starts at
stands: an empty slot only travels to the end, and behind the end nothing
happens. The number of null entries never falls, whatever the nested deletions
do, which also bounds their depth.
-/
namespace HftExercises.Rc
variable {N : Type*}

theorem exists_split {slots : List (Option N)} {j : ℕ} (h : j < slots.length) :
    ∃ A e B, slots = A ++ e :: B ∧ A.length = j :=
  ⟨slots.take j, slots[j], slots.drop (j + 1), by simp, by simp [h.le]⟩

@[simp] theorem slotAt_append (A B : List (Option N)) (e : Option N) :
    slotAt (A ++ e :: B) A.length = e := by
  simp [slotAt]

theorem slotAt_behind {slots : List (Option N)} {j : ℕ} (h : slots.length ≤ j) :
    slotAt slots j = none := by
  simp [slotAt, List.getElem?_eq_none h]

@[simp] theorem takeOver_append (A B : List (Option N)) (e s : Option N) :
    takeOver (A ++ e :: s :: B) A.length = A ++ s :: none :: B := by
  have hnext : slotAt (A ++ e :: s :: B) (A.length + 1) = s := by simp [slotAt]
  rw [takeOver, hnext]
  simp

@[simp] theorem takeOver_last (A : List (Option N)) (e : Option N) :
    takeOver (A ++ [e]) A.length = A ++ [none] := by
  have hnext : slotAt (A ++ [e]) (A.length + 1) = none := slotAt_behind (by simp)
  rw [takeOver, hnext]
  simp

theorem takeOver_behind {slots : List (Option N)} {j : ℕ} (h : slots.length ≤ j) :
    takeOver slots j = slots := by
  rw [takeOver, List.set_eq_of_length_le h, List.set_eq_of_length_le (by omega)]

/-- The null entries. -/
def holes (slots : List (Option N)) : ℕ := slots.countP Option.isNone

@[simp] theorem holes_append (A B : List (Option N)) : holes (A ++ B) = holes A + holes B :=
  List.countP_append

@[simp] theorem holes_nil : holes ([] : List (Option N)) = 0 := rfl

@[simp] theorem holes_none (B : List (Option N)) : holes (none :: B) = holes B + 1 := by
  simp [holes]

@[simp] theorem holes_some (x : N) (B : List (Option N)) : holes (some x :: B) = holes B := by
  simp [holes]

/-- An empty slot takes over: the hole moves by one place. -/
theorem takeOver_null (A B : List (Option N)) :
    holes (takeOver (A ++ none :: B) A.length) = holes (A ++ none :: B) ∧
      (takeOver (A ++ none :: B) A.length).reduceOption = (A ++ none :: B).reduceOption := by
  cases B with
  | nil => simp
  | cons s B =>
    rw [takeOver_append]
    cases s with
    | none => simp
    | some y => simp [List.reduceOption_append]

/-- A slot that owns `x` takes over: `x` leaves and a hole appears. -/
theorem takeOver_owner (A B : List (Option N)) (x : N) :
    holes (takeOver (A ++ some x :: B) A.length) = holes (A ++ B) + 1 ∧
      (takeOver (A ++ some x :: B) A.length).reduceOption = (A ++ B).reduceOption := by
  cases B with
  | nil => simp [List.reduceOption_append]
  | cons s B =>
    rw [takeOver_append]
    cases s with
    | none => simp [List.reduceOption_append]; omega
    | some y => simp [List.reduceOption_append]; omega

namespace RcHeap
variable (delete : RcHeap N → N → Option (RcHeap N))

theorem moveAssign_behind {h : RcHeap N} {j : ℕ} (hj : h.nodes.length ≤ j) :
    moveAssign delete h j = some h := by
  simp [moveAssign, takeOver_behind hj, slotAt_behind hj, deleteOwned]

theorem shiftLeft_behind {h : RcHeap N} {j : ℕ} (hj : h.nodes.length ≤ j) (moves : ℕ) :
    shiftLeft delete moves j h = some h := by
  induction moves generalizing j with
  | zero => rfl
  | succ moves ih => simp [shiftLeft, moveAssign_behind delete hj, ih (hj.trans (Nat.le_succ j))]

/-- From an empty slot on nothing is deleted: the hole travels to the end. -/
theorem shiftLeft_null (h : RcHeap N) (A B : List (Option N)) {moves : ℕ} (hm : B.length ≤ moves) :
    shiftLeft delete moves A.length { h with nodes := A ++ none :: B } =
      some { h with nodes := A ++ B ++ [none] } := by
  induction B generalizing A moves with
  | nil =>
    cases moves with
    | zero => simp [shiftLeft]
    | succ moves =>
      have hmove : moveAssign delete { h with nodes := A ++ [none] } A.length =
          some { h with nodes := A ++ [none] } := by
        simp [moveAssign, deleteOwned]
      simp [shiftLeft, hmove, shiftLeft_behind]
  | cons s B ih =>
    cases moves with
    | zero => simp at hm
    | succ moves =>
      have hmove : moveAssign delete { h with nodes := A ++ none :: s :: B } A.length =
          some { h with nodes := (A ++ [s]) ++ none :: B } := by
        simp [moveAssign, deleteOwned]
      have hlen : A.length + 1 = (A ++ [s]).length := by simp
      rw [shiftLeft, hmove, Option.bind_some, hlen,
        ih (A ++ [s]) (by simpa using hm)]
      simp

theorem popBack_append (h : RcHeap N) (A : List (Option N)) (e : Option N) :
    popBack delete { h with nodes := A ++ [e] } = deleteOwned delete { h with nodes := A } e := by
  simp [popBack]

/-- Erasing a null entry. -/
theorem erase_null {h : RcHeap N} {A B : List (Option N)} (hn : h.nodes = A ++ none :: B) :
    erase delete h A.length = some { h with nodes := A ++ B } := by
  have hh : h = { h with nodes := A ++ none :: B } := by rw [← hn]
  have hm : B.length ≤ (A ++ none :: B).length - (A.length + 1) := by
    simp only [List.length_append, List.length_cons]
    omega
  rw [erase, hh, shiftLeft_null delete _ A B hm, Option.bind_some, popBack_append]
  rfl

/-- Erasing the last entry is the deletion of what it owns. -/
theorem erase_last {h : RcHeap N} {A : List (Option N)} {x : N} (hn : h.nodes = A ++ [some x]) :
    erase delete h A.length = delete { h with nodes := A } x := by
  have hh : h = { h with nodes := A ++ [some x] } := by rw [← hn]
  have hmoves : h.nodes.length - (A.length + 1) = 0 := by simp [hn]
  rw [erase, hmoves, shiftLeft, Option.bind_some, hh, popBack_append]
  rfl

/-- Elsewhere the deletion comes between the first move and the others. -/
theorem erase_owner {h : RcHeap N} {A B : List (Option N)} {x : N} {s : Option N}
    (hn : h.nodes = A ++ some x :: s :: B) :
    erase delete h A.length = (delete { h with nodes := A ++ s :: none :: B } x).bind
      fun h' => (shiftLeft delete B.length (A.length + 1) h').bind (popBack delete) := by
  have hmoves : h.nodes.length - (A.length + 1) = B.length + 1 := by
    simp [hn]
    omega
  rw [erase, hmoves, shiftLeft, moveAssign, hn, slotAt_append, takeOver_append, Option.bind_assoc]
  rfl

/-! ## Null entries never vanish -/

/-- The nodes the registry owns. -/
def owned (h : RcHeap N) : ℕ := h.nodes.reduceOption.length

/-- No null entry has gone and no node has come back. -/
def Wears (h h' : RcHeap N) : Prop := holes h.nodes ≤ holes h'.nodes ∧ h'.owned ≤ h.owned

theorem Wears.refl (h : RcHeap N) : Wears h h := ⟨le_rfl, le_rfl⟩

theorem Wears.trans {h h' h'' : RcHeap N} (hw : Wears h h') (hw' : Wears h' h'') : Wears h h'' :=
  ⟨hw.1.trans hw'.1, hw'.2.trans hw.2⟩

/-- Deletions end when fewer than `bound` nodes are registered. -/
def Deletes (delete : RcHeap N → N → Option (RcHeap N)) (bound : ℕ) : Prop :=
  ∀ h x, h.owned < bound → ∃ h', delete h x = some h' ∧ Wears h h'

section Wear
variable {delete} {bound : ℕ} (hd : Deletes delete bound) {h : RcHeap N} (hb : h.owned ≤ bound)
include hd hb

theorem moveAssign_wears (j : ℕ) :
    ∃ h', moveAssign delete h j = some h' ∧ Wears h h' ∧
      (slotAt h.nodes j ≠ none → holes h.nodes < holes h'.nodes) := by
  rcases Nat.lt_or_ge j h.nodes.length with hj | hj
  · obtain ⟨A, e, B, hsplit, rfl⟩ := exists_split hj
    have hmove : moveAssign delete h A.length =
        deleteOwned delete { h with nodes := takeOver (A ++ e :: B) A.length } e := by
      rw [moveAssign, hsplit, slotAt_append]
    cases e with
    | none =>
      obtain ⟨hholes, howned⟩ := takeOver_null A B
      have hsame : Wears h { h with nodes := takeOver (A ++ none :: B) A.length } := by
        simp [Wears, owned, hsplit, hholes, howned]
      exact ⟨_, hmove, hsame, fun hs => absurd (by rw [hsplit, slotAt_append]) hs⟩
    | some x =>
      obtain ⟨hholes, howned⟩ := takeOver_owner A B x
      have hlt : owned { h with nodes := takeOver (A ++ some x :: B) A.length } < h.owned := by
        simp [owned, hsplit, howned, List.reduceOption_append]
      obtain ⟨h', hdel, hw⟩ :=
        hd { h with nodes := takeOver (A ++ some x :: B) A.length } x (hlt.trans_le hb)
      have hgain : holes h.nodes < holes h'.nodes := by
        have hle := hw.1
        simp only [hholes] at hle
        simp only [hsplit, holes_append, holes_some] at hle ⊢
        omega
      exact ⟨h', hmove.trans hdel, ⟨hgain.le, hw.2.trans hlt.le⟩, fun _ => hgain⟩
  · exact ⟨h, moveAssign_behind delete hj, .refl h, fun hs => absurd (slotAt_behind hj) hs⟩

theorem shiftLeft_wears (moves j : ℕ) :
    ∃ h', shiftLeft delete moves j h = some h' ∧ Wears h h' := by
  induction moves generalizing j h with
  | zero => exact ⟨h, rfl, .refl h⟩
  | succ moves ih =>
    obtain ⟨h₁, hmove, hw₁, _⟩ := moveAssign_wears hd hb j
    obtain ⟨h', hshift, hw'⟩ := ih (hw₁.2.trans hb) (j + 1)
    exact ⟨h', by rw [shiftLeft, hmove, Option.bind_some, hshift], hw₁.trans hw'⟩

/-- Only a null entry at the end is taken off by `popBack`. -/
theorem popBack_wears {A : List (Option N)} {e : Option N} (hn : h.nodes = A ++ [e]) :
    ∃ h', popBack delete h = some h' ∧ holes A ≤ holes h'.nodes ∧ h'.owned ≤ h.owned := by
  have hpop : popBack delete h = deleteOwned delete { h with nodes := A } e := by
    rw [← popBack_append, ← hn]
  cases e with
  | none =>
    refine ⟨_, hpop, le_rfl, ?_⟩
    simp [owned, hn, List.reduceOption_append]
  | some x =>
    have hlt : owned { h with nodes := A } < h.owned := by
      simp [owned, hn, List.reduceOption_append]
    obtain ⟨h', hdel, hw⟩ := hd { h with nodes := A } x (hlt.trans_le hb)
    exact ⟨h', hpop.trans hdel, hw.1, hw.2.trans hlt.le⟩

/-- The rest of an erasure takes off one null entry at most. -/
theorem resume_wears (hpos : 0 < holes h.nodes) (moves j : ℕ) :
    ∃ h', (shiftLeft delete moves j h).bind (popBack delete) = some h' ∧
      holes h.nodes ≤ holes h'.nodes + 1 ∧ h'.owned ≤ h.owned := by
  obtain ⟨h₁, hshift, hw₁⟩ := shiftLeft_wears hd hb moves j
  have hne : h₁.nodes ≠ [] := by
    intro hnil
    have hle := hw₁.1
    simp only [hnil, holes_nil] at hle
    omega
  obtain ⟨A, e, hn⟩ := (List.eq_nil_or_concat' h₁.nodes).resolve_left hne
  obtain ⟨h', hpop, hholes, howned⟩ := popBack_wears hd (hw₁.2.trans hb) hn
  refine ⟨h', by rw [hshift, Option.bind_some, hpop], ?_, howned.trans hw₁.2⟩
  have hle := hw₁.1
  rw [hn, holes_append] at hle
  cases e with
  | none =>
    simp only [holes_none, holes_nil] at hle
    omega
  | some x =>
    simp only [holes_some, holes_nil] at hle
    omega

/-- A shift that resumes at a slot in use deletes what that slot owns, and a null entry
stays for it. -/
theorem resume_occupied (hpos : 0 < holes h.nodes) {moves j : ℕ}
    (hm : h.nodes.length ≤ moves + j + 1)
    (hslot : slotAt h.nodes (min j (h.nodes.length - 1)) ≠ none) :
    ∃ h', (shiftLeft delete moves j h).bind (popBack delete) = some h' ∧
      holes h.nodes ≤ holes h'.nodes ∧ h'.owned ≤ h.owned := by
  have hne : h.nodes ≠ [] := by
    intro hnil
    simp [hnil] at hpos
  obtain ⟨A, e, hn⟩ := (List.eq_nil_or_concat' h.nodes).resolve_left hne
  have hlen : h.nodes.length = A.length + 1 := by simp [hn]
  -- nothing is shifted, and the last entry is not null
  have hlast : shiftLeft delete moves j h = some h → slotAt h.nodes A.length ≠ none →
      ∃ h', (shiftLeft delete moves j h).bind (popBack delete) = some h' ∧
        holes h.nodes ≤ holes h'.nodes ∧ h'.owned ≤ h.owned := by
    intro hshift hend
    obtain ⟨h', hpop, hholes, howned⟩ := popBack_wears hd hb hn
    refine ⟨h', by rw [hshift, Option.bind_some, hpop], ?_, howned⟩
    rw [hn, slotAt_append] at hend
    obtain ⟨x, rfl⟩ := Option.ne_none_iff_exists'.mp hend
    simpa [hn] using hholes
  rcases Nat.lt_or_ge j h.nodes.length with hj | hj
  · rw [Nat.min_eq_left (by omega)] at hslot
    cases moves with
    | zero =>
      obtain rfl : j = A.length := by omega
      exact hlast rfl hslot
    | succ moves =>
      obtain ⟨h₁, hmove, hw₁, hgain⟩ := moveAssign_wears hd hb j
      have hlt := hgain hslot
      obtain ⟨h', hrest, hholes, howned⟩ :=
        resume_wears hd (hw₁.2.trans hb) (hpos.trans hlt) moves (j + 1)
      exact ⟨h', by rw [shiftLeft, hmove, Option.bind_some, hrest], by omega, howned.trans hw₁.2⟩
  · rw [Nat.min_eq_right (by omega), hlen, Nat.add_sub_cancel] at hslot
    exact hlast (shiftLeft_behind delete hj moves) hslot

/-- Erasing a registered node leaves the number of null entries at least as it was. -/
theorem erase_wears {A B : List (Option N)} {x : N} (hn : h.nodes = A ++ some x :: B) :
    ∃ h', erase delete h A.length = some h' ∧ Wears h h' := by
  cases B with
  | nil =>
    have hlt : owned { h with nodes := A } < h.owned := by
      simp [owned, hn, List.reduceOption_append]
    obtain ⟨h', hdel, hw⟩ := hd { h with nodes := A } x (hlt.trans_le hb)
    refine ⟨h', (erase_last delete hn).trans hdel, ?_, hw.2.trans hlt.le⟩
    simpa [hn] using hw.1
  | cons s B =>
    obtain ⟨hholes, howned⟩ := takeOver_owner A (s :: B) x
    rw [takeOver_append] at hholes howned
    have hlt : owned { h with nodes := A ++ s :: none :: B } < h.owned := by
      simp [owned, hn, howned, List.reduceOption_append]
    obtain ⟨h₁, hdel, hw₁⟩ := hd { h with nodes := A ++ s :: none :: B } x (hlt.trans_le hb)
    have hgain : holes h.nodes + 1 ≤ holes h₁.nodes := by
      have hle := hw₁.1
      simp only [hholes] at hle
      simpa [hn] using hle
    obtain ⟨h', hrest, hend, hown⟩ :=
      resume_wears hd (hw₁.2.trans (hlt.le.trans hb)) (by omega) B.length (A.length + 1)
    refine ⟨h', ?_, by omega, hown.trans (hw₁.2.trans hlt.le)⟩
    rw [erase_owner delete hn, hdel, Option.bind_some, hrest]

end Wear

/-- A shift that resumes at a null entry ends with that entry erased. -/
theorem resume_null {h : RcHeap N} (hne : h.nodes ≠ []) {moves j : ℕ}
    (hm : h.nodes.length ≤ moves + j + 1)
    (hslot : slotAt h.nodes (min j (h.nodes.length - 1)) = none) :
    (shiftLeft delete moves j h).bind (popBack delete) =
      some { h with nodes := h.nodes.eraseIdx (min j (h.nodes.length - 1)) } := by
  rcases Nat.lt_or_ge j h.nodes.length with hj | hj
  · rw [Nat.min_eq_left (by omega)] at hslot ⊢
    obtain ⟨A, e, B, hn, rfl⟩ := exists_split hj
    obtain rfl : e = none := by simpa [hn] using hslot
    have hB : B.length ≤ moves := by
      simp only [hn, List.length_append, List.length_cons] at hm
      omega
    have hh : h = { h with nodes := A ++ none :: B } := by rw [← hn]
    have herase : (A ++ none :: B).eraseIdx A.length = A ++ B := by
      simp [List.eraseIdx_append_of_length_le]
    rw [hh, shiftLeft_null delete h A B hB, Option.bind_some, popBack_append]
    simp [deleteOwned, herase]
  · obtain ⟨A, e, hn⟩ := (List.eq_nil_or_concat' h.nodes).resolve_left hne
    have hlen : h.nodes.length - 1 = A.length := by simp [hn]
    rw [Nat.min_eq_right (by omega), hlen] at hslot ⊢
    obtain rfl : e = none := by simpa [hn] using hslot
    have hh : h = { h with nodes := A ++ [none] } := by rw [← hn]
    have herase : (A ++ [none] : List (Option N)).eraseIdx A.length = A := by
      simp [List.eraseIdx_append_of_length_le]
    rw [shiftLeft_behind delete hj, Option.bind_some, hh, popBack_append]
    simp [deleteOwned, herase]

variable [DecidableEq N]

section Nested
variable {delete} {bound : ℕ} (hd : Deletes delete bound) {h : RcHeap N} (hb : h.owned ≤ bound)
include hd hb

theorem destroyNow_wears (x : N) : ∃ h', destroyNow delete h x = some h' ∧ Wears h h' := by
  unfold destroyNow
  split_ifs with hlive hreg
  · obtain ⟨A, B, hn, hA⟩ := List.eq_append_cons_of_mem hreg
    have hidx : h.nodes.idxOf (some x) = A.length := by
      rw [hn, List.idxOf_append_of_notMem hA, List.idxOf_cons_self, Nat.add_zero]
    rw [hidx]
    exact erase_wears hd (h := { h with live := h.live.erase x }) hb hn
  · exact ⟨_, rfl, .refl h⟩
  · exact ⟨h, rfl, .refl h⟩

theorem drop_wears (p : Option N) : ∃ h', drop delete h p = some h' ∧ Wears h h' := by
  cases p with
  | none => exact ⟨h, rfl, .refl h⟩
  | some x =>
    simp only [drop]
    split_ifs with hzero
    · exact destroyNow_wears hd (h := h.retire x) hb x
    · exact ⟨_, rfl, .refl h⟩

theorem dropAll_wears (ps : List (Option N)) :
    ∃ h', dropAll delete h ps = some h' ∧ Wears h h' := by
  induction ps generalizing h with
  | nil => exact ⟨h, rfl, .refl h⟩
  | cons p ps ih =>
    obtain ⟨h₁, hdrop, hw₁⟩ := drop_wears hd hb p
    obtain ⟨h', hrest, hw'⟩ := ih (hw₁.2.trans hb)
    exact ⟨h', by rw [dropAll, hdrop, Option.bind_some, hrest], hw₁.trans hw'⟩

end Nested

/-- Every deletion ends: each nested one has taken a node out of the registry. -/
theorem deleteNode_deletes (fuel : ℕ) : Deletes (deleteNode (N := N) fuel) fuel := by
  induction fuel with
  | zero => exact fun h x hlt => absurd hlt (Nat.not_lt_zero _)
  | succ fuel ih =>
    intro h x hlt
    obtain ⟨h', hdrop, hw⟩ := dropAll_wears ih (Nat.le_of_lt_succ hlt) (h.payload x)
    exact ⟨{ h' with destroyed := h'.destroyed ++ [x] }, by rw [deleteNode, hdrop]; rfl, hw⟩

/-! ## Between two calls -/

/-- The payload edges into a node. -/
def incoming (h : RcHeap N) (n : N) : ℕ := ∑ y ∈ h.live, (h.payload y).count (some n)

/-- The `RcPtr` objects that name a node: those of the live payloads and those outside. -/
def handles (h : RcHeap N) (n : N) : ℕ := h.outside.count (some n) + h.incoming n

/-- The registry and the live set have the same nodes, and every count is right. -/
structure Consistent (h : RcHeap N) : Prop where
  registered : ∃ ids : List N, h.nodes = ids.map some ∧ ids.Nodup ∧ ids.toFinset = h.live
  idle : h.sweeping = false
  unmarked : ∀ n ∈ h.live, h.marked n = false
  counted : ∀ n ∈ h.live, h.strong n = h.handles n

/-- No handle is left behind its node. -/
structure Closed (h : RcHeap N) : Prop where
  outside : ∀ n, some n ∈ h.outside → n ∈ h.live
  payload : ∀ y ∈ h.live, ∀ n, some n ∈ h.payload y → n ∈ h.live
  destroyed : ∀ n ∈ h.destroyed, n ∉ h.live

end RcHeap
end HftExercises.Rc
