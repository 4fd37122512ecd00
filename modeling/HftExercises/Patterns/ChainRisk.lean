import Mathlib.Data.Finset.Basic
import HftExercises.Core.Execution

/-! # The risk chain

Handlers are linked by their `next_` pointers. A request runs through them until
one refuses it or the chain ends; the one stateful handler adds up what it lets
pass, whatever the handlers behind it say.
-/
namespace HftExercises.RiskChains

inductive Side where
  | buy
  | sell
  deriving DecidableEq, Repr

structure OrderCheck where
  id : UInt64 := 0
  side : Side := .buy
  price : Int64 := 0
  qty : Int64 := 0
  symbol : UInt64 := 0
  deriving DecidableEq

structure CheckResult where
  ok : Bool
  reason : String
  deriving DecidableEq

structure MaxNotionalHandler where
  maxNotional : Int64
  used : Int64 := 0
  deriving DecidableEq

inductive RiskHandler where
  | limitQty (maxQty : Int64)
  | limitPrice (maxPrice : Int64)
  | allowedSymbols (allowed : Finset UInt64)
  | maxNotional (h : MaxNotionalHandler)
  deriving DecidableEq

namespace MaxNotionalHandler

def doCheck (h : MaxNotionalHandler) (request : OrderCheck) : CheckResult × MaxNotionalHandler :=
  let delta := request.price * request.qty
  if delta > 0 ∧ h.used + delta > h.maxNotional then (⟨false, "notional limit"⟩, h)
  else (⟨true, ""⟩, if delta > 0 then { h with used := h.used + delta } else h)

def reset (h : MaxNotionalHandler) : MaxNotionalHandler := { h with used := 0 }

end MaxNotionalHandler

/-- The checks without a state refuse on a condition. -/
def refuseIf (refuse : Bool) (reason : String) : CheckResult :=
  if refuse then ⟨false, reason⟩ else ⟨true, ""⟩

def RiskHandler.doCheck (h : RiskHandler) (request : OrderCheck) : CheckResult × RiskHandler :=
  match h with
  | .limitQty maxQty => (refuseIf (request.qty < 1 || request.qty > maxQty) "qty limit", h)
  | .limitPrice maxPrice =>
    (refuseIf (request.price < 1 || request.price > maxPrice) "price limit", h)
  | .allowedSymbols allowed =>
    (refuseIf (request.symbol ∉ allowed) ("symbol not allowed: " ++ toString request.symbol), h)
  | .maxNotional n => ((n.doCheck request).1, .maxNotional (n.doCheck request).2)

/-- A handler object with its `next_`, which names another object by its position. -/
structure Node where
  handler : RiskHandler
  next : Option ℕ
  deriving DecidableEq

/-- The handler objects that were appended, and `head_` and `tail_`. -/
structure RiskChain where
  nodes : List Node
  head : Option ℕ
  tail : Option ℕ
  deriving DecidableEq

namespace RiskChain

def empty : RiskChain := ⟨[], none, none⟩

/-- A new handler object is hung off the tail. `head_` and `tail_` are null together. -/
def append (c : RiskChain) (h : RiskHandler) : RiskChain :=
  match c.head, c.tail with
  | some head, some tail =>
    { nodes := c.nodes.modify tail (fun n => { n with next := some c.nodes.length }) ++ [⟨h, none⟩]
      head := some head
      tail := some c.nodes.length }
  | _, _ =>
    { nodes := c.nodes ++ [⟨h, none⟩]
      head := some c.nodes.length
      tail := some c.nodes.length }

/-- `RiskHandler::handle` of the object at position `i`. -/
def handle (request : OrderCheck) : ℕ → List Node → ℕ → Option (CheckResult × List Node)
  | 0, _, _ => none
  | fuel + 1, nodes, i =>
    nodes[i]?.bind fun node =>
      let checked := node.handler.doCheck request
      let nodes := nodes.set i { node with handler := checked.2 }
      if checked.1.ok = false then some (checked.1, nodes)
      else
        match node.next with
        | none => some (⟨true, ""⟩, nodes)
        | some next => handle request fuel nodes next

def validate (c : RiskChain) (request : OrderCheck) : Option (CheckResult × RiskChain) :=
  match c.head with
  | none => some (⟨true, ""⟩, c)
  | some head =>
    (handle request c.nodes.length c.nodes head).map fun r => (r.1, { c with nodes := r.2 })

/-- The chain of the given handlers, appended in this order. -/
def ofHandlers (hs : List RiskHandler) : RiskChain := hs.foldl append empty

end RiskChain

/-! ## The chain as a list -/

/-- The handlers run in order, up to the first one that refuses. -/
def walk (request : OrderCheck) : List RiskHandler → CheckResult × List RiskHandler
  | [] => (⟨true, ""⟩, [])
  | h :: hs =>
    let checked := h.doCheck request
    if checked.1.ok = false then (checked.1, checked.2 :: hs)
    else ((walk request hs).1, checked.2 :: (walk request hs).2)

theorem walk_length (request : OrderCheck) (hs : List RiskHandler) :
    (walk request hs).2.length = hs.length := by
  induction hs with
  | nil => rfl
  | cons h hs ih =>
    simp only [walk]
    split_ifs
    · rfl
    · simp [ih]

/-- Each object points at the one behind it. -/
def linked (hs : List RiskHandler) : List Node :=
  hs.mapIdx fun i h => ⟨h, if i + 1 < hs.length then some (i + 1) else none⟩

theorem linked_getElem? (hs : List RiskHandler) (i : ℕ) :
    (linked hs)[i]? =
      hs[i]?.map fun h => ⟨h, if i + 1 < hs.length then some (i + 1) else none⟩ :=
  List.getElem?_mapIdx

theorem linked_length (hs : List RiskHandler) : (linked hs).length = hs.length :=
  List.length_mapIdx

theorem linked_set (hs : List RiskHandler) (i : ℕ) (h : RiskHandler) :
    (linked hs).set i ⟨h, if i + 1 < hs.length then some (i + 1) else none⟩ =
      linked (hs.set i h) := by
  apply List.ext_getElem?
  intro j
  rw [List.getElem?_set, linked_getElem?, linked_getElem?, List.getElem?_set, List.length_set,
    linked_length]
  by_cases hij : i = j
  · subst hij
    by_cases hi : i < hs.length
    · simp [hi]
    · simp [hi]
  · simp [hij]

/-- A new object behind the last one. -/
theorem linked_snoc (hs : List RiskHandler) (x h : RiskHandler) :
    linked (hs ++ [x, h]) = (linked (hs ++ [x])).modify hs.length
      (fun n => { n with next := some (hs.length + 1) }) ++ [⟨h, none⟩] := by
  apply List.ext_getElem?
  intro j
  rw [List.getElem?_append, List.length_modify, linked_length, List.getElem?_modify,
    linked_getElem?, linked_getElem?]
  rcases lt_trichotomy j hs.length with hj | rfl | hj
  · simp [hj, hj.ne', Nat.lt_succ_of_lt hj, Nat.lt_succ_of_lt]
  · simp
  · obtain ⟨k, rfl⟩ := Nat.exists_eq_add_of_lt hj
    cases k with
    | zero => simp
    | succ k => simp

namespace RiskChain

def ofList (hs : List RiskHandler) : RiskChain where
  nodes := linked hs
  head := if hs = [] then none else some 0
  tail := if hs = [] then none else some (hs.length - 1)

theorem append_ofList (hs : List RiskHandler) (h : RiskHandler) :
    (ofList hs).append h = ofList (hs ++ [h]) := by
  rcases List.eq_nil_or_concat' hs with rfl | ⟨hs, x, rfl⟩
  · rfl
  · simp [append, ofList, linked_length, linked_snoc]

theorem ofHandlers_eq (hs : List RiskHandler) : ofHandlers hs = ofList hs := by
  induction hs using List.reverseRecOn with
  | nil => rfl
  | append_singleton hs h ih =>
    rw [← append_ofList, ← ih, ofHandlers, ofHandlers, List.foldl_append]
    rfl

/-- From the first object that has not run yet, the pointers lead where the list does. -/
theorem handle_linked (request : OrderCheck) (done : List RiskHandler) {hs : List RiskHandler}
    (hne : hs ≠ []) {fuel : ℕ} (hfuel : hs.length ≤ fuel) :
    handle request fuel (linked (done ++ hs)) done.length =
      some ((walk request hs).1, linked (done ++ (walk request hs).2)) := by
  induction hs generalizing done fuel with
  | nil => exact absurd rfl hne
  | cons h hs ih =>
    obtain ⟨fuel, rfl⟩ : ∃ n, fuel = n + 1 := ⟨fuel - 1, by simp at hfuel; omega⟩
    have hset := linked_set (done ++ h :: hs) done.length (h.doCheck request).2
    have hget : (done ++ h :: hs)[done.length]? = some h := by simp
    rw [List.set_append_right _ _ le_rfl, Nat.sub_self, List.set_cons_zero] at hset
    simp only [handle, linked_getElem?, hget, Option.map_some, Option.bind_some, hset, walk]
    by_cases hok : (h.doCheck request).1.ok = false
    · simp only [hok, if_true]
    · simp only [hok]
      cases hs with
      | nil => simp [walk]
      | cons h' hs =>
        have hnext := ih (done ++ [(h.doCheck request).2]) (List.cons_ne_nil h' hs)
          (Nat.le_of_succ_le_succ hfuel)
        simpa using hnext

theorem validate_ofHandlers (hs : List RiskHandler) (request : OrderCheck) :
    (ofHandlers hs).validate request =
      some ((walk request hs).1, ofHandlers (walk request hs).2) := by
  have hlen := walk_length request hs
  rw [ofHandlers_eq, ofHandlers_eq]
  cases hs with
  | nil => rfl
  | cons h hs =>
    have hne : (walk request (h :: hs)).2 ≠ [] := by
      intro hnil
      simp [hnil] at hlen
    have hrun := handle_linked request [] (List.cons_ne_nil h hs) (le_refl _)
    rw [List.nil_append, List.nil_append, List.length_nil] at hrun
    simp only [validate, ofList, List.cons_ne_nil, if_false, linked_length, hrun, Option.map_some,
      hne, hlen]

theorem ofHandlers_injective {hs hs' : List RiskHandler} (h : ofHandlers hs = ofHandlers hs') :
    hs = hs' := by
  rw [ofHandlers_eq, ofHandlers_eq] at h
  have hnodes : linked hs = linked hs' := congrArg RiskChain.nodes h
  apply List.ext_getElem?
  intro i
  have hi := congrArg (fun l => l[i]?.map Node.handler) hnodes
  simpa [linked_getElem?, Function.comp_def] using hi

end RiskChain

/-! ## Rejections -/

namespace RiskHandler

/-- What a handler lets pass, in the state it is in. -/
def Accepts (request : OrderCheck) : RiskHandler → Prop
  | .limitQty maxQty => 1 ≤ request.qty ∧ request.qty ≤ maxQty
  | .limitPrice maxPrice => 1 ≤ request.price ∧ request.price ≤ maxPrice
  | .allowedSymbols allowed => request.symbol ∈ allowed
  | .maxNotional h =>
    0 < request.price * request.qty → h.used + request.price * request.qty ≤ h.maxNotional

/-- A notional handler, on a request whose product is positive as an `int64`. -/
def Accrues (request : OrderCheck) : RiskHandler → Prop
  | .maxNotional _ => 0 < request.price * request.qty
  | _ => False

variable {request : OrderCheck} {h : RiskHandler}

theorem refuseIf_ok (refuse : Bool) (reason : String) : (refuseIf refuse reason).ok = !refuse := by
  cases refuse <;> rfl

theorem doCheck_ok_iff : (h.doCheck request).1.ok = true ↔ h.Accepts request := by
  cases h with
  | limitQty maxQty => simp [doCheck, Accepts, refuseIf_ok]
  | limitPrice maxPrice => simp [doCheck, Accepts, refuseIf_ok]
  | allowedSymbols allowed => simp [doCheck, Accepts, refuseIf_ok]
  | maxNotional n =>
    simp only [doCheck, MaxNotionalHandler.doCheck, Accepts]
    by_cases hc : request.price * request.qty > 0 ∧
        n.used + request.price * request.qty > n.maxNotional
    · rw [if_pos hc]
      simp only [Bool.false_eq_true, false_iff, Classical.not_imp, Int64.not_le]
      exact hc
    · rw [if_neg hc]
      simpa only [true_iff, not_and, Int64.not_lt] using hc

theorem doCheck_refused (hn : ¬ h.Accepts request) : (h.doCheck request).2 = h := by
  cases h with
  | limitQty maxQty => rfl
  | limitPrice maxPrice => rfl
  | allowedSymbols allowed => rfl
  | maxNotional n =>
    simp only [Accepts, Classical.not_imp, Int64.not_le] at hn
    simp only [doCheck, MaxNotionalHandler.doCheck]
    rw [if_pos hn]

theorem doCheck_accepted (ha : h.Accepts request) :
    (h.doCheck request).2 = h ↔ ¬ h.Accrues request := by
  cases h with
  | limitQty maxQty => simp [doCheck, Accrues]
  | limitPrice maxPrice => simp [doCheck, Accrues]
  | allowedSymbols allowed => simp [doCheck, Accrues]
  | maxNotional n =>
    have hpass : ¬ (request.price * request.qty > 0 ∧
        n.used + request.price * request.qty > n.maxNotional) := by
      rintro ⟨hpos, hover⟩
      exact absurd (ha hpos) (Int64.not_le.mpr hover)
    simp only [doCheck, MaxNotionalHandler.doCheck, Accrues]
    rw [if_neg hpass]
    by_cases hpos : request.price * request.qty > 0
    · have hne : request.price * request.qty ≠ 0 := fun h0 => by simp [h0] at hpos
      have hmoved : n.used + request.price * request.qty ≠ n.used :=
        fun heq => hne (Int64.add_eq_left.mp heq)
      simp only [maxNotional.injEq, hpos, not_true, iff_false]
      exact fun heq => hmoved (congrArg MaxNotionalHandler.used heq)
    · simpa [if_neg hpos] using hpos

end RiskHandler

section Rejections
variable {request : OrderCheck}

theorem walk_accepted {hs : List RiskHandler} (h : ∀ x ∈ hs, x.Accepts request) :
    (walk request hs).1.ok = true := by
  induction hs with
  | nil => rfl
  | cons x hs ih =>
    obtain ⟨hx, hrest⟩ := List.forall_mem_cons.mp h
    have hok := RiskHandler.doCheck_ok_iff.mpr hx
    simp only [walk, hok]
    exact ih hrest

/-- Up to the first handler that refuses, every handler has run its check. -/
theorem walk_rejected {l r : List RiskHandler} {x : RiskHandler} (hl : ∀ y ∈ l, y.Accepts request)
    (hx : ¬ x.Accepts request) :
    walk request (l ++ x :: r) =
      ((x.doCheck request).1, l.map (fun y => (y.doCheck request).2) ++ x :: r) := by
  induction l with
  | nil =>
    have hok : (x.doCheck request).1.ok = false := by
      simpa using mt RiskHandler.doCheck_ok_iff.mp hx
    simp only [List.nil_append, walk, hok, if_true, RiskHandler.doCheck_refused hx, List.map_nil]
  | cons y l ih =>
    obtain ⟨hy, hrest⟩ := List.forall_mem_cons.mp hl
    have hok := RiskHandler.doCheck_ok_iff.mpr hy
    simp only [List.cons_append, walk, hok, Bool.true_eq_false, if_false, ih hrest, List.map_cons]

/-- Every handler accepts, or there is a first one that refuses. -/
theorem exists_first_refusal (request : OrderCheck) (hs : List RiskHandler) :
    (∀ x ∈ hs, x.Accepts request) ∨ ∃ l x r, hs = l ++ x :: r ∧
      (∀ y ∈ l, y.Accepts request) ∧ ¬ x.Accepts request := by
  induction hs with
  | nil => exact .inl nofun
  | cons y hs ih =>
    by_cases hy : y.Accepts request
    · rcases ih with hall | ⟨l, x, r, rfl, hl, hx⟩
      · exact .inl (List.forall_mem_cons.mpr ⟨hy, hall⟩)
      · exact .inr ⟨y :: l, x, r, rfl, List.forall_mem_cons.mpr ⟨hy, hl⟩, hx⟩
    · exact .inr ⟨[], y, hs, rfl, nofun, hy⟩

theorem map_doCheck_eq_iff {l : List RiskHandler} (hl : ∀ y ∈ l, y.Accepts request) :
    l.map (fun y => (y.doCheck request).2) = l ↔ ∀ y ∈ l, ¬ y.Accrues request := by
  induction l with
  | nil => simp
  | cons y l ih =>
    obtain ⟨hy, hrest⟩ := List.forall_mem_cons.mp hl
    rw [List.map_cons, List.cons.injEq, RiskHandler.doCheck_accepted hy, ih hrest,
      List.forall_mem_cons]

/-- A rejection leaves the handlers as they are if and only if none in front of the
one that refuses has added the request to its sum. -/
theorem walk_rejected_unchanged_iff {l r : List RiskHandler} {x : RiskHandler}
    (hl : ∀ y ∈ l, y.Accepts request) (hx : ¬ x.Accepts request) :
    (walk request (l ++ x :: r)).2 = l ++ x :: r ↔ ∀ y ∈ l, ¬ y.Accrues request := by
  rw [walk_rejected hl hx, List.append_left_inj, map_doCheck_eq_iff hl]

end Rejections

theorem validate_rejection_unchanged_iff (hs : List RiskHandler) (request : OrderCheck) :
    ∃ result chain, (RiskChain.ofHandlers hs).validate request = some (result, chain) ∧
      ((result.ok = false → chain = RiskChain.ofHandlers hs) ↔
        ∀ l x r, hs = l ++ x :: r → (∀ y ∈ l, y.Accepts request) → ¬ x.Accepts request →
          ∀ y ∈ l, ¬ y.Accrues request) := by
  refine ⟨_, _, RiskChain.validate_ofHandlers hs request, ?_⟩
  constructor
  · rintro h l x r rfl hl hx
    have hok : (walk request (l ++ x :: r)).1.ok = false := by
      rw [walk_rejected hl hx]
      simpa using mt RiskHandler.doCheck_ok_iff.mp hx
    exact (walk_rejected_unchanged_iff hl hx).mp (RiskChain.ofHandlers_injective (h hok))
  · intro h hok
    rcases exists_first_refusal request hs with hall | ⟨l, x, r, rfl, hl, hx⟩
    · rw [walk_accepted hall] at hok
      cases hok
    · rw [(walk_rejected_unchanged_iff hl hx).mpr (h l x r rfl hl hx)]

/-- The notional handler has taken the request before the quantity limit refuses it. -/
theorem validate_rejection_accrues :
    (RiskChain.ofHandlers [.maxNotional ⟨1000, 0⟩, .limitQty 50]).validate { price := 1, qty := 60 } =
      some (⟨false, "qty limit"⟩, RiskChain.ofHandlers [.maxNotional ⟨1000, 60⟩, .limitQty 50]) ∧
    RiskChain.ofHandlers [.maxNotional ⟨1000, 60⟩, .limitQty 50] ≠
      RiskChain.ofHandlers [.maxNotional ⟨1000, 0⟩, .limitQty 50] := by
  decide

end HftExercises.RiskChains
