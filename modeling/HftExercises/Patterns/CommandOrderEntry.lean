import Mathlib.Data.Finmap
import HftExercises.Core.Execution
import HftExercises.Core.UndoLog

/-! # Order entry with commands

Every action on an order is a command object that can execute and undo itself
on the repository, and the processor keeps those that succeeded in a log. The
repository is a finite map: its iteration order is never observed.
-/
namespace HftExercises.Commands

inductive Side where
  | buy
  | sell
  deriving DecidableEq, Repr

inductive OrderStatus where
  | none
  | active
  | cancelled
  deriving DecidableEq, Repr

structure Entry where
  side : Side
  price : Int64
  qty : Int64
  status : OrderStatus
  deriving DecidableEq

structure OrderView where
  present : Bool := false
  side : Side := .buy
  price : Int64 := 0
  qty : Int64 := 0
  status : OrderStatus := .none

abbrev OrderRepository := Finmap fun _ : UInt64 => Entry

namespace OrderRepository

def add (r : OrderRepository) (id : UInt64) (side : Side) (price qty : Int64) :
    Bool × OrderRepository :=
  if id ∈ r then (false, r) else (true, r.insert id ⟨side, price, qty, .active⟩)

def modify (r : OrderRepository) (id : UInt64) (newPrice newQty : Int64) :
    Bool × OrderRepository :=
  match r.lookup id with
  | .none => (false, r)
  | some e =>
    if e.status ≠ .active then (false, r)
    else (true, r.insert id { e with price := newPrice, qty := newQty })

def cancel (r : OrderRepository) (id : UInt64) : Bool × OrderRepository :=
  match r.lookup id with
  | .none => (false, r)
  | some e =>
    if e.status ≠ .active then (false, r)
    else (true, r.insert id { e with status := .cancelled })

def remove (r : OrderRepository) (id : UInt64) : Bool × OrderRepository :=
  (decide (id ∈ r), r.erase id)

def view (r : OrderRepository) (id : UInt64) : OrderView :=
  match r.lookup id with
  | .none => {}
  | some e =>
    { present := true, side := e.side, price := e.price, qty := e.qty, status := e.status }

end OrderRepository

structure NewOrderCommand where
  id : UInt64
  side : Side
  price : Int64
  qty : Int64
  applied : Bool := false

structure ModifyOrderCommand where
  id : UInt64
  newPrice : Int64
  newQty : Int64
  applied : Bool := false
  oldPrice : Int64 := 0
  oldQty : Int64 := 0

structure CancelOrderCommand where
  id : UInt64
  applied : Bool := false
  oldSide : Side := .buy
  oldPrice : Int64 := 0
  oldQty : Int64 := 0

namespace NewOrderCommand

def execute (c : NewOrderCommand) (r : OrderRepository) :
    Bool × NewOrderCommand × OrderRepository :=
  let added := r.add c.id c.side c.price c.qty
  if added.1 = false then (false, c, added.2) else (true, { c with applied := true }, added.2)

def undo (c : NewOrderCommand) (r : OrderRepository) : NewOrderCommand × OrderRepository :=
  if c.applied = false then (c, r) else ({ c with applied := false }, (r.remove c.id).2)

end NewOrderCommand

namespace ModifyOrderCommand

def execute (c : ModifyOrderCommand) (r : OrderRepository) :
    Bool × ModifyOrderCommand × OrderRepository :=
  let before := r.view c.id
  if before.present = false ∨ before.status ≠ .active then (false, c, r)
  else
    let c := { c with oldPrice := before.price, oldQty := before.qty }
    let modified := r.modify c.id c.newPrice c.newQty
    if modified.1 = false then (false, c, modified.2)
    else (true, { c with applied := true }, modified.2)

def undo (c : ModifyOrderCommand) (r : OrderRepository) : ModifyOrderCommand × OrderRepository :=
  if c.applied = false then (c, r)
  else ({ c with applied := false },
    if (r.view c.id).present then (r.modify c.id c.oldPrice c.oldQty).2 else r)

end ModifyOrderCommand

namespace CancelOrderCommand

def execute (c : CancelOrderCommand) (r : OrderRepository) :
    Bool × CancelOrderCommand × OrderRepository :=
  let before := r.view c.id
  if before.present = false ∨ before.status ≠ .active then (false, c, r)
  else
    let c := { c with oldSide := before.side, oldPrice := before.price, oldQty := before.qty }
    let cancelled := r.cancel c.id
    if cancelled.1 = false then (false, c, cancelled.2)
    else (true, { c with applied := true }, cancelled.2)

/-- The order goes out first, so that `add` does not meet it. -/
def undo (c : CancelOrderCommand) (r : OrderRepository) : CancelOrderCommand × OrderRepository :=
  if c.applied = false then (c, r)
  else ({ c with applied := false },
    ((r.remove c.id).2.add c.id c.oldSide c.oldPrice c.oldQty).2)

end CancelOrderCommand

inductive OrderCommand where
  | new (c : NewOrderCommand)
  | modify (c : ModifyOrderCommand)
  | cancel (c : CancelOrderCommand)

def OrderCommand.execute (c : OrderCommand) (r : OrderRepository) :
    Bool × OrderCommand × OrderRepository :=
  match c with
  | .new c => ((c.execute r).1, .new (c.execute r).2.1, (c.execute r).2.2)
  | .modify c => ((c.execute r).1, .modify (c.execute r).2.1, (c.execute r).2.2)
  | .cancel c => ((c.execute r).1, .cancel (c.execute r).2.1, (c.execute r).2.2)

def OrderCommand.undo (c : OrderCommand) (r : OrderRepository) : OrderCommand × OrderRepository :=
  match c with
  | .new c => (.new (c.undo r).1, (c.undo r).2)
  | .modify c => (.modify (c.undo r).1, (c.undo r).2)
  | .cancel c => (.cancel (c.undo r).1, (c.undo r).2)

/-- The receiver every command refers to, and `log_`. -/
structure ExecuteCommandProcessor where
  repo : OrderRepository
  log : List OrderCommand

namespace ExecuteCommandProcessor

/-- `none` is the null pointer. -/
def submit (p : ExecuteCommandProcessor) : Option OrderCommand → Bool × ExecuteCommandProcessor
  | none => (false, p)
  | some command =>
    let ran := command.execute p.repo
    if ran.1 = false then (false, { p with repo := ran.2.2 })
    else (true, ⟨ran.2.2, p.log ++ [ran.2.1]⟩)

def undoLast (p : ExecuteCommandProcessor) : Bool × ExecuteCommandProcessor :=
  match p.log.getLast? with
  | none => (false, p)
  | some command => (true, ⟨(command.undo p.repo).2, p.log.dropLast⟩)

end ExecuteCommandProcessor

/-! ## One command on one repository -/

section Laws
variable {r : OrderRepository} {id : UInt64} {e : Entry}

/-- Putting an entry back where it was restores the map. -/
theorem insert_restore (h : r.lookup id = some e) {e' : Entry} :
    (r.insert id e').insert id e = r := by
  rw [Finmap.insert_insert]
  apply Finmap.ext_lookup
  intro x
  by_cases hx : x = id
  · rw [hx, Finmap.lookup_insert, h]
  · rw [Finmap.lookup_insert_of_ne _ hx]

theorem erase_insert_restore (h : id ∉ r) : (r.insert id e).erase id = r := by
  apply Finmap.ext_lookup
  intro x
  by_cases hx : x = id
  · rw [hx, Finmap.lookup_erase, Finmap.lookup_eq_none.mpr h]
  · rw [Finmap.lookup_erase_ne hx, Finmap.lookup_insert_of_ne _ hx]

theorem insert_erase_restore (h : r.lookup id = some e) {e' : Entry} :
    ((r.insert id e').erase id).insert id e = r := by
  apply Finmap.ext_lookup
  intro x
  by_cases hx : x = id
  · rw [hx, Finmap.lookup_insert, h]
  · rw [Finmap.lookup_insert_of_ne _ hx, Finmap.lookup_erase_ne hx, Finmap.lookup_insert_of_ne _ hx]

/-- The order a command finds: an active one, or one it refuses. -/
def Active (r : OrderRepository) (id : UInt64) (e : Entry) : Prop :=
  r.lookup id = some e ∧ e.status = .active

theorem view_of_active (h : Active r id e) :
    r.view id = { present := true, side := e.side, price := e.price, qty := e.qty,
                  status := .active } := by
  rw [OrderRepository.view, h.1]
  simp [h.2]

theorem view_refuses (h : ∀ e, ¬ Active r id e) :
    (r.view id).present = false ∨ (r.view id).status ≠ .active := by
  rw [OrderRepository.view]
  cases hl : r.lookup id with
  | none => exact .inl rfl
  | some e => exact .inr fun hs => h e ⟨hl, hs⟩

theorem modify_of_active (h : Active r id e) (price qty : Int64) :
    r.modify id price qty = (true, r.insert id { e with price := price, qty := qty }) := by
  simp [OrderRepository.modify, h.1, h.2]

theorem cancel_of_active (h : Active r id e) :
    r.cancel id = (true, r.insert id { e with status := .cancelled }) := by
  simp [OrderRepository.cancel, h.1, h.2]

theorem NewOrderCommand.execute_of_notMem {c : NewOrderCommand} (h : c.id ∉ r) :
    c.execute r = (true, { c with applied := true },
      r.insert c.id ⟨c.side, c.price, c.qty, .active⟩) := by
  simp [NewOrderCommand.execute, OrderRepository.add, h]

theorem NewOrderCommand.execute_of_mem {c : NewOrderCommand} (h : c.id ∈ r) :
    c.execute r = (false, c, r) := by
  simp [NewOrderCommand.execute, OrderRepository.add, h]

theorem ModifyOrderCommand.execute_of_active {c : ModifyOrderCommand} (h : Active r c.id e) :
    c.execute r = (true, { c with applied := true, oldPrice := e.price, oldQty := e.qty },
      r.insert c.id { e with price := c.newPrice, qty := c.newQty }) := by
  simp [ModifyOrderCommand.execute, view_of_active h, modify_of_active h]

theorem ModifyOrderCommand.execute_refused {c : ModifyOrderCommand}
    (h : ∀ e, ¬ Active r c.id e) : c.execute r = (false, c, r) :=
  if_pos (view_refuses h)

theorem CancelOrderCommand.execute_of_active {c : CancelOrderCommand} (h : Active r c.id e) :
    c.execute r = (true, { c with
      applied := true, oldSide := e.side, oldPrice := e.price, oldQty := e.qty },
      r.insert c.id { e with status := .cancelled }) := by
  simp [CancelOrderCommand.execute, view_of_active h, cancel_of_active h]

theorem CancelOrderCommand.execute_refused {c : CancelOrderCommand}
    (h : ∀ e, ¬ Active r c.id e) : c.execute r = (false, c, r) :=
  if_pos (view_refuses h)

/-- Refused without a trace, or executed with what its undo needs captured. -/
theorem NewOrderCommand.law (c : NewOrderCommand) (r : OrderRepository) :
    c.execute r = (false, c, r) ∨ ∃ c' r', c.execute r = (true, c', r') ∧ (c'.undo r').2 = r ∧
      c'.execute r = (true, c', r') := by
  by_cases h : c.id ∈ r
  · exact .inl (execute_of_mem h)
  · refine .inr ⟨_, _, execute_of_notMem h, ?_, execute_of_notMem (c := { c with applied := true }) h⟩
    simp [undo, OrderRepository.remove, erase_insert_restore h]

theorem ModifyOrderCommand.law (c : ModifyOrderCommand) (r : OrderRepository) :
    c.execute r = (false, c, r) ∨ ∃ c' r', c.execute r = (true, c', r') ∧ (c'.undo r').2 = r ∧
      c'.execute r = (true, c', r') := by
  by_cases h : ∃ e, Active r c.id e
  · obtain ⟨e, he⟩ := h
    have hafter : Active (r.insert c.id { e with price := c.newPrice, qty := c.newQty }) c.id
        { e with price := c.newPrice, qty := c.newQty } := ⟨Finmap.lookup_insert _, he.2⟩
    refine .inr ⟨_, _, execute_of_active he, ?_, execute_of_active (c := { c with
      applied := true, oldPrice := e.price, oldQty := e.qty }) he⟩
    simp [undo, view_of_active hafter, modify_of_active hafter, insert_restore he.1]
  · exact .inl (execute_refused (not_exists.mp h))

theorem CancelOrderCommand.law (c : CancelOrderCommand) (r : OrderRepository) :
    c.execute r = (false, c, r) ∨ ∃ c' r', c.execute r = (true, c', r') ∧ (c'.undo r').2 = r ∧
      c'.execute r = (true, c', r') := by
  by_cases h : ∃ e, Active r c.id e
  · obtain ⟨e, he⟩ := h
    have hentry : (⟨e.side, e.price, e.qty, .active⟩ : Entry) = e := by
      rw [← he.2]
    refine .inr ⟨_, _, execute_of_active he, ?_, execute_of_active (c := { c with
      applied := true, oldSide := e.side, oldPrice := e.price, oldQty := e.qty }) he⟩
    simp [undo, OrderRepository.remove, OrderRepository.add, hentry, insert_erase_restore he.1]
  · exact .inl (execute_refused (not_exists.mp h))

end Laws

/-- The order commands as commands that can be taken back. -/
def orderCommands : Undoable OrderRepository OrderCommand where
  execute := OrderCommand.execute
  undo := OrderCommand.undo
  law c r := by
    cases c with
    | new c =>
      rcases c.law r with h | ⟨c', r', he, hundo, hagain⟩
      · exact .inl (by simp [OrderCommand.execute, h])
      · exact .inr ⟨.new c', r', by simp [OrderCommand.execute, he], hundo,
          by simp [OrderCommand.execute, hagain]⟩
    | modify c =>
      rcases c.law r with h | ⟨c', r', he, hundo, hagain⟩
      · exact .inl (by simp [OrderCommand.execute, h])
      · exact .inr ⟨.modify c', r', by simp [OrderCommand.execute, he], hundo,
          by simp [OrderCommand.execute, hagain]⟩
    | cancel c =>
      rcases c.law r with h | ⟨c', r', he, hundo, hagain⟩
      · exact .inl (by simp [OrderCommand.execute, h])
      · exact .inr ⟨.cancel c', r', by simp [OrderCommand.execute, he], hundo,
          by simp [OrderCommand.execute, hagain]⟩

/-! ## Runs of the processor -/

/-- The repository is what the logged commands make of the initial one. -/
abbrev ExecuteCommandProcessor.From (repo : OrderRepository) (p : ExecuteCommandProcessor) : Prop :=
  orderCommands.Logged repo p.log p.repo

section Runs
variable {repo : OrderRepository} {p : ExecuteCommandProcessor}
open ExecuteCommandProcessor

theorem submit_refused {c : Option OrderCommand} (h : (p.submit c).1 = false) :
    (p.submit c).2 = p := by
  cases c with
  | none => rfl
  | some c =>
    simp only [submit] at h ⊢
    split_ifs at h ⊢ with hc
    have hrepo : (c.execute p.repo).2.2 = p.repo := orderCommands.refused hc
    rw [hrepo]

theorem from_submit (h : p.From repo) (c : Option OrderCommand) : (p.submit c).2.From repo := by
  cases c with
  | none => exact h
  | some c =>
    by_cases hc : (c.execute p.repo).1 = true
    · simp only [ExecuteCommandProcessor.submit, hc, Bool.true_eq_false, if_false]
      exact h.snoc hc
    · rw [submit_refused (by simp [ExecuteCommandProcessor.submit, hc])]
      exact h

theorem undoLast_of_snoc {log : List OrderCommand} {c : OrderCommand} (h : p.log = log ++ [c]) :
    p.undoLast = (true, ⟨(c.undo p.repo).2, log⟩) := by
  simp [undoLast, h]

theorem undoLast_eq_false_iff : p.undoLast.1 = false ↔ p.log = [] := by
  rcases List.eq_nil_or_concat' p.log with h | ⟨log, c, h⟩
  · simp [undoLast, h]
  · simp [undoLast_of_snoc h, h]

theorem from_undoLast (h : p.From repo) : p.undoLast.2.From repo := by
  rcases List.eq_nil_or_concat' p.log with hl | ⟨log, c, hl⟩
  · simpa [ExecuteCommandProcessor.undoLast, hl] using h
  · rw [undoLast_of_snoc hl]
    unfold From at h
    rw [hl] at h
    exact h.undo_last

end Runs

inductive Request where
  | submit (command : Option OrderCommand)
  | undoLast

def ExecuteCommandProcessor.step (p : ExecuteCommandProcessor) :
    Request → Option (Bool × ExecuteCommandProcessor)
  | .submit command => some (p.submit command)
  | .undoLast => some p.undoLast

/-- Every request is answered, and the log always tells how the repository came about. -/
theorem exec_from (repo : OrderRepository) (requests : List Request) :
    ∃ es p, exec ExecuteCommandProcessor.step ⟨repo, []⟩ requests = some (es, p) ∧
      p.From repo := by
  refine exec_total (fun _ (p : ExecuteCommandProcessor) => p.From repo) ?_ .nil
    (fun _ _ _ _ => trivial : Admissible (fun _ _ => True) requests)
  intro _ p request h _
  cases request with
  | submit c => exact ⟨_, _, rfl, from_submit h c⟩
  | undoLast => exact ⟨_, _, rfl, from_undoLast h⟩

/-- As many undos as the log is long, each of them successful, lead back to the start. -/
theorem exec_undoAll {repo : OrderRepository} {p : ExecuteCommandProcessor} (h : p.From repo) :
    ∃ es, exec ExecuteCommandProcessor.step p (List.replicate p.log.length .undoLast) =
      some (es, ⟨repo, []⟩) ∧ ∀ e ∈ es, e.result = true := by
  obtain ⟨r, log⟩ := p
  induction log using List.reverseRecOn generalizing r with
  | nil =>
    obtain rfl := h.eq_of_nil
    exact ⟨[], rfl, nofun⟩
  | append_singleton log c ih =>
    have hlast : (⟨r, log ++ [c]⟩ : ExecuteCommandProcessor).undoLast =
        (true, ⟨(c.undo r).2, log⟩) := undoLast_of_snoc rfl
    obtain ⟨es, hrun, hes⟩ := ih (c.undo r).2 h.undo_last
    refine ⟨⟨⟨r, log ++ [c]⟩, .undoLast, true⟩ :: es, ?_, ?_⟩
    · rw [List.length_append, List.length_singleton, List.replicate_succ]
      simp only [exec, ExecuteCommandProcessor.step, hlast, Option.bind_some, hrun, Option.map_some]
    · exact List.forall_mem_cons.mpr ⟨rfl, hes⟩

theorem processor_replays (repo : OrderRepository) (requests : List Request) :
    ∃ es p, exec ExecuteCommandProcessor.step ⟨repo, []⟩ requests = some (es, p) ∧
      orderCommands.executeAll p.log repo = some p.repo ∧
      (∀ command, (p.submit command).1 = false → (p.submit command).2 = p) ∧
      (p.undoLast.1 = false ↔ p.log = []) ∧
      ∃ fs, exec ExecuteCommandProcessor.step p (List.replicate p.log.length .undoLast) =
        some (fs, ⟨repo, []⟩) ∧ ∀ e ∈ fs, e.result = true := by
  obtain ⟨es, p, hrun, hfrom⟩ := exec_from repo requests
  exact ⟨es, p, hrun, hfrom.executeAll_eq, fun _ => submit_refused, undoLast_eq_false_iff,
    exec_undoAll hfrom⟩

end HftExercises.Commands
