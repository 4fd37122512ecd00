import HftExercises.Core.SingleOwner
import HftExercises.Memory.UniquePtrLedger

/-! # Runs of owners

As long as a raw pointer is given to one owner only, each object is deleted once, and what is
never deleted is reached from a variable, held by the caller or below a cycle of owners.
-/
namespace HftExercises.Unique
variable {V D : Type*}

section Runs
variable [DecidableEq V] {moved : D → D} {s t : Heap V D} {calls : List (Call V D)}
variable {es : List (Event (Heap V D) (Call V D) (Option ℕ))}

theorem exec_accounted (h : exec (Heap.step moved) Heap.empty calls = some (es, s))
    (hcontract : ∀ e ∈ es, e.call.Contract e.before) :
    s.Accounted none ∧ ∀ q ∈ s.deleted, ∃ e ∈ es, e.call.Disposes e.before q := by
  refine exec_invariant (fun es s => (∀ e ∈ es, e.call.Contract e.before) → s.Accounted none ∧
    ∀ q ∈ s.deleted, ∃ e ∈ es, e.call.Disposes e.before q) ?_ (fun _ => ⟨accounted_empty, nofun⟩) h
    hcontract
  intro es s c r t hinv hstep hcontract
  obtain ⟨hes, hc⟩ := List.forall_mem_append.mp hcontract
  obtain ⟨hacc, hdel⟩ := hinv hes
  have hpresent : c.Present s := by
    by_contra hp
    rw [Heap.step_absent hp] at hstep
    cases hstep
  rcases hacc.settles moved (hc _ List.mem_cons_self) hpresent with
    ⟨r', t', hrun, hsettled⟩ | ⟨hnone, -⟩
  · rw [hstep] at hrun
    cases hrun
    obtain ⟨dead, hdead, hdisposes⟩ := hsettled.deletions
    refine ⟨hsettled.accounted, fun q hq => ?_⟩
    rw [hdead, List.mem_append] at hq
    rcases hq with hq | hq
    · obtain ⟨e, he, hd⟩ := hdel q hq
      exact ⟨e, List.mem_append_left _ he, hd⟩
    · exact ⟨_, List.mem_append_right _ List.mem_cons_self, hdisposes q hq⟩
  · rw [hstep] at hnone
    cases hnone

/-- Every live object has exactly one owner, and every other that was made was deleted exactly
once, with its owner's deleter. -/
theorem uniquePtr_ownership (h : exec (Heap.step moved) Heap.empty calls = some (es, s))
    (hcontract : ∀ e ∈ es, e.call.Contract e.before) :
    (∀ a p, s.points a p → p ∈ s.alive) ∧
      (∀ p ∈ s.alive, p ∈ s.loose ∧ (∀ a, ¬s.points a p) ∨ p ∉ s.loose ∧ ∃! a, s.points a p) ∧
      (∀ p, p < s.created ↔ p ∈ s.alive ∨ p ∈ s.deleted.map Prod.fst) ∧
      (s.deleted.map Prod.fst).Nodup ∧ (∀ p ∈ s.deleted.map Prod.fst, p ∉ s.alive) ∧
      ∀ q ∈ s.deleted, ∃ e ∈ es, e.call.Disposes e.before q := by
  obtain ⟨hacc, hdel⟩ := exec_accounted h hcontract
  refine ⟨hacc.live, fun p hp => ?_, hacc.ledger, hacc.nodup, hacc.dead, hdel⟩
  by_cases hl : p ∈ s.loose
  · exact .inl ⟨hl, (hacc.loose p hl).2⟩
  · right
    rcases hacc.held p hp with hloose | hnone | ⟨a, ha⟩
    · exact absurd hloose hl
    · cases hnone
    · exact ⟨hl, a, ha, fun b hb => hacc.single b a p hb ha⟩

/-- What nobody can reach any more hangs below a cycle of owners. -/
theorem uniquePtr_leaks (h : exec (Heap.step moved) Heap.empty calls = some (es, s))
    (hcontract : ∀ e ∈ es, e.call.Contract e.before) {p : ℕ} (hp : p ∈ s.alive) :
    (∃ r, (r ∈ s.loose ∨ ∃ v, s.points (.var v) r) ∧ Relation.ReflTransGen s.owns r p) ↔
      ¬∃ x, Relation.TransGen s.owns x x ∧ Relation.ReflTransGen s.owns x p := by
  have hacc := (exec_accounted h hcontract).1
  refine rooted_iff_not_below_cycle (fun r => r ∈ s.loose ∨ ∃ v, s.points (.var v) r) ?_ ?_ ?_ hp
  · rintro x y z ⟨i, hi⟩ ⟨j, hj⟩
    exact (Place.member.inj (hacc.single _ _ _ hi hj)).1
  · rintro r (hl | ⟨v, hv⟩) y ⟨i, hi⟩
    · exact (hacc.loose r hl).2 _ hi
    · cases hacc.single _ _ _ hv hi
  · intro x hx
    rcases hacc.held x hx with hl | hnone | ⟨a, ha⟩
    · exact .inl (.inl hl)
    · cases hnone
    · cases a with
      | var v => exact .inl (.inr ⟨v, ha⟩)
      | member y i =>
        refine .inr ⟨y, ?_, i, ha⟩
        by_contra hy
        obtain ⟨u, hu, -⟩ := ha
        rw [hacc.absent y hy i] at hu
        cases hu

/-- A call within the contract is undefined in one case only: a move assignment that deletes an
object in which its target or its source lies. -/
theorem uniquePtr_defined (h : exec (Heap.step moved) Heap.empty calls = some (es, s))
    (hcontract : ∀ e ∈ es, e.call.Contract e.before) {c : Call V D} (hc : c.Contract s) :
    (s.step moved c).isSome ↔
      c.Present s ∧ ∀ a o, c = .moveAssign a o → a ≠ o → ¬s.Aliased a o := by
  have hacc := (exec_accounted h hcontract).1
  constructor
  · intro hsome
    have hpresent : c.Present s := by
      by_contra hp
      rw [Heap.step_absent hp] at hsome
      cases hsome
    refine ⟨hpresent, ?_⟩
    rintro a o rfl hao halias
    rw [Heap.step, (hacc.moveAssign_none moved hao hpresent.1 hpresent.2).mpr halias] at hsome
    cases hsome
  · rintro ⟨hpresent, hapart⟩
    rcases hacc.settles moved hc hpresent with ⟨r, t, hrun, -⟩ | ⟨-, a, o, hcall, hao, hal⟩
    · rw [hrun]
      rfl
    · exact absurd hal (hapart a o hcall hao)

/-- A move assignment hands over the object and its deleter, and deletes what the old object
owned, itself included. -/
theorem uniquePtr_moveAssign (h : exec (Heap.step moved) Heap.empty calls = some (es, s))
    (hcontract : ∀ e ∈ es, e.call.Contract e.before) {a o : Place V} {u w : UniquePtr D}
    (ha : s.place a = some w) (ho : s.place o = some u) (hao : a ≠ o)
    (ht : s.moveAssign moved a o = some t) :
    t.place a = some ⟨u.ptr, u.deleter⟩ ∧ t.place o = some ⟨none, moved u.deleter⟩ ∧
      ∃ dead, t.deleted = s.deleted ++ dead ∧ (dead.map Prod.fst).Nodup ∧
        (∀ x, x ∈ dead.map Prod.fst ↔
          ∃ old, w.ptr = some old ∧ Relation.ReflTransGen s.owns old x) ∧
        ∀ b, b ≠ a → b ≠ o → (b.inside dead → t.place b = none) ∧
          (¬b.inside dead → t.place b = s.place b) := by
  have hacc := (exec_accounted h hcontract).1
  obtain ⟨m, dead, -, htorn, heq⟩ := hacc.moveAssign moved hao ha ho
  have halias : s.Aliased a o ↔ a.inside dead ∨ o.inside dead := Heap.aliased_iff ha u.ptr htorn
  have hapart : ¬s.Aliased a o := by
    intro hal
    have hnone := hacc.moveAssign_none moved hao (by rw [ha]; exact nofun) (by rw [ho]; exact nofun)
    rw [hnone.mpr hal] at ht
    cases ht
  have hout := not_or.mp (mt halias.mpr hapart)
  have hma : m.place a = some ⟨u.ptr, w.deleter⟩ := by
    rw [htorn.kept a (Set.notMem_empty a) hout.1, Heap.put_place]
  have hmo : m.place o = some ⟨none, u.deleter⟩ := by
    rw [htorn.kept o (Set.notMem_empty o) hout.2, Heap.put_other _ _ (Ne.symm hao), Heap.put_place]
  rw [heq, Heap.takeDeleter_eq hma hmo] at ht
  cases ht
  refine ⟨?_, Heap.put_place _ _ _, dead, htorn.deleted, htorn.nodup, fun x => ?_,
    fun b hba hbo => ?_⟩
  · rw [Heap.put_other _ _ hao, Heap.put_place]
  · rw [htorn.mem_dead]
    constructor
    · rintro ⟨r, ⟨hptr, -⟩, hpath⟩
      rcases Heap.path_moved hpath with hpath | ⟨y, hy, hpath⟩
      · exact ⟨r.1, hptr, hpath⟩
      · exact absurd ⟨r.1, y, ⟨w, ha, hptr⟩, .inl hy, hpath⟩ hapart
    · rintro ⟨old, hptr, hpath⟩
      rcases Heap.path_moving hpath with hpath | ⟨y, hy, hpath⟩
      · exact ⟨(old, w.deleter), ⟨hptr, rfl⟩, hpath⟩
      · have hmem := htorn.mem_dead.mpr ⟨(old, w.deleter), ⟨hptr, rfl⟩, hpath⟩
        exact (hy.elim (fun hy => hout.1 ⟨y, hy, hmem⟩) fun hy => hout.2 ⟨y, hy, hmem⟩).elim
  · rw [Heap.put_other _ _ hbo, Heap.put_other _ _ hba]
    refine ⟨fun hin => htorn.gone b (.inr hin), fun hin => ?_⟩
    rw [htorn.kept b (Set.notMem_empty b) hin, Heap.put_other _ _ hba, Heap.put_other _ _ hbo]

/-- Code that has no raw pointers keeps the contract. -/
theorem contract_of_calls (h : exec (Heap.step moved) Heap.empty calls = some (es, s))
    (hcalls : ∀ c ∈ calls, ∀ h : Heap V D, c.Contract h) :
    ∀ e ∈ es, e.call.Contract e.before := by
  intro e he
  refine hcalls e.call ?_ e.before
  rw [← exec_calls h]
  exact List.mem_map_of_mem he

end Runs

/-- A list of two nodes, whose head is the variable `true`. -/
def twoNodes : List (Call Bool Bool) :=
  [.makeUnique true [false] true, .makeUnique false [false] true,
    .moveAssign (.member 0 0) (.var false)]

theorem twoNodes_contract : ∀ c ∈ twoNodes, ∀ h : Heap Bool Bool, c.Contract h := by
  simp [twoNodes, Call.Contract]

theorem uniquePtr_ownership_list :
    ∃ es s, exec (Heap.step id) Heap.empty (twoNodes ++ [.destroy true]) = some (es, s) ∧
      s.deleted = [(0, true), (1, true)] ∧ (s.deleted.map Prod.fst).Nodup := by
  have hrun : exec (Heap.step id) Heap.empty (twoNodes ++ [.destroy true]) = some (_, _) := rfl
  refine ⟨_, _, hrun, rfl, ?_⟩
  refine (uniquePtr_ownership hrun (contract_of_calls hrun ?_)).2.2.2.1
  simp [twoNodes, Call.Contract]

/-- `head->next = std::move(head)` -/
theorem uniquePtr_leaks_cycle :
    ∃ es s, exec (Heap.step id) Heap.empty
        (twoNodes ++ [.moveAssign (.member 0 0) (.var true)]) = some (es, s) ∧
      ((∃ r, (r ∈ s.loose ∨ ∃ v, s.points (.var v) r) ∧ Relation.ReflTransGen s.owns r 0) ↔
        ¬∃ x, Relation.TransGen s.owns x x ∧ Relation.ReflTransGen s.owns x 0) := by
  have hrun : exec (Heap.step id) Heap.empty
      (twoNodes ++ [.moveAssign (.member 0 0) (.var true)]) = some (_, _) := rfl
  refine ⟨_, _, hrun, uniquePtr_leaks hrun (contract_of_calls hrun ?_) (by decide)⟩
  simp [twoNodes, Call.Contract]

/-- `head = std::move(head->next)` -/
theorem uniquePtr_defined_pop :
    ∃ es s, exec (Heap.step id) Heap.empty twoNodes = some (es, s) ∧
      (s.step id (.moveAssign (.var true) (.member 0 0))).isSome = false ∧
      s.Aliased (.var true) (.member 0 0) := by
  have hrun : exec (Heap.step id) Heap.empty twoNodes = some (_, _) := rfl
  refine ⟨_, _, hrun, rfl, ?_⟩
  have hdefined := (uniquePtr_defined hrun (contract_of_calls hrun twoNodes_contract)
    (c := .moveAssign (.var true) (.member 0 0)) trivial).not
  by_contra hapart
  refine hdefined.mp (by decide) ⟨⟨nofun, nofun⟩, ?_⟩
  rintro a o ⟨⟩ -
  exact hapart

theorem uniquePtr_moveAssign_clear :
    ∃ es s t, exec (Heap.step id) Heap.empty twoNodes = some (es, s) ∧
      s.moveAssign id (.var true) (.var false) = some t ∧ t.deleted = [(0, true), (1, true)] ∧
      t.place (.var true) = some ⟨none, true⟩ := by
  have hrun : exec (Heap.step id) Heap.empty twoNodes = some (_, _) := rfl
  refine ⟨_, _, _, hrun, rfl, rfl, ?_⟩
  exact (uniquePtr_moveAssign hrun (contract_of_calls hrun twoNodes_contract) (a := .var true)
    (o := .var false) rfl rfl (by decide) rfl).1

end HftExercises.Unique
