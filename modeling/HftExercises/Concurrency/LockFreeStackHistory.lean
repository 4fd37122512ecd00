import HftExercises.Concurrency.LockFreeStackInvariant
import HftExercises.Core.ListFacts

/-! # What the stack has done

The list holds the abstract stack of the successful exchanges. A node that was
pushed is in the list or was claimed, and one that was claimed is parked or in the
hands of the pop that claimed it.
-/
namespace HftExercises.LockFreeStack
variable {α T : Type*}

structure History (es : List (StepEvent α T)) (s : System α T) (live parked : List ℕ) : Prop where
  stack : live.map s.value = (replay es).map some
  pushed : ((pushes es).map Prod.fst).Perm (live ++ claimed es)
  pushValue : ∀ p ∈ pushes es, s.value p.1 = some p.2
  claims : ∀ n, n ∈ claimed es ↔ n ∈ parked ∨ ∃ t, (s.control t).popping? = some n
  once : (claimed es).Nodup
  returned : (returns es).map Prod.fst = parked.reverse
  returnValue : ∀ p ∈ returns es, s.value p.1 = some p.2
  safe : ∀ e ∈ es, e.result ≠ .fault

theorem history_init : History [] (System.init : System α T) [] [] where
  stack := rfl
  pushed := List.Perm.refl _
  pushValue := nofun
  claims := fun n => by simp [claimed, System.init, Control.popping?]
  once := List.nodup_nil
  returned := rfl
  returnValue := nofun
  safe := nofun

theorem Control.node?_of_popping? {c : Control α} {n : ℕ} (h : c.popping? = some n) :
    c.node? = some n := by
  cases c with
  | popTake node => exact h
  | retireLink node value cell r => exact h
  | retireCas node value cell r => exact h
  | _ => cases h

section Append
variable (es : List (StepEvent α T)) (e : StepEvent α T)

theorem replay_append : replay (es ++ [e]) = e.result.apply (replay es) := by
  simp [replay]

theorem pushes_append : pushes (es ++ [e]) = pushes es ++ e.result.pushed?.toList :=
  filterMap_append_singleton _ es e

theorem claimed_append : claimed (es ++ [e]) = claimed es ++ e.result.claimed?.toList :=
  filterMap_append_singleton _ es e

theorem returns_append : returns (es ++ [e]) = returns es ++ e.result.popped?.toList :=
  filterMap_append_singleton _ es e

end Append

section Steps
variable {s s' : System α T} {a : Action α T} {r : StepResult α} {t : T} {c : Control α}
variable {es : List (StepEvent α T)} {live parked cells live' parked' : List ℕ}

/-- A claimed node is not in the list. -/
theorem History.claimed_notMem (h : History es s live parked) (hshape : Shape s live parked cells)
    {n : ℕ} (hn : n ∈ claimed es) : n ∉ live := by
  intro hlive
  rcases (h.claims n).mp hn with hparked | ⟨u, hu⟩
  · exact (List.nodup_append.mp hshape.nodeStock.nodup).2.2 n hlive n hparked rfl
  · exact hshape.nodeStock.apart u n (Control.node?_of_popping? hu) (List.mem_append_left _ hlive)

theorem Shape.map_value (h : Shape s live parked cells)
    (hvalue : ∀ n value, s.value n = some value → s'.value n = some value) :
    live.map s'.value = live.map s.value := by
  refine List.map_congr_left ?_
  intro n hn
  obtain ⟨value, hold⟩ := (h.allocated n).mp (h.published_of_mem hn).1
  rw [hold, hvalue n value hold]

/-- What a step adds to each record has to show in the lists. -/
theorem History.of_step (h : History es s live parked)
    (hvalue : ∀ n value, s.value n = some value → s'.value n = some value) (hfault : r ≠ .fault)
    (hstack : live'.map s'.value = (r.apply (replay es)).map some)
    (hpushed : ((live ++ claimed es) ++ r.pushed?.toList.map Prod.fst).Perm
      (live' ++ (claimed es ++ r.claimed?.toList)))
    (hpushValue : ∀ p, r.pushed? = some p → s'.value p.1 = some p.2)
    (hclaims : ∀ n, ((n ∈ parked ∨ ∃ t, (s.control t).popping? = some n) ∨ r.claimed? = some n) ↔
      n ∈ parked' ∨ ∃ t, (s'.control t).popping? = some n)
    (honce : ∀ n, r.claimed? = some n → n ∉ claimed es)
    (hreturned : parked.reverse ++ r.popped?.toList.map Prod.fst = parked'.reverse)
    (hreturnValue : ∀ p, r.popped? = some p → s'.value p.1 = some p.2) :
    History (es ++ [⟨s, a, r⟩]) s' live' parked' where
  stack := by
    rw [replay_append]
    exact hstack
  pushed := by
    rw [pushes_append, claimed_append, List.map_append]
    exact (h.pushed.append_right _).trans hpushed
  pushValue := by
    intro p hp
    rw [pushes_append] at hp
    rcases List.mem_append.mp hp with hp | hp
    · exact hvalue _ _ (h.pushValue p hp)
    · exact hpushValue p (Option.mem_toList.mp hp)
  claims := by
    intro n
    rw [claimed_append, List.mem_append, h.claims n, Option.mem_toList]
    exact hclaims n
  once := by
    rw [claimed_append]
    cases hr : r.claimed? with
    | none => simpa using h.once
    | some n => exact List.nodup_append.mpr ⟨h.once, List.nodup_singleton n, by
        rintro k hk m hm rfl
        exact honce n hr (List.mem_singleton.mp hm ▸ hk)⟩
  returned := by
    rw [returns_append, List.map_append, h.returned]
    exact hreturned
  returnValue := by
    intro p hp
    rw [returns_append] at hp
    rcases List.mem_append.mp hp with hp | hp
    · exact hvalue _ _ (h.returnValue p hp)
    · exact hreturnValue p (Option.mem_toList.mp hp)
  safe := by
    intro e he
    rcases List.mem_append.mp he with he | he
    · exact h.safe e he
    · rw [List.mem_singleton.mp he]
      exact hfault

/-- A step that exchanges nothing. -/
theorem History.quiet (h : History es s live parked) (hshape : Shape s live parked cells)
    (hr : r = .running ∨ r = .empty)
    (hvalue : ∀ n value, s.value n = some value → s'.value n = some value)
    (hpop : ∀ u, (s'.control u).popping? = (s.control u).popping?) :
    History (es ++ [⟨s, a, r⟩]) s' live parked := by
  have hstack : live.map s'.value = (replay es).map some :=
    (hshape.map_value hvalue).trans h.stack
  have hclaims : ∀ n, n ∈ parked ∨ (∃ t, (s.control t).popping? = some n) ↔
      n ∈ parked ∨ ∃ t, (s'.control t).popping? = some n := by simp [hpop]
  rcases hr with rfl | rfl
  · refine h.of_step hvalue nofun hstack (by simp [StepResult.pushed?, StepResult.claimed?]) nofun
      ?_ nofun (List.append_nil _) nofun
    simpa [StepResult.claimed?] using hclaims
  · refine h.of_step hvalue nofun hstack (by simp [StepResult.pushed?, StepResult.claimed?]) nofun
      ?_ nofun (List.append_nil _) nofun
    simpa [StepResult.claimed?] using hclaims

variable [DecidableEq T]

theorem popping_setControl (hc : c.popping? = (s.control t).popping?) (u : T) :
    (Function.update s.control t c u).popping? = (s.control u).popping? := by
  by_cases hut : u = t
  · rw [hut, Function.update_self, hc]
  · rw [Function.update_of_ne hut]

theorem History.push (h : History es s live parked) (hshape : Shape s live parked cells)
    {node : ℕ} {value : α} (ht : s.control t = .pushCas node value s.head) :
    History (es ++ [⟨s, a, .pushed node value⟩]) { s.setControl t .idle with head := some node }
      (node :: live) parked := by
  have hlocal := hshape.sound t
  rw [ht] at hlocal
  have hpop : ∀ u, (Function.update s.control t .idle u).popping? = (s.control u).popping? :=
    popping_setControl (by rw [ht]; rfl)
  refine h.of_step (fun _ _ => id) nofun ?_ ?_ ?_ ?_ nofun (List.append_nil _) nofun
  · change s.value node :: live.map s.value = some value :: (replay es).map some
    rw [hlocal.1, h.stack]
  · change ((live ++ claimed es) ++ [node]).Perm (node :: live ++ (claimed es ++ []))
    rw [List.append_nil]
    exact List.perm_append_singleton _ _
  · rintro p hp
    cases hp
    exact hlocal.1
  · intro n
    change (_ ∨ none = some n) ↔ n ∈ parked ∨ ∃ u, (Function.update s.control t .idle u).popping? = some n
    simp [hpop]

theorem History.claim (h : History es s live parked) (hshape : Shape s live parked cells)
    {cur : ℕ} {next : Option ℕ} {rest : List ℕ} (ht : s.control t = .popCas cur next)
    (hlive : live = cur :: rest) :
    History (es ++ [⟨s, a, .claimed cur⟩]) { s.setControl t (.popTake cur) with head := next }
      rest parked := by
  subst hlive
  refine h.of_step (fun _ _ => id) nofun ?_ ?_ nofun ?_ ?_ (List.append_nil _) nofun
  · change rest.map s.value = (replay es).tail.map some
    rw [List.map_tail, ← h.stack]
    rfl
  · change ((cur :: rest ++ claimed es) ++ []).Perm (rest ++ (claimed es ++ [cur]))
    rw [List.append_nil, ← List.append_assoc]
    exact (List.perm_append_singleton _ _).symm
  · intro n
    change (_ ∨ some cur = some n) ↔
      n ∈ parked ∨ ∃ u, (Function.update s.control t (.popTake cur) u).popping? = some n
    have hold : (s.control t).popping? = none := by rw [ht]; rfl
    simp only [congrFun (comp_update_eq Control.popping? s.control t (.popTake cur))]
    rw [Stock.exists_hand_update, Stock.exists_hand_split t, hold]
    simp only [reduceCtorEq, false_or]
    exact or_assoc.trans (or_congr_right or_comm)
  · rintro n hn hmem
    cases hn
    exact h.claimed_notMem hshape hmem List.mem_cons_self

theorem History.retire (h : History es s live parked) (hshape : Shape s live parked cells)
    {node cell : ℕ} {value : α} (ht : s.control t = .retireCas node value cell s.retired) :
    History (es ++ [⟨s, a, .popped node value⟩]) { s.setControl t .idle with retired := some cell }
      live (node :: parked) := by
  have hlocal := hshape.sound t
  rw [ht] at hlocal
  refine h.of_step (fun _ _ => id) nofun h.stack ?_ nofun ?_ nofun List.reverse_cons.symm ?_
  · change ((live ++ claimed es) ++ []).Perm (live ++ (claimed es ++ []))
    rw [List.append_nil, List.append_nil]
  · intro n
    change (_ ∨ none = some n) ↔
      n ∈ node :: parked ∨ ∃ u, (Function.update s.control t .idle u).popping? = some n
    have hold : (s.control t).popping? = some node := by rw [ht]; rfl
    have hnew : (Control.idle : Control α).popping? = none := rfl
    simp only [congrFun (comp_update_eq Control.popping? s.control t .idle)]
    rw [Stock.exists_hand_update, Stock.exists_hand_split t, hold, hnew, List.mem_cons]
    simp only [reduceCtorEq, false_or, or_false, Option.some.injEq, eq_comm (a := node)]
    exact or_left_comm.trans or_assoc.symm
  · rintro p hp
    cases hp
    exact hlocal.1

end Steps

end HftExercises.LockFreeStack
