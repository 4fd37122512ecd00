import HftExercises.Concurrency.SymbolTable
import Mathlib.Data.List.Enum

/-! # Runs of the symbol table

The ids are issued in the order of the vector, and every answer of `intern` since
the last `clear` is one of the pairs issued since then: an id never changes its
symbol, whatever has been erased.
-/
namespace HftExercises.Symbols

/-- The pairs of a symbol and the new id it got, since the last `clear`. -/
def issued (es : List CallEvent) : List (Symbol × Int32) :=
  es.foldl (fun l e =>
    match e.call, e.result with
    | .intern s, .id id => if e.before.find s = none then l ++ [(s, id)] else l
    | .clear, _ => []
    | _, _ => l) []

/-- The same for every answer of `intern`. -/
def answered (es : List CallEvent) : List (Symbol × Int32) :=
  es.foldl (fun l e =>
    match e.call, e.result with
    | .intern s, .id id => l ++ [(s, id)]
    | .clear, _ => []
    | _, _ => l) []

/-- The vector, every symbol with its id. -/
def SymbolTable.pairs (t : SymbolTable) : List (Symbol × Int32) :=
  t.idToSymbol.texts.mapIdx fun i s => (s, Int32.ofNat i)

def Call.quiet : Call → Bool
  | .intern _ | .clear => false
  | _ => true

/-- A call that issues a new id. -/
def Call.isNew (t : SymbolTable) : Call → Bool
  | .intern s => (t.find s).isNone
  | _ => false

/-- What a call can do. -/
inductive StepSpec (grow : ℕ → ℕ) (t : SymbolTable) : Call → Answer → SymbolTable → Prop
  | known {s : Symbol} {id : Int32} (h : t.find s = some id) : StepSpec grow t (.intern s) (.id id) t
  | fresh {s : Symbol} (h : t.find s = none) :
    StepSpec grow t (.intern s) (.id (Int32.ofNat t.idToSymbol.texts.length)) (t.register grow s)
  | kept {c : Call} {a : Answer} (hc : c.quiet = true) : StepSpec grow t c a t
  | erased {c : Call} {a : Answer} {i : ℕ} {s : Symbol} (hc : c.quiet = true)
    (hr : Registered t i s) : StepSpec grow t c a (t.unregister i s)
  | clear : StepSpec grow t .clear .done t.clear

section Steps
variable {grow : ℕ → ℕ} {t t' : SymbolTable} {es : List CallEvent} {c : Call} {a : Answer}

theorem step_spec (h : Aligned t) (hfew : Few t) (hs : t.step grow c = some (a, t')) :
    StepSpec grow t c a t' := by
  cases c with
  | intern s =>
    cases hs
    cases hf : t.find s with
    | none =>
      rw [intern_of_find_none hf]
      exact .fresh hf
    | some id =>
      rw [intern_of_find hf]
      exact .known hf
  | find s =>
    cases hs
    exact .kept rfl
  | lookup id =>
    cases hs
    exact .kept rfl
  | eraseSymbol s =>
    cases hf : t.find s with
    | none =>
      simp only [SymbolTable.step, eraseSymbol_of_find_none hf, Option.map_some] at hs
      cases hs
      exact .kept rfl
    | some id =>
      obtain ⟨hr, _⟩ := h.registered_of_find hfew hf
      simp only [SymbolTable.step, h.eraseSymbol_of_registered hfew hr, Option.map_some] at hs
      cases hs
      exact .erased rfl hr
  | eraseId id =>
    cases hl : t.lookupText id with
    | none =>
      simp only [SymbolTable.step, h.eraseId_of_unregistered hl, Option.map_some] at hs
      cases hs
      exact .kept rfl
    | some s =>
      obtain ⟨hneg, hr⟩ := h.lookupText_iff.mp hl
      simp only [SymbolTable.step, h.eraseId_of_registered hneg hr, Option.map_some] at hs
      cases hs
      exact .erased rfl hr
  | size =>
    cases hs
    exact .kept rfl
  | clear =>
    cases hs
    exact .clear

theorem Aligned.step (h : Aligned t) (hfew : Few t) (hs : t.step grow c = some (a, t')) :
    Aligned t' := by
  cases step_spec h hfew hs with
  | known _ => exact h
  | fresh hnew => exact h.register hnew
  | kept _ => exact h
  | erased _ hr => exact h.unregister hfew hr
  | clear => exact aligned_clear h

theorem issued_quiet (hc : c.quiet = true) :
    issued (es ++ [⟨t, c, a⟩]) = issued es ∧ answered (es ++ [⟨t, c, a⟩]) = answered es := by
  rw [issued, answered, List.foldl_append, List.foldl_append]
  cases c <;> first | exact ⟨rfl, rfl⟩ | cases hc

/-- The history agrees with the vector. -/
structure Tracked (es : List CallEvent) (t : SymbolTable) : Prop where
  issued_eq : issued es = t.pairs
  answered_mem : ∀ p ∈ answered es, p ∈ issued es

theorem Aligned.mem_pairs (h : Aligned t) {s : Symbol} {id : Int32} (hf : t.find s = some id) :
    (s, id) ∈ t.pairs := by
  obtain ⟨i, rfl, hr⟩ := (h.entry s id).mp hf
  rw [SymbolTable.pairs, List.mem_mapIdx]
  obtain ⟨hlt, hget⟩ := List.getElem?_eq_some_iff.mp hr.2
  exact ⟨i, hlt, by rw [hget]⟩

theorem Tracked.step (h : Tracked es t) (ha : Aligned t) (hs : StepSpec grow t c a t') :
    Tracked (es ++ [⟨t, c, a⟩]) t' := by
  cases hs with
  | @known s id hf =>
    have hissued : issued (es ++ [⟨t, .intern s, .id id⟩]) = issued es := by
      rw [issued, List.foldl_append]
      simp only [List.foldl_cons, List.foldl_nil, hf, reduceCtorEq, if_false]
      rfl
    have hanswered : answered (es ++ [⟨t, .intern s, .id id⟩]) =
        answered es ++ [(s, id)] := by
      rw [answered, List.foldl_append]
      rfl
    refine ⟨hissued.trans h.issued_eq, fun p hp => ?_⟩
    rw [hissued]
    rw [hanswered] at hp
    rcases List.mem_append.mp hp with hp | hp
    · exact h.answered_mem p hp
    · rw [List.mem_singleton.mp hp, h.issued_eq]
      exact ha.mem_pairs hf
  | @fresh s hf =>
    have hissued : issued (es ++ [⟨t, .intern s, .id (Int32.ofNat t.idToSymbol.texts.length)⟩]) =
        issued es ++ [(s, Int32.ofNat t.idToSymbol.texts.length)] := by
      rw [issued, List.foldl_append]
      simp only [List.foldl_cons, List.foldl_nil, hf, if_true]
      rfl
    have hanswered : answered (es ++
        [⟨t, .intern s, .id (Int32.ofNat t.idToSymbol.texts.length)⟩]) =
        answered es ++ [(s, Int32.ofNat t.idToSymbol.texts.length)] := by
      rw [answered, List.foldl_append]
      rfl
    refine ⟨?_, fun p hp => ?_⟩
    · rw [hissued, h.issued_eq]
      simp [SymbolTable.pairs, SymbolTable.register]
    · rw [hissued]
      rw [hanswered] at hp
      rcases List.mem_append.mp hp with hp | hp
      · exact List.mem_append_left _ (h.answered_mem p hp)
      · exact List.mem_append_right _ hp
  | kept hc =>
    obtain ⟨hi, hans⟩ := @issued_quiet t es c a hc
    exact ⟨hi.trans h.issued_eq, fun p hp => by rw [hi]; exact h.answered_mem p (hans ▸ hp)⟩
  | erased hc hr =>
    obtain ⟨hi, hans⟩ := @issued_quiet t es c a hc
    exact ⟨hi.trans h.issued_eq, fun p hp => by rw [hi]; exact h.answered_mem p (hans ▸ hp)⟩
  | clear =>
    constructor
    case issued_eq =>
      rw [issued, List.foldl_append]
      rfl
    case answered_mem =>
      intro p hp
      rw [answered, List.foldl_append] at hp
      cases hp

end Steps

section Promises
variable {grow : ℕ → ℕ} {t : SymbolTable} {es : List CallEvent}

theorem step_isSome (h : Aligned t) (hfew : Few t) (c : Call) : (t.step grow c).isSome = true := by
  cases c with
  | eraseSymbol s =>
    cases hf : t.find s with
    | none => simp [SymbolTable.step, eraseSymbol_of_find_none hf]
    | some id =>
      obtain ⟨hr, _⟩ := h.registered_of_find hfew hf
      simp [SymbolTable.step, h.eraseSymbol_of_registered hfew hr]
  | eraseId id =>
    cases hl : t.lookupText id with
    | none => simp [SymbolTable.step, h.eraseId_of_unregistered hl]
    | some s =>
      obtain ⟨hneg, hr⟩ := h.lookupText_iff.mp hl
      simp [SymbolTable.step, h.eraseId_of_registered hneg hr]
  | _ => rfl

/-- Both directions lose the pair, and nothing else. -/
theorem Aligned.lookupText_unregister (h : Aligned t) (hfew : Few t) {i : ℕ} {s : Symbol}
    (hr : Registered t i s) (id : Int32) : (t.unregister i s).lookupText id =
      if id = Int32.ofNat i then none else t.lookupText id := by
  have h' := h.unregister hfew hr
  apply Option.ext
  intro x
  rw [h'.lookupText_iff, registered_unregister]
  split_ifs with hid
  · subst hid
    simp [toSize_ofNat (hr.lt.trans hfew)]
  · rw [h.lookupText_iff]
    refine and_congr_right fun hneg => ?_
    have hne : toSize id ≠ i := fun he => hid (by rw [← he, ofNat_toSize hneg])
    simp [hne]

theorem Aligned.eraseSymbol_spec (h : Aligned t) (hfew : Few t) (s : Symbol) :
    ∃ t', t.eraseSymbol s = some ((t.find s).isSome, t') ∧
      (∀ s', t'.find s' = if s' = s then none else t.find s') ∧
      ∀ id, t'.lookupText id = if t.find s = some id then none else t.lookupText id := by
  cases hf : t.find s with
  | none =>
    refine ⟨t, eraseSymbol_of_find_none hf, fun s' => ?_, fun id => by simp⟩
    split_ifs with hs
    · rw [hs, hf]
    · rfl
  | some id =>
    obtain ⟨hr, hneg⟩ := h.registered_of_find hfew hf
    refine ⟨_, h.eraseSymbol_of_registered hfew hr, fun s' => Symbols.find_unregister, fun id' => ?_⟩
    rw [h.lookupText_unregister hfew hr, ofNat_toSize hneg]
    simp [eq_comm]

theorem Aligned.eraseId_spec (h : Aligned t) (hfew : Few t) (id : Int32) :
    ∃ t', t.eraseId id = some ((t.lookupText id).isSome, t') ∧
      (∀ id', t'.lookupText id' = if id' = id then none else t.lookupText id') ∧
      ∀ s, t'.find s = if t.lookupText id = some s then none else t.find s := by
  cases hl : t.lookupText id with
  | none =>
    refine ⟨t, h.eraseId_of_unregistered hl, fun id' => ?_, fun s => by simp⟩
    split_ifs with hid
    · rw [hid, hl]
    · rfl
  | some s =>
    obtain ⟨hneg, hr⟩ := h.lookupText_iff.mp hl
    refine ⟨_, h.eraseId_of_registered hneg hr, fun id' => ?_, fun s' => ?_⟩
    · rw [h.lookupText_unregister hfew hr, ofNat_toSize hneg]
    · rw [Symbols.find_unregister]
      simp [eq_comm]

theorem Tracked.ids (h : Tracked es t) :
    (issued es).map Prod.snd = (List.range (issued es).length).map Int32.ofNat := by
  rw [h.issued_eq, SymbolTable.pairs]
  apply List.ext_getElem
  · simp
  · intro i hi hi'
    simp

theorem Tracked.nodup_ids (h : Tracked es t) (hfew : Few t) :
    ((issued es).map Prod.snd).Nodup := by
  have hlen : (issued es).length = t.idToSymbol.texts.length := by
    rw [h.issued_eq, SymbolTable.pairs, List.length_mapIdx]
  rw [h.ids]
  refine List.Nodup.map_on (fun i hi j hj hij => ?_) List.nodup_range
  rw [List.mem_range, hlen] at hi hj
  exact ofNat_inj (hi.trans hfew) (hj.trans hfew) hij

/-- A symbol that is not registered gets the next id. -/
theorem Tracked.next_id (h : Tracked es t) {s : Symbol} (hf : t.find s = none) :
    (t.intern grow s).1 = Int32.ofNat (issued es).length := by
  rw [intern_of_find_none hf, h.issued_eq, SymbolTable.pairs, List.length_mapIdx]

/-- The vector grows by one string for every new id, until it is cleared. -/
theorem step_vector {t' : SymbolTable} {c : Call} {a : Answer} (hs : t.step grow c = some (a, t')) :
    (c.isNew t = false ∧ t'.idToSymbol = t.idToSymbol) ∨
      (c.isNew t = true ∧ ∃ s, t'.idToSymbol = t.idToSymbol.emplaceBack grow s) ∨
      (c = .clear ∧ t'.idToSymbol = t.idToSymbol.clear) := by
  cases c with
  | intern s =>
    cases hs
    cases hf : t.find s with
    | none =>
      rw [intern_of_find_none hf]
      exact .inr (.inl ⟨by simp [Call.isNew, hf], s, rfl⟩)
    | some id =>
      rw [intern_of_find hf]
      exact .inl ⟨by simp [Call.isNew, hf], rfl⟩
  | eraseSymbol s =>
    obtain ⟨⟨ok, u⟩, hu, he⟩ := Option.map_eq_some_iff.mp hs
    cases he
    simp only [SymbolTable.eraseSymbol] at hu
    split at hu
    · cases hu
      exact .inl ⟨rfl, rfl⟩
    · split_ifs at hu
      cases hu
      exact .inl ⟨rfl, rfl⟩
  | eraseId id =>
    obtain ⟨⟨ok, u⟩, hu, he⟩ := Option.map_eq_some_iff.mp hs
    cases he
    simp only [SymbolTable.eraseId] at hu
    split_ifs at hu
    · cases hu
      exact .inl ⟨rfl, rfl⟩
    · obtain ⟨s, _, hs⟩ := Option.map_eq_some_iff.mp hu
      cases hs
      exact .inl ⟨rfl, rfl⟩
  | clear =>
    cases hs
    exact .inr (.inr ⟨rfl, rfl⟩)
  | _ =>
    cases hs
    exact .inl ⟨rfl, rfl⟩

/-- No more ids than calls. -/
theorem few_of_length_lt {calls : List Call}
    (h : exec (SymbolTable.step grow) .empty calls = some (es, t)) (hlt : calls.length < 2 ^ 31) :
    ∀ u ∈ es.map Event.before ++ [t], Few u := by
  have hlen : ∀ u ∈ es.map Event.before ++ [t], u.idToSymbol.texts.length ≤ es.length := by
    refine exec_invariant (fun es t => ∀ u ∈ es.map Event.before ++ [t],
      u.idToSymbol.texts.length ≤ es.length) ?_ (by simp [SymbolTable.empty]) h
    intro es t c a t' ih hs u hu
    have ht := ih t (by simp)
    rw [List.length_append, List.length_singleton]
    rw [List.map_append, List.map_singleton, List.mem_append, List.mem_singleton] at hu
    rcases hu with hu | rfl
    · exact (ih u hu).trans (Nat.le_succ _)
    · rcases step_vector hs with ⟨_, he⟩ | ⟨_, s, he⟩ | ⟨_, he⟩
      · rw [he]
        omega
      · rw [he, StringVector.texts_emplaceBack, List.length_append, List.length_singleton]
        omega
      · rw [he]
        exact Nat.zero_le _
  have hcalls : es.length = calls.length := by rw [← exec_calls h, List.length_map]
  exact fun u hu => lt_of_le_of_lt (hlen u hu) (hcalls ▸ hlt)

/-- The invariants of a run in which fewer than `2 ^ 31` ids are issued. -/
theorem exec_aligned {calls : List Call} (h : exec (SymbolTable.step grow) .empty calls = some (es, t))
    (hfew : ∀ e ∈ es, Few e.before) : Aligned t ∧ Tracked es t := by
  refine exec_invariant (fun es t => (∀ e ∈ es, Few e.before) → Aligned t ∧ Tracked es t) ?_
    (fun _ => ⟨aligned_empty, rfl, nofun⟩) h hfew
  intro es t c a t' ih hs hall
  rw [List.forall_mem_append, List.forall_mem_singleton] at hall
  obtain ⟨ha, ht⟩ := ih hall.1
  exact ⟨ha.step hall.2 hs, ht.step ha (step_spec ha hall.2 hs)⟩

end Promises

theorem symbolTable_registers {grow : ℕ → ℕ} {calls : List Call} {es : List CallEvent}
    {t : SymbolTable} (h : exec (SymbolTable.step grow) .empty calls = some (es, t))
    (hfew : ∀ u ∈ es.map Event.before ++ [t], Few u) :
    (∀ s id, t.find s = some id ↔ t.lookupText id = some s) ∧
    ((issued es).map Prod.snd = (List.range (issued es).length).map Int32.ofNat ∧
      ((issued es).map Prod.snd).Nodup ∧ (∀ p ∈ answered es, p ∈ issued es) ∧
      ∀ s, t.find s = none → (t.intern grow s).1 = Int32.ofNat (issued es).length) ∧
    (∀ s id, t.find s = some id → t.intern grow s = (id, t)) ∧
    (t.size = t.symbolToId.keys.card ∧ ∀ s, s ∈ t.symbolToId.keys ↔ (t.find s).isSome = true) ∧
    (∀ s, ∃ t', t.eraseSymbol s = some ((t.find s).isSome, t') ∧
      (∀ s', t'.find s' = if s' = s then none else t.find s') ∧
      ∀ id, t'.lookupText id = if t.find s = some id then none else t.lookupText id) ∧
    (∀ id, ∃ t', t.eraseId id = some ((t.lookupText id).isSome, t') ∧
      (∀ id', t'.lookupText id' = if id' = id then none else t.lookupText id') ∧
      ∀ s, t'.find s = if t.lookupText id = some s then none else t.find s) ∧
    ∀ c, (t.step grow c).isSome = true := by
  rw [List.forall_mem_append, List.forall_mem_map, List.forall_mem_singleton] at hfew
  obtain ⟨ha, ht⟩ := exec_aligned h hfew.1
  refine ⟨fun s id => ha.find_iff_lookupText hfew.2,
    ⟨ht.ids, ht.nodup_ids hfew.2, ht.answered_mem, fun s => ht.next_id⟩, fun s id => intern_of_find,
    ⟨ha.count, fun s => ?_⟩, ha.eraseSymbol_spec hfew.2, ha.eraseId_spec hfew.2,
    step_isSome ha hfew.2⟩
  rw [← not_iff_not, ← find_eq_none, Bool.not_eq_true, Option.isSome_eq_false_iff,
    Option.isNone_iff_eq_none]

/-- A symbol is erased and interned again, between others. -/
theorem symbolTable_registers_reintern : ∃ es t,
    exec (SymbolTable.step (2 * ·)) .empty [.intern [65], .intern [66], .eraseSymbol [65],
      .intern [65], .lookup 0, .intern [66], .eraseId 1] = some (es, t) ∧
    (issued es).map Prod.snd = (List.range (issued es).length).map Int32.ofNat ∧
    ∀ s id, t.find s = some id ↔ t.lookupText id = some s := by
  obtain ⟨⟨es, t⟩, hrun⟩ := Option.isSome_iff_exists.mp (show (exec (SymbolTable.step (2 * ·)) .empty
    [.intern [65], .intern [66], .eraseSymbol [65], .intern [65], .lookup 0, .intern [66],
      .eraseId 1]).isSome = true by decide)
  have hfew := few_of_length_lt hrun (by decide)
  exact ⟨es, t, hrun, (symbolTable_registers hrun hfew).2.1.1, (symbolTable_registers hrun hfew).1⟩

/-! # How long a looked-up view lasts

A view points at the characters of an interned string. A later `intern` may make
the vector move its strings to a new buffer, and the characters of a short string
move with the string object.
-/

/-- How many new ids the calls issued. -/
def newIds (es : List CallEvent) : ℕ := es.countP fun e => e.call.isNew e.before

section Views
variable {grow : ℕ → ℕ} {t u : SymbolTable} {es fs : List CallEvent}

theorem exec_valid {calls : List Call} (h : exec (SymbolTable.step grow) .empty calls = some (es, t)) :
    t.idToSymbol.Valid := by
  refine exec_invariant (fun _ t => t.idToSymbol.Valid) ?_ StringVector.valid_empty h
  intro _ t c a t' hv hs
  rcases step_vector hs with ⟨_, he⟩ | ⟨_, s, he⟩ | ⟨_, he⟩
  · exact he ▸ hv
  · exact he ▸ hv.emplaceBack grow s
  · exact he ▸ hv.clear

/-- Without a `clear` the vector is extended, by one string for every new id. -/
theorem exec_extends (hv : t.idToSymbol.Valid) {calls : List Call}
    (h : exec (SymbolTable.step grow) t calls = some (fs, u)) (hclear : Call.clear ∉ calls) :
    u.idToSymbol.Valid ∧ t.idToSymbol.Extends u.idToSymbol ∧
      u.idToSymbol.strings.length = t.idToSymbol.strings.length + newIds fs := by
  rw [← exec_calls h] at hclear
  refine exec_invariant (fun fs u => Call.clear ∉ fs.map Event.call →
    u.idToSymbol.Valid ∧ t.idToSymbol.Extends u.idToSymbol ∧
      u.idToSymbol.strings.length = t.idToSymbol.strings.length + newIds fs) ?_
    (fun _ => ⟨hv, .refl hv, rfl⟩) h hclear
  intro fs u c a u' ih hs hc
  rw [List.map_append, List.map_singleton, List.mem_append, List.mem_singleton, not_or] at hc
  obtain ⟨hvalid, hext, hlen⟩ := ih hc.1
  have hnew : newIds (fs ++ [⟨u, c, a⟩]) = newIds fs + if c.isNew u then 1 else 0 := by
    rw [newIds, List.countP_append, List.countP_singleton]
    rfl
  rcases step_vector hs with ⟨hq, he⟩ | ⟨hn, s, he⟩ | ⟨hclear, _⟩
  · rw [he, hnew, hq]
    exact ⟨hvalid, hext, hlen⟩
  · rw [he, hnew, hn]
    refine ⟨hvalid.emplaceBack grow s, hext.emplaceBack hvalid grow s, ?_⟩
    rw [StringVector.strings_emplaceBack, List.length_append, hlen]
    rfl
  · exact absurd hclear.symm hc.2

/-- A returned view is that of the id's slot. -/
theorem lookup_eq_view {id : Int32} {w : StringView} (h : t.lookup id = some w) :
    t.idToSymbol.view (toSize id) = some w := by
  simp only [SymbolTable.lookup] at h
  split_ifs at h
  exact h

end Views

/-- After any calls but `clear`, the view designates the characters of the interned symbol
if and only if the symbol is a long one or the new ids since then had room in the vector. -/
theorem lookup_view_valid_iff {grow : ℕ → ℕ} {calls rest : List Call} {es fs : List CallEvent}
    {t u : SymbolTable} (h : exec (SymbolTable.step grow) .empty calls = some (es, t)) {id : Int32}
    {w : StringView} (hw : t.lookup id = some w)
    (hrest : exec (SymbolTable.step grow) t rest = some (fs, u)) (hclear : Call.clear ∉ rest) :
    ∃ s, t.idToSymbol.texts[toSize id]? = some s ∧
      (u.idToSymbol.read w = some s ↔ localCapacity < s.length ∨
        t.idToSymbol.strings.length + newIds fs ≤ t.idToSymbol.capacity) := by
  have hv := exec_valid h
  obtain ⟨hvalid, hext, hlen⟩ := exec_extends hv hrest hclear
  have hview := lookup_eq_view hw
  obtain ⟨o, ho, _⟩ := Option.map_eq_some_iff.mp hview
  refine ⟨o.chars, by simp [StringVector.texts, ho], ?_⟩
  rw [StringVector.read_view_iff hext hv hvalid ho hview, hlen]

/-- The view of a long symbol, with the vector moved twice. -/
theorem lookup_view_valid_iff_long : ∃ es t fs u w s,
    exec (SymbolTable.step (2 * ·)) .empty [.intern (List.replicate 16 65)] = some (es, t) ∧
    t.lookup 0 = some w ∧
    exec (SymbolTable.step (2 * ·)) t [.intern [66], .intern [67]] = some (fs, u) ∧
    (u.idToSymbol.read w = some s ↔ localCapacity < s.length ∨
      t.idToSymbol.strings.length + newIds fs ≤ t.idToSymbol.capacity) :=
  ⟨_, _, _, _, _, _, rfl, rfl, rfl, (@lookup_view_valid_iff (2 * ·) [.intern (List.replicate 16 65)]
    [.intern [66], .intern [67]] _ _ _ _ rfl 0 _ rfl rfl (by decide)).choose_spec.2⟩

/-- The vector has room for one string; the second one moves the first, short one. -/
theorem short_view_dangles : ∃ es t fs u w,
    exec (SymbolTable.step (2 * ·)) .empty [.intern [65]] = some (es, t) ∧
    t.lookup 0 = some w ∧ t.idToSymbol.read w = some [65] ∧
    exec (SymbolTable.step (2 * ·)) t [.intern [66]] = some (fs, u) ∧
    u.lookupText 0 = some [65] ∧ u.idToSymbol.read w = none :=
  ⟨_, _, _, _, _, rfl, rfl, rfl, rfl, rfl, rfl⟩

end HftExercises.Symbols
