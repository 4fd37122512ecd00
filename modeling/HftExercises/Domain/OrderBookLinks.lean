import HftExercises.Core.ListFacts
import HftExercises.Core.HashTable
import HftExercises.Domain.OrderBook

/-! # Id table and queues that describe the same orders

The price maps enter only through the queue they hold for each side and price.
Table and queues are linked when a node is queued exactly where the table
records its id, at the position the table records. Each operation replaces one
queue and changes the table at one id.
-/
namespace HftExercises.Book
variable {P : Type*}

/-- Replace the queue of one level. -/
def place [DecidableEq P] (q : Side → P → List Node) (side : Side) (price : P) (queue : List Node) :
    Side → P → List Node :=
  fun s p => if s = side ∧ p = price then queue else q s p

structure Linked (byId : IdTable P) (q : Side → P → List Node) : Prop where
  placed : ∀ side price node, node ∈ q side price ↔ ∃ o, byId.lookup node.id = some o ∧
    o.side = side ∧ o.price = price ∧ o.queuePos = node.addr
  ids : ∀ side price, ((q side price).map Node.id).Nodup
  positions : ∀ id id' o o', byId.lookup id = some o → byId.lookup id' = some o' →
    o.queuePos = o'.queuePos → id = id'

section Place
variable [DecidableEq P] {q : Side → P → List Node} {side : Side} {price : P} {queue queue' : List Node}

@[simp] theorem place_self : place q side price queue side price = queue := by
  simp [place]

theorem place_other {s : Side} {p : P} (h : ¬ (s = side ∧ p = price)) :
    place q side price queue s p = q s p := if_neg h

theorem place_place : place (place q side price queue) side price queue' =
    place q side price queue' := by
  funext s p
  unfold place
  split_ifs <;> rfl

theorem place_eq_self (h : q side price = queue) : place q side price queue = q := by
  funext s p
  unfold place
  split_ifs with hs
  · rw [hs.1, hs.2, h]
  · rfl

/-- A property of every queue of the updated family. -/
theorem forall_place (R : List Node → Prop) (hq : ∀ s p, R (q s p)) (h : R queue) :
    ∀ s p, R (place q side price queue s p) := by
  intro s p
  unfold place
  split_ifs
  · exact h
  · exact hq s p

theorem place_sublist (h : queue.Sublist (q side price)) (s : Side) (p : P) :
    (place q side price queue s p).Sublist (q s p) := by
  unfold place
  split_ifs with hs
  · rw [hs.1, hs.2]
    exact h
  · exact List.Sublist.refl _

end Place

namespace Linked
variable {byId : IdTable P} {q : Side → P → List Node} {side : Side} {price : P}
variable {id : OrderId} {o : Order P} {node : Node} {queue rest : List Node}

theorem registered (h : Linked byId q) (hid : byId.lookup id = some o) :
    ⟨o.queuePos, id⟩ ∈ q o.side o.price := (h.placed _ _ _).mpr ⟨o, hid, rfl, rfl, rfl⟩

theorem exists_order (h : Linked byId q) (hn : node ∈ q side price) :
    ∃ o, byId.lookup node.id = some o ∧ o.side = side ∧ o.price = price ∧
      o.queuePos = node.addr := (h.placed _ _ _).mp hn

/-- Within a level the address of a node determines its id. -/
theorem addrs (h : Linked byId q) (side : Side) (price : P) :
    ((q side price).map Node.addr).Nodup := by
  refine List.pairwise_map.mpr ((List.pairwise_map.mp (h.ids side price)).imp_of_mem ?_)
  intro a b ha hb hne haddr
  obtain ⟨oa, hoa, _, _, hpa⟩ := h.exists_order ha
  obtain ⟨ob, hob, _, _, hpb⟩ := h.exists_order hb
  exact hne (h.positions _ _ _ _ hoa hob (by rw [hpa, hpb, haddr]))

/-- A new quantity moves nothing. -/
theorem requantify (h : Linked byId q) (hid : byId.lookup id = some o) (qty : UInt64) :
    Linked (byId.insert id { o with qty := qty }) q := by
  have hback : ∀ i x, (byId.insert id { o with qty := qty }).lookup i = some x →
      ∃ y, byId.lookup i = some y ∧ y.side = x.side ∧ y.price = x.price ∧
        y.queuePos = x.queuePos := by
    intro i x hx
    rcases lookup_insert_eq_some hx with ⟨rfl, rfl⟩ | ⟨_, hx⟩
    · exact ⟨o, hid, rfl, rfl, rfl⟩
    · exact ⟨x, hx, rfl, rfl, rfl⟩
  refine ⟨?_, h.ids, ?_⟩
  · intro s p n
    rw [h.placed s p n]
    constructor
    · rintro ⟨x, hx, hs, hp, hpos⟩
      by_cases hn : n.id = id
      · rw [hn, hid] at hx
        cases hx
        rw [hn, AList.lookup_insert]
        exact ⟨_, rfl, hs, hp, hpos⟩
      · rw [AList.lookup_insert_ne hn]
        exact ⟨x, hx, hs, hp, hpos⟩
    · rintro ⟨x, hx, hs, hp, hpos⟩
      obtain ⟨y, hy, hys, hyp, hypos⟩ := hback _ x hx
      exact ⟨y, hy, hys.trans hs, hyp.trans hp, hypos.trans hpos⟩
  · intro i i' x x' hx hx' hpos
    obtain ⟨y, hy, _, _, hyp⟩ := hback i x hx
    obtain ⟨y', hy', _, _, hyp'⟩ := hback i' x' hx'
    exact h.positions i i' y y' hy hy' (by rw [hyp, hyp', hpos])

/-- The front node leaves. -/
theorem mem_tail_iff (h : Linked byId q) (hq : q side price = node :: rest) (n : Node) :
    n ∈ rest ↔ n ∈ q side price ∧ n.id ≠ node.id := by
  have hids := h.ids side price
  rw [hq, List.map_cons, List.nodup_cons] at hids
  rw [hq]
  constructor
  · intro hn
    refine ⟨List.mem_cons_of_mem node hn, fun he => hids.1 ?_⟩
    rw [← he]
    exact List.mem_map_of_mem hn
  · rintro ⟨hn, hne⟩
    rcases List.mem_cons.mp hn with rfl | hn
    · exact absurd rfl hne
    · exact hn

/-- Erasing at the recorded position takes out the order itself. -/
theorem mem_eraseP_iff (h : Linked byId q) (hid : byId.lookup id = some o) (n : Node) :
    n ∈ (q o.side o.price).eraseP (fun n => n.addr == o.queuePos) ↔
      n ∈ q o.side o.price ∧ n.id ≠ id := by
  rw [eraseP_key_eq_filter (h.addrs o.side o.price), List.mem_filter]
  refine and_congr_right fun hn => ?_
  obtain ⟨x, hx, _, _, hpos⟩ := h.exists_order hn
  have hiff : n.addr = o.queuePos ↔ n.id = id := by
    constructor
    · intro ha
      exact h.positions _ _ _ _ hx hid (hpos.trans ha)
    · intro he
      rw [he, hid] at hx
      cases hx
      exact hpos.symm
  simpa using not_congr hiff

variable [DecidableEq P]

/-- A new order at the back of its level. -/
theorem add (h : Linked byId q) (hid : byId.lookup id = none) {addr : ℕ}
    (hfresh : ∀ id o, byId.lookup id = some o → o.queuePos ≠ addr) (qty : UInt64) :
    Linked (byId.insert id ⟨side, price, qty, addr⟩)
      (place q side price (q side price ++ [⟨addr, id⟩])) := by
  have hnew : ∀ s p n, n ∈ q s p → n.id ≠ id := by
    intro s p n hn he
    obtain ⟨o, ho, _⟩ := h.exists_order hn
    rw [he, hid] at ho
    cases ho
  refine ⟨?_, ?_, ?_⟩
  · intro s p n
    by_cases hn : n.id = id
    · have hnot : n ∉ q s p := fun hmem => hnew s p n hmem hn
      have hiff : n ∈ place q side price (q side price ++ [⟨addr, id⟩]) s p ↔
          (s = side ∧ p = price) ∧ n = ⟨addr, id⟩ := by
        by_cases hsp : s = side ∧ p = price
        · obtain ⟨rfl, rfl⟩ := hsp
          simp [hnot]
        · rw [place_other hsp]
          simp [hnot, hsp]
      rw [hiff, hn, AList.lookup_insert]
      constructor
      · rintro ⟨⟨rfl, rfl⟩, rfl⟩
        exact ⟨_, rfl, rfl, rfl, rfl⟩
      · rintro ⟨o, ho, rfl, rfl, hpos⟩
        cases ho
        refine ⟨⟨rfl, rfl⟩, ?_⟩
        cases n
        cases hn
        cases hpos
        rfl
    · rw [AList.lookup_insert_ne hn, ← h.placed s p n]
      by_cases hsp : s = side ∧ p = price
      · obtain ⟨rfl, rfl⟩ := hsp
        have hne : n ≠ ⟨addr, id⟩ := fun he => hn (by rw [he])
        simp [hne]
      · rw [place_other hsp]
  · refine forall_place (fun l => (l.map Node.id).Nodup) h.ids ?_
    rw [List.map_append, List.nodup_append]
    refine ⟨h.ids side price, List.nodup_singleton _, ?_⟩
    intro a ha b hb
    obtain ⟨n, hn, rfl⟩ := List.mem_map.mp ha
    rw [List.mem_singleton.mp hb]
    exact hnew side price n hn
  · intro i i' x x' hx hx' hpos
    rcases lookup_insert_eq_some hx with ⟨rfl, rfl⟩ | ⟨_, hold⟩
    · rcases lookup_insert_eq_some hx' with ⟨rfl, rfl⟩ | ⟨_, hold'⟩
      · rfl
      · exact absurd hpos.symm (hfresh i' x' hold')
    · rcases lookup_insert_eq_some hx' with ⟨rfl, rfl⟩ | ⟨_, hold'⟩
      · exact absurd hpos (hfresh i x hold)
      · exact h.positions i i' x x' hold hold' hpos

/-- One order leaves the table and its level. -/
theorem remove (h : Linked byId q) (hn : node ∈ q side price)
    (hsub : rest.Sublist (q side price))
    (hrest : ∀ n, n ∈ rest ↔ n ∈ q side price ∧ n.id ≠ node.id) :
    Linked (byId.erase node.id) (place q side price rest) := by
  refine ⟨?_, ?_, ?_⟩
  · intro s p n
    by_cases hid : n.id = node.id
    · rw [hid, AList.lookup_erase]
      refine iff_of_false ?_ (by simp)
      intro hmem
      by_cases hsp : s = side ∧ p = price
      · obtain ⟨rfl, rfl⟩ := hsp
        rw [place_self] at hmem
        exact ((hrest n).mp hmem).2 hid
      · rw [place_other hsp] at hmem
        obtain ⟨o, ho, hs, hp, _⟩ := h.exists_order hmem
        obtain ⟨o', ho', hs', hp', _⟩ := h.exists_order hn
        rw [hid, ho'] at ho
        cases ho
        exact hsp ⟨hs.symm.trans hs', hp.symm.trans hp'⟩
    · rw [AList.lookup_erase_ne hid, ← h.placed s p n]
      by_cases hsp : s = side ∧ p = price
      · obtain ⟨rfl, rfl⟩ := hsp
        rw [place_self, hrest]
        exact and_iff_left hid
      · rw [place_other hsp]
  · exact forall_place (fun l => (l.map Node.id).Nodup) h.ids
      ((h.ids side price).sublist (hsub.map Node.id))
  · intro i i' x x' hx hx' hpos
    exact h.positions i i' x x' (lookup_of_lookup_erase hx) (lookup_of_lookup_erase hx') hpos

end Linked
end HftExercises.Book
