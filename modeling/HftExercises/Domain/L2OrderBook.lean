import Mathlib.Data.List.Induction
import HftExercises.Core.OrdMap

/-! # The level-2 book builder

Snapshots replace both sides, updates set or remove one level, and whatever comes
before the first snapshot is ignored. Each side is a map ordered best first, so a
book is determined by its levels: what it reports, the order-sensitive checksum
included, depends only on the last update of each level.
-/
namespace HftExercises.L2

abbrev Price := Int64
abbrev Qty := Int64

inductive Side where
  | bid
  | ask
  deriving DecidableEq, Repr

structure PriceLevel where
  price : Price
  qty : Qty
  deriving DecidableEq, Repr

abbrev Levels (r : Price → Price → Prop) := OrdMap r Qty

structure L2Book where
  hasSnapshot : Bool
  bids : Levels (fun a b => a > b)
  asks : Levels (fun a b => a < b)

def L2Book.init : L2Book := ⟨false, OrdMap.empty, OrdMap.empty⟩

section Levels
variable {r : Price → Price → Prop} [IsStrictTotalOrder Price r] [DecidableRel r]

/-- The loop of `apply_snapshot` over one side. -/
def emplaceLevels (levels : List PriceLevel) : Levels r :=
  levels.foldl (fun m l => m.emplace l.price l.qty) OrdMap.empty

/-- A quantity of zero removes the level. -/
def setLevel (m : Levels r) (price : Price) (newQty : Qty) : Levels r :=
  if newQty = 0 then m.erase price else m.set price newQty

end Levels

def L2Book.applySnapshot (_ : L2Book) (bids asks : List PriceLevel) : L2Book :=
  ⟨true, emplaceLevels bids, emplaceLevels asks⟩

def L2Book.applyUpdate (b : L2Book) (side : Side) (price : Price) (newQty : Qty) : L2Book :=
  if !b.hasSnapshot then b
  else match side with
    | .bid => { b with bids := setLevel b.bids price newQty }
    | .ask => { b with asks := setLevel b.asks price newQty }

def L2Book.bestBid (b : L2Book) : Option PriceLevel :=
  b.bids.begin?.map fun e => ⟨e.1, e.2⟩

def L2Book.bestAsk (b : L2Book) : Option PriceLevel :=
  b.asks.begin?.map fun e => ⟨e.1, e.2⟩

/-- The splitmix64 finalizer. -/
def mix (h : UInt64) : UInt64 :=
  let h := (h ^^^ (h >>> 30)) * 0xbf58476d1ce4e5b9
  let h := (h ^^^ (h >>> 27)) * 0x94d049bb133111eb
  h ^^^ (h >>> 31)

def mixBid (h : UInt64) (e : Price × Qty) : UInt64 :=
  mix (h ^^^ (e.1.toUInt64 * 0xC6A4A7935BD1E995) ^^^ (e.2.toUInt64 + 0x13198A2E))

def mixAsk (h : UInt64) (e : Price × Qty) : UInt64 :=
  mix (h ^^^ (e.2.toUInt64 * 0xC6A4A7935BD1E995) ^^^ (e.1.toUInt64 + 0x165667B1))

def L2Book.checksum (b : L2Book) : UInt64 :=
  if b.bids.entries.isEmpty && b.asks.entries.isEmpty then 0
  else b.asks.entries.foldl mixAsk (b.bids.entries.foldl mixBid 0x9E3779B97F4A7C15)

structure Update where
  side : Side
  price : Price
  newQty : Qty
  deriving DecidableEq, Repr

inductive Call where
  | applySnapshot (bids asks : List PriceLevel)
  | applyUpdate (update : Update)
  deriving DecidableEq, Repr

def L2Book.apply (b : L2Book) : Call → L2Book
  | .applySnapshot bids asks => b.applySnapshot bids asks
  | .applyUpdate u => b.applyUpdate u.side u.price u.newQty

def L2Book.applyAll (b : L2Book) (calls : List Call) : L2Book := calls.foldl L2Book.apply b

def L2Book.level? (b : L2Book) : Side → Price → Option Qty
  | .bid, price => b.bids.find? price
  | .ask, price => b.asks.find? price

def Update.at (side : Side) (price : Price) (u : Update) : Bool := u.side = side && u.price = price

/-- What an update leaves at its level. -/
def Update.stored (u : Update) : Option Qty := if u.newQty = 0 then none else some u.newQty

/-- The first quantity a snapshot lists for a price. -/
def listed? (levels : List PriceLevel) (price : Price) : Option Qty :=
  (levels.find? (fun l => l.price == price)).map PriceLevel.qty

section Levels
variable {r : Price → Price → Prop} [IsStrictTotalOrder Price r] [DecidableRel r]

theorem find?_foldl_emplace (levels : List PriceLevel) (m : Levels r) (price : Price) :
    (levels.foldl (fun m l => m.emplace l.price l.qty) m).find? price =
      (m.find? price).or (listed? levels price) := by
  induction levels generalizing m with
  | nil => exact Option.or_none.symm
  | cons l levels ih =>
    rw [List.foldl_cons, ih, OrdMap.find?_emplace, Option.or_assoc]
    apply congrArg
    by_cases h : price = l.price
    · simp [listed?, h]
    · simp [listed?, h, beq_eq_false_iff_ne.mpr (Ne.symm h)]

theorem find?_emplaceLevels (levels : List PriceLevel) (price : Price) :
    (emplaceLevels levels : Levels r).find? price = listed? levels price := by
  unfold emplaceLevels
  rw [find?_foldl_emplace]
  rfl

theorem find?_setLevel (m : Levels r) (u : Update) (price : Price) :
    (setLevel m u.price u.newQty).find? price =
      if price = u.price then u.stored else m.find? price := by
  unfold setLevel Update.stored
  split_ifs with hq hp hp
  · rw [OrdMap.find?_erase, if_pos hp]
  · rw [OrdMap.find?_erase, if_neg hp]
  · rw [OrdMap.find?_set, if_pos hp]
  · rw [OrdMap.find?_set, if_neg hp]

end Levels

/-- The quantity at a level after some updates, over what was there before. -/
def levelAfter (base : Option Qty) (updates : List Update) (side : Side) (price : Price) :
    Option Qty :=
  match (updates.filter (Update.at side price)).getLast? with
  | none => base
  | some u => u.stored

section Updates
variable {b : L2Book}

theorem level?_applyUpdate (hb : b.hasSnapshot = true) (u : Update) (side : Side) (price : Price) :
    (b.applyUpdate u.side u.price u.newQty).level? side price =
      if u.at side price then u.stored else b.level? side price := by
  simp only [L2Book.applyUpdate, hb, Bool.not_true, Bool.false_eq_true, if_false]
  obtain ⟨side', price', qty⟩ := u
  have hfind := fun {r : Price → Price → Prop} [IsStrictTotalOrder Price r] [DecidableRel r]
    (m : Levels r) => find?_setLevel m ⟨side', price', qty⟩ price
  cases side <;> cases side' <;> simp [L2Book.level?, Update.at, hfind, eq_comm]

theorem applyUpdate_hasSnapshot (side : Side) (price : Price) (qty : Qty) :
    (b.applyUpdate side price qty).hasSnapshot = b.hasSnapshot := by
  unfold L2Book.applyUpdate
  split_ifs
  · rfl
  · cases side <;> rfl

theorem applyAll_updates_hasSnapshot (updates : List Update) :
    (b.applyAll (updates.map .applyUpdate)).hasSnapshot = b.hasSnapshot := by
  induction updates generalizing b with
  | nil => rfl
  | cons u updates ih =>
    rw [List.map_cons, L2Book.applyAll, List.foldl_cons, ← L2Book.applyAll, ih]
    exact applyUpdate_hasSnapshot u.side u.price u.newQty

/-- Without a snapshot no update has an effect. -/
theorem applyAll_of_no_snapshot (hb : b.hasSnapshot = false) {calls : List Call}
    (hno : ∀ bids asks, Call.applySnapshot bids asks ∉ calls) : b.applyAll calls = b := by
  induction calls with
  | nil => rfl
  | cons c calls ih =>
    cases c with
    | applySnapshot bids asks => exact absurd List.mem_cons_self (hno bids asks)
    | applyUpdate u =>
      have hskip : b.apply (.applyUpdate u) = b := by simp [L2Book.apply, L2Book.applyUpdate, hb]
      rw [L2Book.applyAll, List.foldl_cons, hskip]
      exact ih (fun bids asks h => hno bids asks (List.mem_cons_of_mem _ h))

theorem level?_applyAll_updates (hb : b.hasSnapshot = true) (updates : List Update) (side : Side)
    (price : Price) : (b.applyAll (updates.map .applyUpdate)).level? side price =
      levelAfter (b.level? side price) updates side price := by
  induction updates using List.reverseRecOn with
  | nil => rfl
  | append_singleton updates u ih =>
    have hlast : b.applyAll ((updates ++ [u]).map .applyUpdate) =
        (b.applyAll (updates.map .applyUpdate)).applyUpdate u.side u.price u.newQty := by
      simp [L2Book.applyAll, L2Book.apply]
    have hs : (b.applyAll (updates.map .applyUpdate)).hasSnapshot = true := by
      rw [applyAll_updates_hasSnapshot, hb]
    rw [hlast, level?_applyUpdate hs, ih]
    unfold levelAfter
    cases hu : u.at side price with
    | true => simp [hu]
    | false => simp [hu]

/-- A book is determined by its levels. -/
theorem L2Book.ext_level? {b' : L2Book} (hs : b.hasSnapshot = b'.hasSnapshot)
    (h : ∀ side price, b.level? side price = b'.level? side price) : b = b' := by
  have hbids : b.bids = b'.bids := OrdMap.ext_find? (h .bid)
  have hasks : b.asks = b'.asks := OrdMap.ext_find? (h .ask)
  cases b
  cases b'
  simp_all

/-- Updates can be reordered as long as each level sees its own in order. -/
theorem applyAll_updates_congr {us vs : List Update}
    (h : ∀ side price, us.filter (Update.at side price) = vs.filter (Update.at side price)) :
    b.applyAll (us.map .applyUpdate) = b.applyAll (vs.map .applyUpdate) := by
  cases hb : b.hasSnapshot with
  | false => rw [applyAll_of_no_snapshot hb (by simp), applyAll_of_no_snapshot hb (by simp)]
  | true =>
    apply L2Book.ext_level?
    · rw [applyAll_updates_hasSnapshot, applyAll_updates_hasSnapshot]
    · intro side price
      rw [level?_applyAll_updates hb, level?_applyAll_updates hb]
      unfold levelAfter
      rw [h]

end Updates

/-- The first level of a side is the one that no other level precedes. -/
theorem begin?_eq_some_iff {r : Price → Price → Prop} [IsStrictTotalOrder Price r]
    {m : Levels r} {price : Price} {qty : Qty} :
    m.begin? = some (price, qty) ↔
      m.find? price = some qty ∧ ∀ p q, m.find? p = some q → ¬ r p price := by
  constructor
  · intro h
    refine ⟨OrdMap.find?_of_begin? h, ?_⟩
    intro p q hp hr
    rcases OrdMap.begin?_least h (OrdMap.mem_of_find? hp) with he | hlt
    · cases he
      exact irrefl_of r _ hr
    · exact irrefl_of r _ (trans_of r hr hlt)
  · rintro ⟨hfind, hmin⟩
    cases hb : m.begin? with
    | none =>
      have hmem := OrdMap.mem_of_find? hfind
      rw [OrdMap.begin?_eq_none_iff.mp hb] at hmem
      cases hmem
    | some e =>
      rcases OrdMap.begin?_least hb (OrdMap.mem_of_find? hfind) with he | hlt
      · rw [he]
      · exact absurd hlt (hmin e.1 e.2 (OrdMap.find?_of_begin? hb))

theorem best_eq_some_iff {r : Price → Price → Prop} {m : Levels r} {l : PriceLevel} :
    (m.begin?.map fun e => (⟨e.1, e.2⟩ : PriceLevel)) = some l ↔
      m.begin? = some (l.price, l.qty) := by
  rw [Option.map_eq_some_iff]
  constructor
  · rintro ⟨e, he, rfl⟩
    exact he
  · intro h
    exact ⟨_, h, rfl⟩

/-- What a snapshot lists for one side. -/
def listedOn (bids asks : List PriceLevel) : Side → List PriceLevel
  | .bid => bids
  | .ask => asks

theorem level?_applySnapshot (b : L2Book) (bids asks : List PriceLevel) (side : Side)
    (price : Price) :
    (b.applySnapshot bids asks).level? side price = listed? (listedOn bids asks side) price := by
  cases side <;> exact find?_emplaceLevels _ price

/-- Every level holds what the last update after the last snapshot set it to, or
else what that snapshot listed first; updates of different levels commute, down
to the checksum; and the best levels are the extreme prices. -/
theorem l2Book_levels (calls : List Call) :
    ((∀ bids asks, Call.applySnapshot bids asks ∉ calls) →
      ∀ side price, (L2Book.init.applyAll calls).level? side price = none) ∧
    (∀ before bids asks updates,
      calls = before ++ .applySnapshot bids asks :: updates.map .applyUpdate →
      ∀ side price, (L2Book.init.applyAll calls).level? side price =
        levelAfter (listed? (listedOn bids asks side) price) updates side price) ∧
    (∀ us vs : List Update,
      (∀ side price, us.filter (Update.at side price) = vs.filter (Update.at side price)) →
      let b := L2Book.init.applyAll (calls ++ us.map .applyUpdate)
      let b' := L2Book.init.applyAll (calls ++ vs.map .applyUpdate)
      b.bestBid = b'.bestBid ∧ b.bestAsk = b'.bestAsk ∧ b.checksum = b'.checksum) ∧
    (∀ l, (L2Book.init.applyAll calls).bestBid = some l ↔
      (L2Book.init.applyAll calls).level? .bid l.price = some l.qty ∧
        ∀ p q, (L2Book.init.applyAll calls).level? .bid p = some q → p ≤ l.price) ∧
    ∀ l, (L2Book.init.applyAll calls).bestAsk = some l ↔
      (L2Book.init.applyAll calls).level? .ask l.price = some l.qty ∧
        ∀ p q, (L2Book.init.applyAll calls).level? .ask p = some q → l.price ≤ p := by
  refine ⟨?_, ?_, ?_, ?_, ?_⟩
  · intro hno side price
    rw [applyAll_of_no_snapshot rfl hno]
    cases side <;> rfl
  · rintro before bids asks updates rfl side price
    have hsplit : L2Book.init.applyAll
        (before ++ .applySnapshot bids asks :: updates.map .applyUpdate) =
        ((L2Book.init.applyAll before).applySnapshot bids asks).applyAll
          (updates.map .applyUpdate) := by
      simp [L2Book.applyAll, L2Book.apply]
    rw [hsplit, level?_applyAll_updates rfl, level?_applySnapshot]
  · intro us vs h
    have hsame : L2Book.init.applyAll (calls ++ us.map .applyUpdate) =
        L2Book.init.applyAll (calls ++ vs.map .applyUpdate) := by
      have hcongr := applyAll_updates_congr (b := L2Book.init.applyAll calls) h
      simpa [L2Book.applyAll] using hcongr
    simp only [hsame, and_self]
  · intro l
    simp only [best_eq_some_iff, L2Book.bestBid, begin?_eq_some_iff, gt_iff_lt, Int64.not_lt]
    rfl
  · intro l
    simp only [best_eq_some_iff, L2Book.bestAsk, begin?_eq_some_iff, Int64.not_lt]
    rfl

end HftExercises.L2
