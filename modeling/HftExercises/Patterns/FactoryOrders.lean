import HftExercises.Core.MachineWord

/-! # Venue order factories

A factory checks a request, puts its price on the grid of the venue, and builds the
order. The arithmetic is that of 64-bit words.
-/
namespace HftExercises.Factories
open SignedWord

inductive Venue where
  | iex
  | cme
  deriving DecidableEq, Repr

inductive Side where
  | buy
  | sell
  deriving DecidableEq, Repr

inductive OrderKind where
  | limit
  | market
  | stop
  deriving DecidableEq, Repr

inductive TimeInForce where
  | day
  | ioc
  | fok
  deriving DecidableEq, Repr

structure Order where
  kind : OrderKind
  venue : Venue
  side : Side
  id : Int64
  price : Int64
  qty : Int64
  tif : TimeInForce
  postOnly : Bool
  deriving DecidableEq, Repr

def iexTickMicros : Int64 := 10000

def cmeTickMicros : Int64 := 2500

def quantize (price tick : Int64) : Int64 := (price + tick / 2) / tick * tick

def buildOrder (venue : Venue) (kind : OrderKind) (side : Side) (id price qty : Int64)
    (tif : TimeInForce) (postOnly : Bool) (tick : Int64) : Option Order :=
  if id < 0 ∨ qty ≤ 0 then none
  else if kind ≠ .market ∧ price ≤ 0 then none
  else
    some ⟨kind, venue, side, id, if kind = .market then 0 else quantize price tick, qty, tif,
      postOnly && decide (kind ≠ .stop)⟩

structure VenueOrderFactory where
  createLimit : Int64 → Side → Int64 → Int64 → TimeInForce → Bool → Option Order
  createMarket : Int64 → Side → Int64 → Option Order
  createStop : Int64 → Side → Int64 → Int64 → Option Order
  venue : Venue

def iexOrderFactory : VenueOrderFactory where
  createLimit id side price qty tif postOnly :=
    buildOrder .iex .limit side id price qty tif postOnly iexTickMicros
  createMarket id side qty := buildOrder .iex .market side id 0 qty .day false iexTickMicros
  createStop id side trigger qty :=
    buildOrder .iex .stop side id trigger qty .day false iexTickMicros
  venue := .iex

def cmeOrderFactory : VenueOrderFactory where
  createLimit id side price qty tif postOnly :=
    buildOrder .cme .limit side id price qty tif postOnly cmeTickMicros
  createMarket id side qty := buildOrder .cme .market side id 0 qty .day false cmeTickMicros
  createStop id side trigger qty :=
    buildOrder .cme .stop side id trigger qty .day false cmeTickMicros
  venue := .cme

def makeOrderFactory (venue : Venue) : VenueOrderFactory :=
  if venue = .iex then iexOrderFactory else cmeOrderFactory

/-- The price grid of a venue. -/
def Venue.tick : Venue → Int64
  | .iex => iexTickMicros
  | .cme => cmeTickMicros

/-- A price on the grid at most half a tick from the one requested, above it on a tie. -/
structure OnGrid (tick price quantized : ℤ) : Prop where
  pos : 0 < quantized
  dvd : tick ∣ quantized
  near : -tick < 2 * (quantized - price)
  tie : 2 * (quantized - price) ≤ tick

/-- The factory built an order whose price is on the grid of its venue. -/
def Placed (tick price : Int64) (order : Option Order) : Prop :=
  ∃ o, order = some o ∧ OnGrid tick.toInt price.toInt o.price.toInt

theorem quantize_onGrid_iff {tick price : Int64} {half : ℤ} (hhalf : 0 < half)
    (htick : tick.toInt = 2 * half) (hprice : 0 < price.toInt) :
    OnGrid tick.toInt price.toInt (quantize price tick).toInt ↔
      half ≤ price.toInt ∧ price.toInt + half < 2 ^ 63 := by
  have hmiddle : (tick / 2).toInt = half := by
    rw [toInt_div (by omega) (by decide), htick]
    exact Int.mul_ediv_cancel_left half (by decide)
  have hround : (quantize price tick).toInt =
      (price + tick / 2).toInt.tdiv tick.toInt * tick.toInt := toInt_div_mul (by omega)
  have hplt := price.toInt_lt
  have htlt := tick.toInt_lt
  by_cases hfits : price.toInt + half < 2 ^ 63
  · have hsum : (price + tick / 2).toInt = price.toInt + half := by
      rw [toInt_add, hmiddle]
      rw [hmiddle]
      exact ⟨by omega, hfits⟩
    rw [hsum, htick] at hround
    have hsplit := Int.tdiv_mul_add_tmod (price.toInt + half) (2 * half)
    rw [← hround, Int.tmod_eq_emod_of_nonneg (by omega)] at hsplit
    have hlow := Int.emod_nonneg (price.toInt + half) (show 2 * half ≠ 0 by omega)
    have hhigh := Int.emod_lt_of_pos (price.toInt + half) (show 0 < 2 * half by omega)
    refine ⟨fun h => ⟨?_, hfits⟩, fun h => ⟨?_, ?_, by omega, by omega⟩⟩
    · by_contra hsmall
      have hzero : (price.toInt + half) % (2 * half) = price.toInt + half :=
        Int.emod_eq_of_lt (by omega) (by omega)
      have hpos := h.pos
      omega
    · by_contra hneg
      have hquot : 1 ≤ (price.toInt + half).tdiv (2 * half) := by
        rw [Int.tdiv_eq_ediv_of_nonneg (by omega)]
        exact (Int.le_ediv_iff_mul_le (by omega)).mpr (by omega)
      have hprod := Int.mul_le_mul_of_nonneg_right hquot (show 0 ≤ 2 * half by omega)
      omega
    · exact ⟨_, (hround.trans (Int.mul_comm _ _)).trans (by rw [htick])⟩
  · refine iff_of_false (fun h => ?_) (fun h => hfits h.2)
    have hwrap : (price + tick / 2).toInt = price.toInt + half - 2 ^ 64 := by
      rw [Int64.toInt_add, hmiddle, Int.bmod_def]
      split_ifs <;> omega
    rw [hwrap] at hround
    obtain ⟨-, hprod, -⟩ := tdiv_between (x := -(price.toInt + half - 2 ^ 64)) (y := tick.toInt)
      (by omega) (by omega)
    rw [Int.neg_tdiv, Int.neg_mul, ← hround] at hprod
    have hpos := h.pos
    omega

theorem buildOrder_eq {venue : Venue} {kind : OrderKind} {side : Side} {id price qty : Int64}
    {tif : TimeInForce} {postOnly : Bool} {tick : Int64} (hid : 0 ≤ id) (hqty : 0 < qty)
    (hprice : 0 < price) (hkind : kind ≠ .market) :
    buildOrder venue kind side id price qty tif postOnly tick =
      some ⟨kind, venue, side, id, quantize price tick, qty, tif,
        postOnly && decide (kind ≠ .stop)⟩ := by
  rw [Int64.le_iff_toInt_le] at hid
  rw [Int64.lt_iff_toInt_lt] at hqty hprice
  have hids : ¬ (id < 0 ∨ qty ≤ 0) := by
    rw [Int64.lt_iff_toInt_lt, Int64.le_iff_toInt_le]
    omega
  have hprices : ¬ (kind ≠ .market ∧ price ≤ 0) := by
    rw [Int64.le_iff_toInt_le]
    omega
  rw [buildOrder, if_neg hids, if_neg hprices, if_neg hkind]

/-- No check looks at the price that was rounded. -/
theorem buildOrder_placed_iff {venue : Venue} {kind : OrderKind} {side : Side}
    {id price qty : Int64} {tif : TimeInForce} {postOnly : Bool} (hid : 0 ≤ id) (hqty : 0 < qty)
    (hprice : 0 < price) (hkind : kind ≠ .market) :
    Placed venue.tick price (buildOrder venue kind side id price qty tif postOnly venue.tick) ↔
      venue.tick.toInt / 2 ≤ price.toInt ∧ price.toInt + venue.tick.toInt / 2 < 2 ^ 63 := by
  have hhalf : 0 < venue.tick.toInt / 2 ∧ venue.tick.toInt = 2 * (venue.tick.toInt / 2) := by
    cases venue <;> decide
  rw [Int64.lt_iff_toInt_lt] at hprice
  rw [← quantize_onGrid_iff hhalf.1 hhalf.2 hprice]
  rw [← Int64.lt_iff_toInt_lt] at hprice
  constructor
  · rintro ⟨o, ho, hgrid⟩
    rw [buildOrder_eq hid hqty hprice hkind] at ho
    obtain rfl := Option.some.inj ho
    exact hgrid
  · exact fun hgrid => ⟨_, buildOrder_eq hid hqty hprice hkind, hgrid⟩

/-- Limit and stop orders are on the grid exactly when the price is half a tick at least and
half a tick more is still a word. -/
theorem factory_price_iff (venue : Venue) (side : Side) (tif : TimeInForce) (postOnly : Bool)
    {id price qty : Int64} (hid : 0 ≤ id) (hqty : 0 < qty) (hprice : 0 < price) :
    let factory := makeOrderFactory venue
    let half := venue.tick.toInt / 2
    (Placed venue.tick price (factory.createLimit id side price qty tif postOnly) ↔
        half ≤ price.toInt ∧ price.toInt + half < 2 ^ 63) ∧
      (Placed venue.tick price (factory.createStop id side price qty) ↔
        half ≤ price.toInt ∧ price.toInt + half < 2 ^ 63) := by
  intro factory half
  have hlimit := @buildOrder_placed_iff venue .limit side id price qty tif postOnly hid hqty hprice
    (by decide)
  have hstop := @buildOrder_placed_iff venue .stop side id price qty .day false hid hqty hprice
    (by decide)
  cases venue
  · exact ⟨hlimit, hstop⟩
  · exact ⟨hlimit, hstop⟩

/-- A dollar and half a cent is a tie on the grid of cents. -/
theorem factory_price_iff_tie :
    Placed 10000 1005000 ((makeOrderFactory .iex).createLimit 1 .buy 1005000 100 .day false) :=
  (factory_price_iff .iex .buy .day false (by decide) (by decide) (by decide)).1.mpr
    ⟨by decide, by decide⟩

/-- A limit of one micro leaves the factory with the price zero. -/
theorem factory_price_one_micro :
    ¬ ∀ (venue : Venue) (side : Side) (tif : TimeInForce) (postOnly : Bool) (id price qty : Int64),
      0 ≤ id → 0 < qty → 0 < price →
        Placed venue.tick price
            ((makeOrderFactory venue).createLimit id side price qty tif postOnly) ∧
          Placed venue.tick price ((makeOrderFactory venue).createStop id side price qty) := by
  intro h
  obtain ⟨o, ho, hgrid⟩ :=
    (h .iex .buy .day false 1 1 100 (by decide) (by decide) (by decide)).1
  obtain rfl := Option.some.inj ho
  exact absurd hgrid.pos (by decide)

end HftExercises.Factories
