import QuantityCalculus.Binary64.Basic

/-! The fewest digits that read back. Every real between the two midpoints next to a binary64 number
rounds to that number, the midpoints themselves if its significand is even. For 1, 2, … 17 digits
the two neighbours of the number on the grid of that many digits are tested for membership, in
exact arithmetic; the first grid with a hit gives the answer, the nearer neighbour if both hit and
the larger one if both are equally near. Without a hit the value itself would be the answer. -/

namespace QuantityCalculus.Decimal

/-- A positive decimal number `coefficient * 10 ^ exponent`. -/
structure Scientific where
  coefficient : Nat
  exponent : Int
  deriving DecidableEq, Repr

/-- The value `significand * 2 ^ exponent` with the interval of reals that round to it. Below a
power of two the numbers lie twice as dense, so the interval is half as wide there. -/
structure Neighbourhood where
  significand : Nat
  exponent : Int
  narrowBelow : Bool

/-- The neighbourhood of a finite nonzero number, regardless of its sign. -/
def Neighbourhood.of (x : Float) : Neighbourhood :=
  let p := Binary64.parts x
  { significand := p.significand
    exponent := p.exponent
    narrowBelow := p.significand == 0x10000000000000 && p.exponent != -1074 }

/-- The weight of a quarter of the last binary place, in units of `2 ^ e₂ * 10 ^ e₁₀` where `e₂` and
`e₁₀` are the negative parts of the two exponents. -/
def Neighbourhood.quarter (v : Neighbourhood) (k : Int) : Nat :=
  Nat.pow 2 v.exponent.toNat * Nat.pow 10 (-k).toNat

/-- The weight of the grid spacing `10 ^ k` in the same units. -/
def Neighbourhood.spacing (v : Neighbourhood) (k : Int) : Nat :=
  4 * Nat.pow 2 (-v.exponent).toNat * Nat.pow 10 k.toNat

/-- Whether the grid point `c * 10 ^ k` rounds to the value. -/
def Neighbourhood.covers (v : Neighbourhood) (k : Int) (c : Nat) : Bool :=
  let unit := v.quarter k
  let low := (4 * v.significand - (if v.narrowBelow then 1 else 2)) * unit
  let high := (4 * v.significand + 2) * unit
  let point := c * v.spacing k
  if v.significand % 2 = 0 then low ≤ point && point ≤ high else low < point && point < high

/-- The distance of the grid point `c * 10 ^ k` from the value, in the units of `quarter`. -/
def Neighbourhood.distance (v : Neighbourhood) (k : Int) (c : Nat) : Nat :=
  let value := 4 * v.significand * v.quarter k
  let point := c * v.spacing k
  (value - point) + (point - value)

/-- The largest grid point that is at most the value, as a multiple of `10 ^ k`. -/
def Neighbourhood.below (v : Neighbourhood) (k : Int) : Nat :=
  4 * v.significand * v.quarter k / v.spacing k

/-- The neighbour of the value on the grid `10 ^ k` that rounds to it. -/
def Neighbourhood.onGrid (v : Neighbourhood) (k : Int) : Option Nat :=
  let c := v.below k
  match v.covers k c, v.covers k (c + 1) with
  | true, true => if v.distance k c < v.distance k (c + 1) then some c else some (c + 1)
  | true, false => some c
  | false, true => some (c + 1)
  | false, false => none

/-- The number of decimal digits. -/
def digitCount (n : Nat) : Nat :=
  (Nat.toDigits 10 n).length

/-- The place of the leading digit: the greatest `e` with `10 ^ e` at most the value. No binary64
number is below `10 ^ (-324)`. -/
def Neighbourhood.leadingPlace (v : Neighbourhood) : Int :=
  let scaled := v.significand * Nat.pow 2 v.exponent.toNat * Nat.pow 10 324
  digitCount (scaled / Nat.pow 2 (-v.exponent).toNat) - 325

/-- The decimal of a given number of digits that rounds to the value. A neighbour that has one digit
more is a power of ten and is written with one digit. -/
def Neighbourhood.withDigits (v : Neighbourhood) (digits : Nat) : Option Scientific :=
  let k := v.leadingPlace + 1 - digits
  (v.onGrid k).map fun c => if c = Nat.pow 10 digits then ⟨1, k + digits⟩ else ⟨c, k⟩

/-- The decimal that is equal to the value. -/
def Neighbourhood.exact (v : Neighbourhood) : Scientific :=
  ⟨v.significand * Nat.pow 2 v.exponent.toNat * Nat.pow 5 (-v.exponent).toNat, min v.exponent 0⟩

/-- The shortest decimal that rounds to the value. -/
def Neighbourhood.shortest (v : Neighbourhood) : Scientific :=
  ((List.range' 1 17).findSome? v.withDigits).getD v.exact

end QuantityCalculus.Decimal
