/-! Binary64 numbers. A finite number is a signed significand times a power of two; both are read off
its bits, so that statements about them need nothing of floating-point arithmetic. Integer powers are
formed by repeated squaring, from the lowest bit of the exponent upwards, and a negative exponent
inverts the finished product; the order of the multiplications is part of the result, because each of
them rounds. -/

namespace QuantityCalculus.Binary64

/-- The finite value `± significand * 2 ^ exponent`. -/
structure Parts where
  negative : Bool
  significand : Nat
  exponent : Int

/-- The parts of a finite number: eleven exponent bits biased by 1075, the smallest exponent shared
with the numbers that have no leading bit. -/
def parts (x : Float) : Parts :=
  let bits := x.toBits.toNat
  let biased := bits / 0x10000000000000 % 0x800
  let fraction := bits % 0x10000000000000
  { negative := decide (0x8000000000000000 ≤ bits)
    significand := if biased = 0 then fraction else fraction + 0x10000000000000
    exponent := (max biased 1 : Nat) - 1075 }

/-- The significand with the sign of the number. -/
def Parts.signed (p : Parts) : Int :=
  if p.negative then -p.significand else p.significand

/-- The greatest integer that is at most a finite number. -/
def floor (x : Float) : Int :=
  let p := parts x
  p.signed * Nat.pow 2 p.exponent.toNat / Nat.pow 2 (-p.exponent).toNat

/-- The float nearest to a fraction of two integers that are rounded first. -/
def ofRat (q : Rat) : Float :=
  Float.ofInt q.num / Float.ofNat q.den

/-- Positive infinity. -/
def infinity : Float :=
  Float.ofBits 0x7FF0000000000000

/-- The distance from one to the next larger number. -/
def epsilon : Float :=
  Float.ofBits 0x3CB0000000000000

/-! ### Integer powers -/

/-- Multiplies `acc` by the `k`-th power of `x`, for `k` of at most `bits` binary digits. -/
def squareMultiply : (bits : Nat) → (acc x : Float) → (k : Nat) → Float
  | 0, acc, _, _ => acc
  | bits + 1, acc, x, k =>
    let acc := if k % 2 = 1 then acc * x else acc
    if k / 2 = 0 then acc else squareMultiply bits acc (x * x) (k / 2)

/-- The power of a float to a natural number. -/
def powNat (x : Float) (k : Nat) : Float :=
  squareMultiply (k.log2 + 1) 1.0 x k

/-- The power of a float to an integer. -/
def powInt (x : Float) (n : Int) : Float :=
  if n < 0 then 1.0 / powNat x n.natAbs else powNat x n.natAbs

end QuantityCalculus.Binary64
