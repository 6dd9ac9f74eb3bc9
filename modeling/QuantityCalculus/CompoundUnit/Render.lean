import QuantityCalculus.Exponent.Text
import QuantityCalculus.CompoundUnit.Powers

/-! The canonical text of a unit. Names with positive exponents form the numerator, those with
negative ones the denominator, both in their stored order; a scale other than one leads the
numerator. An exponent is written as a whole number, as a decimal if its denominator divides a
million, and otherwise as a ratio in parentheses. -/

namespace QuantityCalculus

open Decimal

namespace Powers

/-- The text of a power. -/
def powerChars (q : Rat) : List Char :=
  if q.den = 1 then intChars q.num
  else if 1000000 % q.den = 0 then floatChars (Binary64.ofRat q)
  else '(' :: Exponent.ratChars q ++ [')']

/-- A name with its power, which is left out if it is one. -/
def factorChars (name : String) (q : Rat) : List Char :=
  if q = 1 then name.toList else name.toList ++ '^' :: powerChars q

/-- Factors with multiplication signs between them. -/
def product (factors : List (List Char)) : List Char :=
  [' ', '*', ' '].intercalate factors

/-- The factors with positive exponents. -/
def numerator (ps : Powers) : List (List Char) :=
  (ps.filter fun q => 0 < q.2.num).map fun q => factorChars q.1 q.2.val

/-- The factors with negative exponents, which are written without their sign. -/
def denominator (ps : Powers) : List (List Char) :=
  (ps.filter fun q => q.2.num < 0).map fun q => factorChars q.1 (-q.2.val)

/-- A scale other than one, as a factor. -/
def scaleFactor (scale : Float) : List (List Char) :=
  if scale != 1.0 then [floatChars scale] else []

/-- The canonical text of a scale times a product of powers. -/
def render (ps : Powers) (scale : Float) : List Char :=
  match scaleFactor scale ++ numerator ps, denominator ps with
  | [], [] => "dimensionless".toList
  | num, [] => product num
  | [], den => '1' :: ' ' :: '/' :: ' ' :: product den
  | num, den => product num ++ ' ' :: '/' :: ' ' :: product den

end Powers

end QuantityCalculus
