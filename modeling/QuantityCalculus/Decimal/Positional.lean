import QuantityCalculus.Decimal.Shortest

/-! The text of a number: its shortest digits in positional notation, without a point for a whole
number, and words for what is no number. Zero keeps its sign. -/

namespace QuantityCalculus.Decimal

/-- The digits of a natural number. -/
def natChars (n : Nat) : List Char :=
  Nat.toDigits 10 n

/-- The digits of an integer, with a minus sign if it is negative. -/
def intChars (n : Int) : List Char :=
  if n < 0 then '-' :: natChars n.natAbs else natChars n.natAbs

/-- The digits of `coefficient * 10 ^ exponent` with the point put in, or zeros filled up to it. -/
def Scientific.chars (d : Scientific) : List Char :=
  let digits := natChars d.coefficient
  let places := (-d.exponent).toNat
  if d.exponent ≥ 0 then digits ++ List.replicate d.exponent.toNat '0'
  else if places < digits.length then
    digits.take (digits.length - places) ++ '.' :: digits.drop (digits.length - places)
  else '0' :: '.' :: (List.replicate (places - digits.length) '0' ++ digits)

/-- The text of a float. -/
def floatChars (x : Float) : List Char :=
  if x.isNaN then ['N', 'a', 'N']
  else
    let p := Binary64.parts x
    let unsigned :=
      if x.isInf then ['i', 'n', 'f']
      else if p.significand = 0 then ['0']
      else (Neighbourhood.of x).shortest.chars
    if p.negative then '-' :: unsigned else unsigned

/-- The text of a float as a string. -/
def floatText (x : Float) : String :=
  String.ofList (floatChars x)

/-- The text of an integer as a string. -/
def intText (n : Int) : String :=
  String.ofList (intChars n)

/-- The text of a natural number as a string. -/
def natText (n : Nat) : String :=
  String.ofList (natChars n)

end QuantityCalculus.Decimal
