import QuantityCalculus.Binary64.Basic
import QuantityCalculus.Decimal.Shortest

/-! Numerals as they are read: an optional sign, digits with an optional point among them or in
front of them, and an optional power of ten. A numeral denotes the float nearest to it. -/

namespace QuantityCalculus.Decimal

/-- The digits in front of a text. -/
def leadingDigits (cs : List Char) : List Char :=
  cs.takeWhile Char.isDigit

/-- What follows the digits in front of a text. -/
def afterDigits (cs : List Char) : List Char :=
  cs.dropWhile Char.isDigit

/-- The number that digits denote. -/
def digitsValue (cs : List Char) : Nat :=
  Nat.ofDigitChars 10 cs 0

/-- An optional sign, true for minus. -/
def takeSign : List Char → Bool × List Char
  | '-' :: rest => (true, rest)
  | '+' :: rest => (false, rest)
  | cs => (false, cs)

/-- Digits that are all of a text. -/
def readNat? (cs : List Char) : Option Nat :=
  if cs.isEmpty || !cs.all Char.isDigit then none else some (digitsValue cs)

/-- An optional sign and digits that are all of a text. -/
def readInt? (cs : List Char) : Option Int :=
  let (negative, digits) := takeSign cs
  (readNat? digits).map fun n => if negative then -n else n

/-- The number `± coefficient * 10 ^ exponent`. -/
structure Numeral where
  negative : Bool
  coefficient : Nat
  exponent : Int
  deriving DecidableEq, Repr

/-- Digits, or digits around a point, or digits behind one: the digits before and behind the point,
and the rest of the text. -/
def takeMantissa (cs : List Char) : Option (List Char × List Char × List Char) :=
  let whole := leadingDigits cs
  match whole, afterDigits cs with
  | [], '.' :: rest =>
    if (leadingDigits rest).isEmpty then none
    else some ([], leadingDigits rest, afterDigits rest)
  | [], _ => none
  | _, '.' :: rest => some (whole, leadingDigits rest, afterDigits rest)
  | _, rest => some (whole, [], rest)

/-- An optional power of ten. An exponent mark without digits behind it is refused. -/
def takeExponent (cs : List Char) : Option (Int × List Char) :=
  match cs with
  | c :: rest =>
    if c = 'e' ∨ c = 'E' then
      let (negative, digits) := takeSign rest
      if (leadingDigits digits).isEmpty then none
      else
        let n : Int := digitsValue (leadingDigits digits)
        some (if negative then -n else n, afterDigits digits)
    else some (0, cs)
  | [] => some (0, [])

/-- The numeral in front of a text, and the rest. -/
def Numeral.take? (cs : List Char) : Option (Numeral × List Char) := do
  let (negative, unsigned) := takeSign cs
  let (whole, fraction, rest) ← takeMantissa unsigned
  let (exponent, rest) ← takeExponent rest
  pure (⟨negative, digitsValue (whole ++ fraction), exponent - fraction.length⟩, rest)

/-- The float nearest to the absolute value. A number of `10 ^ 400` or more is infinite and one
below `10 ^ (-400)` is zero, whatever its digits. -/
def Numeral.magnitude (n : Numeral) : Float :=
  let top := (digitCount n.coefficient : Int) + n.exponent
  if n.coefficient = 0 then 0.0
  else if top > 400 then Binary64.infinity
  else if top < -400 then 0.0
  else Float.ofScientific n.coefficient (decide (n.exponent < 0)) n.exponent.natAbs

/-- The float nearest to a numeral. -/
def Numeral.toFloat (n : Numeral) : Float :=
  if n.negative then -n.magnitude else n.magnitude

end QuantityCalculus.Decimal
