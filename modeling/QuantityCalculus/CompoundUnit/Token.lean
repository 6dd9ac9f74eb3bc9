import QuantityCalculus.Exponent.Text

/-! Tokens of a unit text. A token is a numeral, or a name with an optional power behind a caret. A
power is a whole number or an exact decimal, or any exponent in parentheses. Plain blanks are
allowed around a token and around the caret; a name ends at a caret or at any blank. -/

namespace QuantityCalculus

open Text Decimal

/-- A reader takes a value from the front of a text and leaves the rest, or refuses the text. -/
abbrev Reader (α : Type) := List Char → Option (α × List Char)

namespace Token

/-- The sign in front of a text. -/
def takeSignChars : List Char → List Char × List Char
  | '-' :: rest => (['-'], rest)
  | '+' :: rest => (['+'], rest)
  | cs => ([], cs)

/-- A point and the digits behind it; a point without digits is left. -/
def takeFractionChars (cs : List Char) : List Char × List Char :=
  match cs with
  | '.' :: rest =>
    if (leadingDigits rest).isEmpty then ([], cs)
    else ('.' :: leadingDigits rest, afterDigits rest)
  | _ => ([], cs)

/-- The text of a signed whole number or decimal. -/
def takeDecimalChars : Reader (List Char) := fun cs =>
  let (sign, unsigned) := takeSignChars cs
  if (leadingDigits unsigned).isEmpty then none
  else
    let (fraction, rest) := takeFractionChars (afterDigits unsigned)
    some (sign ++ leadingDigits unsigned ++ fraction, rest)

/-- The exponent that a text denotes. -/
def exponent? (cs : List Char) : Option Exponent :=
  (Exponent.read cs).toOption

/-- A power written as a signed whole number or decimal. -/
def decimalPower : Reader Exponent := fun cs => do
  let (digits, rest) ← takeDecimalChars cs
  let x ← exponent? digits
  pure (x, rest)

/-- Whether a character is no parenthesis. -/
def isInner (c : Char) : Bool := c != '(' && c != ')'

/-- A power in parentheses. -/
def parenPower : Reader Exponent
  | '(' :: rest =>
    let inner := skipPlainBlanks rest
    match inner.takeWhile isInner, inner.dropWhile isInner with
    | [], _ => none
    | body, ')' :: rest => (exponent? body).map fun x => (x, rest)
    | _, _ => none
  | _ => none

/-- The power behind a caret. -/
def power : Reader Exponent := fun cs =>
  (parenPower cs).or (decimalPower cs)

/-- Whether a character can be part of a name. -/
def isNameChar (c : Char) : Bool := c != '^' && !isBlank c

/-- A name of at least one character. -/
def unitName : Reader (List Char) := fun cs =>
  if (cs.takeWhile isNameChar).isEmpty then none
  else some (cs.takeWhile isNameChar, cs.dropWhile isNameChar)

/-- A caret and a power. -/
def markedPower : Reader Exponent := fun cs =>
  match skipPlainBlanks cs with
  | '^' :: rest => power (skipPlainBlanks rest)
  | _ => none

/-- A name with an optional power that is all of a text. -/
def atom? (cs : List Char) : Option (List Char × Option Exponent) := do
  let (name, rest) ← unitName (skipPlainBlanks cs)
  match markedPower rest with
  | some (x, rest) => if (skipPlainBlanks rest).isEmpty then some (name, some x) else none
  | none => if (skipPlainBlanks rest).isEmpty then some (name, none) else none

/-- A numeral that is all of a text. -/
def numeral? (cs : List Char) : Option Float := do
  let (numeral, rest) ← Numeral.take? (skipPlainBlanks cs)
  if (skipPlainBlanks rest).isEmpty then some numeral.toFloat else none

end Token

end QuantityCalculus
