import QuantityCalculus.Exponent.Basic
import QuantityCalculus.Decimal.Numeral
import QuantityCalculus.Text.Blank

/-! Exponents as text. An exponent is written as a whole number or as two whole numbers around a
slash. It is read from these, and from a decimal of at most eighteen places, with or without
parentheses around it and with blanks around each number. -/

namespace QuantityCalculus

namespace Exponent

open Decimal Text

/-- The text of a rational number: `n`, or `n/d`. -/
def ratChars (q : Rat) : List Char :=
  if q.den = 1 then intChars q.num else intChars q.num ++ '/' :: natChars q.den

/-- The text of an exponent. -/
def chars (x : Exponent) : List Char := ratChars x.val

/-- The text of an exponent as a string. -/
def text (x : Exponent) : String := String.ofList x.chars

/-- The exponent written as a literal with both of its parts. -/
def literal (x : Exponent) : String :=
  "frac!(" ++ intText x.num ++ "/" ++ natText x.den ++ ")"

/-- Removes one pair of parentheses around a text. -/
def stripParens (cs : List Char) : List Char :=
  match cs with
  | '(' :: inner =>
    match inner.reverse with
    | ')' :: middle => middle.reverse
    | _ => cs
  | _ => cs

/-- A whole number that fits a signed 64-bit word. -/
def readWord? (cs : List Char) : Option Int :=
  (readInt? cs).filter fun n => decide (-0x8000000000000000 ≤ n ∧ n < 0x8000000000000000)

/-- The parts of an exact decimal `± whole.fraction` of at most eighteen places and thirty-six
digits: all of its digits over a power of ten. -/
def decimalParts? (cs : List Char) : Option (Int × Int) :=
  let (negative, digits) := takeSign cs
  let whole := digits.takeWhile (· != '.')
  match digits.dropWhile (· != '.') with
  | [] => none
  | _ :: fraction =>
    if fraction.length > 18 || whole.length + fraction.length > 36 then none
    else
      match readNat? whole, readNat? fraction with
      | some _, some _ =>
        let n : Int := digitsValue (whole ++ fraction)
        some (if negative then -n else n, Nat.pow 10 fraction.length)
      | _, _ => none

/-- Reads an exponent without blanks or parentheses around it. A slash makes it a ratio, otherwise a
point makes it a decimal. -/
def readBare (cs : List Char) : Except ExponentError Exponent :=
  let unreadable := ExponentError.unreadable (String.ofList cs)
  match cs.dropWhile (· != '/') with
  | _ :: denominator =>
    match readWord? (trim (cs.takeWhile (· != '/'))), readWord? (trim denominator) with
    | some n, some d => ofParts n d
    | _, _ => .error unreadable
  | [] =>
    if cs.contains '.' then
      match decimalParts? cs with
      | some (n, d) => reduce n d
      | none => .error unreadable
    else
      match readWord? cs with
      | some n => ofParts n 1
      | none => .error unreadable

/-- Reads an exponent. -/
def read (cs : List Char) : Except ExponentError Exponent :=
  readBare (trim (stripParens (trim cs)))

/-- Reads an exponent from a string. -/
def ofString (s : String) : Except ExponentError Exponent :=
  read s.toList

end Exponent

/-- The wording of a refusal. -/
def ExponentError.message : ExponentError → String
  | .irrational x =>
    "Could not convert " ++ Decimal.floatText x ++ " to a fraction with denominator at most " ++
      Decimal.natText Exponent.maxDenominator ++ ": outside of tolerance " ++
      Decimal.floatText Exponent.tolerance
  | .unreadable text => "Could not parse " ++ text
  | .zeroDenominator => "Fraction has a zero denominator"
  | .overflow n d =>
    "Cannot represent " ++ Decimal.intText n ++ "/" ++ Decimal.intText d ++ " with " ++
      Decimal.natText Exponent.wordBits ++ "-bit integers"

end QuantityCalculus
