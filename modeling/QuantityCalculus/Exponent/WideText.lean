import QuantityCalculus.Exponent.Text
import QuantityCalculus.Exponent.Wide

/-! Fractions read in machine words. The parts of a ratio are 64-bit words. The digits of a decimal are
gathered in a wide word, one after the other, and the power of ten under them is a wide word as well;
a number on the way that no wide word holds leaves the reader without any outcome. -/

namespace QuantityCalculus.Wide

open Decimal Text
open Exponent (readWord? stripParens)

/-- The fraction with the given parts. -/
def ofParts (n d : Int) : Option (Except ExponentError Fraction) :=
  if d = 0 then some (.error .zeroDenominator) else reduce n d

/-- Puts a digit behind those of a number. -/
def pushDigit (n : Int) (c : Char) : Option Int := do
  let shifted ← word? (10 * n)
  word? (shifted + (c.toNat - '0'.toNat : Nat))

/-- The number that digits denote. -/
def digitsValue? (cs : List Char) : Option Int :=
  cs.foldlM pushDigit 0

/-- Reads an exact decimal of at most eighteen places and thirty-six digits. -/
def readDecimal (cs : List Char) : Option (Except ExponentError Fraction) :=
  let unreadable := ExponentError.unreadable (String.ofList cs)
  let (negative, digits) := takeSign cs
  let whole := digits.takeWhile (· != '.')
  match digits.dropWhile (· != '.') with
  | [] => some (.error unreadable)
  | _ :: fraction =>
    if (readNat? whole).isNone || (readNat? fraction).isNone then some (.error unreadable)
    else if fraction.length > 18 || whole.length + fraction.length > 36 then
      some (.error unreadable)
    else do
      let n ← digitsValue? (whole ++ fraction)
      let d ← word? (Nat.pow 10 fraction.length)
      reduce (← word? ((if negative then -1 else 1) * n)) d

/-- Reads a fraction without blanks or parentheses around it. -/
def readBare (cs : List Char) : Option (Except ExponentError Fraction) :=
  let unreadable := ExponentError.unreadable (String.ofList cs)
  match cs.dropWhile (· != '/') with
  | _ :: denominator =>
    match readWord? (trim (cs.takeWhile (· != '/'))), readWord? (trim denominator) with
    | some n, some d => ofParts n d
    | _, _ => some (.error unreadable)
  | [] =>
    if cs.contains '.' then readDecimal cs
    else
      match readWord? cs with
      | some n => ofParts n 1
      | none => some (.error unreadable)

/-- Reads a fraction. -/
def read (cs : List Char) : Option (Except ExponentError Fraction) :=
  readBare (trim (stripParens (trim cs)))

end QuantityCalculus.Wide
