import QuantityCalculus.Text.TopLevel
import QuantityCalculus.CompoundUnit.Basic
import QuantityCalculus.CompoundUnit.Token

/-! Reading units. A text is cut at its top-level slashes into operands; the first is divided by the
unit of all that follows, so `a/b/c` is `a * c / b`. An operand is a product of words at its
top-level stars, a word a product of tokens at its top-level blanks, and a token a numeric factor
or a name with an optional power. The text before a slash is read before the text behind it, after
both have been seen not to be blank. -/

namespace QuantityCalculus.CompoundUnit

open Text

def isSlash (c : Char) : Bool := c == '/'

def isStar (c : Char) : Bool := c == '*'

/-- Reads a numeral, which becomes the scale, or a name with an optional power. -/
def parseToken (cs : List Char) : Except Error CompoundUnit :=
  match Token.numeral? cs with
  | some x =>
    if !x.isFinite || x == 0.0 then .error (.invalidFactor (String.ofList cs))
    else .ok (scalar x)
  | none =>
    match Token.atom? cs with
    | none => .error (.malformedUnit (String.ofList cs))
    | some (name, x?) =>
      let name := String.ofList name
      let x := x?.getD 1
      if name = dimensionlessName then .ok dimensionless
      else do
        let unit ← Table.unitDimension name
        let dimension ← liftExponent .badExponent (unit.scale x)
        pure (build [(name, x)] 1.0 dimension)

/-- Multiplies what is read from the pieces of a text, one after the other. -/
def parseProduct (parse : List Char → Except Error CompoundUnit) (pieces : List (List Char)) :
    Except Error CompoundUnit :=
  pieces.foldlM (fun acc piece => do liftExponent .badExponent (acc.multiply (← parse piece)))
    dimensionless

/-- Reads tokens with blanks between them. -/
def parseWord (cs : List Char) : Except Error CompoundUnit :=
  if hasTopLevel isBlank cs then parseProduct parseToken (splitTopLevel isBlank cs)
  else parseToken cs

/-- Reads words with stars between them; a text of nothing but stars is refused. -/
def parseOperand (cs : List Char) : Except Error CompoundUnit :=
  if hasTopLevel isStar cs then
    match splitTopLevel isStar cs with
    | [] => .error (.malformedUnit (String.ofList cs))
    | pieces => parseProduct parseWord pieces
  else parseWord cs

/-- Reads operands with slashes between them. -/
def parseQuotient : List (List Char) → Except Error CompoundUnit
  | [] => .error .emptyUnit
  | [operand] =>
    if (trim operand).isEmpty then .error .emptyUnit else parseOperand (trim operand)
  | operand :: operands =>
    let rest := ['/'].intercalate operands
    if (trim operand).isEmpty || (trim rest).isEmpty then
      .error (.missingOperand (String.ofList (trim (operand ++ '/' :: rest))))
    else do
      let numerator ← parseOperand (trim operand)
      let denominator ← parseQuotient operands
      liftExponent .badExponent (numerator.divide denominator)

/-- Reads a unit under its canonical name. -/
def parseExpression (cs : List Char) : Except Error CompoundUnit :=
  parseQuotient (segments isSlash (trim cs))

/-- Reads a unit and multiplies it by a scale. A unit that is not scaled keeps its text as its
name. -/
def parseScaled (s : String) (scale : Float) : Except Error CompoundUnit := do
  let unit ← parseExpression s.toList
  if scale == 1.0 then pure { unit with name := trimmed s }
  else liftExponent .badExponent (unit.multiply (scalar scale))

/-- Reads a unit. -/
def parse (s : String) : Except Error CompoundUnit := parseScaled s 1.0

end QuantityCalculus.CompoundUnit
