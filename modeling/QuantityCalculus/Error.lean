import QuantityCalculus.Dimension.Basic
import QuantityCalculus.Magnitude.Basic

/-! Errors of units, quantities and measurements. An error is a cause; its kind says which sort of
mistake it is, and its message is the kind's opening followed by the detail of the cause. -/

namespace QuantityCalculus

/-- What was tried with two things that do not go together. -/
inductive Verb
  | add | subtract | assign
  deriving DecidableEq, Repr

def Verb.text : Verb → String
  | add => "add"
  | subtract => "subtract"
  | assign => "assign"

/-- The sorts of mistakes. -/
inductive ErrorKind
  | unreadable | unknown | dimension | operation | comparison | value | shape
  deriving DecidableEq, Repr

/-- Causes of failure. Units appear by their display names. -/
inductive Error
  | emptyUnit
  /-- A slash with nothing on one side. -/
  | missingOperand (text : String)
  /-- A numeric factor that is zero or too large. -/
  | invalidFactor (text : String)
  | malformedUnit (text : String)
  /-- An exponent that cannot be formed while a unit is built. -/
  | badExponent (e : ExponentError)
  | unknownUnit (name : String)
  | incompatible (source target : String) (sourceDim targetDim : Dimension)
  /-- Two quantities of different dimensions. -/
  | unlike (verb : Verb) (left right : String)
  /-- A plain number and a quantity that is none. -/
  | plainNumber (verb : Verb) (unit : String)
  | productUnit (e : ExponentError)
  | quotientUnit (e : ExponentError)
  | reciprocalUnit (e : ExponentError)
  /-- An element cannot take a value of another dimension. -/
  | unassignable (source target : String)
  | incomparable (left right : String)
  | powerTooLarge (exponent : Exponent) (e : ExponentError)
  | irrationalPower (exponent : Float)
  /-- An uncertainty that is negative or not a number. -/
  | invalidUncertainty (sigma : Float)
  | shape (e : ShapeError)

namespace Error

def kind : Error → ErrorKind
  | emptyUnit | missingOperand _ | invalidFactor _ | malformedUnit _ | badExponent _ => .unreadable
  | unknownUnit _ => .unknown
  | incompatible .. => .dimension
  | unlike .. | plainNumber .. | productUnit _ | quotientUnit _ | reciprocalUnit _
  | unassignable .. => .operation
  | incomparable .. => .comparison
  | powerTooLarge .. | irrationalPower _ | invalidUncertainty _ => .value
  | shape _ => .shape

/-- The particulars of a cause. -/
def detail : Error → String
  | emptyUnit => "empty unit string"
  | missingOperand text => "missing operand of '/' in " ++ text
  | invalidFactor text => "invalid numeric factor " ++ text
  | malformedUnit text => text
  | badExponent e => e.message
  | unknownUnit name => name
  | incompatible source target sourceDim targetDim =>
    source ++ " (" ++ sourceDim.text ++ ") to " ++ target ++ " (" ++ targetDim.text ++ ")"
  | unlike verb left right => "cannot " ++ verb.text ++ " " ++ left ++ " and " ++ right
  | plainNumber verb unit =>
    "cannot " ++ verb.text ++ " a plain number and a quantity in " ++ unit
  | productUnit e => "cannot multiply units: " ++ e.message
  | quotientUnit e => "cannot divide units: " ++ e.message
  | reciprocalUnit e => "cannot invert unit: " ++ e.message
  | unassignable source target => "cannot assign " ++ source ++ " to " ++ target
  | incomparable left right => left ++ " with " ++ right
  | powerTooLarge exponent e => "exponent " ++ exponent.text ++ ": " ++ e.message
  | irrationalPower exponent =>
    "exponent " ++ Decimal.floatText exponent ++ " is not rational"
  | invalidUncertainty sigma =>
    "uncertainty must be non-negative, got " ++ Decimal.floatText sigma
  | shape e => e.message

end Error

/-- How the message of an error of a kind begins. -/
def ErrorKind.opening : ErrorKind → String
  | unreadable => "Cannot parse unit: "
  | unknown => "Unknown unit: "
  | dimension => "Cannot convert from "
  | operation => "Invalid operation: "
  | comparison => "Cannot compare "
  | value => "Invalid value: "
  | shape => "Array error: "

/-- The wording of an error. -/
def Error.message (e : Error) : String :=
  e.kind.opening ++ e.detail

/-- The result of an operation on exponents, where units are built. -/
def liftExponent {α : Type} (wrap : ExponentError → Error) : Except ExponentError α → Except Error α
  | .ok x => .ok x
  | .error e => .error (wrap e)

/-- The result of an operation on magnitudes. -/
def liftShape {α : Type} : Except ShapeError α → Except Error α
  | .ok x => .ok x
  | .error e => .error (.shape e)

end QuantityCalculus
