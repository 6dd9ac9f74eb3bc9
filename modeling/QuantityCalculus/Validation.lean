import QuantityCalculus.CompoundUnit.Parse

/-! Units as they are handed in: a text still to be read, or a unit. Texts can also be checked without
any quantity, for being a unit at all and for the kind of thing they measure. -/

namespace QuantityCalculus

/-- A unit, or the text of one. -/
inductive UnitSource
  | text (s : String)
  | built (u : CompoundUnit)

namespace UnitSource

/-- The unit that is meant. -/
def resolve : UnitSource → Except Error CompoundUnit
  | text s => CompoundUnit.parse s
  | built u => .ok u

/-- Texts are compared as they stand, and never equal a unit. -/
instance : BEq UnitSource where
  beq
    | text s, text t => s == t
    | built u, built v => u == v
    | _, _ => false

end UnitSource

namespace Validation

/-- Whether a text is a unit. -/
def isValid (s : String) : Bool := (CompoundUnit.parse s).isOk

/-- The dimension of a unit text. -/
def dimension (s : String) : Except Error Dimension := do
  pure (← CompoundUnit.parse s).dimension

/-- The canonical text of a unit text. -/
def simplify (s : String) : Except Error String := do
  pure (← CompoundUnit.parse s).simplified.name

/-- The atomic units of a unit text and their exponents. -/
def components (s : String) : Except Error Powers := do
  pure (← CompoundUnit.parse s).components

/-- Refuses two unit texts that do not measure the same kind of thing. -/
def checkDimensions (s t : String) : Except Error Unit := do
  let u ← CompoundUnit.parse s
  let v ← CompoundUnit.parse t
  if u.isCompatibleWith v then pure ()
  else throw (.incompatible s t u.dimension v.dimension)

end Validation

end QuantityCalculus
