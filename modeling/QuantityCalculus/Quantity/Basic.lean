import QuantityCalculus.Magnitude.Numeric
import QuantityCalculus.CompoundUnit.Conversion
import QuantityCalculus.Validation

/-! Quantities: magnitudes measured in units. A quantity is converted by a factor, or through kelvin
between two plain temperature scales; either keeps its shape. -/

namespace QuantityCalculus

/-- A magnitude measured in a unit. -/
structure Quantity where
  magnitude : Magnitude Float
  unit : CompoundUnit

namespace Quantity

instance : Inhabited Quantity := ⟨⟨default, default⟩⟩

/-- A magnitude in a unit that may still have to be read. -/
def ofSource (magnitude : Magnitude Float) (source : UnitSource) : Except Error Quantity := do
  pure ⟨magnitude, ← source.resolve⟩

/-- A pure number. -/
def dimensionless (magnitude : Magnitude Float) : Quantity :=
  ⟨magnitude, .dimensionless⟩

/-- The magnitude, if it is a single number. -/
def value? (q : Quantity) : Option Float := q.magnitude.scalar?

def dimension (q : Quantity) : Dimension := q.unit.dimension

def isDimensionless (q : Quantity) : Bool := q.unit.isDimensionless

/-- Whether two quantities measure the same kind of thing. -/
def isCompatibleWith (q r : Quantity) : Bool := q.unit.isCompatibleWith r.unit

/-- Changes every value. -/
def mapMagnitude (q : Quantity) (f : Float → Float) : Quantity :=
  { q with magnitude := q.magnitude.map f }

/-- The same amount in another unit. -/
def inUnit (q : Quantity) (target : CompoundUnit) : Except Error Quantity :=
  if q.unit.isCompatibleWith target then
    match q.unit.temperatureScale?, target.temperatureScale? with
    | some source, some goal =>
      .ok ⟨q.magnitude.map fun x => goal.ofKelvin (source.toKelvin x), target⟩
    | _, _ => do
      let factor ← q.unit.conversionFactor target
      pure ⟨q.magnitude.map (· * factor), target⟩
  else .error (q.unit.incompatible target)

/-- The same amount in a unit that may still have to be read. -/
def convert (q : Quantity) (target : UnitSource) : Except Error Quantity := do
  q.inUnit (← target.resolve)

/-- The same amount in coherent units. -/
def toBaseUnits (q : Quantity) : Except Error Quantity := do
  q.inUnit (← q.unit.toBaseUnits)

def length (q : Quantity) : Nat := q.magnitude.length

def isEmpty (q : Quantity) : Bool := q.magnitude.isEmpty

/-- The magnitude and the name of the unit. -/
def text (q : Quantity) : String := q.magnitude.text ++ " " ++ q.unit.name

/-- The values as single quantities. -/
def elements (q : Quantity) : List Quantity :=
  q.magnitude.toList.map fun x => ⟨.scalar x, q.unit⟩

end Quantity

end QuantityCalculus
