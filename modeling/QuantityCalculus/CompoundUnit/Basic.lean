import QuantityCalculus.Dimension.Basic
import QuantityCalculus.Error
import QuantityCalculus.Table.Lookup
import QuantityCalculus.CompoundUnit.Render

/-! Units: products of atomic units raised to rational powers, times a scale. A unit carries the
name it is displayed by, its powers in the order in which they first appeared, its scale and its
dimension. Powers that cancel are left out. Products, quotients and powers fail only if an
exponent does not fit, and report the first one that does not: those of the names before those of
the dimension. -/

namespace QuantityCalculus

/-- A unit of measurement. -/
structure CompoundUnit where
  /-- The text a unit was read from, or its canonical text. -/
  name : String
  components : Powers
  scale : Float
  dimension : Dimension

namespace Table

/-- The atomic unit that a name stands for. -/
def lookup (name : String) : Except Error AtomicUnit :=
  match lookup? name with
  | some unit => .ok unit
  | none => .error (.unknownUnit name)

/-- The dimension of an atomic unit. -/
def unitDimension (name : String) : Except Error Dimension := do
  let unit ← lookup name
  pure unit.family.dimension

end Table

namespace CompoundUnit

/-- The name of the unit of pure numbers. -/
def dimensionlessName : String := "dimensionless"

/-- Puts a unit together: zero powers are left out and the name is the canonical text. -/
def build (powers : Powers) (scale : Float) (dimension : Dimension) : CompoundUnit where
  name := String.ofList (powers.dropZeros.render scale)
  components := powers.dropZeros
  scale := scale
  dimension := dimension

/-- The unit of pure numbers. -/
def dimensionless : CompoundUnit := build [] 1.0 .dimensionless

instance : Inhabited CompoundUnit := ⟨dimensionless⟩

/-- A pure number as a unit. -/
def scalar (scale : Float) : CompoundUnit := build [] scale .dimensionless

/-- The powers and the dimension gathered so far, with a further name: its power must have a
negation, its name must be known, and its dimension must add up, in this order. -/
def gather (acc : Powers × Dimension) (component : String × Exponent) :
    Except Error (Powers × Dimension) :=
  let (name, x) := component
  if name = dimensionlessName then .ok acc
  else do
    let _ ← liftExponent .badExponent x.neg
    let unit ← Table.unitDimension name
    let scaled ← liftExponent .badExponent (unit.scale x)
    let dimension ← liftExponent .badExponent (acc.2.add scaled)
    let powers ← liftExponent .badExponent (acc.1.merge name x)
    pure (powers, dimension)

/-- The product of named powers times a scale. Names may repeat. -/
def ofComponents (components : Powers) (scale : Float) : Except Error CompoundUnit := do
  let (powers, dimension) ← components.foldlM gather ([], .dimensionless)
  pure (build powers scale dimension)

def multiply (u v : CompoundUnit) : Except ExponentError CompoundUnit := do
  let powers ← u.components.mergeAll v.components
  let dimension ← u.dimension.add v.dimension
  pure (build powers (u.scale * v.scale) dimension)

def divide (u v : CompoundUnit) : Except ExponentError CompoundUnit := do
  let powers ← u.components.mergeAllNeg v.components
  let dimension ← u.dimension.sub v.dimension
  pure (build powers (u.scale / v.scale) dimension)

/-- Multiplies every exponent, and raises the scale. -/
def power (u : CompoundUnit) (x : Exponent) : Except ExponentError CompoundUnit := do
  let powers ← u.components.scale x
  let dimension ← u.dimension.scale x
  pure (build powers (x.raise u.scale) dimension)

/-- The unit of one over a quantity in the given unit. -/
def reciprocal (u : CompoundUnit) : Except ExponentError CompoundUnit :=
  dimensionless.divide u

/-- The same unit under its canonical text. -/
def simplified (u : CompoundUnit) : CompoundUnit :=
  { u with name := String.ofList (u.components.render u.scale) }

/-- The exponent of an atomic unit; zero if it is absent. -/
def powerOf (u : CompoundUnit) (name : String) : Exponent :=
  u.components.powerOf name

def isDimensionless (u : CompoundUnit) : Bool := u.dimension.isDimensionless

/-- Whether two units measure the same kind of thing. -/
def isCompatibleWith (u v : CompoundUnit) : Bool := decide (u.dimension = v.dimension)

/-- Units are equal if their scales and their powers are, whatever the order and the name. -/
instance : BEq CompoundUnit where
  beq u v :=
    u.scale == v.scale && u.components.length == v.components.length &&
      u.components.all fun q => v.powerOf q.1 == q.2

end CompoundUnit

end QuantityCalculus
