import QuantityCalculus.CompoundUnit.Basic

/-! Conversion between units. A unit is worth a factor in coherent units: its scale times the
powers of the factors of its components, in order. A plain temperature scale is a single name of
the kelvin family to the first power and without a scale; only between two of these do the zero
points count. -/

namespace QuantityCalculus.CompoundUnit

/-- How many coherent units a unit is worth. -/
def coherentFactor (u : CompoundUnit) : Except Error Float :=
  u.components.foldlM (fun acc q => do
    let unit ← Table.lookup q.1
    pure (acc * q.2.raise unit.factor)) u.scale

/-- The error of converting between units of different dimensions. -/
def incompatible (u v : CompoundUnit) : Error :=
  .incompatible u.name v.name u.dimension v.dimension

/-- The number that turns a value in one unit into a value in another. -/
def conversionFactor (u v : CompoundUnit) : Except Error Float :=
  if u.dimension ≠ v.dimension then .error (u.incompatible v)
  else do
    let source ← u.coherentFactor
    let target ← v.coherentFactor
    pure (source / target)

/-- The powers of families gathered so far, with a further component; pure numbers disappear. -/
def gatherFamily (acc : Powers) (component : String × Exponent) : Except Error Powers := do
  let unit ← Table.lookup component.1
  if unit.family = .dimensionless then pure acc
  else liftExponent .badExponent (acc.merge unit.family.name component.2)

/-- The unit with every component replaced by the coherent unit of its family, without the scale. -/
def toBaseUnits (u : CompoundUnit) : Except Error CompoundUnit := do
  let families ← u.components.foldlM gatherFamily []
  ofComponents families 1.0

/-- The entry of a plain temperature scale. -/
def temperatureScale? (u : CompoundUnit) : Option AtomicUnit :=
  match u.components with
  | [(name, x)] =>
    if x = 1 ∧ (u.scale == 1.0) = true then
      (Table.lookup? name).filter fun unit => decide (unit.family = .kelvin)
    else none
  | _ => none

end QuantityCalculus.CompoundUnit
