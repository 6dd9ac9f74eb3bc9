import QuantityCalculus.Quantity.Arithmetic

/-! Measurements: quantities with a standard uncertainty in the same unit and of the same shape. An
uncertainty attached to a quantity is never negative and always a number. A conversion scales it by
the factor between the units and never by the zero point of a temperature scale. -/

namespace QuantityCalculus

/-- A quantity with its standard uncertainty. -/
structure Measurement where
  quantity : Quantity
  uncertainty : Magnitude Float

namespace Measurement

instance : Inhabited Measurement := ⟨⟨default, default⟩⟩

/-- Whether a float cannot be an uncertainty. -/
def isInvalid (sigma : Float) : Bool := sigma.isNaN || decide (sigma < 0.0)

/-- The uncertainty in the shape of a magnitude. -/
def shapeLike (uncertainty magnitude : Magnitude Float) : Except Error (Magnitude Float) :=
  match magnitude, uncertainty with
  | .scalar _, .row _ => .error (.shape .rowOfUncertainties)
  | _, _ => liftShape (uncertainty.broadcastLike magnitude)

/-- Attaches an uncertainty to a quantity. -/
def ofQuantity (q : Quantity) (uncertainty : Magnitude Float) : Except Error Measurement := do
  let uncertainty ← shapeLike uncertainty q.magnitude
  match uncertainty.toList.find? isInvalid with
  | some sigma => .error (.invalidUncertainty sigma)
  | none => pure ⟨q, uncertainty⟩

/-- A quantity without uncertainty. -/
def exact (q : Quantity) : Measurement := ⟨q, q.magnitude.zerosLike⟩

/-- A measurement with the given uncertainty, or else with one relative to its values, or else with
none. -/
def ofSource (magnitude : Magnitude Float) (source : UnitSource)
    (uncertainty : Option (Magnitude Float)) (relative : Option Float) :
    Except Error Measurement := do
  let q ← Quantity.ofSource magnitude source
  let uncertainty :=
    match uncertainty, relative with
    | some uncertainty, _ => uncertainty
    | none, some r => q.magnitude.map fun x => x.abs * r
    | none, none => q.magnitude.zerosLike
  ofQuantity q uncertainty

def withUncertainty (magnitude : Magnitude Float) (source : UnitSource)
    (uncertainty : Magnitude Float) : Except Error Measurement :=
  ofSource magnitude source (some uncertainty) none

def withRelativeUncertainty (magnitude : Magnitude Float) (source : UnitSource)
    (relative : Float) : Except Error Measurement :=
  ofSource magnitude source none (some relative)

def magnitude (m : Measurement) : Magnitude Float := m.quantity.magnitude

def unit (m : Measurement) : CompoundUnit := m.quantity.unit

/-- The value, if there is a single one. -/
def value? (m : Measurement) : Option Float := m.quantity.value?

/-- An uncertainty relative to a value, zero where there is no finite one. -/
def relativeTo (sigma x : Float) : Float :=
  let r := sigma / x.abs
  if r.isFinite then r else 0.0

/-- The uncertainties relative to the values. -/
def relativeUncertainty (m : Measurement) : Magnitude Float :=
  match m.uncertainty.zipWith relativeTo m.magnitude with
  | .ok relative => relative
  | .error _ => m.uncertainty.zerosLike

/-- The measurement around another quantity, with the uncertainty it had. -/
def replaceQuantity (m : Measurement) (q : Quantity) : Except Error Measurement :=
  ofQuantity q m.uncertainty

/-- The factor by which uncertainties are scaled when converted. -/
def conversionScale (u v : CompoundUnit) : Except Error Float := do
  let factor ← u.conversionFactor v
  pure factor.abs

/-- The same measurement in another unit. -/
def inUnit (m : Measurement) (target : CompoundUnit) : Except Error Measurement := do
  let q ← m.quantity.inUnit target
  let scale ← conversionScale m.unit q.unit
  ofQuantity q (m.uncertainty.map (· * scale))

/-- The same measurement in a unit that may still have to be read. -/
def convert (m : Measurement) (target : UnitSource) : Except Error Measurement := do
  m.inUnit (← target.resolve)

/-- The values, the uncertainties and the name of the unit. -/
def text (m : Measurement) : String :=
  m.magnitude.text ++ " ± " ++ m.uncertainty.text ++ " " ++ m.unit.name

end Measurement

end QuantityCalculus
