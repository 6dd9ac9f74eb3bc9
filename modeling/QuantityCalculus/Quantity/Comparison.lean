import QuantityCalculus.Quantity.Basic

/-! Comparison of quantities in the unit of the first. Quantities are equal if they are close after
conversion, and never if their dimensions or lengths differ. One is less than another if every
value is; the other comparisons are derived from these two, so a row need be neither less than
another nor equal to it nor greater in every value for it to count as greater. -/

namespace QuantityCalculus.Quantity

/-- The second quantity in the unit of the first, if they can be compared. -/
def comparable (q r : Quantity) : Except Error Quantity :=
  if q.isCompatibleWith r then r.inUnit q.unit
  else .error (.incomparable q.unit.name r.unit.name)

/-- Whether two quantities are close after conversion. -/
def isEqual (q r : Quantity) : Bool :=
  if q.isCompatibleWith r then
    match r.inUnit q.unit with
    | .ok r => q.magnitude.allClose r.magnitude
    | .error _ => false
  else false

instance : BEq Quantity := ⟨isEqual⟩

/-- Whether every value is less than the one it is compared with. -/
def lt (q r : Quantity) : Except Error Bool := do
  let r ← q.comparable r
  liftShape (q.magnitude.allPairs (fun a b => decide (a < b)) r.magnitude)

/-- Equal or less. -/
def le (q r : Quantity) : Except Error Bool :=
  if q == r then .ok true else q.lt r

/-- Neither equal nor less. -/
def gt (q r : Quantity) : Except Error Bool := do
  pure (!(← q.le r))

/-- Not less. -/
def ge (q r : Quantity) : Except Error Bool := do
  pure (!(← q.lt r))

end QuantityCalculus.Quantity
