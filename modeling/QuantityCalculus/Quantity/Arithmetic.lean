import QuantityCalculus.Exponent.Approximation
import QuantityCalculus.Quantity.Basic

/-! Arithmetic of quantities. Sums and differences are in the unit of the first quantity, into which
the second is converted; a plain number can only be added to a quantity without a dimension.
Products, quotients and powers work on magnitudes and units apart, the units first. -/

namespace QuantityCalculus.Quantity

/-- Refuses two quantities of different dimensions. -/
def requireAlike (q r : Quantity) (verb : Verb) : Except Error Unit :=
  if q.isCompatibleWith r then .ok () else .error (.unlike verb q.unit.name r.unit.name)

/-- Refuses a quantity with a dimension. -/
def requireDimensionless (q : Quantity) (verb : Verb) : Except Error Unit :=
  if q.isDimensionless then .ok () else .error (.plainNumber verb q.unit.name)

def add (q r : Quantity) : Except Error Quantity := do
  q.requireAlike r .add
  let r ← r.inUnit q.unit
  let magnitude ← liftShape (q.magnitude.zipWith (· + ·) r.magnitude)
  pure ⟨magnitude, q.unit⟩

def sub (q r : Quantity) : Except Error Quantity := do
  q.requireAlike r .subtract
  let r ← r.inUnit q.unit
  let magnitude ← liftShape (q.magnitude.zipWith (· - ·) r.magnitude)
  pure ⟨magnitude, q.unit⟩

def addScalar (q : Quantity) (x : Float) : Except Error Quantity := do
  q.requireDimensionless .add
  pure (q.mapMagnitude (· + x))

def subScalar (q : Quantity) (x : Float) : Except Error Quantity := do
  q.requireDimensionless .subtract
  pure (q.mapMagnitude (· - x))

/-- A plain number less a quantity. -/
def scalarSub (x : Float) (q : Quantity) : Except Error Quantity := do
  q.requireDimensionless .subtract
  pure (q.mapMagnitude (x - ·))

def mul (q r : Quantity) : Except Error Quantity := do
  let unit ← liftExponent .productUnit (q.unit.multiply r.unit)
  let magnitude ← liftShape (q.magnitude.zipWith (· * ·) r.magnitude)
  pure ⟨magnitude, unit⟩

def div (q r : Quantity) : Except Error Quantity := do
  let unit ← liftExponent .quotientUnit (q.unit.divide r.unit)
  let magnitude ← liftShape (q.magnitude.zipWith (· / ·) r.magnitude)
  pure ⟨magnitude, unit⟩

def mulScalar (q : Quantity) (x : Float) : Quantity := q.mapMagnitude (· * x)

def divScalar (q : Quantity) (x : Float) : Quantity := q.mapMagnitude (· / x)

/-- A plain number divided by a quantity. -/
def scalarDiv (x : Float) (q : Quantity) : Except Error Quantity := do
  let unit ← liftExponent .reciprocalUnit q.unit.reciprocal
  pure ⟨q.magnitude.map (x / ·), unit⟩

/-- Raises the magnitude and the unit. -/
def pow (q : Quantity) (x : Exponent) : Except Error Quantity := do
  let unit ← liftExponent (.powerTooLarge x) (q.unit.power x)
  pure ⟨q.magnitude.map x.raise, unit⟩

/-- The exponent that a float stands for. -/
def exponentOfFloat (x : Float) : Except Error Exponent :=
  liftExponent (fun _ => .irrationalPower x) (Exponent.ofFloat x)

/-- Raises to a power given as a float that stands for a simple fraction. -/
def powFloat (q : Quantity) (x : Float) : Except Error Quantity := do
  q.pow (← exponentOfFloat x)

def sqrt (q : Quantity) : Except Error Quantity := q.pow .half

def abs (q : Quantity) : Quantity := { q with magnitude := q.magnitude.abs }

def neg (q : Quantity) : Quantity := q.mapMagnitude (- ·)

end QuantityCalculus.Quantity
