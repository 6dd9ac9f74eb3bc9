import QuantityCalculus.Measurement.Basic

/-! Propagation of uncertainty, for independent errors. Uncertainties of sums and differences add in
quadrature, as do relative uncertainties of products and quotients. An exact term leaves the
uncertainty as it is and an exact factor scales it. A power multiplies the relative uncertainty by
the absolute value of the exponent. -/

namespace QuantityCalculus.Measurement

/-- The root of the sum of squares. -/
def hypot (x y : Float) : Float := (x * x + y * y).sqrt

/-- Adds in quadrature value by value. -/
def quadrature (m n : Magnitude Float) : Except Error (Magnitude Float) :=
  liftShape (m.zipWith hypot n)

def add (m n : Measurement) : Except Error Measurement := do
  let q ← m.quantity.add n.quantity
  let n ← n.inUnit m.unit
  ofQuantity q (← quadrature m.uncertainty n.uncertainty)

def sub (m n : Measurement) : Except Error Measurement := do
  let q ← m.quantity.sub n.quantity
  let n ← n.inUnit m.unit
  ofQuantity q (← quadrature m.uncertainty n.uncertainty)

/-- Attaches to a product or quotient the uncertainty that follows from those of its operands. -/
def combineRelative (m n : Measurement) (q : Quantity) : Except Error Measurement := do
  let relative ← quadrature m.relativeUncertainty n.relativeUncertainty
  ofQuantity q (← liftShape (q.magnitude.abs.zipWith (· * ·) relative))

def mul (m n : Measurement) : Except Error Measurement := do
  m.combineRelative n (← m.quantity.mul n.quantity)

def div (m n : Measurement) : Except Error Measurement := do
  m.combineRelative n (← m.quantity.div n.quantity)

/-- The sum with an exact quantity. -/
def addQuantity (m : Measurement) (q : Quantity) : Except Error Measurement := do
  m.replaceQuantity (← m.quantity.add q)

/-- The difference to an exact quantity. -/
def subQuantity (m : Measurement) (q : Quantity) : Except Error Measurement := do
  m.replaceQuantity (← m.quantity.sub q)

/-- The product with an exact quantity. -/
def mulQuantity (m : Measurement) (q : Quantity) : Except Error Measurement := do
  let uncertainty ← liftShape (m.uncertainty.zipWith (fun s x => s * x.abs) q.magnitude)
  ofQuantity (← m.quantity.mul q) uncertainty

/-- The quotient by an exact quantity. -/
def divQuantity (m : Measurement) (q : Quantity) : Except Error Measurement := do
  let uncertainty ← liftShape (m.uncertainty.zipWith (fun s x => s / x.abs) q.magnitude)
  ofQuantity (← m.quantity.div q) uncertainty

def addScalar (m : Measurement) (x : Float) : Except Error Measurement := do
  m.replaceQuantity (← m.quantity.addScalar x)

def subScalar (m : Measurement) (x : Float) : Except Error Measurement := do
  m.replaceQuantity (← m.quantity.subScalar x)

/-- A plain number less a measurement. -/
def scalarSub (x : Float) (m : Measurement) : Except Error Measurement := do
  m.replaceQuantity (← Quantity.scalarSub x m.quantity)

def mulScalar (m : Measurement) (x : Float) : Measurement :=
  ⟨m.quantity.mulScalar x, m.uncertainty.map (· * x.abs)⟩

def divScalar (m : Measurement) (x : Float) : Measurement :=
  ⟨m.quantity.divScalar x, m.uncertainty.map (· / x.abs)⟩

/-- A plain number divided by a measurement, which keeps its relative uncertainty. -/
def scalarDiv (x : Float) (m : Measurement) : Except Error Measurement := do
  let q ← Quantity.scalarDiv x m.quantity
  ofQuantity q (← liftShape (q.magnitude.abs.zipWith (· * ·) m.relativeUncertainty))

def pow (m : Measurement) (x : Exponent) : Except Error Measurement := do
  let factor := x.toFloat.abs
  let q ← m.quantity.pow x
  ofQuantity q
    (← liftShape (q.magnitude.abs.zipWith (fun v r => factor * r * v) m.relativeUncertainty))

/-- Raises to a power given as a float that stands for a simple fraction. -/
def powFloat (m : Measurement) (x : Float) : Except Error Measurement := do
  m.pow (← Quantity.exponentOfFloat x)

def sqrt (m : Measurement) : Except Error Measurement := m.pow .half

def abs (m : Measurement) : Measurement := { m with quantity := m.quantity.abs }

def neg (m : Measurement) : Measurement := { m with quantity := m.quantity.neg }

end QuantityCalculus.Measurement
