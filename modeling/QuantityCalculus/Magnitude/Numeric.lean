import QuantityCalculus.Magnitude.Basic

/-! Magnitudes of floats: absolute values, text, equality, and closeness. Closeness measures the
distance of two values against the second of them; it is not symmetric. -/

namespace QuantityCalculus.Magnitude

/-- How far values may be apart relative to the second one. -/
def relativeTolerance : Float := 1e-5

/-- How far values may be apart near zero. -/
def absoluteTolerance : Float := 1e-8

instance : Inhabited (Magnitude Float) := ⟨scalar 0.0⟩

def abs (m : Magnitude Float) : Magnitude Float := m.map Float.abs

/-- Zeros in the shape of a magnitude. -/
def zerosLike (m : Magnitude Float) : Magnitude Float := m.map fun _ => 0.0

/-- Whether one value is close to another. -/
def isClose (a b : Float) : Bool :=
  a == b || decide ((a - b).abs ≤ absoluteTolerance + relativeTolerance * b.abs)

/-- Whether all values are close to those of another magnitude. Rows of different lengths are
not. -/
def allClose (m n : Magnitude Float) : Bool :=
  match m.allPairs isClose n with
  | .ok close => close
  | .error _ => false

/-- Whether two magnitudes of the same shape pass a test value by value. -/
def sameShapeAll (test : Float → Float → Bool) : Magnitude Float → Magnitude Float → Bool
  | scalar a, scalar b => test a b
  | row xs, row ys => xs.length == ys.length && (List.zipWith test xs ys).all id
  | _, _ => false

/-- Equal shapes and equal values; no value that is not a number equals itself. -/
instance : BEq (Magnitude Float) := ⟨sameShapeAll fun a b => a == b⟩

/-- Whether two floats differ by at most `epsilon`. -/
def floatNear (epsilon a b : Float) : Bool :=
  decide ((a - b).abs ≤ epsilon)

/-- Whether two floats are equal, differ by at most `epsilon`, or differ by at most `maxRelative`
times the larger of their absolute values. Infinities are only near themselves. -/
def floatNearRelative (epsilon maxRelative a b : Float) : Bool :=
  if a == b then true
  else if a.isInf || b.isInf then false
  else
    let difference := (a - b).abs
    if difference ≤ epsilon then true
    else
      let largest := if a.abs < b.abs then b.abs else a.abs
      decide (difference ≤ largest * maxRelative)

/-- Whether all values differ by at most `epsilon`. -/
def near (m n : Magnitude Float) (epsilon : Float) : Bool :=
  sameShapeAll (floatNear epsilon) m n

/-- Whether all values differ by little, absolutely or relative to their size. -/
def nearRelative (m n : Magnitude Float) (epsilon maxRelative : Float) : Bool :=
  sameShapeAll (floatNearRelative epsilon maxRelative) m n

/-- The number, or the row in brackets. -/
def text : Magnitude Float → String
  | scalar x => Decimal.floatText x
  | row xs => "[" ++ ", ".intercalate (xs.map Decimal.floatText) ++ "]"

end QuantityCalculus.Magnitude
