import QuantityCalculus.Exponent.Basic

/-! Floats read as exponents. The convergents `h / k` of the continued fraction of a float are
formed one after the other; the first one close enough to the float is the exponent it stands for.
The search ends without an answer when the denominators exceed the largest one tried, when the
expansion ends, or after sixty-four terms. -/

namespace QuantityCalculus.Exponent

/-- The last two convergents, and the part of the float still to be expanded. -/
structure Expansion where
  previousNum : Int
  currentNum : Int
  previousDen : Int
  currentDen : Int
  remainder : Float

/-- Before the first term. -/
def Expansion.start (x : Float) : Expansion :=
  ⟨0, 1, 1, 0, x⟩

/-- The integral part of the remainder is the next term. -/
def Expansion.term (e : Expansion) : Int :=
  Binary64.floor e.remainder

/-- Takes the next term into the convergents. The remainder is left to be inverted. -/
def Expansion.advance (e : Expansion) : Expansion where
  previousNum := e.currentNum
  currentNum := e.term * e.currentNum + e.previousNum
  previousDen := e.currentDen
  currentDen := e.term * e.currentDen + e.previousDen
  remainder := e.remainder - Float.ofInt e.term

/-- Whether the current convergent stands for the float. -/
def Expansion.accepts (e : Expansion) (x : Float) : Bool :=
  let bound := if x.abs < 1.0 then 1.0 else x.abs
  decide ((x - Float.ofInt e.currentNum / Float.ofInt e.currentDen).abs ≤ tolerance * bound)

/-- The first convergent among the next `terms` that stands for the float. -/
def Expansion.search (x : Float) : (terms : Nat) → Expansion → Option (Int × Int)
  | 0, _ => none
  | terms + 1, e =>
    let next := e.advance
    if next.currentDen > maxDenominator then none
    else if next.accepts x then some (next.currentNum, next.currentDen)
    else if next.remainder == 0.0 then none
    else search x terms { next with remainder := 1.0 / next.remainder }

/-- The convergent that stands for a float of at most `10 ^ 12` in absolute value. -/
def convergent? (x : Float) : Option (Int × Int) :=
  if !x.isFinite || x.abs > 1e12 then none else Expansion.search x 64 (.start x)

/-- The exponent that a float stands for. -/
def ofFloat (x : Float) : Except ExponentError Exponent :=
  match convergent? x with
  | some (n, d) => reduce n d
  | none => .error (.irrational x)

/-- The exponent that a float of single precision stands for. -/
def ofFloat32 (x : Float32) : Except ExponentError Exponent :=
  ofFloat x.toFloat

end QuantityCalculus.Exponent
