import QuantityCalculus.Dimension.Basic

/-! Asserted arithmetic, for exponents and dimensions known to be small. The results are the same as
those of the checked operations, but a result that does not fit is a fault of the caller and not an
answer: it ends the computation. Exponents are divided in this form only. Dimensions are added,
subtracted, scaled and negated exponent by exponent. -/

namespace QuantityCalculus

/-- Why a computation that was asserted to succeed ends. -/
inductive Fault
  | refused (e : ExponentError)
  | zeroDivisor (dividend : Exponent)
  | zeroDenominator (numerator : Int)

def Fault.message : Fault → String
  | .refused e => e.message
  | .zeroDivisor x => "Cannot divide " ++ x.text ++ " by zero"
  | .zeroDenominator n => "Invalid fraction: " ++ Decimal.intText n ++ "/0 has a zero denominator"

namespace Exponent.Asserted

/-- The fraction `n / d` in lowest terms. -/
def reduce (n d : Int) : Except Fault Exponent :=
  match Exponent.reduce n d with
  | .ok x => .ok x
  | .error e => .error (.refused e)

/-- A fraction written as a literal. -/
def ofParts (n d : Int) : Except Fault Exponent :=
  if d = 0 then .error (.zeroDenominator n) else reduce n d

def add (x y : Exponent) : Except Fault Exponent :=
  reduce (sumParts x y).1 (sumParts x y).2

def mul (x y : Exponent) : Except Fault Exponent :=
  reduce (productParts x y).1 (productParts x y).2

def neg (x : Exponent) : Except Fault Exponent :=
  reduce (negationParts x).1 (negationParts x).2

/-- The sum with the negation, which is formed first. -/
def sub (x y : Exponent) : Except Fault Exponent := do
  add x (← neg y)

def div (x y : Exponent) : Except Fault Exponent :=
  if y = 0 then .error (.zeroDivisor x)
  else reduce (quotientParts x y).1 (quotientParts x y).2

end Exponent.Asserted

namespace Dimension.Asserted

def add (d e : Dimension) : Except Fault Dimension :=
  tryOfFn fun b => Exponent.Asserted.add (d.get b) (e.get b)

def sub (d e : Dimension) : Except Fault Dimension :=
  tryOfFn fun b => Exponent.Asserted.sub (d.get b) (e.get b)

def scale (d : Dimension) (x : Exponent) : Except Fault Dimension :=
  tryOfFn fun b => Exponent.Asserted.mul (d.get b) x

def neg (d : Dimension) : Except Fault Dimension :=
  scale d Exponent.negOne

end Dimension.Asserted

end QuantityCalculus
