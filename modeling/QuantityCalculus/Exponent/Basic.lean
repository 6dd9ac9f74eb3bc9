import QuantityCalculus.Binary64.Basic
import QuantityCalculus.Decimal.Positional

/-! Exponents of units and dimensions. An exponent is a rational number in lowest terms whose
numerator and denominator fit a signed 64-bit word. Arithmetic is exact: the parts of a result are
formed over the integers, brought to lowest terms, and refused if they do not fit. The smallest
64-bit numerator is refused too, so that every result can be negated; it can only be written down
as an integer. -/

namespace QuantityCalculus

/-- The numerator and the denominator fit a signed 64-bit word. -/
def Fits (q : Rat) : Prop :=
  -0x8000000000000000 ≤ q.num ∧ q.num < 0x8000000000000000 ∧ q.den < 0x8000000000000000

/-- The numerator and the denominator are at most `2 ^ 63 - 1` in absolute value. -/
def Representable (q : Rat) : Prop :=
  q.num.natAbs < 0x8000000000000000 ∧ q.den < 0x8000000000000000

instance : DecidablePred Fits := fun _ =>
  inferInstanceAs (Decidable (_ ∧ _ ∧ _))

instance : DecidablePred Representable := fun _ =>
  inferInstanceAs (Decidable (_ ∧ _))

theorem Representable.fits {q : Rat} (h : Representable q) : Fits q := by
  obtain ⟨hn, hd⟩ := h
  exact ⟨by omega, by omega, hd⟩

/-- A rational number in lowest terms whose parts fit a signed 64-bit word. -/
structure Exponent where
  val : Rat
  fits : Fits val
  deriving DecidableEq

/-- Why an exponent cannot be formed. -/
inductive ExponentError
  /-- No fraction with a small denominator is close to the float. -/
  | irrational (x : Float)
  | unreadable (text : String)
  | zeroDenominator
  /-- The fraction `n / d` does not fit, even in lowest terms. -/
  | overflow (n d : Int)

namespace Exponent

/-- The largest denominator tried for a float. -/
def maxDenominator : Nat := 100000

/-- How far a fraction may be from the float it stands for, relative to the larger of one and the
float. It absorbs the rounding of a quotient and is well below the distance of a surd from the
fractions tried. -/
def tolerance : Float := 1e-12

/-- The width of the words that hold the parts. -/
def wordBits : Nat := 64

/-- The numerator, with the sign. -/
def num (x : Exponent) : Int := x.val.num

/-- The denominator, always positive. -/
def den (x : Exponent) : Nat := x.val.den

theorem ext {x y : Exponent} (h : x.val = y.val) : x = y := by
  cases x; cases y; cases h; rfl

theorem den_pos (x : Exponent) : 0 < x.den := x.val.den_pos

/-- A whole number of 64 bits. -/
def ofInt64 (n : Int64) : Exponent where
  val := (n.toInt : Rat)
  fits := ⟨n.le_toInt, n.toInt_lt, by show (1 : Nat) < 0x8000000000000000; decide⟩

protected def zero : Exponent := ⟨0, by decide⟩

protected def one : Exponent := ⟨1, by decide⟩

def negOne : Exponent := ⟨-1, by decide⟩

def half : Exponent := ⟨1 / 2, by decide +kernel⟩

instance : Zero Exponent := ⟨Exponent.zero⟩

instance : One Exponent := ⟨Exponent.one⟩

instance : Inhabited Exponent := ⟨0⟩

@[simp] theorem zero_val : (0 : Exponent).val = 0 := rfl

@[simp] theorem one_val : (1 : Exponent).val = 1 := rfl

/-- The fraction `n / d` in lowest terms, if it fits and can be negated. -/
def reduce (n d : Int) : Except ExponentError Exponent :=
  if h : Representable (Rat.divInt n d) then .ok ⟨Rat.divInt n d, h.fits⟩
  else .error (.overflow n d)

theorem reduce_eq_ok_iff {n d : Int} {x : Exponent} :
    reduce n d = .ok x ↔ Representable (Rat.divInt n d) ∧ x.val = Rat.divInt n d := by
  unfold reduce
  split
  · rename_i h
    simp only [Except.ok.injEq, h, true_and]
    exact ⟨fun e => e ▸ rfl, fun e => ext e.symm⟩
  · rename_i h
    simp [h]

theorem reduce_eq_error {n d : Int} (h : ¬ Representable (Rat.divInt n d)) :
    reduce n d = .error (.overflow n d) := by
  simp [reduce, h]

/-- The fraction with the given parts. -/
def ofParts (n d : Int) : Except ExponentError Exponent :=
  if d = 0 then .error .zeroDenominator else reduce n d

/-- The parts of a sum before it is brought to lowest terms. -/
def sumParts (x y : Exponent) : Int × Int :=
  (x.num * y.den + y.num * x.den, x.den * y.den)

/-- The parts of a product before it is brought to lowest terms. -/
def productParts (x y : Exponent) : Int × Int :=
  (x.num * y.num, x.den * y.den)

/-- The parts of a quotient before it is brought to lowest terms. -/
def quotientParts (x y : Exponent) : Int × Int :=
  (x.num * y.den, x.den * y.num)

/-- The parts of a negation. -/
def negationParts (x : Exponent) : Int × Int :=
  (-x.num, x.den)

def add (x y : Exponent) : Except ExponentError Exponent :=
  reduce (sumParts x y).1 (sumParts x y).2

def mul (x y : Exponent) : Except ExponentError Exponent :=
  reduce (productParts x y).1 (productParts x y).2

def neg (x : Exponent) : Except ExponentError Exponent :=
  reduce (negationParts x).1 (negationParts x).2

/-- The sum with the negation, which is formed first. -/
def sub (x y : Exponent) : Except ExponentError Exponent := do
  x.add (← y.neg)

theorem den_ne_zero (x : Exponent) : (x.den : Int) ≠ 0 := by
  have h := x.den_pos
  omega

theorem divInt_num_den (x : Exponent) : Rat.divInt x.num x.den = x.val :=
  x.val.num_divInt_den

theorem divInt_sumParts (x y : Exponent) :
    Rat.divInt (sumParts x y).1 (sumParts x y).2 = x.val + y.val := by
  rw [← divInt_num_den x, ← divInt_num_den y,
    Rat.divInt_add_divInt _ _ x.den_ne_zero y.den_ne_zero]
  rfl

theorem divInt_productParts (x y : Exponent) :
    Rat.divInt (productParts x y).1 (productParts x y).2 = x.val * y.val := by
  rw [← divInt_num_den x, ← divInt_num_den y, Rat.divInt_mul_divInt]
  rfl

theorem divInt_negationParts (x : Exponent) :
    Rat.divInt (negationParts x).1 (negationParts x).2 = -x.val := by
  rw [← divInt_num_den x, Rat.neg_divInt]
  rfl

theorem add_eq_ok_iff {x y z : Exponent} :
    x.add y = .ok z ↔ Representable (x.val + y.val) ∧ z.val = x.val + y.val := by
  rw [add, reduce_eq_ok_iff, divInt_sumParts]

theorem mul_eq_ok_iff {x y z : Exponent} :
    x.mul y = .ok z ↔ Representable (x.val * y.val) ∧ z.val = x.val * y.val := by
  rw [mul, reduce_eq_ok_iff, divInt_productParts]

theorem neg_eq_ok_iff {x y : Exponent} :
    x.neg = .ok y ↔ Representable (-x.val) ∧ y.val = -x.val := by
  rw [neg, reduce_eq_ok_iff, divInt_negationParts]

/-- The greatest common divisor, or one for two zeros, so that one can always divide by it. -/
def commonDivisor (p q : Int) : Nat :=
  if Int.gcd p q = 0 then 1 else Int.gcd p q

/-- Whether the exponent is a whole number. -/
def isInteger (x : Exponent) : Bool := x.den == 1

/-- The whole number, if the exponent is one. -/
def toInt? (x : Exponent) : Option Int :=
  if x.isInteger then some x.num else none

/-- The exponent as a whole number of at most 32 bits, if it is one. -/
def toShortInt? (x : Exponent) : Option Int :=
  x.toInt?.filter fun n => decide (-0x80000000 ≤ n ∧ n < 0x80000000)

def isNegative (x : Exponent) : Bool := decide (x.num < 0)

def isPositive (x : Exponent) : Bool := decide (0 < x.num)

/-- The absolute value. -/
def abs (x : Exponent) : Except ExponentError Exponent :=
  if x.isNegative then x.neg else .ok x

/-- The float nearest to the numerator over the one nearest to the denominator. -/
def toFloat (x : Exponent) : Float := Binary64.ofRat x.val

/-- The power of a float to an exponent. A whole exponent of at most 32 bits multiplies; any other one
goes through the exponential of a logarithm. -/
def raise (base : Float) (x : Exponent) : Float :=
  match x.toShortInt? with
  | some n => Binary64.powInt base n
  | none => Float.pow base x.toFloat

/-- The order of the cross products. -/
def cmp (x y : Exponent) : Ordering :=
  compare (x.num * y.den) (y.num * x.den)

instance : Ord Exponent := ⟨cmp⟩

end Exponent

end QuantityCalculus
