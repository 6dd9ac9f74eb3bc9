import QuantityCalculus.Exponent.Text

/-! Physical dimensions. A dimension is a vector of seven exponents, one for each base quantity. Two
units measure the same kind of thing exactly when their dimensions are equal. Products, quotients
and powers of units add, subtract and scale dimensions, exponent by exponent in a fixed order; the
first exponent that cannot be formed is the one that is reported. -/

namespace QuantityCalculus

/-- The seven base quantities, in the order of the exponents of a dimension. -/
inductive BaseQuantity
  | length | mass | time | current | temperature | amount | luminosity
  deriving DecidableEq, Repr

namespace BaseQuantity

def all : List BaseQuantity :=
  [length, mass, time, current, temperature, amount, luminosity]

/-- The position in the order of the exponents. -/
def index : BaseQuantity → Nat
  | length => 0
  | mass => 1
  | time => 2
  | current => 3
  | temperature => 4
  | amount => 5
  | luminosity => 6

def name : BaseQuantity → String
  | length => "length"
  | mass => "mass"
  | time => "time"
  | current => "current"
  | temperature => "temperature"
  | amount => "amount"
  | luminosity => "luminosity"

/-- The unit that measures a base quantity. -/
def baseUnit : BaseQuantity → String
  | length => "meter"
  | mass => "kilogram"
  | time => "second"
  | current => "ampere"
  | temperature => "kelvin"
  | amount => "mole"
  | luminosity => "candela"

theorem mem_all (b : BaseQuantity) : b ∈ all := by
  cases b <;> decide

end BaseQuantity

/-- One exponent for each base quantity. -/
structure Dimension where
  length : Exponent
  mass : Exponent
  time : Exponent
  current : Exponent
  temperature : Exponent
  amount : Exponent
  luminosity : Exponent
  deriving DecidableEq

namespace Dimension

/-- The exponent of a base quantity. -/
def get (d : Dimension) : BaseQuantity → Exponent
  | .length => d.length
  | .mass => d.mass
  | .time => d.time
  | .current => d.current
  | .temperature => d.temperature
  | .amount => d.amount
  | .luminosity => d.luminosity

/-- The dimension with the given exponents. -/
def ofFn (f : BaseQuantity → Exponent) : Dimension :=
  ⟨f .length, f .mass, f .time, f .current, f .temperature, f .amount, f .luminosity⟩

/-- The dimension with the given exponents, or the first refusal of one. -/
def tryOfFn {ε : Type} (f : BaseQuantity → Except ε Exponent) : Except ε Dimension := do
  let length ← f .length
  let mass ← f .mass
  let time ← f .time
  let current ← f .current
  let temperature ← f .temperature
  let amount ← f .amount
  let luminosity ← f .luminosity
  pure ⟨length, mass, time, current, temperature, amount, luminosity⟩

theorem ext {d e : Dimension} (h : ∀ b, d.get b = e.get b) : d = e := by
  cases d; cases e
  have h0 := h .length; have h1 := h .mass; have h2 := h .time; have h3 := h .current
  have h4 := h .temperature; have h5 := h .amount; have h6 := h .luminosity
  simp only [get] at h0 h1 h2 h3 h4 h5 h6
  subst h0 h1 h2 h3 h4 h5 h6
  rfl

@[simp] theorem get_ofFn (f : BaseQuantity → Exponent) (b : BaseQuantity) :
    (ofFn f).get b = f b := by
  cases b <;> rfl

theorem tryOfFn_eq_ok_iff {ε : Type} {f : BaseQuantity → Except ε Exponent} {d : Dimension} :
    tryOfFn f = .ok d ↔ ∀ b, f b = .ok (d.get b) := by
  constructor
  · intro h
    unfold tryOfFn at h
    cases h0 : f .length with
    | error _ => simp [h0, bind, Except.bind] at h
    | ok x0 =>
    cases h1 : f .mass with
    | error _ => simp [h0, h1, bind, Except.bind] at h
    | ok x1 =>
    cases h2 : f .time with
    | error _ => simp [h0, h1, h2, bind, Except.bind] at h
    | ok x2 =>
    cases h3 : f .current with
    | error _ => simp [h0, h1, h2, h3, bind, Except.bind] at h
    | ok x3 =>
    cases h4 : f .temperature with
    | error _ => simp [h0, h1, h2, h3, h4, bind, Except.bind] at h
    | ok x4 =>
    cases h5 : f .amount with
    | error _ => simp [h0, h1, h2, h3, h4, h5, bind, Except.bind] at h
    | ok x5 =>
    cases h6 : f .luminosity with
    | error _ => simp [h0, h1, h2, h3, h4, h5, h6, bind, Except.bind] at h
    | ok x6 =>
      simp only [h0, h1, h2, h3, h4, h5, h6, bind, Except.bind, pure, Except.pure,
        Except.ok.injEq] at h
      subst h
      intro b
      cases b <;> assumption
  · intro h
    simp [tryOfFn, h, bind, Except.bind, pure, Except.pure, get]

/-- The dimension of a pure number. -/
def dimensionless : Dimension := ofFn fun _ => 0

/-- The dimension with the given whole exponents. -/
def ofIntegers (f : BaseQuantity → Int8) : Dimension :=
  ofFn fun b => Exponent.ofInt64 (f b).toInt64

/-- The dimension of a base quantity. -/
def of (b : BaseQuantity) : Dimension :=
  ofFn fun c => if c = b then 1 else 0

instance : Inhabited Dimension := ⟨dimensionless⟩

/-- The dimension of a product of units. -/
def add (d e : Dimension) : Except ExponentError Dimension :=
  tryOfFn fun b => (d.get b).add (e.get b)

/-- The dimension of a quotient of units. -/
def sub (d e : Dimension) : Except ExponentError Dimension :=
  tryOfFn fun b => (d.get b).sub (e.get b)

/-- The dimension of a power of a unit. -/
def scale (d : Dimension) (x : Exponent) : Except ExponentError Dimension :=
  tryOfFn fun b => (d.get b).mul x

def isDimensionless (d : Dimension) : Bool :=
  BaseQuantity.all.all fun b => d.get b == 0

/-- The exponents in order. -/
def exponents (d : Dimension) : List Exponent :=
  BaseQuantity.all.map d.get

/-- A base quantity in brackets, with its exponent unless that is one. -/
def factorChars (b : BaseQuantity) (x : Exponent) : List Char :=
  '[' :: b.name.toList ++ ']' :: (if x = 1 then [] else '^' :: x.chars)

/-- The base quantities with nonzero exponents as a product. -/
def chars (d : Dimension) : List Char :=
  if d.isDimensionless then "[dimensionless]".toList
  else
    [' ', '*', ' '].intercalate
      ((BaseQuantity.all.filter fun b => d.get b != 0).map fun b => factorChars b (d.get b))

def text (d : Dimension) : String := String.ofList d.chars

/-- The text that names the type as well. -/
def literal (d : Dimension) : String := "DimensionVector(" ++ d.text ++ ")"

end Dimension

end QuantityCalculus
