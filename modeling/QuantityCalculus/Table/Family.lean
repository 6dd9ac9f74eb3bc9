import QuantityCalculus.Dimension.Basic

/-! Families of units. A family holds the units that are multiples of one coherent unit, whose name
it bears. The family fixes the dimension of its members. -/

namespace QuantityCalculus

inductive Family
  | meter | kilogram | second | ampere | kelvin | mole | candela
  | dimensionless | radian
  | squareMeter | cubicMeter | hertz | newton | pascal | joule | watt | coulomb | volt | ohm
  deriving DecidableEq, Repr

namespace Family

/-- The base units, then the pure numbers, then the coherent derived units. -/
def all : List Family :=
  [meter, kilogram, second, ampere, kelvin, mole, candela, dimensionless, radian, squareMeter,
    cubicMeter, hertz, newton, pascal, joule, watt, coulomb, volt, ohm]

/-- The name of the family, which is the name of its coherent unit. -/
def name : Family → String
  | meter => "meter"
  | kilogram => "kilogram"
  | second => "second"
  | ampere => "ampere"
  | kelvin => "kelvin"
  | mole => "mole"
  | candela => "candela"
  | dimensionless => "dimensionless"
  | radian => "radian"
  | squareMeter => "square_meter"
  | cubicMeter => "cubic_meter"
  | hertz => "hertz"
  | newton => "newton"
  | pascal => "pascal"
  | joule => "joule"
  | watt => "watt"
  | coulomb => "coulomb"
  | volt => "volt"
  | ohm => "ohm"

/-- The exponents of the dimension, in the order of the base quantities. -/
def row : Family → List Int8
  | meter => [1, 0, 0, 0, 0, 0, 0]
  | kilogram => [0, 1, 0, 0, 0, 0, 0]
  | second => [0, 0, 1, 0, 0, 0, 0]
  | ampere => [0, 0, 0, 1, 0, 0, 0]
  | kelvin => [0, 0, 0, 0, 1, 0, 0]
  | mole => [0, 0, 0, 0, 0, 1, 0]
  | candela => [0, 0, 0, 0, 0, 0, 1]
  | dimensionless => [0, 0, 0, 0, 0, 0, 0]
  | radian => [0, 0, 0, 0, 0, 0, 0]
  | squareMeter => [2, 0, 0, 0, 0, 0, 0]
  | cubicMeter => [3, 0, 0, 0, 0, 0, 0]
  | hertz => [0, 0, -1, 0, 0, 0, 0]
  | newton => [1, 1, -2, 0, 0, 0, 0]
  | pascal => [-1, 1, -2, 0, 0, 0, 0]
  | joule => [2, 1, -2, 0, 0, 0, 0]
  | watt => [2, 1, -3, 0, 0, 0, 0]
  | coulomb => [0, 0, 1, 1, 0, 0, 0]
  | volt => [2, 1, -3, -1, 0, 0, 0]
  | ohm => [2, 1, -3, -2, 0, 0, 0]

def dimension (f : Family) : Dimension :=
  Dimension.ofIntegers fun b => f.row.getD b.index 0

/-- The family with a given name. -/
def ofName? (name : String) : Option Family :=
  all.find? fun f => f.name == name

theorem mem_all (f : Family) : f ∈ all := by
  cases f <;> decide

end Family

end QuantityCalculus
