import QuantityCalculus.Table.Family

/-! The table of atomic units: every name and alias, with the factor that turns it into the coherent
unit of its family. Some take SI prefixes; temperature scales whose zero is not absolute zero have
an offset, and these take none. -/

namespace QuantityCalculus

/-- What a name in the table stands for. -/
structure AtomicUnit where
  /-- How many coherent units of the family the unit holds. -/
  factor : Float
  /-- Added to a reading before it is scaled, if the zero of the scale is not absolute zero. -/
  offset : Option Float
  family : Family
  /-- Whether SI prefixes can be attached to the name. -/
  prefixable : Bool

namespace AtomicUnit

/-- A unit that takes no prefixes. -/
def plain (family : Family) (factor : Float) : AtomicUnit :=
  ⟨factor, none, family, false⟩

/-- A unit that takes prefixes. -/
def prefixed (family : Family) (factor : Float) : AtomicUnit :=
  ⟨factor, none, family, true⟩

/-- A scale with a zero of its own. -/
def scaleFrom (family : Family) (factor offset : Float) : AtomicUnit :=
  ⟨factor, some offset, family, false⟩

/-- Whether prefixes are attached to the name. A scale with a zero of its own never takes one. -/
def takesPrefixes (unit : AtomicUnit) : Bool :=
  unit.prefixable && unit.offset.isNone

end AtomicUnit

namespace Table

def lengthUnits : List (String × AtomicUnit) :=
  [("meter", .prefixed .meter 1.0),
   ("m", .prefixed .meter 1.0),
   ("meters", .plain .meter 1.0),
   ("kilometer", .plain .meter 1000.0),
   ("km", .plain .meter 1000.0),
   ("kilometers", .plain .meter 1000.0),
   ("centimeter", .plain .meter 0.01),
   ("cm", .plain .meter 0.01),
   ("centimeters", .plain .meter 0.01),
   ("millimeter", .plain .meter 0.001),
   ("mm", .plain .meter 0.001),
   ("millimeters", .plain .meter 0.001),
   ("micrometer", .plain .meter 1e-6),
   ("um", .plain .meter 1e-6),
   ("micrometers", .plain .meter 1e-6),
   ("nanometer", .plain .meter 1e-9),
   ("nm", .plain .meter 1e-9),
   ("nanometers", .plain .meter 1e-9),
   ("angstrom", .plain .meter 1e-10),
   ("Å", .plain .meter 1e-10),
   ("mile", .plain .meter 1609.344),
   ("mi", .plain .meter 1609.344),
   ("miles", .plain .meter 1609.344),
   ("yard", .plain .meter 0.9144),
   ("yd", .plain .meter 0.9144),
   ("yards", .plain .meter 0.9144),
   ("foot", .plain .meter 0.3048),
   ("ft", .plain .meter 0.3048),
   ("feet", .plain .meter 0.3048),
   ("inch", .plain .meter 0.0254),
   ("in", .plain .meter 0.0254),
   ("inches", .plain .meter 0.0254),
   ("nautical_mile", .plain .meter 1852.0),
   ("nmi", .plain .meter 1852.0)]

def massUnits : List (String × AtomicUnit) :=
  [("kilogram", .plain .kilogram 1.0),
   ("kg", .plain .kilogram 1.0),
   ("kilograms", .plain .kilogram 1.0),
   ("gram", .prefixed .kilogram 0.001),
   ("g", .prefixed .kilogram 0.001),
   ("grams", .plain .kilogram 0.001),
   ("milligram", .plain .kilogram 1e-6),
   ("mg", .plain .kilogram 1e-6),
   ("milligrams", .plain .kilogram 1e-6),
   ("microgram", .plain .kilogram 1e-9),
   ("ug", .plain .kilogram 1e-9),
   ("micrograms", .plain .kilogram 1e-9),
   ("pound", .plain .kilogram 0.453592),
   ("lb", .plain .kilogram 0.453592),
   ("pounds", .plain .kilogram 0.453592),
   ("ounce", .plain .kilogram 0.0283495),
   ("oz", .plain .kilogram 0.0283495),
   ("ounces", .plain .kilogram 0.0283495),
   ("ton", .plain .kilogram 1000.0),
   ("tons", .plain .kilogram 1000.0),
   ("tonne", .plain .kilogram 1000.0),
   ("tonnes", .plain .kilogram 1000.0)]

def timeUnits : List (String × AtomicUnit) :=
  [("second", .prefixed .second 1.0),
   ("s", .prefixed .second 1.0),
   ("seconds", .plain .second 1.0),
   ("sec", .plain .second 1.0),
   ("millisecond", .plain .second 0.001),
   ("ms", .plain .second 0.001),
   ("milliseconds", .plain .second 0.001),
   ("microsecond", .plain .second 1e-6),
   ("us", .plain .second 1e-6),
   ("microseconds", .plain .second 1e-6),
   ("nanosecond", .plain .second 1e-9),
   ("ns", .plain .second 1e-9),
   ("nanoseconds", .plain .second 1e-9),
   ("minute", .plain .second 60.0),
   ("min", .plain .second 60.0),
   ("minutes", .plain .second 60.0),
   ("hour", .plain .second 3600.0),
   ("h", .plain .second 3600.0),
   ("hr", .plain .second 3600.0),
   ("hours", .plain .second 3600.0),
   ("day", .plain .second 86400.0),
   ("d", .plain .second 86400.0),
   ("days", .plain .second 86400.0),
   ("week", .plain .second 604800.0),
   ("weeks", .plain .second 604800.0),
   ("year", .plain .second 31536000.0),
   ("yr", .plain .second 31536000.0),
   ("years", .plain .second 31536000.0)]

/-- Offsets count only in conversions between plain temperature scales. -/
def temperatureUnits : List (String × AtomicUnit) :=
  [("kelvin", .prefixed .kelvin 1.0),
   ("K", .prefixed .kelvin 1.0),
   ("celsius", .scaleFrom .kelvin 1.0 273.15),
   ("C", .scaleFrom .kelvin 1.0 273.15),
   ("degC", .scaleFrom .kelvin 1.0 273.15),
   ("fahrenheit", .scaleFrom .kelvin 0.5555555555555556 459.67),
   ("F", .scaleFrom .kelvin 0.5555555555555556 459.67),
   ("degF", .scaleFrom .kelvin 0.5555555555555556 459.67),
   ("rankine", .plain .kelvin 0.5555555555555556),
   ("degR", .plain .kelvin 0.5555555555555556)]

def currentUnits : List (String × AtomicUnit) :=
  [("ampere", .prefixed .ampere 1.0),
   ("A", .prefixed .ampere 1.0),
   ("amperes", .plain .ampere 1.0),
   ("amp", .plain .ampere 1.0),
   ("amps", .plain .ampere 1.0),
   ("milliampere", .plain .ampere 0.001),
   ("mA", .plain .ampere 0.001)]

def amountUnits : List (String × AtomicUnit) :=
  [("mole", .prefixed .mole 1.0),
   ("mol", .prefixed .mole 1.0),
   ("moles", .plain .mole 1.0)]

def luminosityUnits : List (String × AtomicUnit) :=
  [("candela", .prefixed .candela 1.0),
   ("cd", .prefixed .candela 1.0)]

def energyUnits : List (String × AtomicUnit) :=
  [("joule", .prefixed .joule 1.0),
   ("J", .prefixed .joule 1.0),
   ("joules", .plain .joule 1.0),
   ("kilojoule", .plain .joule 1000.0),
   ("kJ", .plain .joule 1000.0),
   ("calorie", .plain .joule 4.184),
   ("cal", .plain .joule 4.184),
   ("calories", .plain .joule 4.184),
   ("kilocalorie", .plain .joule 4184.0),
   ("kcal", .plain .joule 4184.0),
   ("Calorie", .plain .joule 4184.0),
   ("electronvolt", .prefixed .joule 1.602176634e-19),
   ("eV", .prefixed .joule 1.602176634e-19),
   ("watt_hour", .plain .joule 3600.0),
   ("Wh", .plain .joule 3600.0),
   ("kilowatt_hour", .plain .joule 3600000.0),
   ("kWh", .plain .joule 3600000.0),
   ("british_thermal_unit", .plain .joule 1055.056),
   ("BTU", .plain .joule 1055.056)]

def powerUnits : List (String × AtomicUnit) :=
  [("watt", .prefixed .watt 1.0),
   ("W", .prefixed .watt 1.0),
   ("watts", .plain .watt 1.0),
   ("kilowatt", .plain .watt 1000.0),
   ("kW", .plain .watt 1000.0),
   ("kilowatts", .plain .watt 1000.0),
   ("megawatt", .plain .watt 1000000.0),
   ("MW", .plain .watt 1000000.0),
   ("megawatts", .plain .watt 1000000.0),
   ("horsepower", .plain .watt 745.7),
   ("hp", .plain .watt 745.7)]

def pressureUnits : List (String × AtomicUnit) :=
  [("pascal", .prefixed .pascal 1.0),
   ("Pa", .prefixed .pascal 1.0),
   ("kilopascal", .plain .pascal 1000.0),
   ("kPa", .plain .pascal 1000.0),
   ("megapascal", .plain .pascal 1000000.0),
   ("MPa", .plain .pascal 1000000.0),
   ("bar", .prefixed .pascal 100000.0),
   ("bars", .plain .pascal 100000.0),
   ("atmosphere", .plain .pascal 101325.0),
   ("atm", .plain .pascal 101325.0),
   ("psi", .plain .pascal 6894.76),
   ("PSI", .plain .pascal 6894.76),
   ("torr", .plain .pascal 133.322),
   ("Torr", .plain .pascal 133.322)]

def forceUnits : List (String × AtomicUnit) :=
  [("newton", .prefixed .newton 1.0),
   ("N", .prefixed .newton 1.0),
   ("newtons", .plain .newton 1.0),
   ("kilonewton", .plain .newton 1000.0),
   ("kN", .plain .newton 1000.0),
   ("pound_force", .plain .newton 4.44822),
   ("lbf", .plain .newton 4.44822)]

def frequencyUnits : List (String × AtomicUnit) :=
  [("hertz", .prefixed .hertz 1.0),
   ("Hz", .prefixed .hertz 1.0),
   ("kilohertz", .plain .hertz 1000.0),
   ("kHz", .plain .hertz 1000.0),
   ("megahertz", .plain .hertz 1000000.0),
   ("MHz", .plain .hertz 1000000.0),
   ("gigahertz", .plain .hertz 1000000000.0),
   ("GHz", .plain .hertz 1000000000.0)]

def voltageUnits : List (String × AtomicUnit) :=
  [("volt", .prefixed .volt 1.0),
   ("V", .prefixed .volt 1.0),
   ("volts", .plain .volt 1.0),
   ("millivolt", .plain .volt 0.001),
   ("mV", .plain .volt 0.001),
   ("kilovolt", .plain .volt 1000.0),
   ("kV", .plain .volt 1000.0)]

/-- The symbol of the coulomb is taken by the Celsius scale. -/
def chargeUnits : List (String × AtomicUnit) :=
  [("coulomb", .prefixed .coulomb 1.0),
   ("coulombs", .plain .coulomb 1.0)]

def resistanceUnits : List (String × AtomicUnit) :=
  [("ohm", .prefixed .ohm 1.0),
   ("Ω", .prefixed .ohm 1.0),
   ("ohms", .plain .ohm 1.0),
   ("kiloohm", .plain .ohm 1000.0),
   ("kΩ", .plain .ohm 1000.0),
   ("megaohm", .plain .ohm 1000000.0),
   ("MΩ", .plain .ohm 1000000.0)]

def areaUnits : List (String × AtomicUnit) :=
  [("square_meter", .plain .squareMeter 1.0),
   ("square_meters", .plain .squareMeter 1.0),
   ("hectare", .plain .squareMeter 10000.0),
   ("ha", .plain .squareMeter 10000.0),
   ("acre", .plain .squareMeter 4046.86),
   ("acres", .plain .squareMeter 4046.86)]

def volumeUnits : List (String × AtomicUnit) :=
  [("cubic_meter", .plain .cubicMeter 1.0),
   ("cubic_meters", .plain .cubicMeter 1.0),
   ("liter", .prefixed .cubicMeter 0.001),
   ("L", .prefixed .cubicMeter 0.001),
   ("liters", .plain .cubicMeter 0.001),
   ("litre", .prefixed .cubicMeter 0.001),
   ("litres", .plain .cubicMeter 0.001),
   ("milliliter", .plain .cubicMeter 1e-6),
   ("mL", .plain .cubicMeter 1e-6),
   ("milliliters", .plain .cubicMeter 1e-6),
   ("gallon", .plain .cubicMeter 0.00378541),
   ("gal", .plain .cubicMeter 0.00378541),
   ("gallons", .plain .cubicMeter 0.00378541),
   ("quart", .plain .cubicMeter 0.000946353),
   ("qt", .plain .cubicMeter 0.000946353),
   ("pint", .plain .cubicMeter 0.000473176),
   ("pt", .plain .cubicMeter 0.000473176),
   ("cup", .plain .cubicMeter 0.000236588),
   ("cups", .plain .cubicMeter 0.000236588),
   ("fluid_ounce", .plain .cubicMeter 2.95735e-5),
   ("fl_oz", .plain .cubicMeter 2.95735e-5)]

def angleUnits : List (String × AtomicUnit) :=
  [("radian", .plain .radian 1.0),
   ("rad", .plain .radian 1.0),
   ("radians", .plain .radian 1.0),
   ("degree", .plain .radian 0.017453292519943295),
   ("deg", .plain .radian 0.017453292519943295),
   ("degrees", .plain .radian 0.017453292519943295)]

def numberUnits : List (String × AtomicUnit) :=
  [("dimensionless", .plain .dimensionless 1.0),
   ("percent", .plain .dimensionless 0.01),
   ("%", .plain .dimensionless 0.01),
   ("ppm", .plain .dimensionless 1e-6),
   ("ppb", .plain .dimensionless 1e-9)]

/-- Every name with what it stands for. -/
def entries : List (String × AtomicUnit) :=
  lengthUnits ++ massUnits ++ timeUnits ++ temperatureUnits ++
    currentUnits ++ amountUnits ++ luminosityUnits ++ energyUnits ++
    powerUnits ++ pressureUnits ++ forceUnits ++ frequencyUnits ++
    voltageUnits ++ chargeUnits ++ resistanceUnits ++ areaUnits ++
    volumeUnits ++ angleUnits ++ numberUnits

end Table

end QuantityCalculus
