import QuantityCalculus.Table.Entries

/-! Resolving the name of an atomic unit. A name in the table stands for its entry. Any other name
is tried as an SI prefix followed by a name in the table that takes prefixes; the unit is then the
entry with its factor multiplied. The names of the prefixes come before their symbols, and `da` comes
before `d`; micro has three symbols, two of which look alike. -/

namespace QuantityCalculus

/-- A prefix and the factor it multiplies a unit by. -/
structure SiPrefix where
  text : String
  factor : Float

namespace SiPrefix

def names : List SiPrefix :=
  [⟨"yotta", 1e24⟩, ⟨"zetta", 1e21⟩, ⟨"exa", 1e18⟩, ⟨"peta", 1e15⟩, ⟨"tera", 1e12⟩, ⟨"giga", 1e9⟩,
   ⟨"mega", 1e6⟩, ⟨"kilo", 1e3⟩, ⟨"hecto", 1e2⟩, ⟨"deca", 1e1⟩, ⟨"deci", 1e-1⟩, ⟨"centi", 1e-2⟩,
   ⟨"milli", 1e-3⟩, ⟨"micro", 1e-6⟩, ⟨"nano", 1e-9⟩, ⟨"pico", 1e-12⟩, ⟨"femto", 1e-15⟩,
   ⟨"atto", 1e-18⟩, ⟨"zepto", 1e-21⟩, ⟨"yocto", 1e-24⟩]

/-- Micro is the Greek letter, the micro sign or the letter u. -/
def symbols : List SiPrefix :=
  [⟨"da", 1e1⟩, ⟨"Y", 1e24⟩, ⟨"Z", 1e21⟩, ⟨"E", 1e18⟩, ⟨"P", 1e15⟩, ⟨"T", 1e12⟩, ⟨"G", 1e9⟩,
   ⟨"M", 1e6⟩, ⟨"k", 1e3⟩, ⟨"h", 1e2⟩, ⟨"d", 1e-1⟩, ⟨"c", 1e-2⟩, ⟨"m", 1e-3⟩, ⟨"\u03BC", 1e-6⟩,
   ⟨"\u00B5", 1e-6⟩, ⟨"u", 1e-6⟩, ⟨"n", 1e-9⟩, ⟨"p", 1e-12⟩, ⟨"f", 1e-15⟩, ⟨"a", 1e-18⟩,
   ⟨"z", 1e-21⟩, ⟨"y", 1e-24⟩]

/-- All prefixes, in the order in which they are tried. -/
def all : List SiPrefix := names ++ symbols

end SiPrefix

end QuantityCalculus

namespace QuantityCalculus.Table

/-- The entry of a name. -/
def entry? (name : String) : Option AtomicUnit :=
  entries.lookup name

/-- What remains of a text behind a given beginning. -/
def dropFront? : (front : List Char) → List Char → Option (List Char)
  | [], cs => some cs
  | _ :: _, [] => none
  | f :: front, c :: cs => if f = c then dropFront? front cs else none

theorem dropFront?_eq_some_iff {front cs rest : List Char} :
    dropFront? front cs = some rest ↔ cs = front ++ rest := by
  induction front generalizing cs with
  | nil => simp [dropFront?]
  | cons f front ih =>
    cases cs with
    | nil => simp [dropFront?]
    | cons c cs =>
      by_cases h : f = c
      · subst h
        simp [dropFront?, ih]
      · simp [dropFront?, h, Ne.symm h]

/-- A name split into a prefix and the name of the unit it is attached to. -/
structure Split where
  attached : SiPrefix
  unitName : String
  unit : AtomicUnit

/-- The split of a name at a given prefix. -/
def splitAt? (name : String) (p : SiPrefix) : Option Split := do
  let rest ← dropFront? p.text.toList name.toList
  let unit ← entry? (String.ofList rest)
  if unit.takesPrefixes then some ⟨p, String.ofList rest, unit⟩ else none

/-- The split of a name that is not in the table. -/
def splitName? (name : String) : Option Split :=
  match entry? name with
  | some _ => none
  | none => SiPrefix.all.findSome? (splitAt? name)

/-- The unit with the prefix taken into its factor. -/
def Split.resolved (s : Split) : AtomicUnit :=
  { s.unit with factor := s.unit.factor * s.attached.factor }

/-- The atomic unit that a name stands for. -/
def lookup? (name : String) : Option AtomicUnit :=
  match entry? name with
  | some unit => some unit
  | none => (splitName? name).map Split.resolved

/-- The names in the table, sorted by their characters. -/
def names : List String :=
  (entries.map Prod.fst).mergeSort fun a b => decide (a ≤ b)

/-- The names of the base units, in the order of the base quantities. -/
def baseUnitNames : List String :=
  BaseQuantity.all.map BaseQuantity.baseUnit

end QuantityCalculus.Table

namespace QuantityCalculus.AtomicUnit

/-- The temperature in kelvin of a reading on a scale. -/
def toKelvin (scale : AtomicUnit) (reading : Float) : Float :=
  (reading + scale.offset.getD 0.0) * scale.factor

/-- The reading on a scale of a temperature in kelvin. -/
def ofKelvin (scale : AtomicUnit) (kelvin : Float) : Float :=
  kelvin / scale.factor - scale.offset.getD 0.0

end QuantityCalculus.AtomicUnit
