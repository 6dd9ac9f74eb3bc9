import QuantityCalculus.Proofs.Binary64.Value
import QuantityCalculus.Proofs.Table.Names

/-! The temperature scales of the table. Their degrees are neither tiny nor huge in kelvin, and a
zero of their own is a few hundred kelvin above absolute zero and counted in degrees of the size of
a kelvin. All of this is read off the names of the table and the prefixes they take. -/

namespace QuantityCalculus

open Binary64

namespace AtomicUnit

/-- What is added to a reading; nothing, if the zero of the scale is absolute zero. -/
def shift (a : AtomicUnit) : Float := a.offset.getD 0.0

/-- The temperature in kelvin at which a reading is zero. -/
def zeroPoint (a : AtomicUnit) : ℚ := toRat a.shift * toRat a.factor

/-- A temperature scale with degrees of moderate size, and with a zero that is absolute zero or at
an everyday temperature. -/
structure IsScale (a : AtomicUnit) : Prop where
  factor_finite : a.factor.isFinite = true
  shift_finite : a.shift.isFinite = true
  factor_ge : 1 / 2 ^ 80 ≤ toRat a.factor
  factor_le : toRat a.factor ≤ 2 ^ 80
  shift_nonneg : 0 ≤ toRat a.shift
  shift_le : toRat a.shift ≤ 460
  zeroPoint_le : a.zeroPoint ≤ 274

instance (a : AtomicUnit) : Decidable a.IsScale :=
  decidable_of_iff (a.factor.isFinite = true ∧ a.shift.isFinite = true ∧
    1 / 2 ^ 80 ≤ toRat a.factor ∧ toRat a.factor ≤ 2 ^ 80 ∧ 0 ≤ toRat a.shift ∧
    toRat a.shift ≤ 460 ∧ a.zeroPoint ≤ 274)
    ⟨fun ⟨h₁, h₂, h₃, h₄, h₅, h₆, h₇⟩ => ⟨h₁, h₂, h₃, h₄, h₅, h₆, h₇⟩,
      fun ⟨h₁, h₂, h₃, h₄, h₅, h₆, h₇⟩ => ⟨h₁, h₂, h₃, h₄, h₅, h₆, h₇⟩⟩

end AtomicUnit

namespace Table

theorem isScale_entries : ∀ e ∈ entries, e.2.family = .kelvin → e.2.IsScale := by
  decide +kernel

theorem isScale_prefixed : ∀ e ∈ entries, e.2.family = .kelvin → e.2.takesPrefixes = true →
    ∀ p ∈ SiPrefix.all, ({ e.2 with factor := e.2.factor * p.factor } : AtomicUnit).IsScale := by
  decide +kernel

/-- Whatever name is looked up, a temperature scale is one with moderate degrees. -/
theorem isScale_of_lookup {name : String} {unit : AtomicUnit} (h : lookup? name = some unit)
    (hk : unit.family = .kelvin) : unit.IsScale := by
  rcases lookup?_cases h with he | ⟨p, hp, n, base, -, he, htakes, rfl⟩
  · exact isScale_entries _ (mem_entries_of_entry he) hk
  · exact isScale_prefixed _ (mem_entries_of_entry he) hk htakes p hp

end Table

end QuantityCalculus
