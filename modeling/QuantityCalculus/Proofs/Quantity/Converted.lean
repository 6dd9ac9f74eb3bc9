import QuantityCalculus.Proofs.Quantity.Outcome

/-! What becomes of a value when a quantity is converted. Between two plain temperature scales it
goes through kelvin, and otherwise it is multiplied with the quotient of what the two units are
worth. A unit without a dimension is no temperature scale. -/

namespace QuantityCalculus

namespace CompoundUnit

variable {u v : CompoundUnit}

/-- How many coherent units a unit is worth; nothing, if one of its names is unknown. -/
def worth (u : CompoundUnit) : Float :=
  match u.coherentFactor with
  | .ok x => x
  | .error _ => 0.0

theorem WellFormed.coherentFactor_eq (hu : u.WellFormed) : u.coherentFactor = .ok u.worth := by
  obtain ⟨x, hx⟩ := hu.exists_coherentFactor
  rw [worth, hx]

theorem WellFormed.conversionFactor_eq (hu : u.WellFormed) (hv : v.WellFormed)
    (hd : u.dimension = v.dimension) : u.conversionFactor v = .ok (u.worth / v.worth) := by
  rw [conversionFactor, if_neg (not_not_intro hd), hu.coherentFactor_eq, hv.coherentFactor_eq]
  rfl

/-- A plain temperature scale is one name of the kelvin family, once, and nothing else. -/
theorem temperatureScale?_eq_some_iff {a : AtomicUnit} : u.temperatureScale? = some a ↔
    ∃ name, u.components = [(name, 1)] ∧ (u.scale == 1.0) = true ∧
      Table.lookup? name = some a ∧ a.family = .kelvin := by
  unfold temperatureScale?
  constructor
  · intro h
    split at h
    · rename_i name x hc
      split_ifs at h with hx
      obtain ⟨ha, hk⟩ := Option.filter_eq_some_iff.1 h
      exact ⟨name, hx.1 ▸ hc, hx.2, ha, of_decide_eq_true hk⟩
    · cases h
  · rintro ⟨name, hc, hs, ha, hk⟩
    rw [hc]
    dsimp only
    rw [if_pos ⟨rfl, hs⟩, ha]
    exact Option.filter_some_pos (decide_eq_true hk)

/-- A plain temperature scale measures a temperature. -/
theorem WellFormed.temperature_of_scale {a : AtomicUnit} (hu : u.WellFormed)
    (h : u.temperatureScale? = some a) : u.isDimensionless = false := by
  obtain ⟨name, hc, -, ha, hk⟩ := temperatureScale?_eq_some_iff.1 h
  have hunit : Table.unitDimension name = .ok Family.kelvin.dimension :=
    Table.unitDimension_eq_ok_iff.2 ⟨a, ha, hk ▸ rfl⟩
  have hone := hu.agrees.dimension_val .temperature
  have hkelvin : (Family.kelvin.dimension.get .temperature).val = 1 := by decide +kernel
  rw [hc, Powers.weigh_cons, Powers.weigh_nil, Table.exponentOf_eq hunit, hkelvin] at hone
  refine Bool.eq_false_iff.2 fun hzero => ?_
  rw [Dimension.isDimensionless_iff.1 hzero .temperature] at hone
  have hne : (0 : ℚ) ≠ (1 : Exponent).val * 1 + 0 := by decide +kernel
  exact hne hone

end CompoundUnit

namespace Quantity

variable {u v : CompoundUnit}

/-- What becomes of a value in one unit when it is converted to another unit. -/
def converted (u v : CompoundUnit) : Float → Float :=
  match u.temperatureScale?, v.temperatureScale? with
  | some source, some goal => fun x => goal.ofKelvin (source.toKelvin x)
  | _, _ => (· * (u.worth / v.worth))

theorem inUnit_eq (hu : u.WellFormed) (hv : v.WellFormed) (hd : u.dimension = v.dimension)
    (m : Magnitude Float) : inUnit ⟨m, u⟩ v = .ok ⟨m.map (converted u v), v⟩ := by
  unfold inUnit converted
  dsimp only
  rw [if_pos (CompoundUnit.isCompatibleWith_iff.2 hd), hu.conversionFactor_eq hv hd]
  cases u.temperatureScale? <;> cases v.temperatureScale? <;> rfl

/-- Two operations succeed with equal quantities. -/
def Agree (r s : Except Error Quantity) : Prop :=
  ∃ p p', r = .ok p ∧ s = .ok p' ∧ (p == p') = true

instance (r s : Except Error Quantity) : Decidable (Agree r s) :=
  match r, s with
  | .ok p, .ok p' => decidable_of_iff ((p == p') = true)
      ⟨fun h => ⟨p, p', rfl, rfl, h⟩, fun ⟨_, _, hp, hp', h⟩ => by cases hp; cases hp'; exact h⟩
  | .error _, _ => isFalse fun ⟨_, _, hp, _⟩ => by cases hp
  | .ok _, .error _ => isFalse fun ⟨_, _, _, hp', _⟩ => by cases hp'

end Quantity

end QuantityCalculus
