import QuantityCalculus.Proofs.CompoundUnit.Moderate
import QuantityCalculus.Proofs.Quantity.PlainNumber
import QuantityCalculus.Proofs.Quantity.Route

/-! Comparing a quantity with itself. The second quantity is converted to the unit that it is already in,
by the quotient of what the unit is worth and the same number, or from a temperature scale to kelvin
and back. The quotient is one, and the values stay as they are, if the unit is worth a number that can
be divided by. If it is worth nothing or too much, as a high power of a large unit is, the quotient is
not a number, no value is close to what becomes of it, and the quantity does not equal itself. This
does not happen to a unit of a few whole powers. -/

namespace QuantityCalculus

open Binary64

namespace Quantity

open CompoundUnit Magnitude

variable {q : Quantity} {u : CompoundUnit} {s : AtomicUnit} {x : Float} {m : Magnitude Float}

/-- What a value becomes in its own unit is near it, if it is finite. -/
theorem near_converted_self (hk : Usable u.worth) (h : (converted u u x).isFinite = true) :
    Near (1 / 2 ^ 50) (1 / 2 ^ 39) (toRat (converted u u x)) (toRat x) := by
  have hnear := near_converted (sameZero_self u) (usable_div_self hk) h
  rwa [div_self (usable_iff.1 hk), mul_one] at hnear

theorem isClose_converted_self (hk : Usable u.worth) (hx : x.isFinite = true) :
    isClose x (converted u u x) = true := by
  by_cases h : (converted u u x).isFinite = true
  · exact isClose_of_near hx h (near_self (by norm_num) (by norm_num) _)
      ((near_converted_self hk h).mono (by norm_num) (by norm_num))
  · have hnumber := not_isNaN_converted (usable_div_self hk) (Rounds.self hx).not_isNaN
    exact isClose_of_isInf hx (isInf_of_not_isFinite hnumber (Bool.not_eq_true _ ▸ h))

theorem usable_of_temperatureScale (h : u.temperatureScale? = some s) : Usable u.worth := by
  rw [worth_of_temperatureScale h, usable_iff]
  exact (isScale_of_temperatureScale h).factor_pos.ne'

/-- A unit by which one cannot divide is no temperature scale, and leaves no number. -/
theorem isNaN_converted_self (hk : ¬ Usable u.worth) : (converted u u x).isNaN = true := by
  have hnone : u.temperatureScale? = none := by
    cases hs : u.temperatureScale? with
    | none => rfl
    | some s => exact absurd (usable_of_temperatureScale hs) hk
  rw [converted_of_none (.inl hnone)]
  exact isNaN_mul_iff.2 (.inr (.inl (isNaN_div_self hk)))

/-- Comparing a quantity with itself compares its values with what becomes of them. -/
theorem beq_self_iff (hu : u.WellFormed) : ((⟨m, u⟩ : Quantity) == ⟨m, u⟩) = true ↔
    ∀ x ∈ m.toList, isClose x (converted u u x) = true := by
  have h := allClose_map_iff (f := id) (g := converted u u) (m := m)
  rw [map_id] at h
  rw [beq_eq hu, h]
  rfl

/-- How a quantity compares with itself. -/
structure SelfEqualityLaw (q : Quantity) : Prop where
  converts : q.inUnit q.unit = .ok ⟨q.magnitude.map (converted q.unit q.unit), q.unit⟩
  equal_iff : (q == q) = true ↔
    q.isEmpty = true ∨ ∃ k, q.unit.coherentFactor = .ok k ∧ Usable k
  /-- Quantities in a unit of a few whole powers equal themselves. -/
  moderate : ∀ j, q.unit.Moderate j → (q == q) = true
  /-- Values in a unit that is no temperature scale stay exactly as they are. -/
  unchanged : q.unit.temperatureScale? = none → (∃ k, q.unit.coherentFactor = .ok k ∧ Usable k) →
    q.inUnit q.unit = .ok q
  /-- Readings of a temperature scale stay nearly as they are, unless they overflow in kelvin. -/
  scale : q.unit.temperatureScale?.isSome = true → (q == q) = true ∧
    ∀ x ∈ q.magnitude.toList, (converted q.unit q.unit x).isFinite = true →
      Near (1 / 2 ^ 50) (1 / 2 ^ 39) (toRat (converted q.unit q.unit x)) (toRat x)

theorem selfEqualityLaw (hq : q.unit.Reachable) (hm : ∀ x ∈ q.magnitude.toList, x.isFinite = true) :
    SelfEqualityLaw q := by
  have hu := hq.wellFormed
  have hconverts := inUnit_eq hu hu rfl q.magnitude
  have hself : (q == q) = true ↔
      ∀ x ∈ q.magnitude.toList, isClose x (converted q.unit q.unit x) = true := beq_self_iff hu
  have hworth : (∃ k, q.unit.coherentFactor = .ok k ∧ Usable k) ↔ Usable q.unit.worth := by
    simp [hu.coherentFactor_eq]
  have hequal : Usable q.unit.worth → (q == q) = true := fun hk =>
    hself.2 fun x hx => isClose_converted_self hk (hm x hx)
  constructor
  case converts => exact hconverts
  case equal_iff =>
    rw [hworth]
    constructor
    · intro h
      by_contra hneither
      rw [not_or] at hneither
      obtain ⟨hvalues, hk⟩ := hneither
      obtain ⟨x, hx⟩ := List.exists_mem_of_ne_nil _ fun hnil => hvalues (List.isEmpty_iff.2 hnil)
      have hclose := hself.1 h x hx
      rw [isClose_of_isNaN (isNaN_converted_self hk)] at hclose
      cases hclose
    · rintro (hvalues | hk)
      · have hnil : q.magnitude.toList = [] := List.isEmpty_iff.1 hvalues
        exact hself.2 fun x hx => absurd hx (by simp [hnil])
      · exact hequal hk
  case moderate => exact fun j h => hequal (h.within_worth hu).usable
  case unchanged =>
    intro hnone hk
    have hconverted : converted q.unit q.unit = (· * 1.0) := by
      funext x
      rw [converted_of_none (.inl hnone), Binary64.div_self (hworth.1 hk)]
    rw [hconverted, map_mul_one] at hconverts
    exact hconverts
  case scale =>
    intro hscale
    obtain ⟨s, hs⟩ := Option.isSome_iff_exists.1 hscale
    have hk := usable_of_temperatureScale hs
    exact ⟨hequal hk, fun x _ hfinite => near_converted_self hk hfinite⟩

/-- Temperatures in fahrenheit, a speed in a moderate unit, and a unit with a power that is no whole
number. -/
theorem selfEqualityLaw_fahrenheit : ∃ u v w : CompoundUnit,
    u.Reachable ∧ v.Reachable ∧ w.Reachable ∧
    u.name = "degF" ∧ SelfEqualityLaw ⟨.row [-40.0, 1e-300, 212.5], u⟩ ∧
    v.Moderate 10 ∧ SelfEqualityLaw ⟨.scalar 88.5, v⟩ ∧
    w.name = "1000 * mile^(1/2) / hour^-3" ∧ SelfEqualityLaw ⟨.scalar (-2.5), w⟩ := by
  have hrow : ∀ x ∈ [-40.0, 1e-300, 212.5], Float.isFinite x = true := by decide +kernel
  have hspeed : ∀ x ∈ [88.5], Float.isFinite x = true := by decide +kernel
  have hroot : ∀ x ∈ [-2.5], Float.isFinite x = true := by decide +kernel
  have hrun : ((CompoundUnit.parse "degF").map CompoundUnit.name).toOption = some "degF" := by
    decide +kernel
  obtain ⟨u, -, hu, hname⟩ := CompoundUnit.exists_reachable hrun
  have hrun : ((CompoundUnit.parse "1000 * km / hour").map fun v =>
      decide (v.Moderate 10)).toOption = some true := by
    decide +kernel
  obtain ⟨v, -, hv, hmoderate⟩ := CompoundUnit.exists_reachable hrun
  have hrun : ((CompoundUnit.parse "1000 * mile^(1/2) / hour^-3").map CompoundUnit.name).toOption =
      some "1000 * mile^(1/2) / hour^-3" := by
    decide +kernel
  obtain ⟨w, -, hw, hname'⟩ := CompoundUnit.exists_reachable hrun
  exact ⟨u, v, w, hu, hv, hw, hname, selfEqualityLaw hu hrow, of_decide_eq_true hmoderate,
    selfEqualityLaw hv hspeed, hname', selfEqualityLaw hw hroot⟩

/-- A quantity of one unit that does not equal itself. -/
def Unequal (s : String) : Prop :=
  ∃ u, parse s = .ok u ∧ (1.0 : Float).isFinite = true ∧
    ((⟨.scalar 1.0, u⟩ : Quantity) == ⟨.scalar 1.0, u⟩) = false

theorem unequal_of_run {s : String}
    (h : ((parse s).map fun u => (⟨.scalar 1.0, u⟩ : Quantity) == ⟨.scalar 1.0, u⟩).toOption =
      some false) : Unequal s := by
  obtain ⟨u, hu, -, hne⟩ := exists_reachable h
  exact ⟨u, hu, by decide +kernel, hne⟩

/-- Units that are worth too much or nothing, by their powers or by their scale. -/
theorem unequal_kilometers :
    Unequal "km^200" ∧ Unequal "km^-200" ∧ Unequal "1e200 * 1e200" :=
  ⟨unequal_of_run (by decide +kernel), unequal_of_run (by decide +kernel),
    unequal_of_run (by decide +kernel)⟩

end Quantity

end QuantityCalculus
