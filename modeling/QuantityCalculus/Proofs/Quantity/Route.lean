import QuantityCalculus.Proofs.Magnitude.Close
import QuantityCalculus.Proofs.Quantity.Converted
import QuantityCalculus.Proofs.Table.Readings

/-! Conversions along two routes. Going from one unit to another by way of a third gives what going
there directly gives, up to what counts as equal, if all conversions on the way are of one kind:
either all of the units are plain temperature scales, or no two of them are plain scales with
different zeros, and every conversion amounts to a multiplication. The detour must not overflow, it
must not begin by losing digits near the smallest numbers, and if it reads off a scale with a zero
of its own, the unit that it leads to must not be tiny. -/

namespace QuantityCalculus

open Binary64

namespace CompoundUnit

variable {u v : CompoundUnit} {s : AtomicUnit}

/-- The factor between two units of the same dimension can be divided by. -/
def Convertible (u v : CompoundUnit) : Prop := ∃ k, u.conversionFactor v = .ok k ∧ Usable k

instance (u v : CompoundUnit) : Decidable (u.Convertible v) :=
  decidable_of_iff (∃ k ∈ (u.conversionFactor v).toOption, Usable k)
    ⟨fun ⟨k, hk, h⟩ => ⟨k, toOption_eq_some_iff.1 hk, h⟩,
      fun ⟨k, hk, h⟩ => ⟨k, toOption_eq_some_iff.2 hk, h⟩⟩

theorem Convertible.dimension_eq (h : u.Convertible v) : u.dimension = v.dimension := by
  obtain ⟨k, hk, -⟩ := h
  by_contra hd
  rw [conversionFactor, if_pos hd] at hk
  cases hk

theorem Convertible.usable (h : u.Convertible v) (hu : u.WellFormed) (hv : v.WellFormed) :
    Usable (u.worth / v.worth) := by
  obtain ⟨k, hk, hk'⟩ := h
  rw [hu.conversionFactor_eq hv (dimension_eq ⟨k, hk, hk'⟩)] at hk
  exact Except.ok.inj hk ▸ hk'

/-- If both units are plain temperature scales, they have the same zero. -/
def SameZero (u v : CompoundUnit) : Prop :=
  ∀ s ∈ u.temperatureScale?, ∀ g ∈ v.temperatureScale?, s.zeroPoint = g.zeroPoint

instance (u v : CompoundUnit) : Decidable (u.SameZero v) :=
  inferInstanceAs (Decidable (∀ s ∈ u.temperatureScale?, ∀ g ∈ v.temperatureScale?, _))

/-- A unit that is not tiny if it is reached by way of a plain scale with a zero of its own. -/
def Coarse (a b c : CompoundUnit) : Prop :=
  ∀ s ∈ a.temperatureScale?, ∀ g ∈ b.temperatureScale?, g.zeroPoint ≠ 0 →
    1 / 10000 ≤ |toRat c.worth|

instance (a b c : CompoundUnit) : Decidable (Coarse a b c) :=
  inferInstanceAs (Decidable (∀ s ∈ a.temperatureScale?, ∀ g ∈ b.temperatureScale?, _ → _))

theorem isScale_of_temperatureScale (h : u.temperatureScale? = some s) : s.IsScale := by
  obtain ⟨name, -, -, hs, hk⟩ := temperatureScale?_eq_some_iff.1 h
  exact Table.isScale_of_lookup hs hk

/-- A plain temperature scale is worth its degree. -/
theorem worth_of_temperatureScale (h : u.temperatureScale? = some s) : u.worth = s.factor := by
  obtain ⟨name, hc, hone, hs, -⟩ := temperatureScale?_eq_some_iff.1 h
  have hraise : (1 : Exponent).raise s.factor = 1.0 * s.factor := rfl
  have hcoherent : u.coherentFactor = .ok (1.0 * (1.0 * s.factor)) := by
    rw [coherentFactor, hc, eq_one_of_beq hone, ← hraise, List.foldlM_cons,
      Table.lookup_eq_ok_iff.2 hs]
    rfl
  rw [worth, hcoherent, Binary64.one_mul, Binary64.one_mul]

end CompoundUnit

namespace Quantity

open CompoundUnit

variable {a b c u v : CompoundUnit} {s g : AtomicUnit} {x : Float}

theorem converted_of_scales (hu : u.temperatureScale? = some s)
    (hv : v.temperatureScale? = some g) : converted u v x = g.ofKelvin (s.toKelvin x) := by
  rw [converted, hu, hv]

theorem converted_of_none (h : u.temperatureScale? = none ∨ v.temperatureScale? = none) :
    converted u v x = x * (u.worth / v.worth) := by
  unfold converted
  rcases h with h | h <;> rw [h]
  cases u.temperatureScale? <;> rfl

/-- A conversion is one between plain scales or it is a multiplication. -/
theorem scales_cases (u v : CompoundUnit) :
    (∃ s g, u.temperatureScale? = some s ∧ v.temperatureScale? = some g) ∨
      (u.temperatureScale? = none ∨ v.temperatureScale? = none) := by
  cases u.temperatureScale? <;> cases v.temperatureScale? <;> simp

theorem isFinite_of_converted (h : (converted u v x).isFinite = true) : x.isFinite = true := by
  rcases scales_cases u v with ⟨s, g, hu, hv⟩ | hnone
  · rw [converted_of_scales hu hv] at h
    exact (AtomicUnit.isFinite_of_toKelvin (AtomicUnit.isFinite_of_ofKelvin h).2).2
  · rw [converted_of_none hnone] at h
    exact (isFinite_of_mul h).1

/-! ### Errors of one conversion -/

theorem near_converted (hz : u.SameZero v) (hk : Usable (u.worth / v.worth))
    (h : (converted u v x).isFinite = true) :
    Near (1 / 2 ^ 50) (1 / 2 ^ 39) (toRat (converted u v x))
      (toRat x * (toRat u.worth / toRat v.worth)) := by
  have htiny := tiny_le
  rcases scales_cases u v with ⟨s, g, hu, hv⟩ | hnone
  · rw [converted_of_scales hu hv] at h ⊢
    rw [worth_of_temperatureScale hu, worth_of_temperatureScale hv]
    have hs := isScale_of_temperatureScale hu
    have hg := isScale_of_temperatureScale hv
    have hκ := hs.near_toKelvin (AtomicUnit.isFinite_of_ofKelvin h).2
    refine (hg.near_ofKelvin_toKelvin (hz s hu g hv) h tiny_pos.le hκ).mono le_rfl ?_
    have hdegrees := hg.tiny_div_factor_le
    have hshift := hg.shift_le
    linarith
  · rw [converted_of_none hnone] at h ⊢
    exact (near_mul_div h hk).mono (by norm_num) (by norm_num)

/-- A conversion that begins without losing digits: the temperature in kelvin or the factor is not
among the smallest numbers. -/
def KeepsDigits (u v : CompoundUnit) (x : Float) : Prop :=
  match u.temperatureScale?, v.temperatureScale? with
  | some s, some _ => s.KeepsDigits x
  | _, _ => Normal (u.worth / v.worth)

instance (u v : CompoundUnit) (x : Float) : Decidable (KeepsDigits u v x) := by
  unfold KeepsDigits
  split <;> infer_instance

/-- The zero of a scale on the way is not too many units away. -/
theorem zeroPoint_div_le (ha : a.temperatureScale? = some s) (hb : b.temperatureScale? = some g)
    (hcoarse : Coarse a b c) : g.zeroPoint / |toRat c.worth| ≤ 2740000 := by
  by_cases hzero : g.zeroPoint = 0
  · rw [hzero, zero_div]
    norm_num
  · have hge := hcoarse s ha g hb hzero
    have hle := (isScale_of_temperatureScale hb).zeroPoint_le
    rw [div_le_iff₀ (lt_of_lt_of_le (by norm_num) hge)]
    linarith

/-- What is lost at the beginning counts little in the end: nothing is lost, or the unit that leads to
the end is not many times as large as the last one. -/
def KeepsDigitsTo (a b c : CompoundUnit) (x : Float) : Prop :=
  KeepsDigits a b x ∨ |toRat b.worth / toRat c.worth| ≤ 2 ^ 20

instance (a b c : CompoundUnit) (x : Float) : Decidable (KeepsDigitsTo a b c x) :=
  inferInstanceAs (Decidable (_ ∨ _))

/-- The error of a temperature in kelvin, counted in a further unit. -/
theorem near_toKelvin_first (ha : a.temperatureScale? = some s) (hb : b.temperatureScale? = some g)
    (h : (s.toKelvin x).isFinite = true) (hd : KeepsDigitsTo a b c x) :
    ∃ t, 0 ≤ t ∧ |toRat b.worth / toRat c.worth| * (t / toRat g.factor) ≤ 1 / 2 ^ 40 ∧
      Near (1 / 2 ^ 51) t (toRat (s.toKelvin x)) (s.temperature (toRat x)) := by
  have hs := isScale_of_temperatureScale ha
  have hg := isScale_of_temperatureScale hb
  rcases hd with hd | hd
  · rw [KeepsDigits, ha, hb] at hd
    refine ⟨0, le_rfl, ?_, hs.near_toKelvin_of_keepsDigits h hd⟩
    rw [zero_div, mul_zero]
    norm_num
  · refine ⟨tiny, tiny_pos.le, ?_, hs.near_toKelvin h⟩
    have hdegrees := hg.tiny_div_factor_le
    have hnonneg : 0 ≤ tiny / toRat g.factor := div_nonneg tiny_pos.le hg.factor_pos.le
    exact (mul_le_mul hd hdegrees hnonneg (by norm_num)).trans (by norm_num)

/-- The error of a multiplication with a factor, counted in a further unit. -/
theorem near_mul_first (hnone : a.temperatureScale? = none ∨ b.temperatureScale? = none)
    (hk : Usable (a.worth / b.worth)) (hk' : Usable (b.worth / c.worth))
    (h : (x * (a.worth / b.worth)).isFinite = true) (hd : KeepsDigitsTo a b c x) :
    ∃ t, |toRat b.worth / toRat c.worth| * t ≤ 3 / 2 ^ 30 ∧
      Near (1 / 2 ^ 50) t (toRat (x * (a.worth / b.worth)))
        (toRat x * (toRat a.worth / toRat b.worth)) := by
  rcases hd with hd | hd
  · have hnormal : Normal (a.worth / b.worth) := by
      unfold KeepsDigits at hd
      rcases hnone with hnone | hnone <;> rw [hnone] at hd
      · exact hd
      · cases hs : a.temperatureScale? <;> rw [hs] at hd <;> exact hd
    exact ⟨tiny, (abs_div_mul_tiny_le hk').trans (by norm_num),
      (near_mul_div_of_normal h hnormal).mono (by norm_num) le_rfl⟩
  · exact ⟨1 / 2 ^ 50, (mul_le_mul_of_nonneg_right hd (by norm_num)).trans (by norm_num),
      (near_mul_div h hk).mono (by norm_num) le_rfl⟩

/-- What a conversion is off, counted in a further unit. -/
theorem near_converted_first (hz : a.SameZero b) (hk : Usable (a.worth / b.worth))
    (hk' : Usable (b.worth / c.worth)) (hd : KeepsDigitsTo a b c x) (hcoarse : Coarse a b c)
    (h : (converted a b x).isFinite = true) :
    Near (1 / 2 ^ 50) (3 / 2 ^ 30) (toRat (converted a b x) * (toRat b.worth / toRat c.worth))
      (toRat x * (toRat a.worth / toRat c.worth)) := by
  have hb := usable_iff.1 (usable_of_div hk').1
  suffices hfirst : ∃ t, |toRat b.worth / toRat c.worth| * t ≤ 3 / 2 ^ 30 ∧
      Near (1 / 2 ^ 50) t (toRat (converted a b x))
        (toRat x * (toRat a.worth / toRat b.worth)) by
    obtain ⟨t, ht, hnear⟩ := hfirst
    have hnear := (hnear.mul_left (toRat b.worth / toRat c.worth)).mono le_rfl ht
    rwa [mul_comm, mul_comm (toRat b.worth / toRat c.worth), mul_assoc,
      div_mul_div_cancel₀ hb] at hnear
  rcases scales_cases a b with ⟨s, g, ha, hb⟩ | hnone
  · rw [converted_of_scales ha hb] at h ⊢
    have hg := isScale_of_temperatureScale hb
    obtain ⟨t, ht, hlost, hκ⟩ :=
      near_toKelvin_first ha hb (AtomicUnit.isFinite_of_ofKelvin h).2 hd
    have hsmall := abs_div_mul_tiny_le hk'
    -- The zero of the scale in between is a bounded number of further units away.
    have hzero := zeroPoint_div_le ha hb hcoarse
    have hproduct : |toRat b.worth / toRat c.worth| * toRat g.shift =
        g.zeroPoint / |toRat c.worth| := by
      rw [worth_of_temperatureScale hb, abs_div, abs_of_pos hg.factor_pos, AtomicUnit.zeroPoint]
      ring
    rw [worth_of_temperatureScale hb] at hlost hsmall hproduct
    rw [worth_of_temperatureScale ha, worth_of_temperatureScale hb]
    refine ⟨_, ?_, hg.near_ofKelvin_toKelvin (hz s ha g hb) h ht hκ⟩
    linarith
  · rw [converted_of_none hnone] at h ⊢
    exact near_mul_first hnone hk hk' h hd

/-! ### Both routes -/

/-- All conversions on the way are between plain temperature scales, or all of them amount to
multiplications and the first one loses no digits. -/
inductive Consistent (a b c : CompoundUnit) (x : Float) : Prop
  | scales (first : a.temperatureScale?.isSome = true) (second : b.temperatureScale?.isSome = true)
    (third : c.temperatureScale?.isSome = true)
  | proportional (first : a.SameZero b) (second : b.SameZero c) (direct : a.SameZero c)
    (digits : KeepsDigitsTo a b c x)

theorem consistent_iff : Consistent a b c x ↔
    (a.temperatureScale?.isSome = true ∧ b.temperatureScale?.isSome = true ∧
      c.temperatureScale?.isSome = true) ∨
    (a.SameZero b ∧ b.SameZero c ∧ a.SameZero c ∧ KeepsDigitsTo a b c x) := by
  constructor
  · rintro (⟨ha, hb, hc⟩ | ⟨hab, hbc, hac, hd⟩)
    · exact .inl ⟨ha, hb, hc⟩
    · exact .inr ⟨hab, hbc, hac, hd⟩
  · rintro (⟨ha, hb, hc⟩ | ⟨hab, hbc, hac, hd⟩)
    · exact .scales ha hb hc
    · exact .proportional hab hbc hac hd

instance (a b c : CompoundUnit) (x : Float) : Decidable (Consistent a b c x) :=
  decidable_of_iff _ consistent_iff.symm

theorem sameZero_self (u : CompoundUnit) : u.SameZero u := fun s hs g hg => by
  cases Option.some.inj (hs.symm.trans hg)
  rfl

/-- The value after the detour is close to the direct one, when both are compared in their unit. -/
def RoutesClose (a b c : CompoundUnit) (x : Float) : Prop :=
  Magnitude.isClose (converted b c (converted a b x)) (converted c c (converted a c x)) = true

theorem routesClose_of_proportional (hab : a.SameZero b) (hbc : b.SameZero c) (hac : a.SameZero c)
    (hd : KeepsDigitsTo a b c x) (hcoarse : Coarse a b c) (hk : Usable (a.worth / b.worth))
    (hk' : Usable (b.worth / c.worth)) (hk'' : Usable (a.worth / c.worth))
    (h : (converted b c (converted a b x)).isFinite = true)
    (h' : (converted c c (converted a c x)).isFinite = true) :
    RoutesClose a b c x := by
  have hc := (usable_of_div hk').2
  have hfirst := near_converted_first hab hk hk' hd hcoarse (isFinite_of_converted h)
  have hroute := (near_converted hbc hk' h).trans (by norm_num) hfirst
  have hdirect := near_converted hac hk'' (isFinite_of_converted h')
  have hagain := near_converted (sameZero_self c) (usable_div_self hc) h'
  rw [div_self (usable_iff.1 hc), mul_one] at hagain
  exact Magnitude.isClose_of_near h h' (hroute.mono (by norm_num) (by norm_num))
    ((hagain.trans (by norm_num) hdirect).mono (by norm_num) (by norm_num))

theorem routesClose_of_scales {r : AtomicUnit} (ha : a.temperatureScale? = some s)
    (hb : b.temperatureScale? = some g) (hc : c.temperatureScale? = some r)
    (hcoarse : Coarse a b c) (h : (converted b c (converted a b x)).isFinite = true)
    (h' : (converted c c (converted a c x)).isFinite = true) :
    RoutesClose a b c x := by
  have hr := isScale_of_temperatureScale hc
  have hg := isScale_of_temperatureScale hb
  have hread := isFinite_of_converted h
  have hread' := isFinite_of_converted h'
  have hzero := zeroPoint_div_le ha hb hcoarse
  rw [worth_of_temperatureScale hc, abs_of_pos hr.factor_pos, div_le_iff₀ hr.factor_pos] at hzero
  -- All three readings are taken of the temperature that the first scale is brought to.
  have hzero' : r.zeroPoint ≤ 2740000 * toRat r.factor :=
    mul_le_mul_of_nonneg_right (hr.shift_le.trans (by norm_num)) hr.factor_pos.le
  unfold RoutesClose
  rw [converted_of_scales hb hc, converted_of_scales ha hb] at h ⊢
  rw [converted_of_scales hc hc, converted_of_scales ha hc] at h' ⊢
  rw [converted_of_scales ha hb] at hread
  rw [converted_of_scales ha hc] at hread'
  exact Magnitude.isClose_of_near h h' (hg.near_reading hr hzero hread h)
    (hr.near_reading hr hzero' hread' h')

/-- A conversion makes no value that is not a number. -/
theorem not_isNaN_converted (hk : Usable (u.worth / v.worth)) (hx : x.isNaN = false) :
    (converted u v x).isNaN = false := by
  rcases scales_cases u v with ⟨s, g, hu, hv⟩ | hnone
  · have hs := isScale_of_temperatureScale hu
    have hg := isScale_of_temperatureScale hv
    have hsum : (x + s.shift).isNaN = false := isNaN_add hx hs.shift_finite
    have hkelvin := isNaN_mul_of_usable hsum (usable_iff.2 hs.factor_pos.ne')
    have hdegrees := isNaN_div_of_usable hkelvin (usable_iff.2 hg.factor_pos.ne')
    rw [converted_of_scales hu hv]
    show ((x + s.shift) * s.factor / g.factor - g.shift).isNaN = false
    rw [sub_eq_add]
    exact isNaN_add hdegrees ((isFinite_neg _).trans hg.shift_finite)
  · rw [converted_of_none hnone]
    exact isNaN_mul_of_usable hx hk

/-- What comes from the detour is close to what comes directly and is compared in its own unit. -/
theorem routesClose (hcoarse : Coarse a b c) (hx : Consistent a b c x)
    (hk : Usable (a.worth / b.worth)) (hk' : Usable (b.worth / c.worth))
    (hk'' : Usable (a.worth / c.worth))
    (h : (converted b c (converted a b x)).isFinite = true) :
    RoutesClose a b c x := by
  by_cases h' : (converted c c (converted a c x)).isFinite = true
  · cases hx with
    | scales ha hb hc =>
      obtain ⟨s, ha⟩ := Option.isSome_iff_exists.1 ha
      obtain ⟨g, hb⟩ := Option.isSome_iff_exists.1 hb
      obtain ⟨r, hc⟩ := Option.isSome_iff_exists.1 hc
      exact routesClose_of_scales ha hb hc hcoarse h h'
    | proportional hab hbc hac hd =>
      exact routesClose_of_proportional hab hbc hac hd hcoarse hk hk' hk'' h h'
  · -- The direct value overflows, at once or when it is compared, and an infinity is close to all.
    have hc := (usable_of_div hk').2
    have hx := isFinite_of_converted (isFinite_of_converted h)
    have hnumber := not_isNaN_converted (usable_div_self hc)
      (not_isNaN_converted hk'' (Rounds.self hx).not_isNaN)
    exact Magnitude.isClose_of_isInf h (isInf_of_not_isFinite hnumber (Bool.not_eq_true _ ▸ h'))

/-- Comparison in one unit: the second magnitude is converted to the unit that it is already in. -/
theorem beq_eq (hc : c.WellFormed) (m n : Magnitude Float) :
    ((⟨m, c⟩ : Quantity) == ⟨n, c⟩) = m.allClose (n.map (converted c c)) := by
  have hd : (⟨m, c⟩ : Quantity).isCompatibleWith ⟨n, c⟩ = true :=
    CompoundUnit.isCompatibleWith_iff.2 rfl
  show isEqual _ _ = _
  rw [isEqual, if_pos hd, inUnit_eq hc hc rfl]

/-- Reads three units and tests them. -/
def testUnits (test : CompoundUnit → CompoundUnit → CompoundUnit → Bool) (s t w : String) :
    Except Error Bool := do
  pure (test (← parse s) (← parse t) (← parse w))

theorem exists_of_testUnits {test : CompoundUnit → CompoundUnit → CompoundUnit → Bool}
    {s t w : String} (h : (testUnits test s t w).toOption = some true) :
    ∃ a b c, parse s = .ok a ∧ parse t = .ok b ∧ parse w = .ok c ∧ test a b c = true := by
  obtain ⟨a, ha, h⟩ := bind_eq_ok_iff.1 (toOption_eq_some_iff.1 h)
  obtain ⟨b, hb, h⟩ := bind_eq_ok_iff.1 h
  obtain ⟨c, hc, h⟩ := bind_eq_ok_iff.1 h
  exact ⟨a, b, c, ha, hb, hc, Except.ok.inj h⟩

/-- The routes of a value between three units end apart, although all factors can be divided by. -/
def RoutesPart (s t w : String) (x : Float) : Prop :=
  ∃ a b c, parse s = .ok a ∧ parse t = .ok b ∧ parse w = .ok c ∧
    (a.Convertible b ∧ b.Convertible c ∧ a.Convertible c ∧ x.isFinite = true) ∧
      ¬ Agree (inUnit ⟨.scalar x, a⟩ b >>= fun p => p.inUnit c) (inUnit ⟨.scalar x, a⟩ c)

theorem routesPart_of_testUnits {s t w : String} {x : Float}
    (h : (testUnits (fun a b c => decide ((a.Convertible b ∧ b.Convertible c ∧ a.Convertible c ∧
      x.isFinite = true) ∧ ¬ Agree (inUnit ⟨.scalar x, a⟩ b >>= fun p => p.inUnit c)
        (inUnit ⟨.scalar x, a⟩ c))) s t w).toOption = some true) : RoutesPart s t w x := by
  obtain ⟨a, b, c, ha, hb, hc, h⟩ := exists_of_testUnits h
  exact ⟨a, b, c, ha, hb, hc, of_decide_eq_true h⟩

end Quantity

end QuantityCalculus
