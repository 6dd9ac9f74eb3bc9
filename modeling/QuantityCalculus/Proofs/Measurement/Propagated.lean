import QuantityCalculus.Measurement.Arithmetic
import QuantityCalculus.Proofs.Binary64.Root
import QuantityCalculus.Proofs.Magnitude.Close

/-! Uncertainties of products and quotients with an exact operand, value by value. The uncertainty can
be scaled by the operand, or relative uncertainties can be combined, of which that of the operand is
zero. What is combined is scaled by the value again, so that the two agree up to rounding wherever
there is a relative uncertainty. Where the value is zero there is none, and the combined uncertainty
is zero. -/

namespace QuantityCalculus.Measurement

open Binary64 Float.Model Float.Model.UnpackedFloat

/-- The two operations that scale a measurement by a second operand. -/
inductive Scaling
  | product
  | quotient
  deriving DecidableEq

namespace Scaling

/-- What the operation does with numbers. -/
def act : Scaling → Float → Float → Float
  | product, x, y => x * y
  | quotient, x, y => x / y

/-- The rational that the operation multiplies with. -/
def multiplier : Scaling → ℚ → ℚ
  | product, r => r
  | quotient, r => r⁻¹

/-- The second operand can be divided by if it has to be. -/
def Admits (a : Scaling) (y : Float) : Prop := a = quotient → (y == 0.0) = false

instance (a : Scaling) (y : Float) : Decidable (a.Admits y) :=
  inferInstanceAs (Decidable (a = quotient → (y == 0.0) = false))

variable {a : Scaling} {x y : Float}

theorem rounds_act (hx : x.isFinite = true) (hy : y.isFinite = true) (h : a.Admits y) :
    Rounds (a.act x y) (toRat x * a.multiplier (toRat y)) := by
  cases a with
  | product => exact rounds_mul hx hy
  | quotient => exact rounds_div hx hy (usable_iff.1 ⟨hy, h rfl⟩)

theorem admits_abs_iff : a.Admits y.abs ↔ a.Admits y := by
  rw [Admits, Admits, abs_beq_zero]

theorem multiplier_abs (a : Scaling) (r : ℚ) : a.multiplier |r| = |a.multiplier r| := by
  cases a with
  | product => rfl
  | quotient => exact (abs_inv r).symm

theorem not_act_abs_lt_zero (a : Scaling) (hx : ¬ x < 0.0) (y : Float) : ¬ a.act x y.abs < 0.0 := by
  cases a with
  | product => exact not_mul_abs_lt_zero hx y
  | quotient => exact not_div_abs_lt_zero hx y

theorem isFinite_of_act (h : (a.act x y).isFinite = true) : x.isFinite = true := by
  cases a with
  | product => exact (isFinite_of_mul h).1
  | quotient => exact isFinite_of_div h

end Scaling

/-! ### Relative uncertainties -/

variable {s x y z : Float}

theorem eq_zero_of_unpack (h : z.toModel.unpack = .zero .positive) : z = 0.0 := by
  rw [← ofModel_pack_unpack z, h, ← unpack_zeroLiteral, ofModel_pack_unpack]

/-- A zero has no relative uncertainty. -/
theorem relativeTo_of_beq_zero (hx : (x == 0.0) = true) : relativeTo s x = 0.0 := by
  obtain ⟨t, hu⟩ := beq_zero_iff.1 hx
  have habs : x.abs.toModel.unpack = .zero .positive := by
    rw [unpack_abs, hu]
    rfl
  have hdiv := unpack_div s x.abs
  rw [habs] at hdiv
  have hfinite : (s / x.abs).isFinite = false := by
    rw [isFinite_of_unpack hdiv]
    cases s.toModel.unpack with
    | infinity t => exact congrArg _ (unpack_pack_infinity _)
    | notANumber => rfl
    | zero t => cases t <;> rfl
    | finite t m e hm => exact congrArg _ (unpack_pack_infinity _)
  rw [relativeTo, hfinite]
  rfl

theorem relativeTo_of_isFinite (h : (s / x.abs).isFinite = true) : relativeTo s x = s / x.abs :=
  if_pos h

/-- What is exact has the relative uncertainty zero, whatever its value. -/
theorem relativeTo_zero (y : Float) : relativeTo 0.0 y = 0.0 := by
  have hdiv := unpack_div 0.0 y.abs
  rw [unpack_zeroLiteral] at hdiv
  unfold relativeTo
  dsimp only
  rcases abs_cases y with hu | hu | hu | ⟨m, e, hm, hu⟩ <;> rw [hu] at hdiv
  · rw [isFinite_of_unpack hdiv]
    rfl
  · rw [isFinite_of_unpack hdiv]
    rfl
  · have hzero : 0.0 / y.abs = 0.0 := eq_zero_of_unpack (hdiv.trans (unpack_pack_zero _))
    rw [hzero, ite_self]
  · have hzero : 0.0 / y.abs = 0.0 := eq_zero_of_unpack (hdiv.trans (unpack_pack_zero _))
    rw [hzero, ite_self]

/-! ### Errors -/

section Errors

variable {p t h r σ v k : ℚ}

theorem near_abs {ρ τ a b : ℚ} (h : Near ρ τ a b) : Near ρ τ |a| |b| := by
  rw [Near, abs_abs]
  exact (abs_abs_sub_abs_le a b).trans h

/-- A relative uncertainty that is formed, taken as a root and multiplied with the result again. What
is lost where numbers are close to zero is multiplied with numbers of at most 1024 places. -/
theorem near_scaled (hv : v ≠ 0) (hσ : 0 ≤ σ) (hp : Near (1 / 2 ^ 53) tiny p (|t| * h))
    (hh : Near (1 / 2 ^ 48) 0 h r) (hr : Near (1 / 2 ^ 53) tiny r (σ / |v|))
    (ht : Near (1 / 2 ^ 53) tiny t (v * k)) (hrange : |t| * tiny ≤ 1 / 2 ^ 51)
    (hrange' : |r| * tiny ≤ 1 / 2 ^ 51) : Near (1 / 2 ^ 40) (1 / 2 ^ 28) p (σ * |k|) := by
  have hpos : 0 < |v| := abs_pos.2 hv
  have hexact : σ / |v| * |v * k| = σ * |k| := by
    rw [abs_mul]
    field_simp
  have hfirst := hh.mul_left |t|
  have hsecond := hr.mul_left |t|
  have hthird := (near_abs ht).mul_left (σ / |v|)
  rw [hexact, mul_comm (σ / |v|) |t|, abs_of_nonneg (by positivity : 0 ≤ σ / |v|)] at hthird
  rw [abs_abs] at hfirst hsecond
  -- the relative uncertainty is not far above the largest number
  have hquotient : σ / |v| * tiny ≤ 1 / 2 ^ 50 := by
    have hle := mul_le_mul_of_nonneg_right hr.abs_ge tiny_pos.le
    have htiny : tiny * tiny ≤ 1 / 2 ^ 200 * (1 / 2 ^ 200) :=
      mul_le_mul tiny_le tiny_le tiny_pos.le (by positivity)
    rw [abs_of_nonneg (by positivity : 0 ≤ σ / |v|)] at hle
    linarith
  have htiny := tiny_le
  refine (hp.trans (by norm_num) (hfirst.trans (by norm_num)
    (hsecond.trans (by norm_num) hthird))).mono (by norm_num) ?_
  linarith

end Errors

/-! ### Elements -/

/-- A value with its uncertainty, and the number that it is scaled by. -/
structure Element where
  value : Float
  uncertainty : Float
  factor : Float

namespace Element

/-- The uncertainty scaled by the factor. -/
def scaled (a : Scaling) (e : Element) : Float := a.act e.uncertainty e.factor.abs

/-- The relative uncertainty of the value. -/
def relative (e : Element) : Float := relativeTo e.uncertainty e.value

/-- The uncertainty that follows from relative ones. -/
def propagated (a : Scaling) (e : Element) : Float :=
  (a.act e.value e.factor).abs * hypot e.relative (relativeTo 0.0 e.factor)

/-- The operands are finite and so is what is formed of them, and the square of the relative
uncertainty keeps its digits. A relative uncertainty is only formed where the value is not zero. -/
structure InRange (a : Scaling) (e : Element) : Prop where
  value : e.value.isFinite = true
  factor : e.factor.isFinite = true
  admits : a.Admits e.factor
  scaled : (e.scaled a).isFinite = true
  relative : (e.value == 0.0) = false → (e.uncertainty / e.value.abs).isFinite = true
  square : (e.relative == 0.0) = true ∨ Normal (e.relative * e.relative)
  propagated : (e.propagated a).isFinite = true

instance (a : Scaling) (e : Element) : Decidable (InRange a e) :=
  decidable_of_iff (e.value.isFinite = true ∧ e.factor.isFinite = true ∧ a.Admits e.factor ∧
      (e.scaled a).isFinite = true ∧
      ((e.value == 0.0) = false → (e.uncertainty / e.value.abs).isFinite = true) ∧
      ((e.relative == 0.0) = true ∨ Normal (e.relative * e.relative)) ∧
      (e.propagated a).isFinite = true)
    ⟨fun ⟨hv, hf, ha, hs, hr, hn, hp⟩ => ⟨hv, hf, ha, hs, hr, hn, hp⟩,
      fun ⟨hv, hf, ha, hs, hr, hn, hp⟩ => ⟨hv, hf, ha, hs, hr, hn, hp⟩⟩

variable {a : Scaling} {e : Element}

theorem propagated_eq (a : Scaling) (e : Element) : e.propagated a =
    (a.act e.value e.factor).abs * (e.relative * e.relative + 0.0).sqrt := by
  have hzero : (0.0 * 0.0 : Float) = 0.0 := by decide +kernel
  rw [propagated, relativeTo_zero, hypot, hzero]

theorem not_propagated_lt_zero (a : Scaling) (e : Element) : ¬ e.propagated a < 0.0 := by
  rw [propagated_eq, Binary64.mul_comm]
  exact not_mul_abs_lt_zero (not_sqrt_lt_zero _) _

/-- Where the value is zero, no uncertainty is propagated. -/
theorem InRange.propagated_of_zero (h : InRange a e) (hv : (e.value == 0.0) = true) :
    e.propagated a = 0.0 := by
  have hrounds := Scaling.rounds_act h.value h.factor h.admits
  obtain ⟨s, hu⟩ := beq_zero_iff.1 hv
  rw [toRat_of_zero hu, zero_mul] at hrounds
  have hfinite := (hrounds.le_two_pow (k := 0) (by decide) (by decide) (by norm_num)).1
  have hzero : (a.act e.value e.factor).abs = 0.0 := by
    rcases finite_cases hfinite with ⟨t, hu⟩ | ⟨t, m, k, hm, hu, -⟩
    · refine eq_zero_of_unpack ?_
      rw [unpack_abs, hu]
      rfl
    · exact absurd (hrounds.toRat_eq_zero hfinite) (toRat_ne_zero hu)
  have hrelative : e.relative = 0.0 := relativeTo_of_beq_zero hv
  rw [propagated_eq, hzero, hrelative]
  decide +kernel

/-- Where the value is not zero, the two uncertainties are near the same rational. -/
theorem InRange.near (h : InRange a e) (hs : ¬ e.uncertainty < 0.0)
    (hv : (e.value == 0.0) = false) :
    Near (1 / 2 ^ 40) (1 / 2 ^ 28) (toRat (e.scaled a))
        (toRat e.uncertainty * |a.multiplier (toRat e.factor)|) ∧
      Near (1 / 2 ^ 40) (1 / 2 ^ 28) (toRat (e.propagated a))
        (toRat e.uncertainty * |a.multiplier (toRat e.factor)|) := by
  have huncertainty := Scaling.isFinite_of_act h.scaled
  rw [lt_zero_iff_toRat huncertainty, not_lt] at hs
  have hvalue := usable_iff.1 ⟨h.value, hv⟩
  have htiny := tiny_le
  constructor
  · have hrounds := Scaling.rounds_act huncertainty ((isFinite_abs _).trans h.factor)
      (Scaling.admits_abs_iff.2 h.admits)
    rw [toRat_abs, Scaling.multiplier_abs] at hrounds
    exact (hrounds.near_toRat h.scaled).mono (by norm_num) (by linarith)
  · have hfinite := propagated_eq a e ▸ h.propagated
    obtain ⟨habs, hroot⟩ := isFinite_of_mul hfinite
    have hpropagated := (rounds_mul habs hroot).near_toRat hfinite
    rw [← propagated_eq, toRat_abs] at hpropagated
    rw [isFinite_abs] at habs
    have hresult := (Scaling.rounds_act h.value h.factor h.admits).near_toRat habs
    -- the relative uncertainty is a quotient, and what is propagated is the root of its square
    have hr : e.relative = e.uncertainty / e.value.abs := relativeTo_of_isFinite (h.relative hv)
    have hfinite : e.relative.isFinite = true := hr ▸ h.relative hv
    have hquotient := rounds_div huncertainty ((isFinite_abs _).trans h.value)
      (by rw [toRat_abs]; exact abs_ne_zero.2 hvalue)
    rw [← hr, toRat_abs] at hquotient
    have hsquare := h.square.imp_left fun hzero => by
      obtain ⟨s, hu⟩ := beq_zero_iff.1 hzero
      exact toRat_of_zero hu
    obtain ⟨-, -, hnear⟩ := sqrt_mul_self_near hfinite
      (hquotient.nonneg hfinite (div_nonneg hs (abs_nonneg _))) hsquare
    exact near_scaled hvalue hs hpropagated hnear (hquotient.near_toRat hfinite) hresult
      (abs_mul_tiny_le _) (abs_mul_tiny_le _)

theorem InRange.isClose (h : InRange a e) (hs : ¬ e.uncertainty < 0.0)
    (hv : (e.value == 0.0) = false) : Magnitude.isClose (e.scaled a) (e.propagated a) = true ∧
      Magnitude.isClose (e.propagated a) (e.scaled a) = true := by
  obtain ⟨hscaled, hpropagated⟩ := h.near hs hv
  exact ⟨Magnitude.isClose_of_near h.scaled h.propagated hscaled hpropagated,
    Magnitude.isClose_of_near h.propagated h.scaled hpropagated hscaled⟩

end Element

end QuantityCalculus.Measurement
