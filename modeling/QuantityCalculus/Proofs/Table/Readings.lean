import QuantityCalculus.Proofs.Binary64.Accuracy
import QuantityCalculus.Proofs.Table.Temperature

/-! Errors of temperatures that go through kelvin. A reading on a scale is brought to kelvin and
back up to a few parts in `2 ^ 53` of the temperature and of the zero of the scale. -/

namespace QuantityCalculus.AtomicUnit

open Binary64

variable {s g : AtomicUnit} {x κ : Float} {a r t : ℚ}

theorem IsScale.factor_pos (h : s.IsScale) : 0 < toRat s.factor :=
  lt_of_lt_of_le (by positivity) h.factor_ge

/-- The temperature of a reading. -/
def temperature (s : AtomicUnit) (a : ℚ) : ℚ := (a + toRat s.shift) * toRat s.factor

/-- The reading of a temperature. -/
def reading (s : AtomicUnit) (a : ℚ) : ℚ := a / toRat s.factor - toRat s.shift

theorem IsScale.abs_div_factor_le (h : s.IsScale) (a : ℚ) :
    |a / toRat s.factor| ≤ |s.reading a| + toRat s.shift := by
  have hle := abs_sub_abs_le_abs_sub (a / toRat s.factor) (toRat s.shift)
  rw [abs_of_nonneg h.shift_nonneg] at hle
  exact sub_le_iff_le_add.1 hle

theorem isFinite_of_toKelvin (h : (s.toKelvin x).isFinite = true) :
    (x + s.shift).isFinite = true ∧ x.isFinite = true := by
  have h : ((x + s.shift) * s.factor).isFinite = true := h
  exact ⟨(isFinite_of_mul h).1, (isFinite_of_add (isFinite_of_mul h).1).1⟩

theorem isFinite_of_ofKelvin (h : (g.ofKelvin κ).isFinite = true) :
    (κ / g.factor).isFinite = true ∧ κ.isFinite = true := by
  have h : (κ / g.factor - g.shift).isFinite = true := h
  exact ⟨(isFinite_of_sub h).1, isFinite_of_div (isFinite_of_sub h).1⟩

/-- The sum of a reading and the shift, times the size of a degree. -/
theorem IsScale.near_sum (hs : s.IsScale) (h : (x + s.shift).isFinite = true) :
    Near (1 / 2 ^ 53) 0 (toRat (x + s.shift) * toRat s.factor) (s.temperature (toRat x)) := by
  have hsum := (near_add (isFinite_of_add h).1 hs.shift_finite h).mul_left (toRat s.factor)
  rwa [mul_zero, mul_comm, mul_comm (toRat s.factor)] at hsum

theorem IsScale.near_toKelvin (hs : s.IsScale) (h : (s.toKelvin x).isFinite = true) :
    Near (1 / 2 ^ 51) tiny (toRat (s.toKelvin x)) (s.temperature (toRat x)) := by
  have hsum := (isFinite_of_toKelvin h).1
  have hproduct := (rounds_mul hsum hs.factor_finite).near_toRat h
  refine (hproduct.trans (by norm_num) (hs.near_sum hsum)).mono (by norm_num) ?_
  rw [mul_zero, add_zero, add_zero]

/-- A sum that is zero or a temperature with all of its digits. -/
def KeepsDigits (s : AtomicUnit) (x : Float) : Prop :=
  (x + s.shift == 0.0) = true ∨ Normal (s.toKelvin x)

instance (s : AtomicUnit) (x : Float) : Decidable (s.KeepsDigits x) :=
  inferInstanceAs (Decidable (_ ∨ _))

theorem IsScale.near_toKelvin_of_keepsDigits (hs : s.IsScale)
    (h : (s.toKelvin x).isFinite = true) (hd : s.KeepsDigits x) :
    Near (1 / 2 ^ 51) 0 (toRat (s.toKelvin x)) (s.temperature (toRat x)) := by
  have hsum := (isFinite_of_toKelvin h).1
  have hproduct := rounds_mul hsum hs.factor_finite
  have hexact := hs.near_sum hsum
  rcases hd with hzero | hnormal
  · obtain ⟨_, hu⟩ := beq_zero_iff.1 hzero
    rw [toRat_of_zero hu, zero_mul] at hproduct hexact
    have hκ : toRat (s.toKelvin x) = 0 := hproduct.toRat_eq_zero h
    rw [hκ, hexact.eq_zero (by norm_num)]
    exact near_self (by norm_num) le_rfl 0
  · refine ((hproduct.near_of_normal hnormal).trans (by norm_num) hexact).mono (by norm_num) ?_
    rw [mul_zero, add_zero, add_zero]

/-- What comes back from kelvin, with the error that the temperature already has. -/
theorem IsScale.abs_ofKelvin_sub_le (hg : g.IsScale) (h : (g.ofKelvin κ).isFinite = true)
    (hκ : Near r t (toRat κ) a) (hr : 0 ≤ r) (hr' : r ≤ 1 / 2 ^ 40) (ht : 0 ≤ t) :
    |toRat (g.ofKelvin κ) - g.reading a| ≤ (r + 1 / 2 ^ 51) * |a / toRat g.factor| +
      toRat g.shift / 2 ^ 53 + 2 * (tiny + t / toRat g.factor) := by
  have hpos := hg.factor_pos
  obtain ⟨hfinite, hfinite'⟩ := isFinite_of_ofKelvin h
  have hdiv := (rounds_div hfinite' hg.factor_finite hpos.ne').near_toRat hfinite
  have hquotient := hdiv.trans (by norm_num) (hκ.div_right (toRat g.factor))
  rw [abs_of_pos hpos] at hquotient
  have hle := hquotient.abs_sub_sub_le (near_sub hfinite hg.shift_finite h) (by norm_num)
    hg.shift_nonneg
  have ht : 0 ≤ t / toRat g.factor := div_nonneg ht hpos.le
  have htiny := tiny_pos
  have hra : 0 ≤ r * |a / toRat g.factor| := mul_nonneg hr (abs_nonneg _)
  have hra' : r * |a / toRat g.factor| ≤ 1 / 2 ^ 40 * |a / toRat g.factor| :=
    mul_le_mul_of_nonneg_right hr' (abs_nonneg _)
  have hshift := hg.shift_nonneg
  refine hle.trans ?_
  linarith [abs_nonneg (a / toRat g.factor)]

/-! ### From one scale to another -/

/-- The conversion of readings between two scales with the same zero is a multiplication. -/
theorem reading_temperature (hg : g.IsScale) (h : s.zeroPoint = g.zeroPoint) :
    g.reading (s.temperature a) = a * (toRat s.factor / toRat g.factor) := by
  have hpos := hg.factor_pos.ne'
  have h : toRat s.shift * toRat s.factor = toRat g.shift * toRat g.factor := h
  rw [reading, temperature, add_mul, h]
  field_simp
  ring

/-- A conversion between scales with the same zero, with the error that the temperature has. -/
theorem IsScale.near_ofKelvin_toKelvin (hg : g.IsScale) (hz : s.zeroPoint = g.zeroPoint)
    (h : (g.ofKelvin (s.toKelvin x)).isFinite = true) (ht : 0 ≤ t)
    (hκ : Near (1 / 2 ^ 51) t (toRat (s.toKelvin x)) (s.temperature (toRat x))) :
    Near (1 / 2 ^ 50) (9 / 2 ^ 53 * toRat g.shift + 2 * (tiny + t / toRat g.factor))
      (toRat (g.ofKelvin (s.toKelvin x))) (toRat x * (toRat s.factor / toRat g.factor)) := by
  have hle := hg.abs_ofKelvin_sub_le h hκ (by norm_num) (by norm_num) ht
  rw [← reading_temperature hg hz]
  have hreading := hg.abs_div_factor_le (s.temperature (toRat x))
  rw [Near]
  linarith

/-! ### Back to kelvin -/

theorem IsScale.zeroPoint_nonneg (h : s.IsScale) : 0 ≤ s.zeroPoint :=
  mul_nonneg h.shift_nonneg h.factor_pos.le

theorem IsScale.factor_mul_tiny_le (h : s.IsScale) : toRat s.factor * tiny ≤ 1 / 2 ^ 120 :=
  (mul_le_mul h.factor_le tiny_le tiny_pos.le (by norm_num)).trans_eq (by norm_num)

theorem IsScale.tiny_div_factor_le (h : s.IsScale) : tiny / toRat s.factor ≤ 1 / 2 ^ 120 := by
  have hge := h.factor_ge
  have htiny := tiny_le
  rw [div_le_iff₀ h.factor_pos]
  linarith

/-- A temperature that is read off a scale and brought back to kelvin. -/
theorem IsScale.near_toKelvin_ofKelvin (hg : g.IsScale) (h : (g.ofKelvin κ).isFinite = true)
    (h' : (g.toKelvin (g.ofKelvin κ)).isFinite = true) :
    Near (1 / 2 ^ 49) (g.zeroPoint / 2 ^ 52 + 1 / 2 ^ 118)
      (toRat (g.toKelvin (g.ofKelvin κ))) (toRat κ) := by
  have hpos := hg.factor_pos
  have hread := hg.abs_ofKelvin_sub_le h (near_self le_rfl le_rfl _) le_rfl (by norm_num) le_rfl
  have hexact : Near (1 / 2 ^ 51) (g.zeroPoint / 2 ^ 53 + 2 * (toRat g.factor * tiny))
      (g.temperature (toRat (g.ofKelvin κ))) (toRat κ) := by
    have hdifference : g.temperature (toRat (g.ofKelvin κ)) - toRat κ =
        (toRat (g.ofKelvin κ) - g.reading (toRat κ)) * toRat g.factor := by
      unfold temperature reading
      field_simp
      ring
    have hle := mul_le_mul_of_nonneg_right hread hpos.le
    rw [abs_div, abs_of_pos hpos, zero_div] at hle
    rw [Near, hdifference, abs_mul, abs_of_pos hpos]
    refine hle.trans_eq ?_
    unfold zeroPoint
    field_simp
    ring
  have hzero := hg.zeroPoint_nonneg
  have hsmall := hg.factor_mul_tiny_le
  have htiny := tiny_le
  refine ((hg.near_toKelvin h').trans (by norm_num) hexact).mono (by norm_num) ?_
  linarith

/-- A temperature that is read off one scale and then another. The zero of the first one may not be
too many degrees of the second. -/
theorem IsScale.near_reading (hs : s.IsScale) (hg : g.IsScale)
    (hz : s.zeroPoint ≤ 2740000 * toRat g.factor) (h : (s.ofKelvin κ).isFinite = true)
    (h' : (g.ofKelvin (s.toKelvin (s.ofKelvin κ))).isFinite = true) :
    Near (1 / 2 ^ 40) (1 / 2 ^ 28) (toRat (g.ofKelvin (s.toKelvin (s.ofKelvin κ))))
      (g.reading (toRat κ)) := by
  have hpos := hg.factor_pos
  have hback := hs.near_toKelvin_ofKelvin h (isFinite_of_ofKelvin h').2
  have hzero := hs.zeroPoint_nonneg
  have hle := hg.abs_ofKelvin_sub_le h' hback (by norm_num) (by norm_num) (by positivity)
  have hreading := hg.abs_div_factor_le (toRat κ)
  -- What the first scale is off near its zero is counted in degrees of the second one.
  have hslack : (s.zeroPoint / 2 ^ 52 + 1 / 2 ^ 118) / toRat g.factor ≤
      2740000 / 2 ^ 52 + 1 / 2 ^ 38 := by
    have hge := hg.factor_ge
    rw [div_le_iff₀ hpos]
    linarith
  have hshift := hg.shift_le
  have htiny := tiny_le
  rw [Near]
  linarith [abs_nonneg (g.reading (toRat κ))]

end QuantityCalculus.AtomicUnit
