import QuantityCalculus.Proofs.Binary64.Value

/-! Rationals rounded to binary64 numbers. A number that a rational is rounded to is off by at most
half the spacing, which is a part in `2 ^ 53` of the rational unless that is close to zero; no power
of two lies between the two, and neither does zero. -/

namespace QuantityCalculus.Binary64

open Float.Model Float.Model.UnpackedFloat

variable {z : Float} {v w : ℚ} {k : ℤ}

/-- A float is the number that a rational is rounded to: it is finite and the nearest multiple, or
infinite if that multiple is too large, and on the same side of zero. -/
inductive Rounds (z : Float) (v : ℚ) : Prop
  | finite (n : ℕ) (t : ℤ) (isFinite : z.isFinite = true) (nearest : Nearest n t |v|)
    (value : |toRat z| = n * 2 ^ t) (side : 0 ≤ toRat z * v)
  | overflow (n : ℕ) (t : ℤ) (s : Sign) (unpack : z.toModel.unpack = .infinity s)
    (nearest : Nearest n t |v|) (large : 2 ^ 1024 ≤ (n : ℚ) * 2 ^ t) (side : 0 ≤ signed s v)

theorem abs_sub_of_mul_nonneg (h : 0 ≤ v * w) : |v - w| = abs (|v| - |w|) := by
  rcases mul_nonneg_iff.1 h with ⟨hv, hw⟩ | ⟨hv, hw⟩
  · rw [abs_of_nonneg hv, abs_of_nonneg hw]
  · rw [abs_of_nonpos hv, abs_of_nonpos hw, neg_sub_neg, abs_sub_comm]

namespace Rounds

theorem not_isNaN (h : Rounds z v) : z.isNaN = false := by
  cases h with
  | finite n t hz =>
    rcases finite_cases hz with ⟨s, hu⟩ | ⟨s, m, e, hm, hu, -⟩ <;> exact isNaN_of_unpack hu
  | overflow n t s hz => exact isNaN_of_unpack hz

theorem nearest_of_isFinite (h : Rounds z v) (hz : z.isFinite = true) :
    ∃ n t, Nearest n t |v| ∧ |toRat z| = n * 2 ^ t ∧ 0 ≤ toRat z * v := by
  cases h with
  | finite n t _ hn hvalue hside => exact ⟨n, t, hn, hvalue, hside⟩
  | overflow n t s hu =>
    rw [isFinite_of_unpack hu] at hz
    cases hz

theorem near (h : Rounds z v) (hz : z.isFinite = true) :
    |toRat z - v| ≤ |v| / 2 ^ 53 ∨ |toRat z - v| ≤ 2 ^ (-1075 : ℤ) := by
  obtain ⟨n, t, hn, hvalue, hside⟩ := h.nearest_of_isFinite hz
  have hnear := hn.near
  rw [abs_sub_of_mul_nonneg hside, hvalue]
  rcases hn.two_pow_le with hle | rfl
  · exact .inl (hnear.trans hle)
  · have hhalf : (2 : ℚ) ^ (-1074 : ℤ) / 2 = 2 ^ (-1075 : ℤ) := by
      rw [show (-1074 : ℤ) = -1075 + 1 from rfl, zpow_add_one₀ two_ne_zero,
        mul_div_cancel_right₀ _ two_ne_zero]
    exact .inr (hnear.trans hhalf.le)

/-- The error of rounding. -/
theorem error (h : Rounds z v) (hz : z.isFinite = true) :
    |toRat z - v| ≤ |v| / 2 ^ 53 + 2 ^ (-1075 : ℤ) := by
  have hrelative : 0 ≤ |v| / 2 ^ 53 := by positivity
  have habsolute : (0 : ℚ) ≤ 2 ^ (-1075 : ℤ) := by positivity
  rcases h.near hz with h | h
  · linarith
  · linarith

/-! Powers of two are not crossed. -/

theorem two_pow_le (h : Rounds z v) (hz : z.isFinite = true) (hk : -1074 ≤ k)
    (hv : 2 ^ k ≤ |v|) : 2 ^ k ≤ |toRat z| := by
  obtain ⟨n, t, hn, hvalue, -⟩ := h.nearest_of_isFinite hz
  rw [hvalue]
  exact hn.two_pow_le_of_le hk hv

theorem le_two_pow (h : Rounds z v) (hk : -1074 ≤ k) (hk' : k ≤ 1023) (hv : |v| ≤ 2 ^ k) :
    z.isFinite = true ∧ |toRat z| ≤ 2 ^ k := by
  cases h with
  | finite n t hz hn hvalue hside => exact ⟨hz, hvalue ▸ hn.le_two_pow_of_le hk hv⟩
  | overflow n t s hz hn hlarge =>
    have hpow : (2 : ℚ) ^ k < 2 ^ (1024 : ℤ) := zpow_lt_zpow_right₀ one_lt_two (by omega)
    exact absurd (hlarge.trans (hn.le_two_pow_of_le hk hv)) (not_le.2 (by exact_mod_cast hpow))

/-- Rounding keeps the side of zero. -/
theorem nonneg (h : Rounds z v) (hz : z.isFinite = true) (hv : 0 ≤ v) : 0 ≤ toRat z := by
  obtain ⟨n, t, hn, hvalue, hside⟩ := h.nearest_of_isFinite hz
  rcases hv.eq_or_lt with rfl | hv
  · have hn : n = 0 := Nat.le_zero.1 (hn.le_of_le (by simp))
    rw [hn, Nat.cast_zero, zero_mul, abs_eq_zero] at hvalue
    exact hvalue.ge
  · exact nonneg_of_mul_nonneg_left hside hv

/-- A finite number is what its own value is rounded to. -/
theorem self (hz : z.isFinite = true) : Rounds z (toRat z) := by
  have hside : 0 ≤ toRat z * toRat z := mul_self_nonneg _
  rcases finite_cases hz with ⟨s, hu⟩ | ⟨s, m, e, hm, hu, hc, he⟩
  · refine .finite 0 (-1074) hz ?_ ?_ hside <;> rw [toRat_of_zero hu, abs_zero]
    · have hzero : Canonical 0 (-1074) := ⟨by decide, le_rfl, fun h => absurd rfl h⟩
      simpa using hzero.nearest
    · rw [Nat.cast_zero, zero_mul]
  · have hvalue := abs_toRat_of_finite hu
    refine .finite m e hz ?_ hvalue hside
    rw [hvalue]
    exact hc.nearest

end Rounds

end QuantityCalculus.Binary64
