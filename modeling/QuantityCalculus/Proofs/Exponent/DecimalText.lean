import QuantityCalculus.Proofs.Decimal.Positional
import QuantityCalculus.Proofs.Exponent.Text

/-! Decimals read as exponents. The text of a decimal with few digits and few places expresses its value,
and the value is representable, so an exponent is read from it. -/

namespace QuantityCalculus

open Decimal Text

namespace Decimal.Scientific

/-- The decimal has at most eighteen digits and eighteen places, and it fits a word. -/
structure Short (d : Scientific) : Prop where
  coefficient_lt : d.coefficient < 10 ^ 18
  exponent_ge : -18 ≤ d.exponent
  value_lt : d.value < 0x8000000000000000

end Decimal.Scientific

namespace Exponent

variable {d : Scientific} {n m : ℕ}

/-! ### The value -/

theorem representable_natCast (h : n < 0x8000000000000000) : Representable n :=
  ⟨by simpa using h, by simp⟩

/-- Reducing a quotient makes its parts no larger. -/
theorem parts_div_le (hn : 0 < n) (hm : 0 < m) :
    ((n : ℚ) / m).num.natAbs ≤ n ∧ ((n : ℚ) / m).den ≤ m := by
  have hdiv : (n : ℚ) / m = Rat.divInt n m := by
    rw [Rat.divInt_eq_div, Int.cast_natCast, Int.cast_natCast]
  have hnum := Int.natAbs_dvd_natAbs.2 (Rat.num_dvd n (by omega : (m : ℤ) ≠ 0))
  have hden : (Rat.divInt n m).den ∣ m := by exact_mod_cast Rat.den_dvd n m
  rw [hdiv]
  exact ⟨Nat.le_of_dvd hn hnum, Nat.le_of_dvd hm hden⟩

theorem representable_div (hn : n < 0x8000000000000000) (hm : m < 0x8000000000000000)
    (h0 : 0 < m) : Representable ((n : ℚ) / m) := by
  rcases Nat.eq_zero_or_pos n with rfl | hpos
  · rw [Nat.cast_zero, zero_div]
    exact representable_zero
  · obtain ⟨hnum, hden⟩ := parts_div_le hpos h0
    exact ⟨hnum.trans_lt hn, hden.trans_lt hm⟩

theorem representable_value (h : d.Short) : Representable d.value := by
  obtain ⟨c, k⟩ := d
  obtain ⟨hc, hk, hv⟩ := h
  rcases le_or_gt 0 k with hpos | hneg
  · obtain ⟨n, rfl⟩ := Int.eq_ofNat_of_zero_le hpos
    have hvalue : Scientific.value ⟨c, n⟩ = (c * 10 ^ n : ℕ) := by
      rw [Scientific.value, zpow_natCast]
      push_cast
      rfl
    rw [hvalue] at hv ⊢
    exact representable_natCast (by exact_mod_cast hv)
  · obtain ⟨n, rfl⟩ := Int.exists_eq_neg_ofNat hneg.le
    have hvalue : Scientific.value ⟨c, -n⟩ = (c : ℚ) / (10 ^ n : ℕ) := by
      rw [Scientific.value, zpow_neg, zpow_natCast, div_eq_mul_inv]
      push_cast
      rfl
    have hn : n ≤ 18 := by
      dsimp only at hk
      omega
    have hpow : 10 ^ n ≤ 10 ^ 18 := Nat.pow_le_pow_right (by decide) hn
    rw [hvalue]
    exact representable_div (hc.trans (by decide)) (hpow.trans_lt (by decide)) (by positivity)

/-! ### The text -/

theorem isDigit_or_point (d : Scientific) : ∀ c ∈ d.chars, c.isDigit = true ∨ c = '.' := by
  intro c hc
  cases layout d with
  | whole _ hd => exact .inl (hd c hc)
  | point whole fraction hchars _ hd hf =>
    rw [hchars, List.mem_append, List.mem_cons] at hc
    rcases hc with hc | hc | hc
    · exact .inl (hd c hc)
    · exact .inr hc
    · exact .inl (hf c hc)

/-- The text of a short decimal expresses its value. -/
theorem expresses_value (h : d.Short) : Expresses d.chars d.value := by
  have hv := h.value_lt
  cases layout d with
  | whole hne hd hvalue =>
    rw [hvalue] at hv ⊢
    have hlt : digitsValue d.chars < 0x8000000000000000 := by exact_mod_cast hv
    have hword : IsWord d.chars (digitsValue d.chars) :=
      ⟨⟨[], 1, d.chars, .none, ⟨hne, hd⟩, rfl, (one_mul _).symm⟩, by omega, by omega⟩
    exact .whole hword
  | point whole fraction hchars hne hd hf hlen hneg hdigits hwhole =>
    have hcount : digitCount d.coefficient ≤ 18 :=
      (Nat.length_toDigits_le_iff (by decide) (by decide)).2 h.coefficient_lt
    have hk := h.exponent_ge
    have hfraction : fraction ≠ [] := by
      rintro rfl
      rw [List.length_nil] at hlen
      omega
    have hdecimal := Expresses.decimal .none ⟨hne, hd⟩ ⟨hfraction, hf⟩ (by omega) (by omega)
    have hvalue : d.value = ((1 * digitsValue (whole ++ fraction) : ℤ) : ℚ) /
        ((10 ^ fraction.length : ℤ) : ℚ) := by
      rw [hdigits, Scientific.value, hlen, zpow_neg, zpow_natCast, one_mul, ← div_eq_mul_inv]
      push_cast
      rfl
    rwa [decimal_value, List.nil_append, ← hvalue, ← hchars] at hdecimal

/-- A short decimal is read as its value. -/
theorem read_value (h : d.Short) : ∃ x, read d.chars = .ok x ∧ x.val = d.value := by
  have hr := representable_value h
  refine ⟨⟨d.value, hr.fits⟩, read_eq_ok (bare_self ?_ ?_) (expresses_value h) hr, rfl⟩
  · intro c hc
    rcases isDigit_or_point d c hc with hd | rfl
    · exact not_isBlank_of_isDigit hd
    · rfl
  · intro hp
    rcases isDigit_or_point d _ hp with hd | hd <;> cases hd

end Exponent

end QuantityCalculus
