import QuantityCalculus.Proofs.Binary64.Integers
import QuantityCalculus.Proofs.Decimal.FloatText
import QuantityCalculus.Proofs.Decimal.Grid

/-! The interval of a float. A rational that is rounded to a float lies in its interval, unless it is one of
the midpoints next to it; a decimal of few digits is none. So a decimal whose digits make less than
`2 ^ 52` is written again after it was rounded. -/

namespace QuantityCalculus

namespace Binary64

variable {m n m₁ m₂ : ℕ} {e t e₁ e₂ : ℤ} {r : ℚ}

theorem Canonical.unique (h₁ : Canonical m₁ e₁) (h₂ : Canonical m₂ e₂)
    (h : (m₁ : ℚ) * 2 ^ e₁ = m₂ * 2 ^ e₂) : m₁ = m₂ ∧ e₁ = e₂ := by
  rcases lt_trichotomy e₁ e₂ with hlt | rfl | hgt
  · exact absurd h (h₁.lt_of_exponent_lt h₂ hlt).ne
  · exact ⟨by exact_mod_cast mul_right_cancel₀ (by positivity) h, rfl⟩
  · exact absurd h (h₂.lt_of_exponent_lt h₁ hgt).ne'

/-- A nearest multiple has the digits of a number, or one more and then only zeros behind the first. -/
theorem Nearest.cases (h : Nearest n t r) (hc : Canonical m e) (hvalue : (m : ℚ) * 2 ^ e = n * 2 ^ t) :
    (n = m ∧ t = e) ∨ (n = 2 ^ 53 ∧ m = 2 ^ 52 ∧ t + 1 = e) := by
  rcases Nat.lt_or_eq_of_le h.le with hlt | rfl
  · have hn : Canonical n t := ⟨hlt, h.ge, h.le_digits⟩
    exact .inl (hn.unique hc hvalue.symm)
  · have hge := h.ge
    have hn : Canonical (2 ^ 52) (t + 1) := ⟨by decide, by omega, fun _ => le_rfl⟩
    have hhalf : ((2 ^ 52 : ℕ) : ℚ) * 2 ^ (t + 1) = m * 2 ^ e := by
      rw [hvalue, zpow_add_one₀ two_ne_zero]
      push_cast
      ring
    obtain ⟨hm, he⟩ := hn.unique hc hhalf
    exact .inr ⟨rfl, hm.symm, he⟩

end Binary64

namespace Decimal

open Binary64 Float.Model.UnpackedFloat

variable {x : Float} {r : ℚ} {n o j : ℕ} {t : ℤ}

/-! ### Positive numbers -/

theorem value_of (h : 0 < toRat x) : (Neighbourhood.of x).value = toRat x := by
  obtain ⟨m, e, hm, hu⟩ := unpack_of_toRat_pos h
  obtain ⟨hsig, hexp, -⟩ := parts_of_unpack hu
  rw [toRat_of_finite hu]
  show ((parts x).significand : ℚ) * 2 ^ (parts x).exponent = m * 2 ^ e
  rw [hsig, hexp]

theorem significand_pos (h : 0 < toRat x) : 0 < (Neighbourhood.of x).significand := by
  obtain ⟨m, e, hm, hu⟩ := unpack_of_toRat_pos h
  have hsig : (Neighbourhood.of x).significand = m := (parts_of_unpack hu).1
  rwa [hsig]

/-- A number that is not close to zero has all of its digits. -/
theorem significand_ge_of_le (h : 2 ^ (-1022 : ℤ) ≤ toRat x) :
    2 ^ 52 ≤ (Neighbourhood.of x).significand := by
  have hpos : (0 : ℚ) < 2 ^ (-1022 : ℤ) := by positivity
  have hvalue := value_of (hpos.trans_le h)
  by_contra hlt
  have hexp : (Neighbourhood.of x).exponent = -1074 := by
    by_contra hne
    exact hlt ((canonical_of x).leading hne)
  have hlt : ((Neighbourhood.of x).significand : ℚ) < 2 ^ 52 := by exact_mod_cast not_le.1 hlt
  have hpow : (2 : ℚ) ^ (-1022 : ℤ) = 2 ^ 52 * 2 ^ (-1074 : ℤ) := by
    rw [← zpow_natCast, ← zpow_add₀ two_ne_zero]
    rfl
  rw [Neighbourhood.value, hexp] at hvalue
  rw [← hvalue, hpow] at h
  exact absurd (le_of_mul_le_mul_right h (by positivity)) (not_le.2 hlt)

/-- A positive number is written as its shortest decimal. -/
theorem floatChars_of_pos (h : 0 < toRat x) :
    floatChars x = (Neighbourhood.of x).shortest.chars := by
  have husable := usable_iff.2 h.ne'
  obtain ⟨m, e, hm, hu⟩ := unpack_of_toRat_pos h
  obtain ⟨hsig, -, hsign⟩ := parts_of_unpack hu
  have hpositive : (parts x).negative = false := by
    rw [← Bool.not_eq_true, hsign]
    exact Sign.noConfusion
  rw [floatChars_eq husable.not_isNaN, hpositive, hsig, if_neg hm.ne', husable.not_isInf]
  rfl

/-! ### Rounding into the interval -/

/-- A rational is rounded to a number that has it in its interval, unless it is an end of the interval
of an odd number. -/
theorem contains_of_rounds (h : Rounds x r) (hx : 0 < toRat x) (hr : 0 < r)
    (hodd : (Neighbourhood.of x).significand % 2 = 1 →
      r ≠ (Neighbourhood.of x).lower ∧ r ≠ (Neighbourhood.of x).upper) :
    (Neighbourhood.of x).Contains r := by
  obtain ⟨n, t, hn, hvalue, -⟩ := h.nearest_of_isFinite (usable_iff.2 hx.ne').1
  rw [abs_of_pos hr] at hn
  rw [abs_of_pos hx, ← value_of hx] at hvalue
  have hv := canonical_of x
  generalize Neighbourhood.of x = v at *
  have hc : Binary64.Canonical v.significand v.exponent :=
    ⟨hv.significand_lt, hv.exponent_ge, hv.leading⟩
  suffices hbounds : v.lower ≤ r ∧ r ≤ v.upper from
    ⟨hbounds.1, hbounds.2, fun h1 => ⟨lt_of_le_of_ne hbounds.1 (hodd h1).1.symm,
      lt_of_le_of_ne hbounds.2 (hodd h1).2⟩⟩
  have hpos : (0 : ℚ) < 2 ^ t := by positivity
  obtain ⟨hl, hu⟩ := abs_le.1 hn.near
  unfold Neighbourhood.lower Neighbourhood.upper
  rcases hn.cases hc hvalue with ⟨rfl, rfl⟩ | ⟨rfl, hm, he⟩
  · refine ⟨?_, by linarith⟩
    split_ifs with hnarrow
    · -- no rational below a power of two has its spacing
      obtain ⟨hm, he⟩ := hv.narrowBelow_iff.1 hnarrow
      have hlead := hn.leading he
      have hm : (v.significand : ℚ) = 2 ^ 52 := by exact_mod_cast hm
      rw [hm]
      linarith
    · linarith
  · have hnarrow : v.narrowBelow = true := hv.narrowBelow_iff.2 ⟨hm, by have := hn.ge; omega⟩
    rw [hm, ← he, if_pos hnarrow, zpow_add_one₀ two_ne_zero]
    push_cast at hl hu ⊢
    constructor <;> linarith

/-! ### Midpoints -/

/-- An odd multiple of a power of two has more digits than a smaller whole number with a point in it. -/
theorem ne_odd_multiple (ho : o % 2 = 1) (hn : n < o) : (n : ℚ) / 10 ^ j ≠ o * 2 ^ t := by
  intro h
  have hten : (10 : ℚ) ^ j ≠ 0 := by positivity
  rw [div_eq_iff hten] at h
  rcases le_or_gt 0 t with ht | ht
  · obtain ⟨k, rfl⟩ := Int.eq_ofNat_of_zero_le ht
    rw [zpow_natCast] at h
    have h : n = o * 2 ^ k * 10 ^ j := by exact_mod_cast h
    have hle : o ≤ o * 2 ^ k * 10 ^ j := by
      rw [mul_assoc]
      exact Nat.le_mul_of_pos_right o (by positivity)
    omega
  · obtain ⟨k, hk⟩ := Int.exists_eq_neg_ofNat ht.le
    rw [hk, zpow_neg, zpow_natCast] at h
    field_simp at h
    have h : n * 2 ^ k = o * 10 ^ j := by exact_mod_cast h
    have hcoprime : Nat.Coprime (2 ^ k) (o * 5 ^ j) := by
      have htwo : Nat.Coprime 2 o := (Nat.gcd_rec 2 o).trans (by rw [ho]; rfl)
      exact Nat.Coprime.pow_left k (htwo.mul_right (Nat.Coprime.pow_right j (by decide)))
    have hsplit : o * 10 ^ j = o * 5 ^ j * 2 ^ j := by
      rw [mul_assoc, ← mul_pow]
      norm_num
    have hdvd : 2 ^ k ∣ 2 ^ j :=
      hcoprime.dvd_of_dvd_mul_left (hsplit ▸ Dvd.intro_left n h)
    have hle : 2 ^ k ≤ 10 ^ j :=
      (Nat.le_of_dvd (by positivity) hdvd).trans (Nat.pow_le_pow_left (by decide) j)
    have hlt : n * 2 ^ k < o * 10 ^ j := by
      calc n * 2 ^ k < o * 2 ^ k := Nat.mul_lt_mul_of_pos_right hn (by positivity)
        _ ≤ o * 10 ^ j := Nat.mul_le_mul_left o hle
    omega

/-- A decimal of fewer digits is no end of an interval. -/
theorem Neighbourhood.Canonical.ne_ends {v : Neighbourhood} (hc : v.Canonical)
    (hv : 2 ^ 52 ≤ v.significand) (hodd : v.significand % 2 = 1) (hn : n < 2 ^ 53 - 1) :
    (n : ℚ) / 10 ^ j ≠ v.lower ∧ (n : ℚ) / 10 ^ j ≠ v.upper := by
  have hnarrow : ¬ v.narrowBelow = true := fun h => by
    have := (hc.narrowBelow_iff.1 h).1
    omega
  have hlower : v.lower = (2 * v.significand - 1 : ℕ) * 2 ^ (v.exponent - 1) := by
    rw [Neighbourhood.lower, if_neg hnarrow, zpow_sub_one₀ two_ne_zero, Nat.cast_sub (by omega)]
    push_cast
    ring
  have hupper : v.upper = (2 * v.significand + 1 : ℕ) * 2 ^ (v.exponent - 1) := by
    rw [Neighbourhood.upper, zpow_sub_one₀ two_ne_zero]
    push_cast
    ring
  rw [hlower, hupper]
  exact ⟨ne_odd_multiple (by omega) (by omega), ne_odd_multiple (by omega) (by omega)⟩

/-- A decimal of fewer digits is rounded to a number that has it in its interval. -/
theorem contains_decimal (h : Rounds x (n / 10 ^ j)) (hx : 2 ^ (-1022 : ℤ) ≤ toRat x) (h0 : 0 < n)
    (hn : n < 2 ^ 53 - 1) : (Neighbourhood.of x).Contains (n / 10 ^ j) := by
  have hpos : (0 : ℚ) < 2 ^ (-1022 : ℤ) := by positivity
  exact contains_of_rounds h (hpos.trans_le hx) (by positivity) fun hodd =>
    (canonical_of x).ne_ends (significand_ge_of_le hx) hodd hn

/-- A decimal whose digits make less than `2 ^ 52` is what is written of the number it is rounded to. -/
theorem shortest_of_rounds (h : Rounds x (n / 10 ^ j)) (hx : 2 ^ (-1022 : ℤ) ≤ toRat x) (h0 : 0 < n)
    (hn : n < 2 ^ 52) : (Neighbourhood.of x).shortest.value = n / 10 ^ j := by
  have hcontains := contains_decimal h hx h0 (by omega)
  have hzpow : (n : ℚ) / 10 ^ j = n * 10 ^ (-j : ℤ) := by
    rw [zpow_neg, zpow_natCast, div_eq_mul_inv]
  rw [hzpow] at hcontains ⊢
  exact Neighbourhood.shortest_value_eq (canonical_of x) (significand_ge_of_le hx) hn hcontains

end Decimal

end QuantityCalculus
