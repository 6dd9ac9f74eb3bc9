import QuantityCalculus.Proofs.Binary64.Accuracy

/-! Whole numbers and fractions as floats. A natural number becomes the float nearest to it, which is the
number itself if 53 binary digits suffice for it. So a fraction of two such numbers is rounded once,
and one with a longer numerator twice. -/

namespace QuantityCalculus.Binary64

open Float.Model Float.Model.UnpackedFloat

variable {z : Float} {m n : ℕ} {t : ℤ} {v q : ℚ}

/-! ### Whole numbers -/

/-- A multiple is nearest to itself. -/
theorem Nearest.eq_of_multiple (h : Nearest n t (m * 2 ^ t)) : n = m :=
  le_antisymm (h.le_of_le le_rfl) (h.le_of_ge le_rfl)

/-- A whole number of 53 binary digits is not rounded. -/
theorem Rounds.toRat_eq_natCast (h : Rounds z m) (hm : m < 2 ^ 53) :
    z.isFinite = true ∧ toRat z = m := by
  have hm' : (m : ℚ) ≤ 2 ^ (53 : ℤ) := by exact_mod_cast hm.le
  have hz := (h.le_two_pow (k := 53) (by decide) (by decide) (by rwa [Nat.abs_cast])).1
  obtain ⟨n, t, hn, hvalue, -⟩ := h.nearest_of_isFinite hz
  have hnonneg := h.nonneg hz (Nat.cast_nonneg m)
  rw [Nat.abs_cast] at hn
  rw [abs_of_nonneg hnonneg] at hvalue
  have ht : t ≤ 0 := by
    by_contra hpos
    have hlead := hn.leading (by omega)
    have hpow : (2 : ℚ) ^ (1 : ℤ) ≤ 2 ^ t := zpow_le_zpow_right₀ one_le_two (by omega)
    have hm : (m : ℚ) < 2 ^ 53 := by exact_mod_cast hm
    rw [zpow_one] at hpow
    linarith
  obtain ⟨k, hk⟩ := Int.exists_eq_neg_ofNat ht
  have hmultiple : (m : ℚ) = (m * 2 ^ k : ℕ) * 2 ^ t := by
    rw [hk, zpow_neg, zpow_natCast]
    push_cast
    field_simp
  rw [hmultiple] at hn
  exact ⟨hz, by rw [hvalue, hn.eq_of_multiple, ← hmultiple]⟩

theorem rounds_toFloat (n : UInt64) : Rounds n.toFloat n.toNat := by
  have h := rounds_normalize n.toNat 0
  rwa [zpow_zero, mul_one, Int.cast_natCast] at h

theorem toRat_one_bits : (Float.ofBits 0x3FF0000000000000).isFinite = true ∧
    toRat (Float.ofBits 0x3FF0000000000000) = 1 := by
  have hone : Float.ofBits 0x3FF0000000000000 = 1.0 := by decide +kernel
  rw [hone]
  exact ⟨usable_one.1, toRat_one⟩

theorem rounds_fast (h : n < 2 ^ 53) :
    Rounds (n.toUInt64.toFloat * Float.ofBits 0x3FF0000000000000) n := by
  have hword : n.toUInt64.toNat = n := by
    show n % 2 ^ 64 = n
    omega
  have hround := rounds_toFloat n.toUInt64
  rw [hword] at hround
  obtain ⟨hfinite, hvalue⟩ := hround.toRat_eq_natCast h
  have hproduct := rounds_mul hfinite toRat_one_bits.1
  rwa [hvalue, toRat_one_bits.2, mul_one] at hproduct

theorem rounds_slow (hn : 0 < n) : Rounds (Float.ofModel (Float.Model.ofScientific n 0)) n := by
  have hshift : n <<< 53 * 1 = n * 2 ^ 53 := by rw [Nat.shiftLeft_eq, mul_one]
  have hmul : Float.Model.ofScientific n 0 = Float.Model.pack
      (roundWithAccuracy .binary64 .positive (n * 2 ^ 53) (-53) .exact) := by
    rw [Float.Model.ofScientific, UnpackedFloat.ofScientific, dif_neg hn.ne', if_neg (by decide),
      if_neg (by show ¬ (0 : ℤ) < -(2 ^ 11 + n.log2); omega), if_pos le_rfl, ← hshift]
    rfl
  have hvalue : (n : ℚ) = ((n * 2 ^ 53 : ℕ) : ℚ) * 2 ^ (-53 : ℤ) := by
    rw [zpow_neg]
    push_cast
    field_simp
  rw [hmul, hvalue]
  exact (approximates_exact (n * 2 ^ 53)).rounds .positive (le_targetExponent fun _ => by omega)

/-- A natural number is rounded once. -/
theorem rounds_ofNat (n : ℕ) : Rounds (Float.ofNat n) n := by
  show Rounds (Float.ofScientific n false 0) n
  by_cases h : n < 2 ^ 53
  · have hfast : Float.ofScientific n false 0 =
        n.toUInt64.toFloat * Float.ofBits 0x3FF0000000000000 := dif_pos ⟨h, by decide⟩
    rw [hfast]
    exact rounds_fast h
  · have hslow : Float.ofScientific n false 0 = Float.ofModel (Float.Model.ofScientific n 0) :=
      dif_neg fun hn => h hn.1
    rw [hslow]
    exact rounds_slow (by omega)

theorem toRat_ofNat (h : n < 2 ^ 53) :
    (Float.ofNat n).isFinite = true ∧ toRat (Float.ofNat n) = n :=
  (rounds_ofNat n).toRat_eq_natCast h

/-! ### Fractions -/

theorem ofRat_of_pos (hq : 0 < q) : ofRat q = Float.ofNat q.num.natAbs / Float.ofNat q.den := by
  obtain ⟨k, hk⟩ := Int.eq_ofNat_of_zero_le (Rat.num_pos.2 hq).le
  rw [ofRat, hk]
  rfl

theorem eq_natAbs_div_den (hq : 0 < q) : q = (q.num.natAbs : ℚ) / q.den := by
  have hnum : ((q.num.natAbs : ℤ) : ℚ) = q.num := by
    rw [Int.natAbs_of_nonneg (Rat.num_pos.2 hq).le]
  rw [← Int.cast_natCast, hnum, Rat.num_div_den]

/-- A fraction of two short numbers is rounded once. -/
theorem rounds_ofRat (hq : 0 < q) (hn : q.num.natAbs < 2 ^ 53) (hd : q.den < 2 ^ 53) :
    Rounds (ofRat q) q := by
  obtain ⟨hn, hnum⟩ := toRat_ofNat hn
  obtain ⟨hd, hden⟩ := toRat_ofNat hd
  have hne : toRat (Float.ofNat q.den) ≠ 0 := by
    rw [hden]
    exact_mod_cast q.den_nz
  have hdiv := rounds_div hn hd hne
  rwa [hnum, hden, ← eq_natAbs_div_den hq, ← ofRat_of_pos hq] at hdiv

/-- A rational that is not close to zero is rounded by a part of it. -/
theorem Rounds.near_of_le (h : Rounds z v) (hz : z.isFinite = true)
    (hv : 2 ^ (-1022 : ℤ) ≤ |v|) : Near (1 / 2 ^ 53) 0 (toRat z) v := by
  have hsmall : (2 : ℚ) ^ (-1075 : ℤ) = 2 ^ (-1022 : ℤ) / 2 ^ 53 := by
    rw [← zpow_natCast, ← zpow_sub₀ two_ne_zero]
    rfl
  have hle : (2 : ℚ) ^ (-1022 : ℤ) / 2 ^ 53 ≤ |v| / 2 ^ 53 :=
    div_le_div_of_nonneg_right hv (by positivity)
  rw [Near, add_zero, one_div_mul_eq_div]
  rcases h.near hz with h | h
  · exact h
  · exact h.trans (hsmall.trans_le hle)

theorem normal_le : (2 : ℚ) ^ (-1022 : ℤ) ≤ 1 / 2 ^ 60 := by
  have hpow : (2 : ℚ) ^ (-60 : ℤ) = 1 / 2 ^ 60 := by rw [zpow_neg, one_div]; rfl
  rw [← hpow]
  exact zpow_le_zpow_right₀ one_le_two (by decide)

/-- A fraction with a longer numerator is rounded twice. -/
theorem near_ofRat (hq : 0 < q) (hn : q.num.natAbs < 2 ^ 64) (hd : q.den < 2 ^ 53) :
    (ofRat q).isFinite = true ∧ Near (9 / 2 ^ 55) 0 (toRat (ofRat q)) q := by
  have hvalue := eq_natAbs_div_den hq
  have hnum : (1 : ℚ) ≤ q.num.natAbs := by
    have := Rat.num_pos.2 hq
    exact_mod_cast show 1 ≤ q.num.natAbs by omega
  have hnum' : (q.num.natAbs : ℚ) ≤ 2 ^ 64 := by exact_mod_cast hn.le
  have hden : (1 : ℚ) ≤ q.den := by exact_mod_cast q.den_pos
  have hden' : (q.den : ℚ) ≤ 2 ^ 53 := by exact_mod_cast hd.le
  have hge : 1 / 2 ^ 53 ≤ q := by
    rw [hvalue]
    exact div_le_div₀ (by linarith) hnum (by linarith) hden'
  have hle : q ≤ 2 ^ 64 := by
    rw [hvalue]
    exact (div_le_self (by linarith) hden).trans hnum'
  have hsmall := normal_le
  obtain ⟨hfinite, hfirst⟩ : (Float.ofNat q.num.natAbs).isFinite = true ∧
      Near (1 / 2 ^ 53) 0 (toRat (Float.ofNat q.num.natAbs)) q.num.natAbs := by
    have hround := rounds_ofNat q.num.natAbs
    have hz := (hround.le_two_pow (k := 64) (by decide) (by decide)
      (by rw [Nat.abs_cast]; exact_mod_cast hnum')).1
    refine ⟨hz, hround.near_of_le hz ?_⟩
    rw [Nat.abs_cast]
    linarith
  obtain ⟨hdfinite, hdvalue⟩ := toRat_ofNat hd
  -- the quotient of the rounded numerator and the denominator
  have hquotient := hfirst.div_right q.den
  rw [zero_div, ← hvalue] at hquotient
  have hround := rounds_div hfinite hdfinite (by rw [hdvalue]; linarith)
  rw [hdvalue, ← ofRat_of_pos hq] at hround
  have hqle := hquotient.abs_le
  have hqge := hquotient.abs_ge
  rw [abs_of_pos hq] at hqle hqge
  have hz := (hround.le_two_pow (k := 65) (by decide) (by decide) (by norm_num; linarith)).1
  have hsecond := hround.near_of_le hz (by linarith)
  exact ⟨hz, (hsecond.trans (by norm_num) hquotient).mono (by norm_num) (by norm_num)⟩

end QuantityCalculus.Binary64
