import QuantityCalculus.Proofs.Binary64.Special

/-! Errors of composed arithmetic. One rational is near another if it is off by a part of the second
one and an amount more; this is carried through a product with an exact factor and from one rational
to the next. An operation whose result is finite is near its exact value, by a part in `2 ^ 53` and
an amount below the smallest number; a sum needs no such amount. -/

namespace QuantityCalculus.Binary64

open Float.Model Float.Model.UnpackedFloat

variable {x y z u v : Float} {a b c k r r' t t' : ℚ}

/-! ### Rationals near each other -/

/-- The distance is at most a part `r` of the second rational and an amount `t` more. -/
def Near (r t a b : ℚ) : Prop := |a - b| ≤ r * |b| + t

theorem near_self (hr : 0 ≤ r) (ht : 0 ≤ t) (a : ℚ) : Near r t a a := by
  rw [Near, sub_self, abs_zero]
  positivity

theorem Near.mono (h : Near r t a b) (hr : r ≤ r') (ht : t ≤ t') : Near r' t' a b :=
  h.trans (add_le_add (mul_le_mul_of_nonneg_right hr (abs_nonneg b)) ht)

theorem Near.abs_le (h : Near r t a b) : |a| ≤ (1 + r) * |b| + t := by
  have htriangle : |a| ≤ |a - b| + |b| := by
    simpa using abs_add_le (a - b) b
  have h : |a - b| ≤ r * |b| + t := h
  linarith

theorem Near.abs_ge (h : Near r t a b) : (1 - r) * |b| ≤ |a| + t := by
  have htriangle : |b| ≤ |a - b| + |a| := by
    simpa [abs_sub_comm] using abs_add_le (b - a) a
  have h : |a - b| ≤ r * |b| + t := h
  linarith

theorem Near.eq_zero (h : Near r 0 0 b) (hr : r < 1) : b = 0 := by
  have hge := h.abs_ge
  rw [abs_zero, add_zero] at hge
  exact abs_nonpos_iff.1 (nonpos_of_mul_nonpos_right hge (sub_pos.2 hr))

theorem Near.trans (hr : 0 ≤ r) (h : Near r t a b) (h' : Near r' t' b c) :
    Near (r + r' + r * r') (t + t' + r * t') a c := by
  have htriangle : |a - c| ≤ |a - b| + |b - c| := abs_sub_le a b c
  have hb := mul_le_mul_of_nonneg_left h'.abs_le hr
  have h : |a - b| ≤ r * |b| + t := h
  have h' : |b - c| ≤ r' * |c| + t' := h'
  show |a - c| ≤ (r + r' + r * r') * |c| + (t + t' + r * t')
  linarith

theorem Near.mul_left (h : Near r t a b) (k : ℚ) : Near r (|k| * t) (k * a) (k * b) := by
  have h : |k| * |a - b| ≤ |k| * (r * |b| + t) := mul_le_mul_of_nonneg_left h (abs_nonneg k)
  rw [Near, ← mul_sub, abs_mul, abs_mul]
  linarith

theorem Near.div_right (h : Near r t a b) (k : ℚ) : Near r (t / |k|) (a / k) (b / k) := by
  have h := h.mul_left k⁻¹
  rwa [abs_inv, inv_mul_eq_div, inv_mul_eq_div, inv_mul_eq_div] at h

/-- The difference of a rational and an amount, both of which are off. -/
theorem Near.abs_sub_sub_le (h : Near r t a b) (h' : Near r' 0 k (a - c)) (hr' : 0 ≤ r')
    (hc : 0 ≤ c) : |k - (b - c)| ≤ (1 + r') * (r * |b| + t) + r' * (|b| + c) := by
  have h : |a - b| ≤ r * |b| + t := h
  have h' : |k - (a - c)| ≤ r' * |a - c| + 0 := h'
  have htriangle : |k - (b - c)| ≤ |k - (a - c)| + |a - b| := by
    simpa using abs_sub_le k (a - c) (b - c)
  have hle := (abs_sub_le a b c).trans (add_le_add_right (abs_sub b c) _)
  rw [abs_of_nonneg hc] at hle
  have hr := mul_le_mul_of_nonneg_left (hle.trans (add_le_add_left h _)) hr'
  linarith

/-! ### Single operations -/

/-- Half of the smallest number. -/
def tiny : ℚ := 2 ^ (-1075 : ℤ)

theorem tiny_pos : 0 < tiny := by
  unfold tiny
  positivity

theorem tiny_mul_two_pow (n : ℕ) : tiny * 2 ^ n = 2 ^ (-1075 + n : ℤ) := by
  rw [tiny, ← zpow_natCast, ← zpow_add₀ two_ne_zero]

theorem Rounds.near_toRat {w : ℚ} (h : Rounds z w) (hz : z.isFinite = true) :
    Near (1 / 2 ^ 53) tiny (toRat z) w := by
  have h := h.error hz
  rw [Near, tiny]
  linarith

/-- A number with all of its digits. -/
def Normal (x : Float) : Prop := 2 ^ (-1022 : ℤ) ≤ |toRat x|

instance (x : Float) : Decidable (Normal x) :=
  inferInstanceAs (Decidable (2 ^ (-1022 : ℤ) ≤ |toRat x|))

theorem Normal.usable (h : Normal x) : Usable x := by
  have hpos : (0 : ℚ) < 2 ^ (-1022 : ℤ) := by positivity
  exact usable_iff.2 (abs_pos.1 (hpos.trans_le h))

/-- A rational that is rounded to a number with all of its digits. -/
theorem Rounds.near_of_normal {w : ℚ} (h : Rounds z w) (hz : Normal z) :
    Near (1 / 2 ^ 52) 0 (toRat z) w := by
  have hrelative : 0 ≤ |w| / 2 ^ 53 := by positivity
  rw [Near, add_zero]
  rcases h.near hz.usable.1 with h | h
  · linarith
  · have hsmall : (2 : ℚ) ^ (-1075 : ℤ) = 2 ^ (-1022 : ℤ) / 2 ^ 53 := by
      rw [← zpow_natCast, ← zpow_sub₀ two_ne_zero]
      rfl
    have hz : (2 : ℚ) ^ (-1022 : ℤ) ≤ |toRat z| := hz
    have htriangle : |toRat z| ≤ |toRat z - w| + |w| := by
      simpa using abs_add_le (toRat z - w) w
    have hpos : (0 : ℚ) < 2 ^ (-1022 : ℤ) := by positivity
    generalize (2 : ℚ) ^ (-1022 : ℤ) = d at *
    rw [hsmall] at h
    linarith

theorem abs_toRat_le (x : Float) : |toRat x| ≤ 2 ^ 1024 := by
  by_cases hx : toRat x = 0
  · rw [hx, abs_zero]
    positivity
  · rcases finite_cases (usable_iff.2 hx).1 with ⟨s, hu⟩ | ⟨s, m, e, hm, hu, hc, he⟩
    · exact absurd (toRat_of_zero hu) hx
    · have hm : (m : ℚ) ≤ 2 ^ 53 := by exact_mod_cast hc.lt.le
      have hexp : (2 : ℚ) ^ e ≤ 2 ^ (971 : ℤ) := zpow_le_zpow_right₀ one_le_two he
      rw [abs_toRat_of_finite hu]
      calc (m : ℚ) * 2 ^ e ≤ 2 ^ 53 * 2 ^ (971 : ℤ) :=
            mul_le_mul hm hexp (by positivity) (by positivity)
        _ = 2 ^ 1024 := by
            rw [← zpow_natCast, ← zpow_add₀ two_ne_zero, ← zpow_natCast]
            rfl

/-! ### Sums are exact near zero -/

/-- Every number is a multiple of the smallest one. -/
theorem exists_multiple (x : Float) : ∃ n : ℤ, toRat x = n * 2 ^ (-1074 : ℤ) := by
  by_cases hx : toRat x = 0
  · exact ⟨0, by rw [hx, Int.cast_zero, zero_mul]⟩
  · rcases finite_cases (usable_iff.2 hx).1 with ⟨s, hu⟩ | ⟨s, m, e, hm, hu, hc, -⟩
    · exact absurd (toRat_of_zero hu) hx
    · obtain ⟨k, hk⟩ := Int.le.dest hc.ge
      have hvalue : (m : ℚ) * 2 ^ e = (m * 2 ^ k : ℕ) * 2 ^ (-1074 : ℤ) := by
        rw [← hk, add_comm, zpow_add₀ two_ne_zero, zpow_natCast, ← mul_assoc, Nat.cast_mul,
          Nat.cast_pow, Nat.cast_ofNat]
      rw [toRat_of_finite hu, hvalue]
      cases s with
      | negative =>
        refine ⟨-(m * 2 ^ k : ℕ), ?_⟩
        show -(((m * 2 ^ k : ℕ) : ℚ) * 2 ^ (-1074 : ℤ)) = _
        rw [Int.cast_neg, Int.cast_natCast, neg_mul]
      | positive =>
        refine ⟨(m * 2 ^ k : ℕ), ?_⟩
        rw [Int.cast_natCast]
        rfl

/-- A multiple of the smallest number is rounded to a part of itself. -/
theorem Rounds.near_of_multiple {n : ℤ} (h : Rounds z (n * 2 ^ (-1074 : ℤ)))
    (hz : z.isFinite = true) : Near (1 / 2 ^ 53) 0 (toRat z) (n * 2 ^ (-1074 : ℤ)) := by
  obtain ⟨c, t, hn, hvalue, hside⟩ := h.nearest_of_isFinite hz
  have habs : |(n : ℚ) * 2 ^ (-1074 : ℤ)| = (n.natAbs : ℕ) * 2 ^ (-1074 : ℤ) := by
    rw [abs_mul, abs_of_pos (by positivity : (0 : ℚ) < 2 ^ (-1074 : ℤ)), Nat.cast_natAbs,
      Int.cast_abs]
  rw [Near, add_zero, abs_sub_of_mul_nonneg hside, hvalue]
  rcases hn.two_pow_le with hle | rfl
  · have hnear := hn.near
    linarith
  · have hc : c = n.natAbs :=
      le_antisymm (hn.le_of_le habs.le) (hn.le_of_ge habs.ge)
    rw [habs, hc, sub_self, abs_zero]
    positivity

theorem Rounds.toRat_eq_zero (h : Rounds z 0) (hz : z.isFinite = true) : toRat z = 0 := by
  have hzero : (0 : ℚ) = (0 : ℤ) * 2 ^ (-1074 : ℤ) := by rw [Int.cast_zero, zero_mul]
  rw [hzero] at h
  have hnear := h.near_of_multiple hz
  rw [← hzero] at hnear
  have hle := hnear.abs_le
  rw [abs_zero, mul_zero, add_zero] at hle
  exact abs_nonpos_iff.1 hle

theorem near_add (hx : x.isFinite = true) (hy : y.isFinite = true)
    (hz : (x + y).isFinite = true) : Near (1 / 2 ^ 53) 0 (toRat (x + y)) (toRat x + toRat y) := by
  obtain ⟨m, hm⟩ := exists_multiple x
  obtain ⟨n, hn⟩ := exists_multiple y
  have hsum : toRat x + toRat y = (m + n : ℤ) * 2 ^ (-1074 : ℤ) := by
    rw [hm, hn, Int.cast_add, add_mul]
  have hrounds := rounds_add hx hy
  rw [hsum] at hrounds ⊢
  exact hrounds.near_of_multiple hz

theorem near_sub (hx : x.isFinite = true) (hy : y.isFinite = true)
    (hz : (x - y).isFinite = true) : Near (1 / 2 ^ 53) 0 (toRat (x - y)) (toRat x - toRat y) := by
  have hy : (-y).isFinite = true := (isFinite_neg y).trans hy
  rw [sub_eq_add] at hz ⊢
  have hnear := near_add hx hy hz
  rwa [toRat_neg, ← sub_eq_add_neg] at hnear

/-! ### Products with a quotient -/

theorem abs_mul_tiny_le (x : Float) : |toRat x| * tiny ≤ 1 / 2 ^ 51 := by
  have hpow : (2 : ℚ) ^ 1024 * tiny = 1 / 2 ^ 51 := by
    rw [mul_comm, tiny_mul_two_pow, one_div, ← zpow_natCast, ← zpow_neg]
    rfl
  exact (mul_le_mul_of_nonneg_right (abs_toRat_le x) tiny_pos.le).trans_eq hpow

theorem tiny_le : tiny ≤ 1 / 2 ^ 200 := by
  rw [tiny, one_div, ← zpow_natCast, ← zpow_neg]
  exact zpow_le_zpow_right₀ one_le_two (by decide)

/-- Multiplication with a quotient. The quotient may be close to zero, but it is multiplied with a
number of at most 1024 binary places. -/
theorem near_mul_div (hx : (x * (u / v)).isFinite = true) (h : Usable (u / v)) :
    Near (1 / 2 ^ 51) (1 / 2 ^ 50) (toRat (x * (u / v))) (toRat x * (toRat u / toRat v)) := by
  obtain ⟨hu, hv⟩ := usable_of_div h
  have hquotient := (rounds_div hu.1 hv.1 (usable_iff.1 hv)).near_toRat h.1
  have hproduct := (rounds_mul (isFinite_of_mul hx).1 h.1).near_toRat hx
  -- What the quotient is off is multiplied with the number, of which all is known is its range.
  have hsmall := abs_mul_tiny_le x
  have htiny := tiny_le
  refine (hproduct.trans (by norm_num) (hquotient.mul_left (toRat x))).mono (by norm_num) ?_
  linarith

/-- Multiplication with a quotient that has all of its digits. -/
theorem near_mul_div_of_normal (hx : (x * (u / v)).isFinite = true) (h : Normal (u / v)) :
    Near (1 / 2 ^ 51) tiny (toRat (x * (u / v))) (toRat x * (toRat u / toRat v)) := by
  obtain ⟨hu, hv⟩ := usable_of_div h.usable
  have hquotient := (rounds_div hu.1 hv.1 (usable_iff.1 hv)).near_of_normal h
  have hproduct := (rounds_mul (isFinite_of_mul hx).1 h.usable.1).near_toRat hx
  refine (hproduct.trans (by norm_num) (hquotient.mul_left (toRat x))).mono (by norm_num) ?_
  rw [mul_zero, mul_zero, add_zero, add_zero]

/-- A quotient of numbers is not far above the largest number. -/
theorem abs_div_mul_tiny_le (h : Usable (u / v)) : |toRat u / toRat v| * tiny ≤ 1 / 2 ^ 50 := by
  obtain ⟨hu, hv⟩ := usable_of_div h
  have hquotient := (rounds_div hu.1 hv.1 (usable_iff.1 hv)).near_toRat h.1
  have hle := mul_le_mul_of_nonneg_right (Near.abs_ge hquotient) tiny_pos.le
  have hsmall := abs_mul_tiny_le (u / v)
  have htiny : tiny * tiny ≤ 1 / 2 ^ 200 * (1 / 2 ^ 200) :=
    mul_le_mul tiny_le tiny_le tiny_pos.le (by positivity)
  have hpos : 0 ≤ |toRat u / toRat v| * tiny := mul_nonneg (abs_nonneg _) tiny_pos.le
  linarith

end QuantityCalculus.Binary64
