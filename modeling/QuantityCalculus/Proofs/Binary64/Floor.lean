import QuantityCalculus.Binary64.Basic
import QuantityCalculus.Proofs.Binary64.Integers
import QuantityCalculus.Proofs.Binary64.Parts

/-! Integral and fractional parts of numbers. The integral part is read off the bits and is that of the
value; the fractional part is rounded, but stays between zero and one. The fractional part of a number
of at least one is no smaller than the last of its digits, so that it can be inverted. -/

namespace QuantityCalculus.Binary64

open Float.Model Float.Model.UnpackedFloat

variable {x z : Float} {s : Sign} {n : ℤ} {k : ℕ}

/-! ### Integral parts -/

theorem significand_of_zero (h : x.toModel.unpack = .zero s) : (parts x).significand = 0 := by
  rw [← ofModel_pack_unpack x, h]
  cases s <;> decide +kernel

/-- The value of a finite number in terms of its parts. -/
theorem toRat_eq_parts (hx : x.isFinite = true) :
    toRat x = (parts x).signed * 2 ^ (parts x).exponent := by
  rcases finite_cases hx with ⟨s, hu⟩ | ⟨s, m, e, hm, hu, -⟩
  · have hsigned : (parts x).signed = 0 := by
      rw [Parts.signed, significand_of_zero hu]
      exact ite_self _
    rw [toRat_of_zero hu, hsigned, Int.cast_zero, zero_mul]
  · obtain ⟨hm, he, hs⟩ := parts_of_unpack hu
    rw [toRat_of_finite hu, Parts.signed, hm, he]
    cases s with
    | negative =>
      rw [if_pos (hs.2 rfl)]
      push_cast
      exact (neg_mul _ _).symm
    | positive =>
      rw [if_neg fun h => nomatch hs.1 h]
      rfl

/-- The integral part that is read off the bits. -/
theorem floor_eq (hx : x.isFinite = true) : floor x = ⌊toRat x⌋ := by
  have hquotient : toRat x = (((parts x).signed * Nat.pow 2 (parts x).exponent.toNat : ℤ) : ℚ) /
      (Nat.pow 2 (-(parts x).exponent).toNat : ℕ) := by
    rw [toRat_eq_parts hx]
    generalize (parts x).exponent = e
    rcases le_total 0 e with he | he
    · obtain ⟨k, rfl⟩ := Int.eq_ofNat_of_zero_le he
      simp
    · obtain ⟨k, rfl⟩ := Int.exists_eq_neg_ofNat he
      simp [div_eq_mul_inv]
  rw [hquotient, Rat.floor_intCast_div_natCast]
  rfl

/-! ### Whole numbers with a sign -/

theorem toRat_ofInt (h : n.natAbs < 2 ^ 53) :
    (Float.ofInt n).isFinite = true ∧ toRat (Float.ofInt n) = n := by
  cases n with
  | ofNat m => exact toRat_ofNat h
  | negSucc m =>
    obtain ⟨hfinite, hvalue⟩ := toRat_ofNat h
    have hneg : Float.ofInt (Int.negSucc m) = -Float.ofNat (m + 1) := rfl
    rw [hneg, isFinite_neg, toRat_neg]
    refine ⟨hfinite, ?_⟩
    rw [Int.natAbs_negSucc] at hvalue
    rw [hvalue, Int.cast_negSucc]

/-! ### Fractional parts -/

/-- What is left of a number beyond its integral part. -/
theorem rounds_fract (hx : x.isFinite = true) (h : |toRat x| ≤ 2 ^ 52) :
    Rounds (x - Float.ofInt (floor x)) (Int.fract (toRat x)) := by
  rw [floor_eq hx]
  obtain ⟨hlow, hhigh⟩ := abs_le.1 h
  have hfloor : ⌊toRat x⌋.natAbs < 2 ^ 53 := by
    have hge : -2 ^ 52 ≤ ⌊toRat x⌋ := Int.le_floor.2 (by push_cast; exact hlow)
    have hle : ⌊toRat x⌋ ≤ 2 ^ 52 := by
      exact_mod_cast (Int.floor_le (toRat x)).trans hhigh
    omega
  obtain ⟨hfinite, hvalue⟩ := toRat_ofInt hfloor
  have hrounds := rounds_sub hx hfinite
  rwa [hvalue] at hrounds

/-- A rational between zero and one is rounded to such a number. -/
theorem Rounds.mem_unit {v : ℚ} (h : Rounds z v) (hv : 0 ≤ v) (hv' : v ≤ 1) :
    z.isFinite = true ∧ 0 ≤ toRat z ∧ toRat z ≤ 1 := by
  obtain ⟨hfinite, hle⟩ := h.le_two_pow (k := 0) (by decide) (by decide)
    (by rwa [abs_of_nonneg hv, zpow_zero])
  rw [zpow_zero] at hle
  exact ⟨hfinite, h.nonneg hfinite hv, (le_abs_self _).trans hle⟩

theorem rounds_inverse (hz : z.isFinite = true) (hne : toRat z ≠ 0) :
    Rounds (1.0 / z) (1 / toRat z) := by
  have hrounds := rounds_div usable_one.1 hz hne
  rwa [toRat_one] at hrounds

/-- The inverse of a number of at most one that is not too small. -/
theorem inverse_mem (hk : k ≤ 1023) (hge : (2 : ℚ) ^ (-k : ℤ) ≤ toRat z) (hle : toRat z ≤ 1) :
    (1.0 / z).isFinite = true ∧ 1 ≤ toRat (1.0 / z) ∧ toRat (1.0 / z) ≤ 2 ^ k := by
  have hpos : 0 < toRat z := lt_of_lt_of_le (by positivity) hge
  have hrounds := rounds_inverse (usable_iff.2 hpos.ne').1 hpos.ne'
  have hone : 1 ≤ 1 / toRat z := (one_le_div hpos).2 hle
  have hinverse : 1 / toRat z ≤ 2 ^ (k : ℤ) := by
    rw [div_le_iff₀ hpos, ← div_le_iff₀' (by positivity), one_div, ← zpow_neg]
    exact hge
  have habs : |1 / toRat z| = 1 / toRat z := abs_of_pos (by positivity)
  obtain ⟨hfinite, hupper⟩ := hrounds.le_two_pow (by omega) (by omega) (habs.trans_le hinverse)
  have hlower := hrounds.two_pow_le (k := 0) hfinite (by decide) (by rwa [habs, zpow_zero])
  rw [abs_of_nonneg (hrounds.nonneg hfinite (by positivity))] at hlower hupper
  rw [zpow_zero] at hlower
  rw [zpow_natCast] at hupper
  exact ⟨hfinite, hlower, hupper⟩

/-- The inverse of a rounded rational is near that of the rational itself. -/
theorem Rounds.inverse_near {v : ℚ} (h : Rounds z v) (hk : k ≤ 1022) (hge : (2 : ℚ) ^ (-k : ℤ) ≤ v)
    (hle : v ≤ 1) : |toRat (1.0 / z) * v - 1| ≤ 1 / 2 ^ 51 := by
  have hv : 0 < v := lt_of_lt_of_le (by positivity) hge
  have habs : |v| = v := abs_of_pos hv
  obtain ⟨hfinite, hnonneg, hone⟩ := h.mem_unit hv.le hle
  have hlower := h.two_pow_le hfinite (by omega) (hge.trans_eq habs.symm)
  rw [abs_of_nonneg hnonneg] at hlower
  have hpos : 0 < toRat z := lt_of_lt_of_le (by positivity) hlower
  obtain ⟨hfinite', hge', -⟩ := inverse_mem (by omega) hlower hone
  have hsmall : (2 : ℚ) ^ (-1022 : ℤ) ≤ 1 := zpow_le_one_of_nonpos₀ one_le_two (by decide)
  have hnear := h.near_of_le hfinite
    (by rw [habs]; exact (zpow_le_zpow_right₀ one_le_two (by omega)).trans hge)
  have hinverse := (rounds_inverse hfinite hpos.ne').near_of_le hfinite'
    (by rw [abs_of_pos (by positivity)]; exact hsmall.trans ((one_le_div hpos).2 hone))
  generalize toRat (1.0 / z) = r at *
  -- the inverse of what is left is off by a part, and so is what is left
  have hproduct : |r * toRat z - 1| ≤ 1 / 2 ^ 53 := by
    have hscaled : |r - 1 / toRat z| * toRat z ≤ 1 / 2 ^ 53 := by
      have hbound : |r - 1 / toRat z| ≤ 1 / 2 ^ 53 * |1 / toRat z| + 0 := hinverse
      rw [abs_of_pos (by positivity : 0 < 1 / toRat z), add_zero, mul_one_div] at hbound
      exact (le_div_iff₀ hpos).1 hbound
    rwa [← abs_of_pos hpos, ← abs_mul, abs_of_pos hpos, sub_mul, one_div_mul_cancel hpos.ne']
      at hscaled
  have hdifference : |r * (v - toRat z)| ≤ 1 / 2 ^ 53 * (r * v) := by
    have hbound : |toRat z - v| ≤ 1 / 2 ^ 53 * |v| + 0 := hnear
    rw [habs, add_zero, abs_sub_comm] at hbound
    rw [abs_mul, abs_of_pos (by linarith)]
    exact (mul_le_mul_of_nonneg_left hbound (by linarith)).trans_eq (by ring)
  have hsplit : r * v = r * toRat z + r * (v - toRat z) := by ring
  rw [abs_le] at hproduct hdifference ⊢
  constructor <;> linarith [hproduct.1, hproduct.2, hdifference.1, hdifference.2]

/-- The fractional part of a number of at least one is zero or no smaller than the last digit that the
number can have. -/
theorem fract_ge (h : 1 ≤ toRat x) :
    Int.fract (toRat x) = 0 ∨ (2 : ℚ) ^ (-52 : ℤ) ≤ Int.fract (toRat x) := by
  have hne : toRat x ≠ 0 := (zero_lt_one.trans_le h).ne'
  obtain ⟨m, e, hm, hu⟩ := unpack_of_toRat_pos (zero_lt_one.trans_le h)
  obtain ⟨hc, -⟩ := canonical_of_unpack hu
  have hvalue : toRat x = m * 2 ^ e := toRat_of_finite hu
  have he : -52 ≤ e := by
    by_contra hlt
    have hpow : (2 : ℚ) ^ e ≤ 2 ^ (-53 : ℤ) := zpow_le_zpow_right₀ one_le_two (by omega)
    have hm : (m : ℚ) < 2 ^ 53 := by exact_mod_cast hc.lt
    have hprod : (m : ℚ) * 2 ^ e < 2 ^ 53 * 2 ^ (-53 : ℤ) :=
      mul_lt_mul hm hpow (by positivity) (by positivity)
    norm_num at hprod
    linarith
  obtain ⟨j, hj⟩ := Int.le.dest he
  -- all digits are in front of the place 2 ^ -52
  have hmultiple : Int.fract (toRat x) =
      ((m * 2 ^ j - ⌊toRat x⌋ * 2 ^ 52 : ℤ) : ℚ) * 2 ^ (-52 : ℤ) := by
    rw [Int.fract]
    nth_rewrite 1 [hvalue]
    rw [← hj, zpow_add₀ two_ne_zero, zpow_natCast]
    push_cast
    norm_num
    ring
  generalize m * 2 ^ j - ⌊toRat x⌋ * 2 ^ 52 = c at hmultiple
  have hnonneg := Int.fract_nonneg (toRat x)
  rw [hmultiple] at hnonneg ⊢
  have hc : 0 ≤ c := by exact_mod_cast nonneg_of_mul_nonneg_left hnonneg (by positivity)
  rcases hc.eq_or_lt with rfl | hpos
  · left
    rw [Int.cast_zero, zero_mul]
  · right
    exact le_mul_of_one_le_left (by positivity) (by exact_mod_cast hpos)

end QuantityCalculus.Binary64
