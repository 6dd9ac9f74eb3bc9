import Mathlib.Algebra.Order.Field.Power
import Mathlib.Tactic.FieldSimp
import Mathlib.Tactic.Linarith
import Mathlib.Tactic.Positivity
import QuantityCalculus.Proofs.Binary64.Packed

/-! Rounding to the nearest multiple. A significand with its round and sticky bits says where a
rational lies between two whole numbers, and a shift keeps what they say. The multiple chosen is
nearest to the rational in the spacing of binary64 numbers of its size, which is coarse enough for
the multiple to have 53 digits and fine enough for it to need them. -/

namespace QuantityCalculus.Binary64

open Float.Model Float.Model.UnpackedFloat

variable {m n : ℕ} {e t : ℤ} {acc : Accuracy} {em : ExtendedMantissa} {r : ℚ}

/-- What a significand and its accuracy say about a number. -/
def Approximates (m : ℕ) : Accuracy → ℚ → Prop
  | .exact, r => r = m
  | .inexact .lt, r => m < r ∧ r < m + 1 / 2
  | .inexact .eq, r => r = m + 1 / 2
  | .inexact .gt, r => m + 1 / 2 < r ∧ r < m + 1

theorem Approximates.bounds (h : Approximates m acc r) : m ≤ r ∧ r < m + 1 := by
  match acc with
  | .exact => constructor <;> linarith [show r = m from h]
  | .inexact .lt => constructor <;> linarith [h.1, h.2]
  | .inexact .eq => constructor <;> linarith [show r = m + 1 / 2 from h]
  | .inexact .gt => constructor <;> linarith [h.1, h.2]

theorem Approximates.extended (h : Approximates m acc r) :
    Approximates (ExtendedMantissa.ofMantissaAndAccuracy m acc).mantissa
      (ExtendedMantissa.ofMantissaAndAccuracy m acc).accuracy r := by
  match acc with
  | .exact => exact h
  | .inexact .lt => exact h
  | .inexact .eq => exact h
  | .inexact .gt => exact h

/-- Shifting by a digit halves the number. -/
theorem Approximates.shiftRightOne (h : Approximates em.mantissa em.accuracy r) :
    Approximates em.shiftRightOne.mantissa em.shiftRightOne.accuracy (r / 2) := by
  obtain ⟨m, round, sticky⟩ := em
  obtain ⟨k, digit, hm, hdiv, hmod⟩ : ∃ (k : ℕ) (digit : Bool),
      m = 2 * k + digit.toNat ∧ m / 2 = k ∧ (m % 2 != 0) = digit := by
    obtain hm | hm : m % 2 = 0 ∨ m % 2 = 1 := by omega
    · exact ⟨m / 2, false, by rw [Bool.toNat_false]; omega, rfl, by rw [hm]; rfl⟩
    · exact ⟨m / 2, true, by rw [Bool.toNat_true]; omega, rfl, by rw [hm]; rfl⟩
  have hm : (m : ℚ) = 2 * k + digit.toNat := by exact_mod_cast hm
  unfold ExtendedMantissa.shiftRightOne
  dsimp only at h ⊢
  rw [hdiv, hmod]
  cases digit <;> cases round <;> cases sticky <;>
    simp only [ExtendedMantissa.accuracy, Approximates, Bool.or_false, Bool.or_true,
      Bool.toNat_false, Bool.toNat_true, Nat.cast_zero, Nat.cast_one] at h hm ⊢ <;>
    first
    | linarith
    | constructor <;> linarith

theorem Approximates.shiftRight (h : Approximates em.mantissa em.accuracy r) (k : ℕ) :
    Approximates (em >>> k).mantissa (em >>> k).accuracy (r / 2 ^ k) := by
  induction k with
  | zero =>
    rw [pow_zero, div_one]
    exact h
  | succ k ih =>
    rw [pow_succ, ← div_div]
    exact ih.shiftRightOne

/-- A whole number chosen by the round and sticky bits is nearest. -/
theorem Approximates.near (h : Approximates em.mantissa em.accuracy r) :
    |(em.roundedMantissa : ℚ) - r| ≤ 1 / 2 := by
  obtain ⟨m, round, sticky⟩ := em
  cases round <;> cases sticky <;>
    simp only [ExtendedMantissa.accuracy, Approximates, ExtendedMantissa.roundedMantissa,
      Accuracy.roundToNearestEven] at h ⊢
  · rw [h]
    norm_num
  · rw [abs_le]
    constructor <;> linarith [h.1, h.2]
  · rw [h, abs_le]
    obtain hm | hm : m % 2 = 0 ∨ m % 2 = 1 := by omega
    · rw [hm]
      constructor <;> push_cast <;> linarith
    · rw [hm]
      constructor <;> push_cast <;> linarith
  · rw [abs_le]
    constructor <;> push_cast <;> linarith [h.1, h.2]

/-! ### The nearest multiple -/

/-- `n` is the multiple of `2 ^ t` nearest to `r`, and this is the spacing of binary64 numbers of
the size of `r`. -/
structure Nearest (n : ℕ) (t : ℤ) (r : ℚ) : Prop where
  near : |n * 2 ^ t - r| ≤ 2 ^ t / 2
  ge : -1074 ≤ t
  lt : r < 2 ^ 53 * 2 ^ t
  leading : t ≠ -1074 → 2 ^ 52 * 2 ^ t ≤ r

namespace Nearest

variable {k : ℤ} {c : ℕ}

/-- Rounding does not cross a multiple. -/
theorem le_of_le (h : Nearest n t r) (hr : r ≤ c * 2 ^ t) : n ≤ c := by
  have hpos : (0 : ℚ) < 2 ^ t := by positivity
  have hle : (n : ℚ) * 2 ^ t ≤ (c + 1 / 2) * 2 ^ t := by linarith [(abs_le.1 h.near).2]
  have hlt : (n : ℚ) < c + 1 := by linarith [le_of_mul_le_mul_right hle hpos]
  exact_mod_cast Nat.lt_succ_iff.1 (by exact_mod_cast hlt)

theorem le_of_ge (h : Nearest n t r) (hr : c * 2 ^ t ≤ r) : c ≤ n := by
  have hpos : (0 : ℚ) < 2 ^ t := by positivity
  have hle : ((c : ℚ) - 1 / 2) * 2 ^ t ≤ n * 2 ^ t := by linarith [(abs_le.1 h.near).1]
  have hlt : (c : ℚ) < n + 1 := by linarith [le_of_mul_le_mul_right hle hpos]
  exact_mod_cast Nat.lt_succ_iff.1 (by exact_mod_cast hlt)

theorem le (h : Nearest n t r) : n ≤ 2 ^ 53 :=
  h.le_of_le (by push_cast; exact h.lt.le)

theorem le_digits (h : Nearest n t r) (ht : t ≠ -1074) : 2 ^ 52 ≤ n :=
  h.le_of_ge (by push_cast; exact h.leading ht)

theorem two_pow_le (h : Nearest n t r) : 2 ^ t / 2 ≤ r / 2 ^ 53 ∨ t = -1074 := by
  by_cases ht : t = -1074
  · exact .inr ht
  · have := h.leading ht
    left
    rw [div_le_div_iff₀ two_pos (by positivity)]
    linarith

theorem le_two_pow_of_le (h : Nearest n t r) (hk : -1074 ≤ k) (hr : r ≤ 2 ^ k) :
    (n : ℚ) * 2 ^ t ≤ 2 ^ k := by
  obtain ⟨c, hc⟩ : ∃ c : ℕ, (2 : ℚ) ^ k = c * 2 ^ t := by
    have hle : t ≤ k := by
      by_contra hlt
      have hdigits := h.leading (by omega)
      have hpow : (2 : ℚ) ^ k < 2 ^ t := zpow_lt_zpow_right₀ one_lt_two (by omega)
      have hpos : (0 : ℚ) < 2 ^ t := by positivity
      linarith
    obtain ⟨c, rfl⟩ := Int.le.dest hle
    refine ⟨2 ^ c, ?_⟩
    rw [zpow_add₀ two_ne_zero, zpow_natCast, Nat.cast_pow, Nat.cast_ofNat, mul_comm]
  rw [hc] at hr ⊢
  exact mul_le_mul_of_nonneg_right (by exact_mod_cast h.le_of_le hr) (by positivity)

theorem two_pow_le_of_le (h : Nearest n t r) (hk : -1074 ≤ k) (hr : 2 ^ k ≤ r) :
    2 ^ k ≤ (n : ℚ) * 2 ^ t := by
  rcases le_or_gt t k with hle | hlt
  · obtain ⟨c, rfl⟩ := Int.le.dest hle
    have hc : (2 : ℚ) ^ (t + c) = (2 ^ c : ℕ) * 2 ^ t := by
      rw [zpow_add₀ two_ne_zero, zpow_natCast, Nat.cast_pow, Nat.cast_ofNat, mul_comm]
    rw [hc] at hr ⊢
    exact mul_le_mul_of_nonneg_right (by exact_mod_cast h.le_of_ge hr) (by positivity)
  · have hn : 1 ≤ n := (Nat.one_le_two_pow).trans (h.le_digits (by omega))
    have hpow : (2 : ℚ) ^ k ≤ 2 ^ t := zpow_le_zpow_right₀ one_le_two hlt.le
    refine hpow.trans (le_mul_of_one_le_left (by positivity) ?_)
    exact_mod_cast hn

end Nearest

theorem Canonical.nearest (h : Canonical m e) : Nearest m e (m * 2 ^ e) where
  near := by
    rw [sub_self, abs_zero]
    positivity
  ge := h.ge
  lt := mul_lt_mul_of_pos_right (by exact_mod_cast h.lt) (by positivity)
  leading he := mul_le_mul_of_nonneg_right (by exact_mod_cast h.leading he) (by positivity)


theorem log2_le_of_lt (hn : n < 2 ^ 53) : n.log2 ≤ 52 := by
  rcases Nat.eq_zero_or_pos n with rfl | hpos
  · decide
  · exact Nat.lt_succ_iff.1 ((Nat.log2_lt hpos.ne').2 hn)

/-- What a rounded significand becomes: zero, itself, or half of it with the next exponent if it has
gained a digit. -/
def settle (s : Sign) (n : ℕ) (t : ℤ) : UnpackedFloat :=
  if h : n = 0 then .zero s
  else if n < 2 ^ 53 then .finite s n t (Nat.pos_of_ne_zero h)
  else .finite s (2 ^ 52) (t + 1) (by decide)

theorem settle_zero (s : Sign) (t : ℤ) : settle s 0 t = .zero s := rfl

theorem settle_of_lt (s : Sign) (t : ℤ) (h0 : n ≠ 0) (hlt : n < 2 ^ 53) :
    settle s n t = .finite s n t (Nat.pos_of_ne_zero h0) := by
  rw [settle, dif_neg h0, if_pos hlt]

theorem shiftToTargetExponent_exact (hn : n ≤ 2 ^ 53) (ht : -1074 ≤ t) :
    (n < 2 ^ 53 ∧ shiftToTargetExponent .binary64 n t .exact = (⟨n, false, false⟩, t)) ∨
      (n = 2 ^ 53 ∧
        shiftToTargetExponent .binary64 n t .exact = (⟨2 ^ 52, false, false⟩, t + 1)) := by
  rcases Nat.lt_or_eq_of_le hn with hlt | rfl
  · have hlog := log2_le_of_lt hlt
    have hshift : (Format.binary64.targetExponent (totalExponent n t) - t).toNat = 0 := by
      rw [targetExponent_eq, totalExponent]
      omega
    refine .inl ⟨hlt, ?_⟩
    have hexact := shiftRight_exact n 0
    rw [pow_zero, mul_one] at hexact
    rw [shiftToTargetExponent, shiftToExponent, hshift, hexact]
    simp
  · have hlog : (2 ^ 53 : ℕ).log2 = 53 := by decide
    have hshift : (Format.binary64.targetExponent (totalExponent (2 ^ 53) t) - t).toNat = 1 := by
      rw [targetExponent_eq, totalExponent, hlog]
      omega
    refine .inr ⟨rfl, ?_⟩
    rw [shiftToTargetExponent, shiftToExponent, hshift]
    exact congrArg (·, t + 1) (shiftRight_exact (2 ^ 52) 1)

/-- The first shift of rounding brings the number to its spacing. -/
theorem nearest_shiftRight {k : ℕ} (h : Approximates m acc r)
    (hk : Format.binary64.targetExponent (totalExponent m e) = e + k) :
    Nearest (ExtendedMantissa.ofMantissaAndAccuracy m acc >>> k).roundedMantissa (e + k)
      (r * 2 ^ e) := by
  have hpos : (0 : ℚ) < 2 ^ (e + k) := by positivity
  have hpow : (2 : ℚ) ^ (e + k) = 2 ^ e * 2 ^ k := by
    rw [zpow_add₀ two_ne_zero, zpow_natCast]
  have hscale : r * 2 ^ e = r / 2 ^ k * 2 ^ (e + k) := by
    rw [hpow]
    field_simp
  have hdigits : ∀ d : ℕ, (2 : ℚ) ^ d * 2 ^ (e + k) = 2 ^ (d + k) * 2 ^ e := by
    intro d
    rw [hpow, pow_add]
    ring
  obtain ⟨hlower, hupper⟩ := h.bounds
  rw [targetExponent_eq, totalExponent] at hk
  constructor
  · rw [hscale, ← sub_mul, abs_mul, abs_of_pos hpos]
    linarith [mul_le_mul_of_nonneg_right (h.extended.shiftRight k).near hpos.le]
  · omega
  · have hm : m + 1 ≤ 2 ^ (m.log2 + 1) := Nat.lt_log2_self
    have hm : (m : ℚ) + 1 ≤ 2 ^ (m.log2 + 1) := by exact_mod_cast hm
    have hexp : (2 : ℚ) ^ (m.log2 + 1) ≤ 2 ^ (53 + k) := pow_le_pow_right₀ one_le_two (by omega)
    rw [hdigits]
    exact mul_lt_mul_of_pos_right ((hupper.trans_le hm).trans_le hexp) (by positivity)
  · intro ht
    have hlog : m.log2 = 52 + k := by omega
    have hne : m ≠ 0 := by
      rintro rfl
      rw [Nat.log2_zero] at hlog
      omega
    have hm : 2 ^ (52 + k) ≤ m := hlog ▸ Nat.log2_self_le hne
    have hm : (2 : ℚ) ^ (52 + k) ≤ m := by exact_mod_cast hm
    rw [hdigits]
    exact mul_le_mul_of_nonneg_right (hm.trans hlower) (by positivity)

/-- A significand that is not too short for its size is rounded to the nearest multiple. -/
theorem roundWithAccuracy_eq (s : Sign) (h : Approximates m acc r)
    (he : e ≤ Format.binary64.targetExponent (totalExponent m e)) :
    ∃ n t, Nearest n t (r * 2 ^ e) ∧ roundWithAccuracy .binary64 s m e acc = settle s n t := by
  obtain ⟨k, hk⟩ := Int.le.dest he
  have hshift : (e + k - e).toNat = k := by omega
  have hfirst : shiftToTargetExponent .binary64 m e acc =
      (ExtendedMantissa.ofMantissaAndAccuracy m acc >>> k, e + k) := by
    rw [shiftToTargetExponent, shiftToExponent, ← hk, hshift]
  have hnearest := nearest_shiftRight h hk.symm
  have hsecond := shiftToTargetExponent_exact hnearest.le hnearest.ge
  refine ⟨_, _, hnearest, ?_⟩
  unfold roundWithAccuracy
  rw [hfirst]
  dsimp only
  generalize (ExtendedMantissa.ofMantissaAndAccuracy m acc >>> k).roundedMantissa = n at hsecond ⊢
  obtain ⟨hlt, hsecond⟩ | ⟨rfl, hsecond⟩ := hsecond
  · rw [hsecond]
    rcases eq_or_ne n 0 with rfl | h0
    · rfl
    · rw [settle_of_lt s _ h0 hlt]
      exact dif_neg h0
  · rw [hsecond]
    rfl

end QuantityCalculus.Binary64
