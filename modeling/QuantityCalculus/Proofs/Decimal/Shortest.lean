import Mathlib.Algebra.Order.Field.Power
import Mathlib.Tactic.FieldSimp
import Mathlib.Tactic.Linarith
import Mathlib.Tactic.Ring
import QuantityCalculus.Proofs.Decimal.Positional

/-! Shortest decimals tell numbers apart. The interval around a binary number reaches to the midpoints
next to it, and has its ends only if the significand is even; of two neighbours one is odd, so no
real lies in two of the intervals. The shortest decimal is chosen from the interval, in whole
numbers, so that it belongs to one number only. -/

namespace QuantityCalculus.Decimal

namespace Neighbourhood

variable {v w : Neighbourhood} {k : ℤ} {c : ℕ} {r : ℚ}

/-- The midpoint below the number. -/
def lower (v : Neighbourhood) : ℚ :=
  (v.significand - if v.narrowBelow then 1 / 4 else 1 / 2) * 2 ^ v.exponent

/-- The midpoint above the number. -/
def upper (v : Neighbourhood) : ℚ := (v.significand + 1 / 2) * 2 ^ v.exponent

/-- Whether a real rounds to the number. -/
structure Contains (v : Neighbourhood) (r : ℚ) : Prop where
  lower_le : v.lower ≤ r
  le_upper : r ≤ v.upper
  strict : v.significand % 2 = 1 → v.lower < r ∧ r < v.upper

/-! ### Tests in whole numbers -/

theorem pow_toNat {b : ℚ} (hb : b ≠ 0) (n : ℤ) : b ^ n.toNat = b ^ n * b ^ (-n).toNat := by
  rw [← zpow_natCast b n.toNat, ← zpow_natCast b (-n).toNat, ← zpow_add₀ hb]
  congr 1
  omega

/-- What both sides of a test are multiplied with to get whole numbers. -/
def weight (v : Neighbourhood) (k : ℤ) : ℚ := 4 * 2 ^ (-v.exponent).toNat * 10 ^ (-k).toNat

theorem weight_pos (v : Neighbourhood) (k : ℤ) : 0 < v.weight k := by
  unfold weight
  positivity

theorem cast_quarter (v : Neighbourhood) (k : ℤ) :
    (v.quarter k : ℚ) = 2 ^ v.exponent / 4 * v.weight k := by
  rw [quarter, weight, Nat.pow_eq, Nat.pow_eq]
  push_cast
  rw [pow_toNat two_ne_zero]
  ring

theorem cast_spacing (v : Neighbourhood) (k : ℤ) :
    (v.spacing k : ℚ) = 10 ^ k * v.weight k := by
  rw [spacing, weight, Nat.pow_eq, Nat.pow_eq]
  push_cast
  rw [pow_toNat (by norm_num : (10 : ℚ) ≠ 0) k]
  ring

theorem cast_point (v : Neighbourhood) (k : ℤ) (c : ℕ) :
    ((c * v.spacing k : ℕ) : ℚ) = c * 10 ^ k * v.weight k := by
  rw [Nat.cast_mul, cast_spacing, mul_assoc]

theorem cast_low (hv : 0 < v.significand) (k : ℤ) :
    (((4 * v.significand - (if v.narrowBelow then 1 else 2)) * v.quarter k : ℕ) : ℚ) =
      v.lower * v.weight k := by
  have hle : (if v.narrowBelow then 1 else 2) ≤ 4 * v.significand := by
    split_ifs <;> omega
  rw [Nat.cast_mul, Nat.cast_sub hle, cast_quarter, lower]
  split_ifs <;> push_cast <;> ring

theorem cast_high (v : Neighbourhood) (k : ℤ) :
    (((4 * v.significand + 2) * v.quarter k : ℕ) : ℚ) = v.upper * v.weight k := by
  rw [Nat.cast_mul, cast_quarter, upper]
  push_cast
  ring

theorem covers_iff (hv : 0 < v.significand) : v.covers k c = true ↔ v.Contains (c * 10 ^ k) := by
  have hw := v.weight_pos k
  have hle : ∀ {x y : ℕ} {a b : ℚ}, (x : ℚ) = a * v.weight k → (y : ℚ) = b * v.weight k →
      (x ≤ y ↔ a ≤ b) := by
    intro x y a b hx hy
    rw [← Nat.cast_le (α := ℚ), hx, hy, mul_le_mul_iff_left₀ hw]
  have hlt : ∀ {x y : ℕ} {a b : ℚ}, (x : ℚ) = a * v.weight k → (y : ℚ) = b * v.weight k →
      (x < y ↔ a < b) := by
    intro x y a b hx hy
    rw [← Nat.cast_lt (α := ℚ), hx, hy, mul_lt_mul_iff_left₀ hw]
  have hlow := cast_low hv k
  have hhigh := cast_high v k
  have hpoint := cast_point v k c
  unfold covers
  dsimp only
  split
  · rename_i heven
    rw [Bool.and_eq_true, decide_eq_true_iff, decide_eq_true_iff, hle hlow hpoint, hle hpoint hhigh]
    exact ⟨fun h => ⟨h.1, h.2, fun hodd => by omega⟩, fun h => ⟨h.lower_le, h.le_upper⟩⟩
  · rename_i hodd
    rw [Bool.and_eq_true, decide_eq_true_iff, decide_eq_true_iff, hlt hlow hpoint, hlt hpoint hhigh]
    exact ⟨fun h => ⟨h.1.le, h.2.le, fun _ => h⟩, fun h => h.strict (by omega)⟩

/-! ### The shortest decimal -/

theorem covers_of_onGrid (h : v.onGrid k = some c) : v.covers k c = true := by
  unfold onGrid at h
  dsimp only at h
  split at h
  · split_ifs at h <;> cases h <;> assumption
  · cases h
    assumption
  · cases h
    assumption
  · cases h

theorem contains_of_withDigits {n : ℕ} {d : Scientific} (hv : 0 < v.significand)
    (h : v.withDigits n = some d) : v.Contains d.value := by
  obtain ⟨c, hc, h⟩ := Option.map_eq_some_iff.1 h
  have hcontains := (covers_iff hv).1 (covers_of_onGrid hc)
  split_ifs at h with hpow
  · cases h
    have hvalue : ((1 : ℕ) : ℚ) * 10 ^ (v.leadingPlace + 1 - n + n) =
        c * 10 ^ (v.leadingPlace + 1 - n) := by
      rw [hpow, Nat.pow_eq, zpow_add₀ (by norm_num : (10 : ℚ) ≠ 0), zpow_natCast]
      push_cast
      ring
    rwa [← hvalue] at hcontains
  · cases h
    exact hcontains

theorem value_exact (v : Neighbourhood) : v.exact.value = v.significand * 2 ^ v.exponent := by
  have hmin : min v.exponent 0 = -((-v.exponent).toNat : ℤ) := by omega
  show ((v.significand * Nat.pow 2 v.exponent.toNat * Nat.pow 5 (-v.exponent).toNat : ℕ) : ℚ) *
    10 ^ min v.exponent 0 = _
  have hten : (10 : ℚ) ^ (-v.exponent).toNat = 5 ^ (-v.exponent).toNat * 2 ^ (-v.exponent).toNat := by
    rw [← mul_pow]
    norm_num
  rw [hmin, zpow_neg, zpow_natCast, hten, Nat.pow_eq, Nat.pow_eq]
  push_cast
  rw [pow_toNat two_ne_zero v.exponent]
  field_simp

theorem contains_exact (v : Neighbourhood) : v.Contains v.exact.value := by
  have hpos : (0 : ℚ) < 2 ^ v.exponent := by positivity
  have hlower : v.lower < v.exact.value := by
    rw [value_exact, lower]
    refine mul_lt_mul_of_pos_right ?_ hpos
    split_ifs <;> linarith
  have hupper : v.exact.value < v.upper := by
    rw [value_exact, upper]
    exact mul_lt_mul_of_pos_right (by linarith) hpos
  exact ⟨hlower.le, hupper.le, fun _ => ⟨hlower, hupper⟩⟩

/-- The shortest decimal rounds to the number. -/
theorem contains_shortest (hv : 0 < v.significand) : v.Contains v.shortest.value := by
  unfold shortest
  cases h : (List.range' 1 17).findSome? v.withDigits with
  | none => exact contains_exact v
  | some d =>
    obtain ⟨n, -, hn⟩ := List.exists_of_findSome?_eq_some h
    exact contains_of_withDigits hv hn

/-- Zero rounds to zero. -/
theorem contains_zero (hv : v.significand = 0) : v.Contains 0 := by
  have hpos : (0 : ℚ) < 2 ^ v.exponent := by positivity
  refine ⟨?_, ?_, fun hodd => by omega⟩
  · rw [lower, hv, Nat.cast_zero, zero_sub]
    refine mul_nonpos_of_nonpos_of_nonneg ?_ hpos.le
    split_ifs <;> norm_num
  · rw [upper, hv]
    positivity

/-! ### Numbers in binary form -/

/-- A number that is written with 53 binary digits, or with the smallest exponent and fewer; zero is
one of these. -/
structure Canonical (v : Neighbourhood) : Prop where
  significand_lt : v.significand < 2 ^ 53
  exponent_ge : -1074 ≤ v.exponent
  leading : v.exponent ≠ -1074 → 2 ^ 52 ≤ v.significand
  narrowBelow_iff : v.narrowBelow = true ↔ v.significand = 2 ^ 52 ∧ v.exponent ≠ -1074

/-- The intervals of two numbers touch at most, and then one of the numbers is odd. -/
def Apart (v w : Neighbourhood) : Prop :=
  v.upper ≤ w.lower ∧ (v.upper = w.lower → v.significand % 2 = 1 ∨ w.significand % 2 = 1)

theorem Apart.not_contains (h : Apart v w) (hv : v.Contains r) : ¬ w.Contains r := by
  intro hw
  obtain ⟨hle, hodd⟩ := h
  rcases hodd (le_antisymm hle (hw.lower_le.trans hv.le_upper)) with hm | hm
  · exact absurd (hle.trans hw.lower_le) (not_le.2 (hv.strict hm).2)
  · exact absurd (hv.le_upper.trans hle) (not_le.2 (hw.strict hm).1)

theorem apart_of_significand_lt (he : v.exponent = w.exponent)
    (h : v.significand < w.significand) : Apart v w := by
  have hpos : (0 : ℚ) < 2 ^ w.exponent := by positivity
  have hm : (v.significand : ℚ) + 1 ≤ w.significand := by exact_mod_cast h
  unfold Apart upper lower
  rw [he]
  constructor
  · refine mul_le_mul_of_nonneg_right ?_ hpos.le
    split_ifs <;> linarith
  · intro heq
    have heq := mul_right_cancel₀ hpos.ne' heq
    split_ifs at heq
    · linarith
    · have hnext : (w.significand : ℚ) = v.significand + 1 := by linarith
      have hnext : w.significand = v.significand + 1 := by exact_mod_cast hnext
      omega

theorem apart_of_exponent_lt (hv : v.Canonical) (hw : w.Canonical)
    (h : v.exponent < w.exponent) : Apart v w := by
  have hge := hv.exponent_ge
  have hne : w.exponent ≠ -1074 := by omega
  have hpos : (0 : ℚ) < 2 ^ v.exponent := by positivity
  -- the gap above the smaller number is at most half as wide as the one at the larger number
  obtain ⟨t, ht, hpow⟩ : ∃ t : ℚ, 2 ≤ t ∧ (2 : ℚ) ^ w.exponent = t * 2 ^ v.exponent := by
    refine ⟨2 ^ (w.exponent - v.exponent), ?_, ?_⟩
    · calc (2 : ℚ) = 2 ^ (1 : ℤ) := (zpow_one 2).symm
        _ ≤ 2 ^ (w.exponent - v.exponent) := zpow_le_zpow_right₀ one_le_two (by omega)
    · rw [← zpow_add₀ two_ne_zero, sub_add_cancel]
  have hm : (v.significand : ℚ) + 1 ≤ 2 ^ 53 := by exact_mod_cast hv.significand_lt
  have hlower : 2 ^ 53 - 1 / 2 ≤
      ((w.significand : ℚ) - if w.narrowBelow then 1 / 4 else 1 / 2) * t := by
    have hlead : (2 : ℚ) ^ 52 ≤ w.significand := by exact_mod_cast hw.leading hne
    split_ifs with hn
    · nlinarith
    · have hlead : 2 ^ 52 ≠ w.significand := fun h52 => hn (hw.narrowBelow_iff.2 ⟨h52.symm, hne⟩)
      have hlead : 2 ^ 52 + 1 ≤ w.significand := by
        have := hw.leading hne
        omega
      have hlead : (2 : ℚ) ^ 52 + 1 ≤ w.significand := by exact_mod_cast hlead
      nlinarith
  unfold Apart upper lower
  rw [hpow, ← mul_assoc]
  constructor
  · exact mul_le_mul_of_nonneg_right (by linarith) hpos.le
  · intro heq
    have heq := mul_right_cancel₀ hpos.ne' heq
    have hlast : (v.significand : ℚ) + 1 = 2 ^ 53 := by linarith
    have hlast : v.significand + 1 = 2 ^ 53 := by exact_mod_cast hlast
    omega

/-- A real rounds to one number only. -/
theorem Canonical.eq_of_contains (hv : v.Canonical) (hw : w.Canonical) (h : v.Contains r)
    (h' : w.Contains r) : v.significand = w.significand ∧ v.exponent = w.exponent := by
  rcases lt_trichotomy v.exponent w.exponent with he | he | he
  · exact absurd h' ((apart_of_exponent_lt hv hw he).not_contains h)
  · rcases lt_trichotomy v.significand w.significand with hm | hm | hm
    · exact absurd h' ((apart_of_significand_lt he hm).not_contains h)
    · exact ⟨hm, he⟩
    · exact absurd h ((apart_of_significand_lt he.symm hm).not_contains h')
  · exact absurd h ((apart_of_exponent_lt hw hv he).not_contains h')

end Neighbourhood

end QuantityCalculus.Decimal
