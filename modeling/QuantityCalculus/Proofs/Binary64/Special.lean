import Mathlib
import QuantityCalculus.Proofs.Binary64.Operations

/-! Numbers that are no rationals. A product is not a number if an operand is none or a zero meets
an infinity, a quotient if an operand is none or two zeros or two infinities meet. A result that is
finite, or finite and not zero, has operands of this kind. -/

namespace QuantityCalculus.Binary64

open Float.Model Float.Model.UnpackedFloat

variable {x y z : Float}

/-- A number that can be divided by. -/
def Usable (x : Float) : Prop := x.isFinite = true ∧ (x == 0.0) = false

instance (x : Float) : Decidable (Usable x) :=
  inferInstanceAs (Decidable (x.isFinite = true ∧ (x == 0.0) = false))

theorem unpack_zeroLiteral : (0.0 : Float).toModel.unpack = .zero .positive := by
  have hbits : (0.0 : Float).toBits = 0 := by decide +kernel
  show UnpackedFloat.unpack .binary64 (0.0 : Float).toBits.toBitVec = _
  rw [hbits]
  rfl

theorem isNaN_iff : x.isNaN = true ↔ x.toModel.unpack = .notANumber := by
  show x.toModel.unpack.isNaN = true ↔ _
  cases x.toModel.unpack <;> simp [UnpackedFloat.isNaN]

theorem unpack_ne_of_not_isNaN (h : x.isNaN = false) : x.toModel.unpack ≠ .notANumber :=
  fun hu => Bool.eq_false_iff.1 h (isNaN_iff.2 hu)

theorem isInf_iff : x.isInf = true ↔ ∃ s, x.toModel.unpack = .infinity s := by
  show x.toModel.unpack.isInf = true ↔ _
  cases x.toModel.unpack <;> simp [UnpackedFloat.isInf]

theorem beq_zero_iff : (x == 0.0) = true ↔ ∃ s, x.toModel.unpack = .zero s := by
  rw [beq_eq, unpack_zeroLiteral]
  cases x.toModel.unpack with
  | infinity s => cases s <;> simp [UnpackedFloat.compare]
  | notANumber => simp [UnpackedFloat.compare]
  | zero s => simp [UnpackedFloat.compare]
  | finite s m e hm => cases s <;> simp [UnpackedFloat.compare]

theorem unpack_mul (x y : Float) : (x * y).toModel.unpack =
    (Float.Model.pack (x.toModel.unpack.mul .binary64 y.toModel.unpack)).unpack := rfl

theorem unpack_div (x y : Float) : (x / y).toModel.unpack =
    (Float.Model.pack (x.toModel.unpack.div .binary64 y.toModel.unpack)).unpack := rfl

theorem isNaN_mul_iff : (x * y).isNaN = true ↔ x.isNaN = true ∨ y.isNaN = true ∨
    (x.isInf = true ∧ (y == 0.0) = true) ∨ ((x == 0.0) = true ∧ y.isInf = true) := by
  have hmul := unpack_mul x y
  rw [isNaN_iff, isNaN_iff, isNaN_iff, isInf_iff, isInf_iff, beq_zero_iff, beq_zero_iff]
  cases hx : x.toModel.unpack <;> cases hy : y.toModel.unpack <;> rw [hx, hy] at hmul
  case finite.finite =>
    have hnan := (rounds_mul (isFinite_of_unpack hx) (isFinite_of_unpack hy)).not_isNaN
    simp [unpack_ne_of_not_isNaN hnan]
  all_goals
    simp only [UnpackedFloat.mul, unpack_pack_infinity, unpack_pack_notANumber,
      unpack_pack_zero] at hmul
    simp [hmul]

theorem isNaN_div_iff : (x / y).isNaN = true ↔ x.isNaN = true ∨ y.isNaN = true ∨
    (x.isInf = true ∧ y.isInf = true) ∨ ((x == 0.0) = true ∧ (y == 0.0) = true) := by
  have hdiv := unpack_div x y
  rw [isNaN_iff, isNaN_iff, isNaN_iff, isInf_iff, isInf_iff, beq_zero_iff, beq_zero_iff]
  cases hx : x.toModel.unpack <;> cases hy : y.toModel.unpack <;> rw [hx, hy] at hdiv
  case finite.finite =>
    have hnan := (rounds_div (isFinite_of_unpack hx) (isFinite_of_unpack hy)
      (toRat_ne_zero hy)).not_isNaN
    simp [unpack_ne_of_not_isNaN hnan]
  all_goals
    simp only [UnpackedFloat.div, unpack_pack_infinity, unpack_pack_notANumber,
      unpack_pack_zero] at hdiv
    simp [hdiv]

theorem isNaN_add (hx : x.isNaN = false) (hy : y.isFinite = true) : (x + y).isNaN = false := by
  cases hu : x.toModel.unpack with
  | infinity s =>
    have hadd : (x + y).toModel.unpack = .infinity s := by
      have hadd : (x + y).toModel.unpack =
          (Float.Model.pack (x.toModel.unpack.add .binary64 y.toModel.unpack)).unpack := rfl
      rcases finite_cases hy with ⟨s', hu'⟩ | ⟨s', m, e, hm, hu', -⟩ <;> rw [hadd, hu, hu'] <;>
        exact unpack_pack_infinity s
    exact isNaN_of_unpack hadd
  | notANumber => exact absurd hu (unpack_ne_of_not_isNaN hx)
  | zero s => exact (rounds_add (isFinite_of_unpack hu) hy).not_isNaN
  | finite s m e hm => exact (rounds_add (isFinite_of_unpack hu) hy).not_isNaN

theorem isInf_of_not_isFinite (hx : x.isNaN = false) (hx' : x.isFinite = false) :
    x.isInf = true := by
  rw [isInf_iff]
  cases hu : x.toModel.unpack with
  | infinity s => exact ⟨s, rfl⟩
  | notANumber => exact absurd hu (unpack_ne_of_not_isNaN hx)
  | zero s =>
    rw [isFinite_of_unpack hu] at hx'
    cases hx'
  | finite s m e hm =>
    rw [isFinite_of_unpack hu] at hx'
    cases hx'

theorem isNaN_add_right (hy : y.isNaN = true) : (x + y).isNaN = true := by
  have hadd : (x + y).toModel.unpack =
      (Float.Model.pack (x.toModel.unpack.add .binary64 y.toModel.unpack)).unpack := rfl
  rw [isNaN_iff] at hy ⊢
  rw [hadd, hy]
  cases x.toModel.unpack <;> exact unpack_pack_notANumber

/-- Nothing is compared with what is not a number. -/
theorem not_le_of_isNaN (hy : y.isNaN = true) : ¬ x ≤ y := by
  rw [le_iff_compare, isNaN_iff.1 hy]
  cases x.toModel.unpack <;> exact Bool.false_ne_true

theorem beq_eq_false_of_isNaN (hy : y.isNaN = true) : (x == y) = false := by
  rw [beq_eq, isNaN_iff.1 hy]
  cases x.toModel.unpack <;> rfl

/-! ### Signs -/

theorem isNaN_abs (x : Float) : x.abs.isNaN = x.isNaN := by
  rw [isNaN_of_unpack (unpack_abs x)]
  show _ = x.toModel.unpack.isNaN
  cases x.toModel.unpack <;> rfl

theorem isInf_abs (x : Float) : x.abs.isInf = x.isInf := by
  rw [isInf_of_unpack (unpack_abs x)]
  show _ = x.toModel.unpack.isInf
  cases x.toModel.unpack <;> rfl

theorem abs_beq_zero (x : Float) : (x.abs == 0.0) = (x == 0.0) := by
  rw [Bool.eq_iff_iff, beq_zero_iff, beq_zero_iff, unpack_abs]
  cases x.toModel.unpack <;> simp [UnpackedFloat.abs]

theorem lt_zero_iff : x < 0.0 ↔
    x.toModel.unpack = .infinity .negative ∨ ∃ m e hm, x.toModel.unpack = .finite .negative m e hm := by
  rw [lt_iff_compare, unpack_zeroLiteral]
  cases x.toModel.unpack with
  | infinity s => cases s <;> simp [UnpackedFloat.compare]
  | notANumber => simp [UnpackedFloat.compare]
  | zero s => simp [UnpackedFloat.compare]
  | finite s m e hm => cases s <;> simp [UnpackedFloat.compare, hm]

theorem toRat_zeroLiteral : toRat 0.0 = 0 := toRat_of_zero unpack_zeroLiteral

theorem lt_zero_iff_toRat (h : x.isFinite = true) : x < 0.0 ↔ toRat x < 0 := by
  rw [lt_iff h (isFinite_of_unpack unpack_zeroLiteral), toRat_zeroLiteral]

theorem Rounds.not_lt_zero {v : ℚ} (h : Rounds x v) (hv : 0 ≤ v) : ¬ x < 0.0 := by
  by_cases hx : x.isFinite = true
  · rw [lt_zero_iff_toRat hx, not_lt]
    exact h.nonneg hx hv
  · cases h with
    | finite n t hfinite => exact absurd hfinite hx
    | overflow n t s hu hn hlarge hside =>
      rw [lt_zero_iff, hu]
      rintro (hs | ⟨m, e, hm, hs⟩)
      · cases hs
        have hv : v = 0 := le_antisymm (neg_nonneg.1 hside) hv
        rw [hv, abs_zero] at hn
        have hn : n = 0 := Nat.le_zero.1 (hn.le_of_le (by simp))
        rw [hn, Nat.cast_zero, zero_mul] at hlarge
        exact absurd hlarge (not_le.2 (by positivity))
      · cases hs

theorem not_lt_zero_cases (h : ¬ x < 0.0) :
    x.toModel.unpack = .notANumber ∨ (∃ s, x.toModel.unpack = .zero s) ∨
      x.toModel.unpack = .infinity .positive ∨
      ∃ m e hm, x.toModel.unpack = .finite .positive m e hm := by
  rw [lt_zero_iff] at h
  cases hu : x.toModel.unpack with
  | infinity s => cases s <;> simp_all
  | notANumber => simp
  | zero s => simp
  | finite s m e hm => cases s <;> simp_all

theorem abs_cases (y : Float) :
    y.abs.toModel.unpack = .notANumber ∨ y.abs.toModel.unpack = .zero .positive ∨
      y.abs.toModel.unpack = .infinity .positive ∨
      ∃ m e hm, y.abs.toModel.unpack = .finite .positive m e hm := by
  rw [unpack_abs]
  cases y.toModel.unpack with
  | infinity s => exact .inr (.inr (.inl rfl))
  | notANumber => exact .inl rfl
  | zero s => exact .inr (.inl rfl)
  | finite s m e hm => exact .inr (.inr (.inr ⟨m, e, hm, rfl⟩))

/-- A number that is not negative, multiplied with an absolute value. -/
theorem not_mul_abs_lt_zero (hx : ¬ x < 0.0) (y : Float) : ¬ x * y.abs < 0.0 := by
  have hmul := unpack_mul x y.abs
  rw [lt_zero_iff]
  rcases not_lt_zero_cases hx with hu | ⟨s, hu⟩ | hu | ⟨m, e, hm, hu⟩ <;>
    rcases abs_cases y with hu' | hu' | hu' | ⟨m', e', hm', hu'⟩ <;> rw [hu, hu'] at hmul
  case inr.inr.inr.inr.inr.inr =>
    rw [← lt_zero_iff]
    refine (rounds_mul (isFinite_of_unpack hu) (isFinite_of_unpack hu')).not_lt_zero ?_
    rw [toRat_of_finite hu, toRat_of_finite hu']
    exact mul_nonneg (by positivity : (0 : ℚ) ≤ m * 2 ^ e) (by positivity : (0 : ℚ) ≤ m' * 2 ^ e')
  all_goals
    simp only [UnpackedFloat.mul, positive_mul, unpack_pack_infinity, unpack_pack_notANumber,
      unpack_pack_zero] at hmul
    simp [hmul]

/-- A number that is not negative, divided by an absolute value. -/
theorem not_div_abs_lt_zero (hx : ¬ x < 0.0) (y : Float) : ¬ x / y.abs < 0.0 := by
  have hdiv := unpack_div x y.abs
  rw [lt_zero_iff]
  rcases not_lt_zero_cases hx with hu | ⟨s, hu⟩ | hu | ⟨m, e, hm, hu⟩ <;>
    rcases abs_cases y with hu' | hu' | hu' | ⟨m', e', hm', hu'⟩ <;> rw [hu, hu'] at hdiv
  case inr.inr.inr.inr.inr.inr =>
    rw [← lt_zero_iff]
    refine (rounds_div (isFinite_of_unpack hu) (isFinite_of_unpack hu')
      (toRat_ne_zero hu')).not_lt_zero ?_
    rw [toRat_of_finite hu, toRat_of_finite hu']
    exact div_nonneg (by positivity : (0 : ℚ) ≤ m * 2 ^ e) (by positivity : (0 : ℚ) ≤ m' * 2 ^ e')
  all_goals
    simp only [UnpackedFloat.div, div_positive, unpack_pack_infinity, unpack_pack_notANumber,
      unpack_pack_zero] at hdiv
    simp [hdiv]

/-! ### Results with a value -/

theorem usable_iff : Usable x ↔ toRat x ≠ 0 := by
  constructor
  · rintro ⟨hfinite, hzero⟩
    rcases finite_cases hfinite with ⟨s, hu⟩ | ⟨s, m, e, hm, hu, -⟩
    · rw [beq_zero_iff.2 ⟨s, hu⟩] at hzero
      cases hzero
    · exact toRat_ne_zero hu
  · intro h
    cases hu : x.toModel.unpack with
    | infinity s => exact absurd (by rw [toRat, hu]; rfl) h
    | notANumber => exact absurd (by rw [toRat, hu]; rfl) h
    | zero s => exact absurd (toRat_of_zero hu) h
    | finite s m e hm =>
      refine ⟨isFinite_of_unpack hu, Bool.eq_false_iff.2 fun hzero => ?_⟩
      obtain ⟨s', hs⟩ := beq_zero_iff.1 hzero
      rw [hu] at hs
      cases hs

theorem unpack_of_toRat_pos (h : 0 < toRat x) :
    ∃ m e hm, x.toModel.unpack = .finite .positive m e hm := by
  rcases finite_cases (usable_iff.2 h.ne').1 with ⟨s, hu⟩ | ⟨s, m, e, hm, hu, -⟩
  · exact absurd (toRat_of_zero hu) h.ne'
  · rw [toRat_of_finite hu] at h
    cases s with
    | negative =>
      have hneg : signed .negative ((m : ℚ) * 2 ^ e) ≤ 0 := neg_nonpos.2 (by positivity)
      exact absurd h hneg.not_gt
    | positive => exact ⟨m, e, hm, hu⟩

theorem isFinite_of_mul (h : (x * y).isFinite = true) : x.isFinite = true ∧ y.isFinite = true := by
  have hmul := unpack_mul x y
  cases hu : x.toModel.unpack <;> cases hu' : y.toModel.unpack <;> rw [hu, hu'] at hmul
  case finite.finite => exact ⟨isFinite_of_unpack hu, isFinite_of_unpack hu'⟩
  case finite.zero => exact ⟨isFinite_of_unpack hu, isFinite_of_unpack hu'⟩
  case zero.finite => exact ⟨isFinite_of_unpack hu, isFinite_of_unpack hu'⟩
  case zero.zero => exact ⟨isFinite_of_unpack hu, isFinite_of_unpack hu'⟩
  all_goals
    simp only [UnpackedFloat.mul, unpack_pack_infinity, unpack_pack_notANumber] at hmul
    rw [isFinite_of_unpack hmul] at h
    cases h

theorem isFinite_of_add (h : (x + y).isFinite = true) : x.isFinite = true ∧ y.isFinite = true := by
  have hadd : (x + y).toModel.unpack =
      (Float.Model.pack (x.toModel.unpack.add .binary64 y.toModel.unpack)).unpack := rfl
  cases hu : x.toModel.unpack <;> cases hu' : y.toModel.unpack <;> rw [hu, hu'] at hadd
  case finite.finite => exact ⟨isFinite_of_unpack hu, isFinite_of_unpack hu'⟩
  case finite.zero => exact ⟨isFinite_of_unpack hu, isFinite_of_unpack hu'⟩
  case zero.finite => exact ⟨isFinite_of_unpack hu, isFinite_of_unpack hu'⟩
  case zero.zero => exact ⟨isFinite_of_unpack hu, isFinite_of_unpack hu'⟩
  case infinity.infinity s s' =>
    have hsum : UnpackedFloat.add .binary64 (.infinity s) (.infinity s') = .infinity s ∨
        UnpackedFloat.add .binary64 (.infinity s) (.infinity s') = .notANumber := ite_eq_or_eq _ _ _
    rcases hsum with hsum | hsum
    · rw [hsum, unpack_pack_infinity] at hadd
      rw [isFinite_of_unpack hadd] at h
      cases h
    · rw [hsum, unpack_pack_notANumber] at hadd
      rw [isFinite_of_unpack hadd] at h
      cases h
  all_goals
    simp only [UnpackedFloat.add, unpack_pack_infinity, unpack_pack_notANumber] at hadd
    rw [isFinite_of_unpack hadd] at h
    cases h

theorem isFinite_of_sub (h : (x - y).isFinite = true) : x.isFinite = true ∧ y.isFinite = true := by
  rw [sub_eq_add] at h
  have h := isFinite_of_add h
  rwa [isFinite_neg] at h

theorem isFinite_of_div (h : (x / y).isFinite = true) : x.isFinite = true := by
  have hdiv := unpack_div x y
  cases hu : x.toModel.unpack <;> cases hu' : y.toModel.unpack <;> rw [hu, hu'] at hdiv
  case finite.finite | finite.zero | finite.infinity => exact isFinite_of_unpack hu
  case zero.finite | zero.zero | zero.infinity => exact isFinite_of_unpack hu
  all_goals
    simp only [UnpackedFloat.div, unpack_pack_infinity, unpack_pack_notANumber] at hdiv
    rw [isFinite_of_unpack hdiv] at h
    cases h

/-- A product with a value that is not zero has operands of this kind. -/
theorem usable_of_mul (h : Usable (x * y)) : Usable x ∧ Usable y := by
  have hmul := unpack_mul x y
  have hne := usable_iff.1 h
  rw [usable_iff, usable_iff]
  cases hu : x.toModel.unpack <;> cases hu' : y.toModel.unpack <;> rw [hu, hu'] at hmul
  case finite.finite => exact ⟨toRat_ne_zero hu, toRat_ne_zero hu'⟩
  all_goals
    simp only [UnpackedFloat.mul, unpack_pack_infinity, unpack_pack_notANumber,
      unpack_pack_zero] at hmul
    exact absurd (by rw [toRat, hmul]; rfl) hne

/-- A quotient with a value that is not zero has operands of this kind. -/
theorem usable_of_div (h : Usable (x / y)) : Usable x ∧ Usable y := by
  have hdiv := unpack_div x y
  have hne := usable_iff.1 h
  rw [usable_iff, usable_iff]
  cases hu : x.toModel.unpack <;> cases hu' : y.toModel.unpack <;> rw [hu, hu'] at hdiv
  case finite.finite => exact ⟨toRat_ne_zero hu, toRat_ne_zero hu'⟩
  all_goals
    simp only [UnpackedFloat.div, unpack_pack_infinity, unpack_pack_notANumber,
      unpack_pack_zero] at hdiv
    exact absurd (by rw [toRat, hdiv]; rfl) hne

theorem usable_one : Usable 1.0 := by
  rw [usable_iff, toRat_one]
  exact one_ne_zero

theorem Usable.not_isNaN (h : Usable x) : x.isNaN = false := (Rounds.self h.1).not_isNaN

theorem Usable.not_isInf (h : Usable x) : x.isInf = false := by
  refine Bool.eq_false_iff.2 fun hinf => ?_
  obtain ⟨s, hu⟩ := isInf_iff.1 hinf
  have hfinite := h.1
  rw [isFinite_of_unpack hu] at hfinite
  cases hfinite

theorem isNaN_mul_of_usable (hx : x.isNaN = false) (hy : Usable y) : (x * y).isNaN = false := by
  refine Bool.eq_false_iff.2 fun h => ?_
  have h := isNaN_mul_iff.1 h
  rw [hx, hy.not_isNaN, hy.not_isInf, hy.2] at h
  simp only [Bool.false_eq_true, and_false, or_self] at h

theorem isNaN_div_of_usable (hx : x.isNaN = false) (hy : Usable y) : (x / y).isNaN = false := by
  refine Bool.eq_false_iff.2 fun h => ?_
  have h := isNaN_div_iff.1 h
  rw [hx, hy.not_isNaN, hy.not_isInf, hy.2] at h
  simp only [Bool.false_eq_true, and_false, or_self] at h

/-! ### Equality and quotients of equal numbers -/

/-- A number is equal to itself, be it finite or not. -/
theorem beq_self_of_not_isNaN (h : x.isNaN = false) : (x == x) = true := by
  rw [beq_eq]
  cases hu : x.toModel.unpack with
  | infinity s => cases s <;> rfl
  | notANumber => exact absurd hu (unpack_ne_of_not_isNaN h)
  | zero s => rfl
  | finite s m e hm =>
    rw [← hu, ← beq_eq]
    exact beq_self (isFinite_of_unpack hu)

/-- A number that can be divided by goes into itself once. -/
protected theorem div_self (h : Usable x) : x / x = 1.0 := by
  have hne := usable_iff.1 h
  have hrounds := rounds_div h.1 h.1 hne
  rw [div_self hne] at hrounds
  have hone : |(1 : ℚ)| = 2 ^ (0 : ℤ) := by rw [abs_one, zpow_zero]
  obtain ⟨hfinite, hle⟩ := hrounds.le_two_pow (by decide) (by decide) hone.le
  have hge := hrounds.two_pow_le hfinite (by decide) hone.ge
  have hvalue : toRat (x / x) = 1 := by
    rw [← abs_of_nonneg (hrounds.nonneg hfinite zero_le_one), le_antisymm hle hge, zpow_zero]
  refine eq_one_of_beq ((beq_iff hfinite (isFinite_of_unpack unpack_one)).2 ?_)
  rw [hvalue, toRat_one]

theorem usable_div_self (h : Usable x) : Usable (x / x) := by
  rw [Binary64.div_self h]
  exact usable_one

/-- A number that cannot be divided by leaves no number. -/
theorem isNaN_div_self (h : ¬ Usable x) : (x / x).isNaN = true := by
  rw [isNaN_div_iff]
  by_cases hnumber : x.isNaN = true
  · exact .inl hnumber
  · by_cases hfinite : x.isFinite = true
    · have hzero : (x == 0.0) = true := by
        by_contra hne
        exact h ⟨hfinite, Bool.eq_false_iff.2 hne⟩
      exact .inr (.inr (.inr ⟨hzero, hzero⟩))
    · have hinf := isInf_of_not_isFinite (Bool.eq_false_iff.2 hnumber) (Bool.eq_false_iff.2 hfinite)
      exact .inr (.inr (.inl ⟨hinf, hinf⟩))

end QuantityCalculus.Binary64
