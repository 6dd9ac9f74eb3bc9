import QuantityCalculus.Proofs.Binary64.Rounding

/-! Finite numbers as rationals. Comparisons of finite numbers are comparisons of their values: of two
canonical numbers the one with the larger exponent is larger. Equality of numbers, infinities among
them, is symmetric and transitive. -/

namespace QuantityCalculus.Binary64

open Float.Model Float.Model.UnpackedFloat

/-- A rational with a sign put in front. -/
def signed : Sign → ℚ → ℚ
  | .negative, r => -r
  | .positive, r => r

/-- The value of a finite number; zero for the others. -/
def valueOf : UnpackedFloat → ℚ
  | .finite s m e _ => signed s (m * 2 ^ e)
  | _ => 0

/-- The value of a finite number; zero for the others. -/
def toRat (x : Float) : ℚ := valueOf x.toModel.unpack

variable {x y z : Float} {s s₁ s₂ : Sign} {m n m₁ m₂ : ℕ} {e t e₁ e₂ : ℤ} {hm : 0 < m} {r v w : ℚ}

theorem isFinite_of_unpack {u : UnpackedFloat} (h : x.toModel.unpack = u) :
    x.isFinite = u.isFinite := h ▸ rfl

theorem isInf_of_unpack {u : UnpackedFloat} (h : x.toModel.unpack = u) : x.isInf = u.isInf := h ▸ rfl

theorem isNaN_of_unpack {u : UnpackedFloat} (h : x.toModel.unpack = u) : x.isNaN = u.isNaN := h ▸ rfl

/-- A finite number is a zero or has a canonical significand. -/
theorem finite_cases (h : x.isFinite = true) :
    (∃ s, x.toModel.unpack = .zero s) ∨
      ∃ s m e hm, x.toModel.unpack = .finite s m e hm ∧ Canonical m e ∧ e ≤ 971 := by
  have h : x.toModel.unpack.isFinite = true := h
  cases hx : x.toModel.unpack with
  | infinity s =>
    rw [hx] at h
    cases h
  | notANumber =>
    rw [hx] at h
    cases h
  | zero s => exact .inl ⟨s, rfl⟩
  | finite s m e hm => exact .inr ⟨s, m, e, hm, rfl, canonical_of_unpack hx⟩

theorem toRat_of_zero (h : x.toModel.unpack = .zero s) : toRat x = 0 := by
  rw [toRat, h]
  rfl

theorem toRat_of_finite (h : x.toModel.unpack = .finite s m e hm) :
    toRat x = signed s (m * 2 ^ e) := by
  rw [toRat, h]
  rfl

theorem abs_signed (s : Sign) (r : ℚ) : |signed s r| = |r| := by
  cases s with
  | negative => exact abs_neg r
  | positive => rfl

theorem abs_toRat_of_finite (h : x.toModel.unpack = .finite s m e hm) :
    |toRat x| = m * 2 ^ e := by
  rw [toRat_of_finite h, abs_signed, abs_of_nonneg (by positivity)]

theorem toRat_ne_zero (h : x.toModel.unpack = .finite s m e hm) : toRat x ≠ 0 := by
  rw [← abs_pos, abs_toRat_of_finite h]
  positivity

theorem toRat_one : toRat 1.0 = 1 := by
  rw [toRat, unpack_one]
  show ((0x10000000000000 : ℕ) : ℚ) * 2 ^ (-52 : ℤ) = 1
  norm_num

/-! ### Comparison -/

theorem compare_of_lt (hlt : v < w) : compare v w = .lt := compare_lt_iff_lt.2 hlt

theorem compare_of_gt (hlt : w < v) : compare v w = .gt := compare_gt_iff_gt.2 hlt

/-- A larger exponent makes a larger number. -/
theorem Canonical.lt_of_exponent_lt (h₁ : Canonical m₁ e₁) (h₂ : Canonical m₂ e₂) (h : e₁ < e₂) :
    (m₁ : ℚ) * 2 ^ e₁ < m₂ * 2 ^ e₂ := by
  have hdigits : 2 ^ 52 ≤ m₂ := h₂.leading (by have := h₁.ge; omega)
  have hdigits : (2 : ℚ) ^ 52 ≤ m₂ := by exact_mod_cast hdigits
  have hlt : (m₁ : ℚ) < 2 ^ 53 := by exact_mod_cast h₁.lt
  have hexp : (2 : ℚ) ^ (e₁ + 1) ≤ 2 ^ e₂ := zpow_le_zpow_right₀ one_le_two h
  have hpos : (0 : ℚ) < 2 ^ e₁ := by positivity
  calc (m₁ : ℚ) * 2 ^ e₁ < 2 ^ 53 * 2 ^ e₁ := mul_lt_mul_of_pos_right hlt hpos
    _ = 2 ^ 52 * 2 ^ (e₁ + 1) := by rw [zpow_add_one₀ two_ne_zero]; ring
    _ ≤ m₂ * 2 ^ e₂ := mul_le_mul hdigits hexp (by positivity) (by positivity)

theorem compare_canonical (h₁ : Canonical m₁ e₁) (h₂ : Canonical m₂ e₂) :
    (compare e₁ e₂).then (compare m₁ m₂) = compare ((m₁ : ℚ) * 2 ^ e₁) (m₂ * 2 ^ e₂) := by
  rcases lt_trichotomy e₁ e₂ with h | rfl | h
  · rw [compare_lt_iff_lt.2 h, compare_of_lt (h₁.lt_of_exponent_lt h₂ h)]
    rfl
  · have hpos : (0 : ℚ) < 2 ^ e₁ := by positivity
    rw [compare_eq_iff_eq.2 (rfl : e₁ = e₁)]
    rcases lt_trichotomy m₁ m₂ with h | rfl | h
    · rw [compare_lt_iff_lt.2 h,
        compare_of_lt (mul_lt_mul_of_pos_right (by exact_mod_cast h) hpos)]
      rfl
    · rw [compare_eq_iff_eq.2 (rfl : m₁ = m₁), compare_eq_iff_eq.2 rfl]
      rfl
    · rw [compare_gt_iff_gt.2 h,
        compare_of_gt (mul_lt_mul_of_pos_right (by exact_mod_cast h) hpos)]
      rfl
  · rw [compare_gt_iff_gt.2 h, compare_of_gt (h₂.lt_of_exponent_lt h₁ h)]
    rfl

theorem compare_neg_neg (v w : ℚ) : compare (-v) (-w) = (compare v w).swap := by
  rcases lt_trichotomy v w with h | rfl | h
  · rw [compare_of_lt h, compare_of_gt (neg_lt_neg h)]
    rfl
  · rw [compare_eq_iff_eq.2 rfl, compare_eq_iff_eq.2 rfl]
    rfl
  · rw [compare_of_gt h, compare_of_lt (neg_lt_neg h)]
    rfl

/-- Finite numbers compare as their values do. -/
theorem compare_unpack (hx : x.isFinite = true) (hy : y.isFinite = true) :
    x.toModel.unpack.compare y.toModel.unpack = some (compare (toRat x) (toRat y)) := by
  have hpositive : ∀ {m : ℕ} {e : ℤ}, 0 < m → 0 < signed .positive (m * 2 ^ e) := by
    intro m e hm
    show (0 : ℚ) < m * 2 ^ e
    positivity
  have hnegative : ∀ {m : ℕ} {e : ℤ}, 0 < m → signed .negative (m * 2 ^ e) < 0 := by
    intro m e hm
    exact neg_lt_zero.2 (hpositive hm)
  rcases finite_cases hx with ⟨s, hx⟩ | ⟨s, m, e, hm, hx, hc, -⟩ <;>
    rcases finite_cases hy with ⟨s', hy⟩ | ⟨s', m', e', hm', hy, hc', -⟩
  · rw [toRat_of_zero hx, toRat_of_zero hy, hx, hy, compare_eq_iff_eq.2 rfl]
    rfl
  · rw [toRat_of_zero hx, toRat_of_finite hy, hx, hy]
    cases s' with
    | negative =>
      rw [compare_of_gt (hnegative hm')]
      rfl
    | positive =>
      rw [compare_of_lt (hpositive hm')]
      rfl
  · rw [toRat_of_finite hx, toRat_of_zero hy, hx, hy]
    cases s with
    | negative =>
      rw [compare_of_lt (hnegative hm)]
      rfl
    | positive =>
      rw [compare_of_gt (hpositive hm)]
      rfl
  · rw [toRat_of_finite hx, toRat_of_finite hy, hx, hy]
    cases s <;> cases s'
    case negative.negative =>
      show _ = some (compare (-((m : ℚ) * 2 ^ e)) (-(m' * 2 ^ e')))
      rw [compare_neg_neg, ← compare_canonical hc hc']
      rfl
    case negative.positive =>
      rw [compare_of_lt ((hnegative hm).trans (hpositive hm'))]
      rfl
    case positive.negative =>
      rw [compare_of_gt ((hnegative hm').trans (hpositive hm))]
      rfl
    case positive.positive =>
      show _ = some (compare ((m : ℚ) * 2 ^ e) (m' * 2 ^ e'))
      rw [← compare_canonical hc hc']
      rfl

theorem lt_iff_compare {x y : Float} :
    x < y ↔ x.toModel.unpack.compare y.toModel.unpack = some .lt :=
  decide_eq_true_iff.trans beq_iff_eq

theorem le_iff_compare {x y : Float} :
    x ≤ y ↔ (x.toModel.unpack.compare y.toModel.unpack).any (·.isLE) = true :=
  decide_eq_true_iff

theorem lt_iff (hx : x.isFinite = true) (hy : y.isFinite = true) :
    x < y ↔ toRat x < toRat y := by
  rw [lt_iff_compare, compare_unpack hx hy, ← compare_lt_iff_lt, Option.some_inj]

theorem le_iff (hx : x.isFinite = true) (hy : y.isFinite = true) :
    x ≤ y ↔ toRat x ≤ toRat y := by
  rw [le_iff_compare, compare_unpack hx hy, Option.any_some, Ordering.isLE_iff_ne_gt]
  exact compare_le_iff_le

theorem beq_iff (hx : x.isFinite = true) (hy : y.isFinite = true) :
    (x == y) = true ↔ toRat x = toRat y := by
  rw [beq_eq, compare_unpack hx hy, ← compare_eq_iff_eq]
  simp

/-- Numbers that are not both finite are equal only if they are the same infinity. -/
theorem compare_eq_iff_of_not_finite {a b : UnpackedFloat}
    (h : ¬ (a.isFinite = true ∧ b.isFinite = true)) :
    a.compare b = some .eq ↔ ∃ s, a = .infinity s ∧ b = .infinity s := by
  constructor
  · intro he
    cases a with
    | notANumber => cases he
    | infinity s =>
      cases b with
      | notANumber => cases he
      | infinity t => cases s <;> cases t <;> first | exact ⟨_, rfl, rfl⟩ | cases he
      | zero t => cases s <;> cases he
      | finite t m e hm => cases s <;> cases he
    | zero s =>
      cases b with
      | notANumber => cases he
      | infinity t => cases t <;> cases he
      | zero t => exact absurd ⟨rfl, rfl⟩ h
      | finite t m e hm => exact absurd ⟨rfl, rfl⟩ h
    | finite s m e hm =>
      cases b with
      | notANumber => cases he
      | infinity t => cases t <;> cases he
      | zero t => exact absurd ⟨rfl, rfl⟩ h
      | finite t n k hn => exact absurd ⟨rfl, rfl⟩ h
  · rintro ⟨s, rfl, rfl⟩
    cases s <;> rfl

/-- Two numbers are equal if they are finite and of the same value, or the same infinity. -/
theorem beq_cases : (x == y) = true ↔
    (x.isFinite = true ∧ y.isFinite = true ∧ toRat x = toRat y) ∨
      ∃ s, x.toModel.unpack = .infinity s ∧ y.toModel.unpack = .infinity s := by
  by_cases h : x.isFinite = true ∧ y.isFinite = true
  · obtain ⟨hx, hy⟩ := h
    rw [beq_iff hx hy]
    refine ⟨fun h => .inl ⟨hx, hy, h⟩, ?_⟩
    rintro (⟨-, -, h⟩ | ⟨s, hs, -⟩)
    · exact h
    · rw [isFinite_of_unpack hs] at hx
      cases hx
  · rw [beq_eq, beq_iff_eq, or_iff_right fun hf => h ⟨hf.1, hf.2.1⟩]
    exact compare_eq_iff_of_not_finite h

theorem beq_symm (h : (x == y) = true) : (y == x) = true := by
  rcases beq_cases.1 h with ⟨hx, hy, hv⟩ | ⟨s, hx, hy⟩
  · exact beq_cases.2 (.inl ⟨hy, hx, hv.symm⟩)
  · exact beq_cases.2 (.inr ⟨s, hy, hx⟩)

theorem beq_trans (hxy : (x == y) = true) (hyz : (y == z) = true) : (x == z) = true := by
  rcases beq_cases.1 hxy with ⟨hx, hy, hv⟩ | ⟨s, hx, hy⟩
  · obtain ⟨-, hz, hw⟩ | ⟨t, hy', -⟩ := beq_cases.1 hyz
    · exact beq_cases.2 (.inl ⟨hx, hz, hv.trans hw⟩)
    · rw [isFinite_of_unpack hy'] at hy
      cases hy
  · obtain ⟨hy', -⟩ | ⟨t, hy', hz⟩ := beq_cases.1 hyz
    · rw [isFinite_of_unpack hy] at hy'
      cases hy'
    · rw [hy] at hy'
      cases hy'
      exact beq_cases.2 (.inr ⟨s, hx, hz⟩)

end QuantityCalculus.Binary64
