import QuantityCalculus.Proofs.Binary64.Integers

/-! Square roots. The root of a significand that has been given enough digits is taken over the whole
numbers, and what is left over tells on which side of the half the root lies. So the root is the
rounding of a rational whose square is off by a part in `2 ^ 52`, and the root of a square is near what
was squared, unless the square has lost its digits. -/

namespace QuantityCalculus.Binary64

open Float.Model Float.Model.UnpackedFloat

variable {x y : Float} {m n : ℕ} {e : ℤ} {s : Sign} {v w : ℚ}

/-- What is known of a root from the whole number below it and what is left over. -/
def rootAccuracy (n : ℕ) : Accuracy :=
  if n - n.sqrt * n.sqrt = 0 then .exact
  else .inexact (if n - n.sqrt * n.sqrt ≤ n.sqrt then .lt else .gt)

/-- A rational in the place of the root has a square that is off by less than the whole root. -/
theorem approximates_root (n : ℕ) :
    ∃ r : ℚ, Approximates n.sqrt (rootAccuracy n) r ∧ |r ^ 2 - n| ≤ n.sqrt := by
  have hge : n.sqrt * n.sqrt ≤ n := Nat.sqrt_le n
  have hlt : n < (n.sqrt + 1) * (n.sqrt + 1) := Nat.lt_succ_sqrt n
  unfold rootAccuracy
  generalize n.sqrt = k at *
  have hpos : (0 : ℚ) ≤ k := Nat.cast_nonneg k
  split_ifs with hzero hhalf
  · have hn : n = k * k := by omega
    refine ⟨k, rfl, ?_⟩
    rw [hn, Nat.cast_mul, sq, sub_self, abs_zero]
    exact hpos
  · have hk : 1 ≤ k := by omega
    have hk : (1 : ℚ) ≤ k := by exact_mod_cast hk
    have hlow : k * k + 1 ≤ n := by omega
    have hlow : (k : ℚ) * k + 1 ≤ n := by exact_mod_cast hlow
    have hhigh : n ≤ k * k + k := by omega
    have hhigh : (n : ℚ) ≤ k * k + k := by exact_mod_cast hhigh
    refine ⟨k + 1 / 4, ⟨by linarith, by linarith⟩, ?_⟩
    rw [abs_le]
    constructor <;> linarith
  · have hlow : k * k + k + 1 ≤ n := by omega
    have hlow : (k : ℚ) * k + k + 1 ≤ n := by exact_mod_cast hlow
    have hhigh : n ≤ k * k + 2 * k := by linarith
    have hhigh : (n : ℚ) ≤ k * k + 2 * k := by exact_mod_cast hhigh
    refine ⟨k + 3 / 4, ⟨by linarith, by linarith⟩, ?_⟩
    rw [abs_le]
    constructor <;> linarith

/-- The root is taken with enough digits. -/
theorem sqrtCore_eq (hm : 0 < m) (he : -1074 ≤ e) :
    ∃ (k : ℕ) (t : ℤ), e = 2 * t + k ∧ 2 ^ 52 ≤ (m * 2 ^ k).sqrt ∧
      sqrtCore .binary64 m e = ((m * 2 ^ k).sqrt, t, rootAccuracy (m * 2 ^ k)) := by
  generalize hT : min (e / 2) (Format.binary64.targetExponent ((totalExponent m e + 1) / 2)) = t
  have hcore : sqrtCore .binary64 m e = ((m * 2 ^ (e - 2 * t).toNat).sqrt, t,
      rootAccuracy (m * 2 ^ (e - 2 * t).toNat)) := by
    rw [← hT, ← Nat.shiftLeft_eq]
    rfl
  rw [targetExponent_eq, totalExponent] at hT
  refine ⟨(e - 2 * t).toNat, t, by omega, ?_, hcore⟩
  generalize hk : (e - 2 * t).toNat = k
  have hlog : 104 ≤ m.log2 + k := by omega
  rw [Nat.le_sqrt]
  calc 2 ^ 52 * 2 ^ 52 = 2 ^ 104 := by rw [← pow_add]
    _ ≤ 2 ^ (m.log2 + k) := Nat.pow_le_pow_right two_pos hlog
    _ = 2 ^ m.log2 * 2 ^ k := pow_add _ _ _
    _ ≤ m * 2 ^ k := Nat.mul_le_mul_right _ (Nat.log2_self_le hm.ne')

theorem sqrt_eq (x : Float) : x.sqrt =
    Float.ofModel (Float.Model.pack (UnpackedFloat.sqrt .binary64 x.toModel.unpack)) := rfl

theorem sqrt_finite (hm : 0 < m) : UnpackedFloat.sqrt .binary64 (.finite .positive m e hm) =
    roundWithAccuracy .binary64 .positive (sqrtCore .binary64 m e).1 (sqrtCore .binary64 m e).2.1
      (sqrtCore .binary64 m e).2.2 := rfl

/-- A root is a rational rounded whose square is off by a part in `2 ^ 52`. -/
theorem rounds_sqrt (h : 0 < toRat x) :
    ∃ v, 0 < v ∧ |v ^ 2 - toRat x| ≤ 1 / 2 ^ 52 * toRat x ∧ Rounds x.sqrt v := by
  obtain ⟨m, e, hm, hu⟩ := unpack_of_toRat_pos h
  obtain ⟨k, t, he, hroot, hcore⟩ := sqrtCore_eq hm (canonical_of_unpack hu).1.ge
  obtain ⟨r, hr, hsquare⟩ := approximates_root (m * 2 ^ k)
  have hrounds := hr.rounds .positive (le_targetExponent (e := t) fun _ => hroot)
  have hvalue : toRat x = (m * 2 ^ k : ℕ) * (2 ^ t) ^ 2 := by
    rw [toRat_of_finite hu, he, zpow_add₀ two_ne_zero, zpow_natCast, mul_comm 2, zpow_mul,
      zpow_ofNat]
    push_cast
    show (m : ℚ) * _ = _
    ring
  have hle := Nat.sqrt_le (m * 2 ^ k)
  generalize m * 2 ^ k = n at *
  have hpos : (0 : ℚ) < 2 ^ t := by positivity
  have hroot : (2 : ℚ) ^ 52 ≤ n.sqrt := by exact_mod_cast hroot
  have hle : (n.sqrt : ℚ) * n.sqrt ≤ n := by exact_mod_cast hle
  have hscaled := mul_le_mul_of_nonneg_right hroot (Nat.cast_nonneg (α := ℚ) n.sqrt)
  refine ⟨r * 2 ^ t, mul_pos (by linarith [hr.bounds.1]) hpos, ?_, ?_⟩
  · rw [hvalue, mul_pow, ← sub_mul, abs_mul, abs_of_pos (by positivity : (0 : ℚ) < (2 ^ t) ^ 2),
      ← mul_assoc]
    exact mul_le_mul_of_nonneg_right (by linarith) (by positivity)
  · rw [sqrt_eq, hu, sqrt_finite, hcore]
    exact hrounds

/-- The root of a zero. -/
theorem toRat_sqrt_of_zero (hx : x.isFinite = true) (h : toRat x = 0) :
    x.sqrt.isFinite = true ∧ toRat x.sqrt = 0 := by
  rcases finite_cases hx with ⟨s, hu⟩ | ⟨s, m, e, hm, hu, -⟩
  · have hsqrt : x.sqrt.toModel.unpack = .zero s := by
      rw [sqrt_eq, hu]
      exact unpack_pack_zero s
    exact ⟨isFinite_of_unpack hsqrt, toRat_of_zero hsqrt⟩
  · exact absurd h (toRat_ne_zero hu)

/-- The smallest number. -/
theorem two_pow_le_of_pos (h : 0 < toRat x) : (2 : ℚ) ^ (-1074 : ℤ) ≤ toRat x := by
  obtain ⟨n, hn⟩ := exists_multiple x
  rw [hn] at h ⊢
  have hpos : (0 : ℤ) < n := by exact_mod_cast pos_of_mul_pos_left h (by positivity)
  exact le_mul_of_one_le_left (by positivity) (by exact_mod_cast hpos)

/-- A rational whose square is near a number is far from both ends of the range. -/
theorem mem_of_sq_near (h : 0 < toRat x) (hv : 0 < v)
    (hsquare : |v ^ 2 - toRat x| ≤ 1 / 2 ^ 52 * toRat x) :
    2 ^ (-1022 : ℤ) ≤ v ∧ v ≤ 2 ^ (513 : ℤ) := by
  have hpow : ∀ k : ℤ, ((2 : ℚ) ^ k) ^ 2 = 2 ^ (k * 2) := by
    intro k
    rw [zpow_mul, zpow_ofNat]
  obtain ⟨hlow, hhigh⟩ := abs_le.1 hsquare
  constructor
  · have hhalf : 2 ^ (-1074 - 1 : ℤ) ≤ v ^ 2 := by
      rw [zpow_sub_one₀ two_ne_zero]
      have hge := two_pow_le_of_pos h
      linarith
    refine le_of_pow_le_pow_left₀ two_ne_zero hv.le (le_trans ?_ hhalf)
    rw [hpow]
    exact zpow_le_zpow_right₀ one_le_two (by decide)
  · have hdouble : v ^ 2 ≤ 2 ^ (1024 + 1 : ℤ) := by
      have hle : toRat x ≤ 2 ^ (1024 : ℤ) := (le_abs_self _).trans (abs_toRat_le x)
      rw [zpow_add_one₀ two_ne_zero]
      generalize (2 : ℚ) ^ (1024 : ℤ) = c at *
      linarith
    refine le_of_pow_le_pow_left₀ two_ne_zero (by positivity) (hdouble.trans ?_)
    rw [hpow]
    exact zpow_le_zpow_right₀ one_le_two (by decide)

/-- The square of a root is off by a part in `2 ^ 50`. -/
theorem sqrt_near (h : 0 < toRat x) : x.sqrt.isFinite = true ∧ 0 ≤ toRat x.sqrt ∧
    |toRat x.sqrt ^ 2 - toRat x| ≤ 1 / 2 ^ 50 * toRat x := by
  obtain ⟨v, hv, hsquare, hrounds⟩ := rounds_sqrt h
  obtain ⟨hlow, hhigh⟩ := mem_of_sq_near h hv hsquare
  have habs : |v| = v := abs_of_pos hv
  obtain ⟨hfinite, -⟩ := hrounds.le_two_pow (by decide) (by decide) (habs.trans_le hhigh)
  have hnear : |toRat x.sqrt - v| ≤ 1 / 2 ^ 53 * |v| + 0 :=
    hrounds.near_of_le hfinite (hlow.trans_eq habs.symm)
  rw [habs, add_zero] at hnear
  refine ⟨hfinite, hrounds.nonneg hfinite hv.le, ?_⟩
  generalize toRat x.sqrt = r at *
  have hsplit : r ^ 2 - toRat x = (r - v) ^ 2 + 2 * v * (r - v) + (v ^ 2 - toRat x) := by ring
  have hfirst : |(r - v) ^ 2| ≤ (1 / 2 ^ 53 * v) ^ 2 := by
    rw [abs_pow]
    exact pow_le_pow_left₀ (abs_nonneg _) hnear 2
  have hsecond : |2 * v * (r - v)| ≤ 2 * v * (1 / 2 ^ 53 * v) := by
    rw [abs_mul, abs_of_pos (by positivity : 0 < 2 * v)]
    exact mul_le_mul_of_nonneg_left hnear (by positivity)
  have hv := (abs_le.1 hsquare).2
  rw [hsplit]
  refine (abs_add_three _ _ _).trans ?_
  linarith

/-- A root has no sign, unless it is the zero that was given. -/
theorem not_sqrt_lt_zero (x : Float) : ¬ x.sqrt < 0.0 := by
  by_cases h : 0 < toRat x
  · obtain ⟨v, hv, -, hrounds⟩ := rounds_sqrt h
    exact hrounds.not_lt_zero hv.le
  · have hsqrt : x.sqrt.toModel.unpack =
        (Float.Model.pack (UnpackedFloat.sqrt .binary64 x.toModel.unpack)).unpack := rfl
    rw [lt_zero_iff, hsqrt]
    cases hu : x.toModel.unpack with
    | notANumber => simp [UnpackedFloat.sqrt, unpack_pack_notANumber]
    | infinity s => cases s <;> simp [UnpackedFloat.sqrt, unpack_pack_notANumber, unpack_pack_infinity]
    | zero s => simp [UnpackedFloat.sqrt, unpack_pack_zero]
    | finite s m e hm =>
      cases s with
      | negative => simp [UnpackedFloat.sqrt, unpack_pack_notANumber]
      | positive =>
        refine absurd ?_ h
        rw [toRat_of_finite hu]
        exact mul_pos (by exact_mod_cast hm) (by positivity)

/-! ### Roots of squares -/

/-- The sum with a zero. -/
theorem toRat_add_zero (hx : x.isFinite = true) :
    (x + 0.0).isFinite = true ∧ toRat (x + 0.0) = toRat x := by
  have hzero := unpack_zeroLiteral
  rcases finite_cases hx with ⟨s, hu⟩ | ⟨s, m, e, hm, hu, -⟩
  · have hsum : ∃ s', (x + 0.0).toModel.unpack = .zero s' := by
      rw [add_eq, hu, hzero, unpack_ofModel_pack]
      cases s <;> exact ⟨_, unpack_pack_zero _⟩
    obtain ⟨s', hsum⟩ := hsum
    rw [toRat_of_zero hsum, toRat_of_zero hu]
    exact ⟨isFinite_of_unpack hsum, rfl⟩
  · have hsum : x + 0.0 = x := by
      rw [add_eq, hu, hzero]
      show Float.ofModel (Float.Model.pack (.finite s m e hm)) = x
      rw [← hu, ofModel_pack_unpack]
    rw [hsum]
    exact ⟨hx, rfl⟩

/-- Rationals that are not negative are near each other if their squares are. -/
theorem near_of_sq_near {ε : ℚ} (hv : 0 ≤ v) (hw : 0 < w) (h : |v ^ 2 - w ^ 2| ≤ ε * w ^ 2) :
    |v - w| ≤ ε * w := by
  have hsum : w ≤ v + w := le_add_of_nonneg_left hv
  have hfactor : |v ^ 2 - w ^ 2| = (v + w) * |v - w| := by
    rw [sq_sub_sq, abs_mul, abs_of_pos (hw.trans_le hsum)]
  have hle : w * |v - w| ≤ w * (ε * w) := by
    refine (mul_le_mul_of_nonneg_right hsum (abs_nonneg _)).trans ?_
    rw [← hfactor]
    exact h.trans_eq (by ring)
  exact le_of_mul_le_mul_left hle hw

/-- The root of a square that has all of its digits, or of zero. -/
theorem sqrt_mul_self_near (hx : x.isFinite = true) (hnonneg : 0 ≤ toRat x)
    (h : toRat x = 0 ∨ Normal (x * x)) : (x * x + 0.0).sqrt.isFinite = true ∧
      0 ≤ toRat (x * x + 0.0).sqrt ∧ Near (1 / 2 ^ 48) 0 (toRat (x * x + 0.0).sqrt) (toRat x) := by
  have hrounds := rounds_mul hx hx
  rcases hnonneg.eq_or_lt with hzero | hpos
  · rw [← hzero, mul_zero] at hrounds
    have hfinite : (x * x).isFinite = true :=
      (hrounds.le_two_pow (k := 0) (by decide) (by decide) (by norm_num)).1
    obtain ⟨hsum, hvalue⟩ := toRat_add_zero hfinite
    rw [hrounds.toRat_eq_zero hfinite] at hvalue
    obtain ⟨hroot, hvalue⟩ := toRat_sqrt_of_zero hsum hvalue
    rw [hvalue, ← hzero]
    exact ⟨hroot, le_rfl, near_self (by norm_num) le_rfl 0⟩
  · have hnormal := h.resolve_left hpos.ne'
    have hsquare : |toRat (x * x) - toRat x * toRat x| ≤ 1 / 2 ^ 52 * |toRat x * toRat x| + 0 :=
      hrounds.near_of_normal hnormal
    obtain ⟨-, hvalue⟩ := toRat_add_zero hnormal.usable.1
    rw [abs_of_pos (mul_pos hpos hpos), add_zero, ← sq, ← hvalue] at hsquare
    have hsq : 0 < toRat x ^ 2 := by positivity
    have hroot := sqrt_near (x := x * x + 0.0) (by linarith [(abs_le.1 hsquare).1])
    refine ⟨hroot.1, hroot.2.1, ?_⟩
    rw [Near, add_zero, abs_of_pos hpos]
    refine near_of_sq_near hroot.2.1 hpos ((abs_sub_le _ _ _).trans
      ((add_le_add hroot.2.2 hsquare).trans ?_))
    linarith [(abs_le.1 hsquare).2]

end QuantityCalculus.Binary64
