import QuantityCalculus.Proofs.Binary64.Rounded

/-! Arithmetic of finite numbers. A product, a quotient, a sum or a difference is its exact value
rounded; a negation and an absolute value are exact. -/

namespace QuantityCalculus.Binary64

open Float.Model Float.Model.UnpackedFloat

variable {x y z : Float} {s : Sign} {m m₁ m₂ n : ℕ} {e e₁ e₂ t : ℤ} {hm : 0 < m} {acc : Accuracy}
  {u : UnpackedFloat} {r v : ℚ}

/-! ### From the exact value to the number -/

theorem unpack_ofModel_pack (u : UnpackedFloat) :
    (Float.ofModel (Float.Model.pack u)).toModel.unpack = (Float.Model.pack u).unpack := rfl

theorem signed_mul_signed (s₁ s₂ : Sign) (v w : ℚ) :
    signed s₁ v * signed s₂ w = signed (s₁ * s₂) (v * w) := by
  cases s₁ <;> cases s₂
  · exact neg_mul_neg v w
  · exact neg_mul v w
  · exact mul_neg v w
  · rfl

theorem signed_div_signed (s₁ s₂ : Sign) (v w : ℚ) :
    signed s₁ v / signed s₂ w = signed (s₁ / s₂) (v / w) := by
  cases s₁ <;> cases s₂
  · exact neg_div_neg_eq v w
  · exact neg_div w v
  · exact div_neg v
  · rfl

theorem signed_mul_signed_self (s : Sign) (v w : ℚ) : signed s v * signed s w = v * w := by
  rw [signed_mul_signed]
  cases s <;> rfl

/-- The number with canonical parts that have the value of a nearest multiple. -/
theorem Canonical.rounds (s : Sign) (hc : Canonical m e) (hm : 0 < m) (hn : Nearest n t r)
    (hr : 0 ≤ r) (hvalue : (m : ℚ) * 2 ^ e = n * 2 ^ t) :
    Rounds (Float.ofModel (Float.Model.pack (.finite s m e hm))) (signed s r) := by
  have hn : Nearest n t |signed s r| := by rwa [abs_signed, abs_of_nonneg hr]
  rcases le_or_gt e 971 with he | he
  · have hu : (Float.Model.pack (.finite s m e hm)).unpack = .finite s m e hm :=
      unpack_pack_finite hc he
    rw [← unpack_ofModel_pack] at hu
    refine .finite n t (isFinite_of_unpack hu) hn (hvalue ▸ abs_toRat_of_finite hu) ?_
    rw [toRat_of_finite hu, signed_mul_signed_self]
    positivity
  · have hu : (Float.Model.pack (.finite s m e hm)).unpack = .infinity s :=
      unpack_pack_overflow he
    rw [← unpack_ofModel_pack] at hu
    have hside : 0 ≤ signed s (signed s r) := by
      cases s with
      | negative =>
        show 0 ≤ - -r
        rwa [neg_neg]
      | positive => exact hr
    refine .overflow n t s hu hn ?_ hside
    have hdigits : 2 ^ 52 ≤ m := hc.leading (by omega)
    have hdigits : (2 : ℚ) ^ 52 ≤ m := by exact_mod_cast hdigits
    have hexp : (2 : ℚ) ^ (972 : ℤ) ≤ 2 ^ e := zpow_le_zpow_right₀ one_le_two he
    rw [← hvalue]
    calc (2 : ℚ) ^ 1024 = 2 ^ 52 * (2 : ℚ) ^ (972 : ℤ) := by
          rw [← zpow_natCast, ← zpow_natCast, ← zpow_add₀ two_ne_zero]
          rfl
      _ ≤ (m : ℚ) * 2 ^ e := mul_le_mul hdigits hexp (by positivity) (by positivity)

theorem Rounds.of_zero (h : z.toModel.unpack = .zero s) : Rounds z 0 := by
  have hself := Rounds.self (isFinite_of_unpack h)
  rwa [toRat_of_zero h] at hself

/-- A nearest multiple, settled into its digits. -/
theorem Nearest.rounds (s : Sign) (hn : Nearest n t r) (hr : 0 ≤ r) :
    Rounds (Float.ofModel (Float.Model.pack (settle s n t))) (signed s r) := by
  rcases eq_or_ne n 0 with rfl | hzero
  · have hu := unpack_pack_zero s
    rw [← unpack_ofModel_pack] at hu
    have hn : Nearest 0 t |signed s r| := by rwa [abs_signed, abs_of_nonneg hr]
    rw [settle_zero]
    refine .finite 0 t (isFinite_of_unpack hu) hn ?_ ?_
    · rw [toRat_of_zero hu, Nat.cast_zero, zero_mul, abs_zero]
    · rw [toRat_of_zero hu, zero_mul]
  rcases Nat.lt_or_eq_of_le hn.le with hlt | rfl
  · rw [settle_of_lt s t hzero hlt]
    exact Canonical.rounds s ⟨hlt, hn.ge, hn.le_digits⟩ (Nat.pos_of_ne_zero hzero) hn hr rfl
  · have hge := hn.ge
    have hc : Canonical (2 ^ 52) (t + 1) := ⟨by decide, by omega, fun _ => le_rfl⟩
    refine hc.rounds s _ hn hr ?_
    rw [zpow_add_one₀ two_ne_zero]
    push_cast
    ring

/-- A significand with its accuracy, rounded. -/
theorem Approximates.rounds (s : Sign) (h : Approximates m acc r)
    (he : e ≤ Format.binary64.targetExponent (totalExponent m e)) :
    Rounds (Float.ofModel (Float.Model.pack (roundWithAccuracy .binary64 s m e acc)))
      (signed s (r * 2 ^ e)) := by
  obtain ⟨n, t, hn, hu⟩ := roundWithAccuracy_eq s h he
  have hr : 0 ≤ r := (Nat.cast_nonneg m).trans h.bounds.1
  rw [hu]
  exact hn.rounds s (by positivity)

theorem approximates_exact (m : ℕ) : Approximates m .exact m := rfl

theorem le_targetExponent (h : -1074 < e → 2 ^ 52 ≤ m) :
    e ≤ Format.binary64.targetExponent (totalExponent m e) := by
  rw [targetExponent_eq, totalExponent]
  rcases le_or_gt e (-1074) with he | he
  · omega
  · have hm := h he
    have hlog : 52 ≤ m.log2 := (Nat.le_log2 (by omega)).2 hm
    omega

/-! ### Products and quotients -/

theorem rounds_mul (hx : x.isFinite = true) (hy : y.isFinite = true) :
    Rounds (x * y) (toRat x * toRat y) := by
  have hzero : ∀ {s}, x.toModel.unpack.mul .binary64 y.toModel.unpack = .zero s →
      toRat x * toRat y = 0 → Rounds (x * y) (toRat x * toRat y) := by
    intro s h hv
    rw [hv, mul_eq, h]
    exact Rounds.of_zero (unpack_pack_zero s)
  rcases finite_cases hx with ⟨s, hu⟩ | ⟨s, m, e, hm, hu, hc, -⟩ <;>
    rcases finite_cases hy with ⟨s', hu'⟩ | ⟨s', m', e', hm', hu', hc', -⟩
  · exact hzero (by rw [hu, hu']; rfl) (by rw [toRat_of_zero hu, zero_mul])
  · exact hzero (by rw [hu, hu']; rfl) (by rw [toRat_of_zero hu, zero_mul])
  · exact hzero (by rw [hu, hu']; rfl) (by rw [toRat_of_zero hu', mul_zero])
  · have hvalue : toRat x * toRat y = signed (s * s') ((m * m' : ℕ) * 2 ^ (e + e')) := by
      rw [toRat_of_finite hu, toRat_of_finite hu', signed_mul_signed, zpow_add₀ two_ne_zero]
      push_cast
      ring_nf
    have hdigits : -1074 < e + e' → 2 ^ 52 ≤ m * m' := by
      intro hsum
      rcases em (e = -1074) with he | he
      · have hm' := hc'.leading (by omega)
        nlinarith
      · have hm := hc.leading he
        nlinarith
    rw [hvalue, mul_eq, hu, hu']
    exact (approximates_exact (m * m')).rounds (s * s') (le_targetExponent hdigits)

/-- A quotient of whole numbers with its remainder compared to half of the divisor. -/
theorem approximates_fraction (m : ℕ) {n : ℕ} (hn : 0 < n) :
    Approximates (m / n) (accuracyOfFraction (m % n) n) ((m : ℚ) / n) := by
  have hpos : (0 : ℚ) < n := by exact_mod_cast hn
  have hdiv : (m : ℚ) / n = (m / n : ℕ) + ((m % n : ℕ) : ℚ) / n := by
    rw [eq_comm, ← mul_right_inj' hpos.ne', mul_add, mul_div_cancel₀ _ hpos.ne',
      mul_div_cancel₀ _ hpos.ne']
    exact_mod_cast Nat.div_add_mod m n
  have hlt : ((m % n : ℕ) : ℚ) / n < 1 := by
    rw [div_lt_one hpos]
    exact_mod_cast Nat.mod_lt m hn
  rw [hdiv, accuracyOfFraction]
  split_ifs with hzero
  · show ((m / n : ℕ) : ℚ) + ((m % n : ℕ) : ℚ) / n = (m / n : ℕ)
    rw [hzero, Nat.cast_zero, zero_div, add_zero]
  · have hfraction : 0 < ((m % n : ℕ) : ℚ) / n := by
      have : (0 : ℚ) < (m % n : ℕ) := by exact_mod_cast Nat.pos_of_ne_zero hzero
      positivity
    rcases lt_trichotomy (2 * (m % n)) n with h | h | h
    · have hhalf : ((m % n : ℕ) : ℚ) / n < 1 / 2 := by
        rw [div_lt_div_iff₀ hpos two_pos, one_mul, mul_comm]
        exact_mod_cast h
      rw [compare_lt_iff_lt.2 h]
      constructor <;> linarith
    · have hhalf : ((m % n : ℕ) : ℚ) / n = 1 / 2 := by
        rw [div_eq_div_iff hpos.ne' two_ne_zero, one_mul, mul_comm]
        exact_mod_cast h
      rw [compare_eq_iff_eq.2 h]
      show _ = _
      linarith
    · have hhalf : 1 / 2 < ((m % n : ℕ) : ℚ) / n := by
        rw [div_lt_div_iff₀ two_pos hpos, one_mul, mul_comm]
        exact_mod_cast h
      rw [compare_gt_iff_gt.2 h]
      constructor <;> linarith

/-- The quotient is taken with enough digits. -/
theorem divCore_eq (e₁ e₂ : ℤ) (hm₁ : 0 < m₁) (hm₂ : 0 < m₂) :
    ∃ (k : ℕ) (e : ℤ), e₁ - e₂ - k = e ∧
      e ≤ Format.binary64.targetExponent (totalExponent (m₁ * 2 ^ k / m₂) e) ∧
      divCore .binary64 m₁ e₁ m₂ e₂ =
        (m₁ * 2 ^ k / m₂, e, accuracyOfFraction (m₁ * 2 ^ k % m₂) m₂) := by
  generalize hT : min (e₁ - e₂)
    (Format.binary64.targetExponent (totalExponent m₁ e₁ - totalExponent m₂ e₂)) = e
  have hcore : divCore .binary64 m₁ e₁ m₂ e₂ =
      (m₁ * 2 ^ (e₁ - e₂ - e).toNat / m₂, e,
        accuracyOfFraction (m₁ * 2 ^ (e₁ - e₂ - e).toNat % m₂) m₂) := by
    unfold divCore
    rw [hT]
    dsimp only
    rw [Nat.shiftLeft_eq]
  rw [targetExponent_eq, totalExponent, totalExponent] at hT
  refine ⟨(e₁ - e₂ - e).toNat, e, by omega, le_targetExponent fun he => ?_, hcore⟩
  generalize hk : (e₁ - e₂ - e).toNat = k
  rw [Nat.le_div_iff_mul_le hm₂]
  have hlog : m₂.log2 + 53 ≤ m₁.log2 + k := by omega
  have hupper : m₂ < 2 ^ (m₂.log2 + 1) := Nat.lt_log2_self
  calc 2 ^ 52 * m₂ ≤ 2 ^ 52 * 2 ^ (m₂.log2 + 1) := Nat.mul_le_mul_left _ hupper.le
    _ = 2 ^ (m₂.log2 + 53) := by rw [← pow_add, add_comm, add_assoc]
    _ ≤ 2 ^ (m₁.log2 + k) := Nat.pow_le_pow_right two_pos hlog
    _ = 2 ^ m₁.log2 * 2 ^ k := pow_add _ _ _
    _ ≤ m₁ * 2 ^ k := Nat.mul_le_mul_right _ (Nat.log2_self_le hm₁.ne')

theorem rounds_div (hx : x.isFinite = true) (hy : y.isFinite = true) (hne : toRat y ≠ 0) :
    Rounds (x / y) (toRat x / toRat y) := by
  rcases finite_cases hy with ⟨s', hu'⟩ | ⟨s', m', e', hm', hu', -⟩
  · exact absurd (toRat_of_zero hu') hne
  rcases finite_cases hx with ⟨s, hu⟩ | ⟨s, m, e, hm, hu, -⟩
  · rw [toRat_of_zero hu, zero_div, div_eq, hu, hu']
    exact Rounds.of_zero (unpack_pack_zero (s / s'))
  · obtain ⟨k, d, hd, hle, hcore⟩ := divCore_eq e e' hm hm'
    have hexp : (2 : ℚ) ^ e = 2 ^ d * 2 ^ k * 2 ^ e' := by
      rw [← zpow_natCast, ← zpow_add₀ two_ne_zero, ← zpow_add₀ two_ne_zero]
      congr 1
      omega
    have hvalue : toRat x / toRat y =
        signed (s / s') (((m * 2 ^ k : ℕ) : ℚ) / m' * 2 ^ d) := by
      have hm' : (m' : ℚ) ≠ 0 := by exact_mod_cast hm'.ne'
      rw [toRat_of_finite hu, toRat_of_finite hu', signed_div_signed, hexp]
      push_cast
      field_simp
    rw [hvalue, div_eq, hu, hu', div_finite, hcore]
    exact (approximates_fraction (m * 2 ^ k) hm').rounds (s / s') hle

/-! ### Sums and differences -/

theorem neg_eq (x : Float) : -x = Float.ofModel (Float.Model.pack x.toModel.unpack.neg) := rfl

theorem abs_eq (x : Float) : x.abs = Float.ofModel (Float.Model.pack x.toModel.unpack.abs) := rfl

theorem add_eq (x y : Float) : x + y =
    Float.ofModel (Float.Model.pack (x.toModel.unpack.add .binary64 y.toModel.unpack)) := rfl

theorem sub_eq (x y : Float) : x - y =
    Float.ofModel (Float.Model.pack (x.toModel.unpack.sub .binary64 y.toModel.unpack)) := rfl

theorem unpack_neg (x : Float) : (-x).toModel.unpack = x.toModel.unpack.neg := by
  rw [neg_eq, unpack_ofModel_pack]
  cases hx : x.toModel.unpack with
  | infinity s => exact unpack_pack_infinity (-s)
  | notANumber => rfl
  | zero s => exact unpack_pack_zero (-s)
  | finite s m e hm =>
    obtain ⟨hc, he⟩ := canonical_of_unpack hx
    exact unpack_pack_finite hc he

theorem unpack_abs (x : Float) : x.abs.toModel.unpack = x.toModel.unpack.abs := by
  rw [abs_eq, unpack_ofModel_pack]
  cases hx : x.toModel.unpack with
  | infinity s => exact unpack_pack_infinity .positive
  | notANumber => rfl
  | zero s => exact unpack_pack_zero .positive
  | finite s m e hm =>
    obtain ⟨hc, he⟩ := canonical_of_unpack hx
    exact unpack_pack_finite hc he

theorem toRat_neg (x : Float) : toRat (-x) = -toRat x := by
  rw [toRat, unpack_neg, toRat]
  cases x.toModel.unpack with
  | infinity s => exact neg_zero.symm
  | notANumber => exact neg_zero.symm
  | zero s => exact neg_zero.symm
  | finite s m e hm =>
    cases s with
    | negative => exact (neg_neg _).symm
    | positive => rfl

theorem toRat_abs (x : Float) : toRat x.abs = |toRat x| := by
  rw [toRat, unpack_abs, toRat]
  cases x.toModel.unpack with
  | infinity s => exact abs_zero.symm
  | notANumber => exact abs_zero.symm
  | zero s => exact abs_zero.symm
  | finite s m e hm =>
    have hpos : (0 : ℚ) ≤ m * 2 ^ e := by positivity
    show (m : ℚ) * 2 ^ e = |signed s (m * 2 ^ e)|
    rw [abs_signed, abs_of_nonneg hpos]

theorem isFinite_neg (x : Float) : (-x).isFinite = x.isFinite := by
  rw [isFinite_of_unpack (unpack_neg x)]
  show _ = x.toModel.unpack.isFinite
  cases x.toModel.unpack <;> rfl

theorem isFinite_abs (x : Float) : x.abs.isFinite = x.isFinite := by
  rw [isFinite_of_unpack (unpack_abs x)]
  show _ = x.toModel.unpack.isFinite
  cases x.toModel.unpack <;> rfl

theorem unpacked_sub_eq_add_neg (u w : UnpackedFloat) :
    u.sub .binary64 w = u.add .binary64 w.neg := by
  cases u <;> cases w
  case finite.finite s m e hm s' m' e' hm' =>
    have happly : ∀ n : ℤ, (-s').apply n = -s'.apply n := by
      intro n
      cases s' with
      | negative => exact (neg_neg n).symm
      | positive => rfl
    show normalize .binary64 (s.apply _ - s'.apply _) _ _ =
      normalize .binary64 (s.apply _ + (-s').apply _) _ _
    rw [happly, sub_eq_add_neg]
  all_goals rfl

theorem sub_eq_add (x y : Float) : x - y = x + -y := by
  rw [sub_eq, add_eq, unpack_neg, unpacked_sub_eq_add_neg]

/-- A significand without accuracy, rounded after it was given enough digits. -/
theorem rounds_round (s : Sign) (hm : 0 < m) :
    Rounds (Float.ofModel (Float.Model.pack (UnpackedFloat.round .binary64 s m e)))
      (signed s (m * 2 ^ e)) := by
  generalize hk : (e - Format.binary64.targetExponent (totalExponent m e)).toNat = k
  have hround : UnpackedFloat.round .binary64 s m e =
      roundWithAccuracy .binary64 s (m * 2 ^ k) (e - k) .exact := by
    unfold UnpackedFloat.round decreaseExponent
    dsimp only
    rw [hk, Nat.shiftLeft_eq]
  have htotal : totalExponent (m * 2 ^ k) (e - k) = totalExponent m e := by
    rw [totalExponent, totalExponent, log2_mul_two_pow hm.ne']
    push_cast
    ring
  have hvalue : (m : ℚ) * 2 ^ e = (m * 2 ^ k : ℕ) * 2 ^ (e - k) := by
    rw [zpow_sub₀ two_ne_zero, zpow_natCast]
    push_cast
    field_simp
  rw [hround, hvalue]
  exact (approximates_exact (m * 2 ^ k)).rounds s (by rw [htotal]; omega)

theorem rounds_normalize (n : ℤ) (e : ℤ) :
    Rounds (Float.ofModel (Float.Model.pack (normalize .binary64 n e .positive))) (n * 2 ^ e) := by
  unfold UnpackedFloat.normalize
  rcases lt_trichotomy n 0 with h | rfl | h
  · obtain ⟨m, hm⟩ := Int.eq_ofNat_of_zero_le (neg_nonneg.2 h.le)
    have hnat : (-n).toNat = m := by omega
    have hvalue : (n : ℚ) * 2 ^ e = signed .negative (m * 2 ^ e) := by
      have hn : (n : ℚ) = -m := by rw [← neg_eq_iff_eq_neg]; exact_mod_cast hm
      rw [hn, neg_mul]
      rfl
    rw [compare_lt_iff_lt.2 h, hvalue, hnat]
    exact rounds_round .negative (by omega)
  · rw [compare_eq_iff_eq.2 rfl, Int.cast_zero, zero_mul]
    exact Rounds.of_zero (unpack_pack_zero .positive)
  · obtain ⟨m, rfl⟩ := Int.eq_ofNat_of_zero_le h.le
    rw [compare_gt_iff_gt.2 h]
    exact rounds_round .positive (by omega)

/-- A significand with more digits at a smaller exponent. -/
theorem apply_decreaseExponent (s : Sign) (h : t ≤ e) :
    ((s.apply (decreaseExponent m e t).1 : ℤ) : ℚ) * 2 ^ t = signed s (m * 2 ^ e) := by
  obtain ⟨k, rfl⟩ := Int.le.dest h
  have hk : (t + k - t).toNat = k := by omega
  have hvalue : ((m * 2 ^ k : ℕ) : ℚ) * 2 ^ t = m * 2 ^ (t + k) := by
    rw [zpow_add₀ two_ne_zero, zpow_natCast]
    push_cast
    ring
  unfold decreaseExponent
  dsimp only
  rw [hk, Nat.shiftLeft_eq]
  cases s with
  | negative =>
    show ((-((m * 2 ^ k : ℕ) : ℤ) : ℤ) : ℚ) * 2 ^ t = -(m * 2 ^ (t + k))
    rw [← hvalue, Int.cast_neg, Int.cast_natCast, neg_mul]
  | positive => exact hvalue

theorem rounds_add (hx : x.isFinite = true) (hy : y.isFinite = true) :
    Rounds (x + y) (toRat x + toRat y) := by
  rcases finite_cases hx with ⟨s, hu⟩ | ⟨s, m, e, hm, hu, -⟩ <;>
    rcases finite_cases hy with ⟨s', hu'⟩ | ⟨s', m', e', hm', hu', -⟩
  · rw [toRat_of_zero hu, toRat_of_zero hu', add_zero, add_eq, hu, hu']
    cases s <;> cases s' <;> exact Rounds.of_zero (unpack_pack_zero _)
  · have hsum : x + y = y := by
      rw [add_eq, hu, hu']
      show Float.ofModel (Float.Model.pack (.finite s' m' e' hm')) = y
      rw [← hu', ofModel_pack_unpack]
    rw [toRat_of_zero hu, zero_add, hsum]
    exact Rounds.self hy
  · have hsum : x + y = x := by
      rw [add_eq, hu, hu']
      show Float.ofModel (Float.Model.pack (.finite s m e hm)) = x
      rw [← hu, ofModel_pack_unpack]
    rw [toRat_of_zero hu', add_zero, hsum]
    exact Rounds.self hx
  · rw [add_eq, hu, hu', toRat_of_finite hu, toRat_of_finite hu',
      ← apply_decreaseExponent s (min_le_left e e'), ← apply_decreaseExponent s' (min_le_right e e'),
      ← add_mul, ← Int.cast_add]
    exact rounds_normalize _ _

theorem rounds_sub (hx : x.isFinite = true) (hy : y.isFinite = true) :
    Rounds (x - y) (toRat x - toRat y) := by
  have hy : (-y).isFinite = true := (isFinite_neg y).trans hy
  have hsum := rounds_add hx hy
  rwa [toRat_neg, ← sub_eq_add_neg, ← sub_eq_add] at hsum

end QuantityCalculus.Binary64
