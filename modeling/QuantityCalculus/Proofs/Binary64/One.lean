import QuantityCalculus.Proofs.Binary64.Unpacked

/-! One as a factor of binary64 numbers. It changes no number that is multiplied with it or divided
by it, and no other number is equal to it. -/

namespace QuantityCalculus.Binary64

open Float.Model Float.Model.UnpackedFloat

theorem unpack_one : (1.0 : Float).toModel.unpack =
    .finite .positive 0x10000000000000 (-52) (by decide) := by
  have hbits : (1.0 : Float).toBits = 0x3FF0000000000000 := by decide +kernel
  have hunpack : UnpackedFloat.unpack .binary64 (0x3FF0000000000000 : UInt64).toBitVec =
      .finite .positive 0x10000000000000 (-52) (by decide) := rfl
  rw [← hunpack, ← hbits]
  rfl

theorem model_ext {f g : Float.Model} (h : f.toBits = g.toBits) : f = g := by
  cases f
  cases g
  cases h
  rfl

theorem ofModel_pack_unpack (x : Float) :
    Float.ofModel (Float.Model.pack x.toModel.unpack) = x := by
  have hpack := pack_unpack x.toModel.valid
  refine congrArg Float.ofModel (model_ext ?_)
  show UInt64.ofBitVec (UnpackedFloat.pack .binary64
    (UnpackedFloat.unpack .binary64 x.toModel.toBits.toBitVec)) = x.toModel.toBits
  rw [hpack]

theorem mul_eq (x y : Float) : x * y =
    Float.ofModel (Float.Model.pack (x.toModel.unpack.mul .binary64 y.toModel.unpack)) := rfl

theorem div_eq (x y : Float) : x / y =
    Float.ofModel (Float.Model.pack (x.toModel.unpack.div .binary64 y.toModel.unpack)) := rfl

theorem positive_mul (s : Sign) : .positive * s = s := by cases s <;> rfl

theorem div_positive (s : Sign) : s / .positive = s := by cases s <;> rfl

protected theorem one_mul (x : Float) : 1.0 * x = x := by
  have hunpack : UnpackedFloat.mul .binary64 (1.0 : Float).toModel.unpack x.toModel.unpack =
      x.toModel.unpack := by
    rw [unpack_one]
    cases hx : x.toModel.unpack with
    | infinity s => exact congrArg _ (positive_mul s)
    | notANumber => rfl
    | zero s => exact congrArg _ (positive_mul s)
    | finite s m e hm =>
      have he := targetExponent_of_unpack hx
      have := roundWithAccuracy_exact s hm 52 he
      have hcomm : (0x10000000000000 : ℕ) * m = m * 2 ^ 52 := by ring
      have hsub : (-52 : ℤ) + e = e - (52 : ℕ) := by omega
      show roundWithAccuracy .binary64 (.positive * s) (0x10000000000000 * m) (-52 + e) .exact = _
      rw [positive_mul, hcomm, hsub, this]
  rw [mul_eq, hunpack, ofModel_pack_unpack]

theorem sign_mul_comm (s t : Sign) : s * t = t * s := by cases s <;> cases t <;> rfl

theorem round_mul_comm (s t : Sign) (m n : ℕ) (e f : ℤ) :
    roundWithAccuracy .binary64 (s * t) (m * n) (e + f) .exact =
      roundWithAccuracy .binary64 (t * s) (n * m) (f + e) .exact := by
  rw [sign_mul_comm, Nat.mul_comm, Int.add_comm]

protected theorem mul_comm (x y : Float) : x * y = y * x := by
  have hunpack : ∀ u v : UnpackedFloat, u.mul .binary64 v = v.mul .binary64 u := by
    intro u v
    cases u <;> cases v <;>
      first
      | exact round_mul_comm _ _ _ _ _ _
      | exact congrArg _ (sign_mul_comm _ _)
      | rfl
  rw [mul_eq, mul_eq, hunpack]

protected theorem mul_one (x : Float) : x * 1.0 = x := by
  rw [Binary64.mul_comm, Binary64.one_mul]

/-- Dividing by one adds zeros to the significand. -/
theorem divCore_one {m : ℕ} {e : ℤ}
    (he : Format.binary64.targetExponent (totalExponent m e) = e) :
    ∃ k : ℕ, divCore .binary64 m e 0x10000000000000 (-52) = (m * 2 ^ k, e - k, .exact) := by
  have htotal : totalExponent 0x10000000000000 (-52) = 1 := by decide
  rw [targetExponent_eq] at he
  generalize ht : totalExponent m e = t at he
  have htarget : min (e - -52) (Format.binary64.targetExponent (t - 1)) = max (t - 54) (-1074) := by
    rw [targetExponent_eq]
    omega
  obtain ⟨k, hk⟩ : ∃ k : ℕ, (e - -52 - max (t - 54) (-1074)).toNat = 52 + k ∧
      max (t - 54) (-1074) = e - k := by
    refine ⟨(e - max (t - 54) (-1074)).toNat, ?_, ?_⟩ <;> omega
  refine ⟨k, ?_⟩
  have hpow : m <<< (52 + k) = m * 2 ^ k * 0x10000000000000 := by
    rw [Nat.shiftLeft_eq, pow_add]
    ring
  unfold divCore
  rw [ht, htotal, htarget]
  dsimp only
  rw [hk.1, hpow, hk.2, Nat.mul_div_cancel _ (by decide), Nat.mul_mod_left]
  rfl

theorem div_finite {s t : Sign} {m n : ℕ} {e f : ℤ} (hm : 0 < m) (hn : 0 < n) :
    UnpackedFloat.div .binary64 (.finite s m e hm) (.finite t n f hn) =
      roundWithAccuracy .binary64 (s / t) (divCore .binary64 m e n f).1
        (divCore .binary64 m e n f).2.1 (divCore .binary64 m e n f).2.2 := rfl

protected theorem div_one (x : Float) : x / 1.0 = x := by
  have hunpack : UnpackedFloat.div .binary64 x.toModel.unpack (1.0 : Float).toModel.unpack =
      x.toModel.unpack := by
    rw [unpack_one]
    cases hx : x.toModel.unpack with
    | infinity s => exact congrArg _ (div_positive s)
    | notANumber => rfl
    | zero s => exact congrArg _ (div_positive s)
    | finite s m e hm =>
      have he := targetExponent_of_unpack hx
      obtain ⟨k, hk⟩ := divCore_one he
      rw [div_finite, hk, div_positive]
      exact roundWithAccuracy_exact s hm k he
  rw [div_eq, hunpack, ofModel_pack_unpack]

/-! ### Equality -/

theorem beq_eq (x y : Float) :
    (x == y) = (x.toModel.unpack.compare y.toModel.unpack == some .eq) := rfl

theorem beq_self {x : Float} (h : x.isFinite = true) : (x == x) = true := by
  have h : x.toModel.unpack.isFinite = true := h
  rw [beq_eq]
  cases hx : x.toModel.unpack with
  | infinity s =>
    rw [hx] at h
    cases h
  | notANumber =>
    rw [hx] at h
    cases h
  | zero s => rfl
  | finite s m e hm =>
    have he : compare e e = .eq := Std.ReflCmp.compare_self
    have hm : compare m m = .eq := Std.ReflCmp.compare_self
    cases s with
    | negative =>
      show (some ((compare e e).then (compare m m)).swap == some .eq) = true
      rw [he, hm]
      rfl
    | positive =>
      show (some ((compare e e).then (compare m m)) == some .eq) = true
      rw [he, hm]
      rfl

/-- Only one is equal to one. -/
theorem eq_one_of_beq {x : Float} (h : (x == 1.0) = true) : x = 1.0 := by
  have hunpack : x.toModel.unpack = (1.0 : Float).toModel.unpack := by
    rw [beq_eq, unpack_one] at h
    rw [unpack_one]
    cases hx : x.toModel.unpack with
    | infinity s => cases s <;> rw [hx] at h <;> cases h
    | notANumber =>
      rw [hx] at h
      cases h
    | zero s =>
      rw [hx] at h
      cases h
    | finite s m e hm =>
      rw [hx] at h
      cases s with
      | negative => cases h
      | positive =>
        have h : (some ((compare e (-52)).then (compare m 0x10000000000000)) == some .eq) = true := h
        obtain ⟨rfl, rfl⟩ : e = -52 ∧ m = 0x10000000000000 := by
          simpa [Ordering.then_eq_eq] using h
        rfl
  rw [← ofModel_pack_unpack x, hunpack, ofModel_pack_unpack]

end QuantityCalculus.Binary64
