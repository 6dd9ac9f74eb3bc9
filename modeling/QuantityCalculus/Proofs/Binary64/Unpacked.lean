import Mathlib.Data.Nat.Log
import Mathlib.Tactic.Ring

/-! Binary64 numbers as sign, significand and exponent. A bit pattern is packed again from what is
unpacked from it, the exponent of a finite number is the one that rounding gives it, and a number
with zeros behind its significand is rounded to itself. -/

namespace QuantityCalculus.Binary64

open Float.Model Float.Model.UnpackedFloat

theorem targetExponent_eq (t : ℤ) : Format.binary64.targetExponent t = max (t - 53) (-1074) := rfl

/-- Shifting zeros out of a significand is exact. -/
theorem shiftRight_exact (m k : ℕ) :
    ExtendedMantissa.ofMantissaAndAccuracy (m * 2 ^ k) .exact >>> k = ⟨m, false, false⟩ := by
  induction k generalizing m with
  | zero =>
    rw [pow_zero, mul_one]
    rfl
  | succ k ih =>
    have hpow : m * 2 ^ (k + 1) = m * 2 * 2 ^ k := by ring
    have hstep := ih (m * 2)
    rw [← hpow] at hstep
    show ((ExtendedMantissa.ofMantissaAndAccuracy (m * 2 ^ (k + 1)) .exact) >>> k).shiftRightOne = _
    rw [hstep]
    simp [ExtendedMantissa.shiftRightOne]

theorem log2_mul_two_pow {m : ℕ} (h : m ≠ 0) (k : ℕ) : (m * 2 ^ k).log2 = m.log2 + k := by
  induction k with
  | zero => simp
  | succ k ih =>
    have hpow : m * 2 ^ (k + 1) = 2 * (m * 2 ^ k) := by ring
    have hne : m * 2 ^ k ≠ 0 := Nat.mul_ne_zero h (Nat.two_pow_pos k).ne'
    rw [hpow, Nat.log2_two_mul hne, ih, add_assoc]

/-- A number that is written with zeros at the end of its significand is rounded to itself. -/
theorem roundWithAccuracy_exact {m : ℕ} {e : ℤ} (s : Sign) (hm : 0 < m) (k : ℕ)
    (he : Format.binary64.targetExponent (totalExponent m e) = e) :
    roundWithAccuracy .binary64 s (m * 2 ^ k) (e - k) .exact = .finite s m e hm := by
  have htotal : totalExponent (m * 2 ^ k) (e - k) = totalExponent m e := by
    unfold totalExponent
    rw [log2_mul_two_pow hm.ne']
    push_cast
    ring
  have hshift : (e - (e - k)).toNat = k := by omega
  have hsum : e - k + k = e := by ring
  have hfirst : shiftToTargetExponent .binary64 (m * 2 ^ k) (e - k) .exact =
      (⟨m, false, false⟩, e) := by
    rw [shiftToTargetExponent, shiftToExponent, htotal, he, hshift, shiftRight_exact, hsum]
  have hsecond : shiftToTargetExponent .binary64 m e .exact = (⟨m, false, false⟩, e) := by
    rw [shiftToTargetExponent, shiftToExponent, he]
    have hzero : (e - e).toNat = 0 := by omega
    have := shiftRight_exact m 0
    rw [pow_zero, mul_one] at this
    rw [hzero, this]
    simp
  have hrounded : (⟨m, false, false⟩ : ExtendedMantissa).roundedMantissa = m := rfl
  unfold roundWithAccuracy
  rw [hfirst]
  dsimp only
  rw [hrounded, hsecond]
  exact dif_neg hm.ne'

/-! ### Unpacking and packing -/

theorem toBitVec_ofBitVec (v : BitVec 1) : (Sign.ofBitVec v).toBitVec = v := by
  revert v
  decide

variable {b : BitVec Format.binary64.numBits}

theorem getLsbD_unpackMantissa {i : ℕ} (h : i < 52) :
    (unpackMantissa b).getLsbD i = b.getLsbD i := by
  show ((b.extractLsb 51 0).cast _).getLsbD i = _
  rw [BitVec.getLsbD_cast, BitVec.getLsbD_extractLsb, decide_eq_true (by omega), Bool.true_and,
    Nat.zero_add]

theorem getLsbD_unpackExponent {i : ℕ} (h : i < 11) :
    (unpackExponent b).getLsbD i = b.getLsbD (52 + i) := by
  show ((b.extractLsb 62 52).cast _).getLsbD i = _
  rw [BitVec.getLsbD_cast, BitVec.getLsbD_extractLsb, decide_eq_true (by omega), Bool.true_and]

theorem getLsbD_unpackSign : (unpackSign b).getLsbD 0 = b.getLsbD 63 := by
  show ((b.extractLsb 63 63).cast _).getLsbD 0 = _
  rw [BitVec.getLsbD_cast, BitVec.getLsbD_extractLsb, decide_eq_true (by omega), Bool.true_and]

theorem packComponents_parts (b : BitVec Format.binary64.numBits) :
    packComponents .binary64 (Sign.ofBitVec (unpackSign b)) (unpackExponent b)
      (unpackMantissa b) = b := by
  rw [packComponents, toBitVec_ofBitVec]
  apply BitVec.eq_of_getLsbD_eq
  intro i hi
  have hi : i < 64 := hi
  rw [BitVec.getLsbD_append, BitVec.getLsbD_append]
  split_ifs with hm he
  · exact getLsbD_unpackMantissa hm
  · have hm : ¬ i < 52 := hm
    have hsum : 52 + (i - 52) = i := by omega
    rw [getLsbD_unpackExponent he]
    show b.getLsbD (52 + (i - 52)) = _
    rw [hsum]
  · have hm : ¬ i < 52 := hm
    have he : ¬ i - 52 < 11 := he
    have hsign : i - 52 - 11 = 0 := by omega
    have hlast : 63 = i := by omega
    show (unpackSign b).getLsbD (i - 52 - 11) = _
    rw [hsign, getLsbD_unpackSign, hlast]

/-- The parts of a bit pattern, each with its value. -/
theorem packComponents_eq {e : BitVec 11} {m : BitVec 52} (he : unpackExponent b = e)
    (hm : unpackMantissa b = m) :
    packComponents .binary64 (Sign.ofBitVec (unpackSign b)) e m = b := by
  rw [← he, ← hm, packComponents_parts]

theorem toNat_append_one (m : BitVec 52) : (1#1 ++ m).toNat = 2 ^ 52 + m.toNat := by
  rw [BitVec.toNat_append, ← Nat.shiftLeft_add_eq_or_of_lt m.isLt]
  rfl

theorem log2_append_one (m : BitVec 52) : (1#1 ++ m).toNat.log2 = 52 := by
  have := m.isLt
  rw [toNat_append_one, Nat.log2_eq_iff (by omega)]
  omega

theorem log2_lt_of_toNat {m : BitVec 52} (h : m ≠ 0#52) : m.toNat.log2 < 52 := by
  have hne : m.toNat ≠ 0 := fun h0 => h (BitVec.eq_of_toNat_eq h0)
  exact (Nat.log2_lt hne).2 m.isLt

theorem pack_subnormal (s : Sign) {m : BitVec 52} (h : m ≠ 0#52) (hm : 0 < m.toNat) :
    UnpackedFloat.pack .binary64 (.finite s m.toNat (-1074) hm) =
      packComponents .binary64 s 0#11 m := by
  have hlog := log2_lt_of_toNat h
  have hbits : Format.binary64.mantissaBits = 53 := rfl
  have hbiased : (-1074 + (Format.binary64.exponentBias : ℤ) +
      (Format.binary64.mantissaBitsWithoutImplicit : ℤ)).toNat = 1 := by decide
  unfold UnpackedFloat.pack
  dsimp only
  rw [hbiased, if_neg (by decide), if_neg (by omega), BitVec.ofNat_toNat, BitVec.setWidth_eq]

theorem pack_normal (s : Sign) {x : BitVec 11} {m : BitVec 52} (h : x ≠ -1#11)
    (hm : 0 < (1#1 ++ m).toNat) :
    UnpackedFloat.pack .binary64 (.finite s (1#1 ++ m).toNat (x.toNat - 1075) hm) =
      packComponents .binary64 s x m := by
  have hlog := log2_append_one m
  have hbits : Format.binary64.mantissaBits = 53 := rfl
  have hbiased : ((x.toNat : ℤ) - 1075 + (Format.binary64.exponentBias : ℤ) +
      (Format.binary64.mantissaBitsWithoutImplicit : ℤ)).toNat = x.toNat := by
    show ((x.toNat : ℤ) - 1075 + 1023 + 52).toNat = x.toNat
    omega
  have hlt : x.toNat + 1 < 2048 := by
    have hne : x.toNat ≠ 2047 := fun hx => h (BitVec.eq_of_toNat_eq hx)
    have := x.isLt
    omega
  have hmantissa : BitVec.ofNat 52 (1#1 ++ m).toNat = m := by
    apply BitVec.eq_of_toNat_eq
    have := m.isLt
    rw [toNat_append_one, BitVec.toNat_ofNat]
    omega
  have hfits : ¬ 2 ^ Format.binary64.exponentBits ≤ x.toNat + 1 := by
    show ¬ 2048 ≤ x.toNat + 1
    omega
  unfold UnpackedFloat.pack
  dsimp only
  rw [hbiased, if_neg hfits, if_pos (by omega), hmantissa, BitVec.ofNat_toNat, BitVec.setWidth_eq]

/-- The five kinds of bit patterns: infinities, the rest with the largest exponent, zeros, the other
ones with the smallest exponent, and numbers with a leading bit that is left out. -/
theorem unpack_cases (b : BitVec Format.binary64.numBits) :
    (unpackExponent b = -1#11 ∧ unpackMantissa b = 0#52 ∧
        UnpackedFloat.unpack .binary64 b = .infinity (Sign.ofBitVec (unpackSign b))) ∨
      (unpackExponent b = -1#11 ∧ unpackMantissa b ≠ 0#52 ∧
        UnpackedFloat.unpack .binary64 b = .notANumber) ∨
      (unpackExponent b = 0#11 ∧ unpackMantissa b = 0#52 ∧
        UnpackedFloat.unpack .binary64 b = .zero (Sign.ofBitVec (unpackSign b))) ∨
      (unpackExponent b = 0#11 ∧ unpackMantissa b ≠ 0#52 ∧
        ∃ hpos, UnpackedFloat.unpack .binary64 b =
          .finite (Sign.ofBitVec (unpackSign b)) (unpackMantissa b).toNat (-1074) hpos) ∨
      (unpackExponent b ≠ -1#11 ∧ unpackExponent b ≠ 0#11 ∧
        ∃ hpos, UnpackedFloat.unpack .binary64 b =
          .finite (Sign.ofBitVec (unpackSign b)) (1#1 ++ unpackMantissa b).toNat
            ((unpackExponent b).toNat - 1075) hpos) := by
  unfold UnpackedFloat.unpack
  dsimp only
  by_cases hexp : unpackExponent b = -1#11
  · rw [if_pos hexp]
    by_cases hm : unpackMantissa b = 0#52
    · exact .inl ⟨hexp, hm, if_pos hm⟩
    · exact .inr (.inl ⟨hexp, hm, if_neg hm⟩)
  · rw [if_neg hexp]
    by_cases hexp0 : unpackExponent b = 0#11
    · rw [if_pos hexp0]
      by_cases hm : unpackMantissa b = 0#52
      · exact .inr (.inr (.inl ⟨hexp0, hm, dif_pos hm⟩))
      · have hpos : 0 < (unpackMantissa b).toNat :=
          Nat.pos_of_ne_zero fun h0 => hm (BitVec.eq_of_toNat_eq h0)
        rw [dif_neg hm, hexp0]
        exact .inr (.inr (.inr (.inl ⟨rfl, hm, hpos, rfl⟩)))
    · have hpos : 0 < (1#1 ++ unpackMantissa b).toNat := by
        rw [toNat_append_one]
        omega
      rw [if_neg hexp0]
      exact .inr (.inr (.inr (.inr ⟨hexp, hexp0, hpos, rfl⟩)))

/-- A valid bit pattern is packed again from what is unpacked from it. -/
theorem pack_unpack (h : Format.binary64.Valid b) :
    UnpackedFloat.pack .binary64 (UnpackedFloat.unpack .binary64 b) = b := by
  rcases unpack_cases b with ⟨hexp, hm, hu⟩ | ⟨hexp, hm, hu⟩ | ⟨hexp, hm, hu⟩ |
    ⟨hexp, hm, hpos, hu⟩ | ⟨hexp, -, hpos, hu⟩
  · rw [hu]
    exact packComponents_eq hexp hm
  · rw [hu]
    exact (h.eq_packedNaN hexp hm).symm
  · rw [hu]
    exact packComponents_eq hexp hm
  · rw [hu, pack_subnormal _ hm]
    exact packComponents_eq hexp rfl
  · rw [hu, pack_normal _ hexp]
    exact packComponents_parts b

/-- A finite number is unpacked with the exponent that rounding gives it. -/
theorem targetExponent_of_unpack {s : Sign} {m : ℕ} {e : ℤ} {hm : 0 < m}
    (h : UnpackedFloat.unpack .binary64 b = .finite s m e hm) :
    Format.binary64.targetExponent (totalExponent m e) = e := by
  rcases unpack_cases b with ⟨-, -, hu⟩ | ⟨-, -, hu⟩ | ⟨-, -, hu⟩ | ⟨-, hne, hpos, hu⟩ |
    ⟨-, hexp, hpos, hu⟩
  · rw [hu] at h
    cases h
  · rw [hu] at h
    cases h
  · rw [hu] at h
    cases h
  · rw [hu] at h
    injection h with _ hm he
    have hlog := log2_lt_of_toNat hne
    rw [targetExponent_eq, totalExponent, ← hm]
    omega
  · rw [hu] at h
    injection h with _ hm he
    have hlog := log2_append_one (unpackMantissa b)
    have hne : (unpackExponent b).toNat ≠ 0 := fun h0 => hexp (BitVec.eq_of_toNat_eq h0)
    rw [targetExponent_eq, totalExponent, ← hm, hlog]
    omega

end QuantityCalculus.Binary64
