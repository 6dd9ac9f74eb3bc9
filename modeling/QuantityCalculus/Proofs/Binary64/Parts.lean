import QuantityCalculus.Binary64.Basic
import QuantityCalculus.Proofs.Binary64.One

/-! The parts of a binary64 number. Sign, significand and exponent are read off the bits, and the bits can
be read off them: a significand of less than 53 digits belongs to the smallest exponent. -/

namespace QuantityCalculus.Binary64

open Float.Model Float.Model.UnpackedFloat

variable {x y : Float} {s : Sign} {m : ℕ} {e : ℤ} {hm : 0 < m}

theorem toBits_injective : Function.Injective Float.toBits := by
  intro x y h
  have hmodel : x.toModel = y.toModel := model_ext h
  cases x
  cases y
  cases hmodel
  rfl

theorem significand_lt (x : Float) : (parts x).significand < 2 ^ 53 := by
  unfold parts
  dsimp only
  split_ifs <;> omega

theorem exponent_ge (x : Float) : -1074 ≤ (parts x).exponent := by
  unfold parts
  dsimp only
  omega

theorem significand_ge (h : (parts x).exponent ≠ -1074) : 2 ^ 52 ≤ (parts x).significand := by
  unfold parts at h ⊢
  dsimp only at h ⊢
  split_ifs with hb
  · rw [hb] at h
    exact absurd rfl h
  · omega

theorem eq_of_parts (hs : (parts x).negative = (parts y).negative)
    (hm : (parts x).significand = (parts y).significand)
    (he : (parts x).exponent = (parts y).exponent) : x = y := by
  have hx := x.toBits.toNat_lt
  have hy := y.toBits.toNat_lt
  simp only [parts, decide_eq_decide] at hs hm he
  refine toBits_injective (UInt64.toNat_inj.1 ?_)
  split_ifs at hm <;> omega

/-! ### Fields of bits -/

theorem toNat_unpackExponent (b : BitVec Format.binary64.numBits) :
    (unpackExponent b).toNat = b.toNat / 2 ^ 52 % 2 ^ 11 := by
  show ((b.extractLsb 62 52).cast _).toNat = _
  rw [BitVec.toNat_cast, BitVec.extractLsb_toNat, Nat.shiftRight_eq_div_pow]

theorem toNat_unpackMantissa (b : BitVec Format.binary64.numBits) :
    (unpackMantissa b).toNat = b.toNat % 2 ^ 52 := by
  show ((b.extractLsb 51 0).cast _).toNat = _
  rw [BitVec.toNat_cast, BitVec.extractLsb_toNat]
  rfl

theorem toNat_unpackSign (b : BitVec Format.binary64.numBits) :
    (unpackSign b).toNat = b.toNat / 2 ^ 63 % 2 ^ 1 := by
  show ((b.extractLsb 63 63).cast _).toNat = _
  rw [BitVec.toNat_cast, BitVec.extractLsb_toNat, Nat.shiftRight_eq_div_pow]

/-! ### Infinities -/

theorem parts_of_isInf (h : x.isInf = true) :
    (parts x).significand = 2 ^ 52 ∧ (parts x).exponent = 972 := by
  have h : (UnpackedFloat.unpack .binary64 x.toBits.toBitVec).isInf = true := h
  rcases unpack_cases x.toBits.toBitVec with ⟨hexp, hm, -⟩ | ⟨-, -, hu⟩ | ⟨-, -, hu⟩ |
    ⟨-, -, _, hu⟩ | ⟨-, -, _, hu⟩
  · have hbiased : x.toBits.toNat / 2 ^ 52 % 2 ^ 11 = 2047 := by
      rw [← UInt64.toNat_toBitVec, ← toNat_unpackExponent, hexp]
      rfl
    have hfraction : x.toBits.toNat % 2 ^ 52 = 0 := by
      rw [← UInt64.toNat_toBitVec, ← toNat_unpackMantissa, hm]
      rfl
    unfold parts
    dsimp only
    split_ifs <;> omega
  all_goals
    rw [hu] at h
    cases h

/-- There is one number that is none. -/
theorem eq_of_isNaN (hx : x.isNaN = true) (hy : y.isNaN = true) : x = y := by
  have hunpack : ∀ {z : Float}, z.isNaN = true → z.toModel.unpack = .notANumber := by
    intro z hz
    have hz : z.toModel.unpack.isNaN = true := hz
    cases h : z.toModel.unpack with
    | notANumber => rfl
    | infinity s => rw [h] at hz; cases hz
    | zero s => rw [h] at hz; cases hz
    | finite s m e hm => rw [h] at hz; cases hz
  rw [← ofModel_pack_unpack x, hunpack hx, ← hunpack hy, ofModel_pack_unpack]

/-! ### Finite numbers -/

theorem negative_iff (x : Float) : (parts x).negative = true ↔
    Sign.ofBitVec (@unpackSign .binary64 x.toBits.toBitVec) = .negative := by
  have hlt := x.toBits.toNat_lt
  have hsign := toNat_unpackSign x.toBits.toBitVec
  rw [UInt64.toNat_toBitVec] at hsign
  have hzero : @unpackSign .binary64 x.toBits.toBitVec = 0#1 ↔ x.toBits.toNat < 2 ^ 63 := by
    rw [← BitVec.toNat_inj, hsign]
    show _ = 0 ↔ _
    omega
  unfold parts Sign.ofBitVec
  dsimp only
  rw [decide_eq_true_iff]
  split_ifs with h
  · have := hzero.1 h
    constructor
    · omega
    · intro h'
      cases h'
  · have : ¬ x.toBits.toNat < 2 ^ 63 := fun h' => h (hzero.2 h')
    exact ⟨fun _ => rfl, fun _ => by omega⟩

/-- The parts of a number are those it is unpacked to. -/
theorem parts_of_unpack (h : x.toModel.unpack = .finite s m e hm) :
    (parts x).significand = m ∧ (parts x).exponent = e ∧
      ((parts x).negative = true ↔ s = .negative) := by
  have h : UnpackedFloat.unpack .binary64 x.toBits.toBitVec = .finite s m e hm := h
  have hexp := toNat_unpackExponent x.toBits.toBitVec
  have hmant := toNat_unpackMantissa x.toBits.toBitVec
  have hsign := negative_iff x
  rw [UInt64.toNat_toBitVec] at hexp hmant
  rcases unpack_cases x.toBits.toBitVec with ⟨-, -, hu⟩ | ⟨-, -, hu⟩ | ⟨-, -, hu⟩ |
    ⟨hz, -, _, hu⟩ | ⟨-, hz, _, hu⟩
  · rw [hu] at h
    cases h
  · rw [hu] at h
    cases h
  · rw [hu] at h
    cases h
  · rw [hu] at h
    injection h with hs hm he
    rw [hz] at hexp
    have hbiased : x.toBits.toNat / 2 ^ 52 % 2 ^ 11 = 0 := hexp.symm
    subst hs hm he
    refine ⟨?_, ?_, hsign⟩
    · rw [hmant]
      exact if_pos hbiased
    · show ((max (x.toBits.toNat / 2 ^ 52 % 2 ^ 11) 1 : ℕ) : ℤ) - 1075 = -1074
      rw [hbiased]
      rfl
  · rw [hu] at h
    injection h with hs hm he
    have hbiased : x.toBits.toNat / 2 ^ 52 % 2 ^ 11 ≠ 0 := fun h0 =>
      hz (BitVec.eq_of_toNat_eq (hexp.trans h0))
    rw [toNat_append_one] at hm
    subst hs hm he
    refine ⟨?_, ?_, hsign⟩
    · rw [hmant, add_comm]
      exact if_neg hbiased
    · show ((max (x.toBits.toNat / 2 ^ 52 % 2 ^ 11) 1 : ℕ) : ℤ) - 1075 = _
      rw [hexp]
      omega

end QuantityCalculus.Binary64
