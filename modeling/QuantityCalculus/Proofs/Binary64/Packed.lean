import QuantityCalculus.Proofs.Binary64.Parts

/-! Numbers in canonical form. A number is unpacked with a significand of 53 digits, or of fewer at the
smallest exponent. A number of this form is packed without loss if its exponent is not too large, and
as an infinity otherwise. -/

namespace QuantityCalculus.Binary64

open Float.Model Float.Model.UnpackedFloat

/-- A significand has as many digits as its exponent asks for: 53, or fewer at the smallest
exponent. -/
structure Canonical (m : ℕ) (e : ℤ) : Prop where
  lt : m < 2 ^ 53
  ge : -1074 ≤ e
  leading : e ≠ -1074 → 2 ^ 52 ≤ m

variable {b : BitVec Format.binary64.numBits} {s : Sign} {m : ℕ} {e : ℤ} {hm : 0 < m}

theorem toNat_ne {n : ℕ} {x y : BitVec n} (h : x ≠ y) : x.toNat ≠ y.toNat :=
  fun h' => h (BitVec.eq_of_toNat_eq h')

theorem canonical_of_unpack (h : UnpackedFloat.unpack .binary64 b = .finite s m e hm) :
    Canonical m e ∧ e ≤ 971 := by
  have hfraction : (unpackMantissa b).toNat < 2 ^ 52 := (unpackMantissa b).isLt
  have hbiased : (unpackExponent b).toNat < 2 ^ 11 := (unpackExponent b).isLt
  rcases unpack_cases b with ⟨-, -, hu⟩ | ⟨-, -, hu⟩ | ⟨-, -, hu⟩ | ⟨-, -, hpos, hu⟩ |
    ⟨hexp, hexp0, hpos, hu⟩
  · rw [hu] at h
    cases h
  · rw [hu] at h
    cases h
  · rw [hu] at h
    cases h
  · rw [hu] at h
    injection h with _ hm he
    exact ⟨⟨by omega, by omega, by omega⟩, by omega⟩
  · rw [hu] at h
    injection h with _ hm he
    have hne : (unpackExponent b).toNat ≠ 2047 := toNat_ne hexp
    have hne0 : (unpackExponent b).toNat ≠ 0 := toNat_ne hexp0
    have hm : 2 ^ 52 + (unpackMantissa b).toNat = m := (toNat_append_one _).symm.trans hm
    exact ⟨⟨by omega, by omega, by omega⟩, by omega⟩

theorem unpack_infinity (hx : unpackExponent b = -1#11) (hf : unpackMantissa b = 0#52) :
    UnpackedFloat.unpack .binary64 b = .infinity (Sign.ofBitVec (unpackSign b)) := by
  rcases unpack_cases b with ⟨-, -, hu⟩ | ⟨-, hm, -⟩ | ⟨hexp, -, -⟩ | ⟨hexp, -, -⟩ | ⟨hexp, -, -⟩
  · exact hu
  · exact absurd hf hm
  · rw [hx] at hexp
    cases hexp
  · rw [hx] at hexp
    cases hexp
  · exact absurd hx hexp

theorem unpack_zero (hx : unpackExponent b = 0#11) (hf : unpackMantissa b = 0#52) :
    UnpackedFloat.unpack .binary64 b = .zero (Sign.ofBitVec (unpackSign b)) := by
  rcases unpack_cases b with ⟨hexp, -, -⟩ | ⟨hexp, -, -⟩ | ⟨-, -, hu⟩ | ⟨-, hm, -⟩ | ⟨-, hexp, -⟩
  · rw [hx] at hexp
    cases hexp
  · rw [hx] at hexp
    cases hexp
  · exact hu
  · exact absurd hf hm
  · exact absurd hx hexp

theorem unpack_subnormal {f : BitVec 52} (hx : unpackExponent b = 0#11)
    (hf : unpackMantissa b = f) (hne : f ≠ 0#52) (hm : 0 < f.toNat) :
    UnpackedFloat.unpack .binary64 b =
      .finite (Sign.ofBitVec (unpackSign b)) f.toNat (-1074) hm := by
  subst hf
  rcases unpack_cases b with ⟨hexp, -, -⟩ | ⟨hexp, -, -⟩ | ⟨-, hm, -⟩ | ⟨-, -, _, hu⟩ |
    ⟨-, hexp, -⟩
  · rw [hx] at hexp
    cases hexp
  · rw [hx] at hexp
    cases hexp
  · exact absurd hm hne
  · exact hu
  · exact absurd hx hexp

theorem unpack_normal {x : BitVec 11} {f : BitVec 52} (hx : unpackExponent b = x)
    (hf : unpackMantissa b = f) (hx1 : x ≠ -1#11) (hx0 : x ≠ 0#11) (hm : 0 < (1#1 ++ f).toNat) :
    UnpackedFloat.unpack .binary64 b =
      .finite (Sign.ofBitVec (unpackSign b)) (1#1 ++ f).toNat (x.toNat - 1075) hm := by
  subst hx hf
  rcases unpack_cases b with ⟨hexp, -, -⟩ | ⟨hexp, -, -⟩ | ⟨hexp, -, -⟩ | ⟨hexp, -, -⟩ |
    ⟨-, -, _, hu⟩
  · exact absurd hexp hx1
  · exact absurd hexp hx1
  · exact absurd hexp hx0
  · exact absurd hexp hx0
  · exact hu

/-! ### Unpacking what was packed -/

theorem ofBitVec_unpackSign (s : Sign) (x : BitVec 11) (f : BitVec 52) :
    Sign.ofBitVec (unpackSign (packComponents .binary64 s x f)) = s := by
  have hsign : unpackSign (packComponents .binary64 s x f) = s.toBitVec := by
    apply BitVec.eq_of_getLsbD_eq
    intro i hi
    have hi : i = 0 := by omega
    subst hi
    rw [getLsbD_unpackSign, packComponents, BitVec.getLsbD_append, BitVec.getLsbD_append]
    rfl
  rw [hsign]
  cases s <;> rfl

theorem unpack_pack_infinity (s : Sign) :
    (Float.Model.pack (.infinity s)).unpack = .infinity s := by
  show UnpackedFloat.unpack .binary64 (packComponents .binary64 s (-1#11) 0#52) = _
  rw [unpack_infinity unpackExponent_packComponents unpackMantissa_packComponents,
    ofBitVec_unpackSign]

theorem unpack_pack_zero (s : Sign) : (Float.Model.pack (.zero s)).unpack = .zero s := by
  show UnpackedFloat.unpack .binary64 (packComponents .binary64 s 0#11 0#52) = _
  rw [unpack_zero unpackExponent_packComponents unpackMantissa_packComponents, ofBitVec_unpackSign]

theorem unpack_pack_notANumber : (Float.Model.pack .notANumber).unpack = .notANumber := rfl

theorem unpack_pack_overflow (he : 972 ≤ e) :
    (Float.Model.pack (.finite s m e hm)).unpack = .infinity s := by
  have hover : 2 ^ Format.binary64.exponentBits ≤ (e + (Format.binary64.exponentBias : ℤ) +
      (Format.binary64.mantissaBitsWithoutImplicit : ℤ)).toNat + 1 := by
    show 2048 ≤ (e + 1023 + 52).toNat + 1
    omega
  have hpack : UnpackedFloat.pack .binary64 (.finite s m e hm) =
      UnpackedFloat.pack .binary64 (.infinity s) := by
    unfold UnpackedFloat.pack
    exact if_pos hover
  show UnpackedFloat.unpack .binary64 (UnpackedFloat.pack .binary64 (.finite s m e hm)) = _
  rw [hpack]
  exact unpack_pack_infinity s

/-- A canonical number is read back from the bits it is packed into. -/
theorem unpack_pack_finite (hc : Canonical m e) (he : e ≤ 971) :
    (Float.Model.pack (.finite s m e hm)).unpack = .finite s m e hm := by
  obtain ⟨hlt, hge, hleading⟩ := hc
  show UnpackedFloat.unpack .binary64 (UnpackedFloat.pack .binary64 (.finite s m e hm)) = _
  by_cases hlow : m < 2 ^ 52
  · obtain rfl : e = -1074 := by omega
    obtain ⟨f, rfl⟩ : ∃ f : BitVec 52, f.toNat = m :=
      ⟨BitVec.ofNat 52 m, by rw [BitVec.toNat_ofNat]; omega⟩
    have hne : f ≠ 0#52 := by
      rintro rfl
      exact absurd hm (by decide)
    rw [pack_subnormal s hne hm, unpack_subnormal unpackExponent_packComponents
      unpackMantissa_packComponents hne hm, ofBitVec_unpackSign]
  · obtain ⟨f, rfl⟩ : ∃ f : BitVec 52, (1#1 ++ f).toNat = m :=
      ⟨BitVec.ofNat 52 m, by rw [toNat_append_one, BitVec.toNat_ofNat]; omega⟩
    obtain ⟨x, rfl, hx⟩ : ∃ x : BitVec 11, (x.toNat : ℤ) - 1075 = e ∧ x.toNat = (e + 1075).toNat :=
      ⟨BitVec.ofNat 11 (e + 1075).toNat, by rw [BitVec.toNat_ofNat]; omega,
        by rw [BitVec.toNat_ofNat]; omega⟩
    have hx1 : x ≠ -1#11 := by
      rintro rfl
      exact absurd he (by decide)
    have hx0 : x ≠ 0#11 := by
      rintro rfl
      exact absurd hge (by decide)
    rw [pack_normal s hx1 hm, unpack_normal unpackExponent_packComponents
      unpackMantissa_packComponents hx1 hx0 hm, ofBitVec_unpackSign]

end QuantityCalculus.Binary64
