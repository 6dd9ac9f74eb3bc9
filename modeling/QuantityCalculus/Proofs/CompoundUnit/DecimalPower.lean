import QuantityCalculus.Proofs.CompoundUnit.PowerText
import QuantityCalculus.Proofs.Decimal.Interval
import QuantityCalculus.Proofs.Exponent.DecimalText

/-! Powers written as decimals. The decimal is the shortest one of the float that the power is rounded to.
It has few digits and few places, so it is always read as a power, with nothing of it left, and this
power is off by a part in `2 ^ 51` at most. It is the same power if its digits make less than
`2 ^ 52`; with more digits it may be another one. -/

namespace QuantityCalculus

open Text Decimal Binary64
open Exponent (IsDigits)

namespace Token

variable {whole fraction : List Char} {d : Scientific}

theorem takeDecimalChars_of_point (hw : IsDigits whole) (hf : IsDigits fraction) :
    takeDecimalChars (whole ++ '.' :: fraction) = some (whole ++ '.' :: fraction, []) := by
  have hsign := takeSignChars_of_isSign .none hw ('.' :: fraction)
  have hne : whole.isEmpty = false := by simpa using hw.ne_nil
  have hne' : fraction.isEmpty = false := by simpa using hf.ne_nil
  rw [List.nil_append] at hsign
  rw [takeDecimalChars, hsign]
  simp [leadingDigits_append_point _ hw.isDigit, afterDigits_append_point _ hw.isDigit, hne,
    takeFractionChars, leadingDigits_of_isDigits hf, afterDigits_of_isDigits hf, hne']

theorem takeDecimalChars_chars (d : Scientific) : takeDecimalChars d.chars = some (d.chars, []) := by
  cases layout d with
  | whole hne hd => exact takeDecimalChars_of_isDigits .none ⟨hne, hd⟩
  | point whole fraction hchars hne hd hf hlen hneg =>
    have hfraction : fraction ≠ [] := by
      rintro rfl
      rw [List.length_nil] at hlen
      omega
    rw [hchars, takeDecimalChars_of_point ⟨hne, hd⟩ ⟨hfraction, hf⟩]

/-- A short decimal is read as a power, with nothing left. -/
theorem power_value (h : d.Short) : ∃ x, power d.chars = some (x, []) ∧ x.val = d.value := by
  obtain ⟨x, hx, hv⟩ := Exponent.read_value h
  refine ⟨x, power_of_takeDecimalChars ?_ (takeDecimalChars_chars d) hx, hv⟩
  intro hp
  rcases Exponent.isDigit_or_point d _ hp with hd | hd <;> cases hd

end Token

namespace Powers

variable {q : ℚ} {n j : ℕ}

/-- A positive power that is written as a decimal. -/
structure IsDecimal (q : ℚ) : Prop where
  pos : 0 < q
  representable : Representable q
  den_ne_one : q.den ≠ 1
  mod_den : 1000000 % q.den = 0

/-- The decimal that is written. -/
def written (q : ℚ) : Scientific := (Neighbourhood.of (ofRat q)).shortest

namespace IsDecimal

theorem den_le (h : IsDecimal q) : q.den ≤ 1000000 :=
  Nat.le_of_dvd (by decide) (Nat.dvd_of_mod_eq_zero h.mod_den)

/-- The power has at most six places. -/
theorem exists_places (h : IsDecimal q) : ∃ n : ℕ, 0 < n ∧ q = n / 10 ^ 6 := by
  obtain ⟨k, hk⟩ := Nat.dvd_of_mod_eq_zero h.mod_den
  have hvalue := eq_natAbs_div_den h.pos
  have hnum := Rat.num_pos.2 h.pos
  have hk : (10 : ℚ) ^ 6 = q.den * k := by
    rw [← Nat.cast_mul, ← hk]
    norm_num
  have hk0 : 0 < k := by
    rcases Nat.eq_zero_or_pos k with rfl | hpos
    · omega
    · exact hpos
  refine ⟨q.num.natAbs * k, Nat.mul_pos (by omega) hk0, ?_⟩
  have hden : (q.den : ℚ) ≠ 0 := by exact_mod_cast q.den_nz
  have hk0 : (k : ℚ) ≠ 0 := by exact_mod_cast hk0.ne'
  rw [hk, Nat.cast_mul, mul_div_mul_right _ _ hk0]
  exact hvalue

theorem ge (h : IsDecimal q) : 1 / 10 ^ 6 ≤ q := by
  obtain ⟨n, hn, rfl⟩ := h.exists_places
  have hn : (1 : ℚ) ≤ n := by exact_mod_cast hn
  exact div_le_div_of_nonneg_right hn (by positivity)

theorem le (h : IsDecimal q) : q ≤ 2 ^ 62 := by
  have hvalue := eq_natAbs_div_den h.pos
  have hnum : (q.num.natAbs : ℚ) ≤ 2 ^ 63 := by exact_mod_cast h.representable.1.le
  have hden : (2 : ℚ) ≤ q.den := by
    have := q.den_pos
    have := h.den_ne_one
    exact_mod_cast (by omega : 2 ≤ q.den)
  rw [hvalue, div_le_iff₀ (by linarith)]
  linarith

/-- The float of the power is close to it. -/
theorem near (h : IsDecimal q) : |toRat (ofRat q) - q| ≤ 9 / 2 ^ 55 * q := by
  have hden := h.den_le
  have hnum := h.representable.1
  have hnear := (near_ofRat h.pos (by omega) (by omega)).2
  rwa [Near, abs_of_pos h.pos, add_zero] at hnear

theorem two_pow_le (h : IsDecimal q) : 2 ^ (-1022 : ℤ) ≤ toRat (ofRat q) := by
  have hnear := (abs_le.1 h.near).1
  have hge := h.ge
  have hnormal := normal_le
  linarith

theorem toRat_pos (h : IsDecimal q) : 0 < toRat (ofRat q) := by
  have hpos : (0 : ℚ) < 2 ^ (-1022 : ℤ) := by positivity
  exact hpos.trans_le h.two_pow_le

theorem significand_ge (h : IsDecimal q) : 2 ^ 52 ≤ (Neighbourhood.of (ofRat q)).significand :=
  significand_ge_of_le h.two_pow_le

theorem powerChars_eq (h : IsDecimal q) : powerChars q = (written q).chars := by
  rw [powerChars, if_neg h.den_ne_one, if_pos h.mod_den, floatChars_of_pos h.toRat_pos]
  rfl

theorem written_near_toRat (h : IsDecimal q) :
    |(written q).value - toRat (ofRat q)| ≤ toRat (ofRat q) / 2 ^ 53 := by
  have hcontains := Neighbourhood.contains_shortest (significand_pos h.toRat_pos)
  have hnear := hcontains.near h.significand_ge
  rwa [value_of h.toRat_pos] at hnear

/-- The decimal is close to the power. -/
theorem written_near (h : IsDecimal q) : |(written q).value - q| ≤ q / 2 ^ 51 := by
  have hfirst := abs_le.1 h.near
  have hsecond := abs_le.1 h.written_near_toRat
  have hpos := h.pos
  rw [abs_le]
  constructor <;> linarith

theorem leadingPlace (h : IsDecimal q) :
    10 ^ (Neighbourhood.of (ofRat q)).leadingPlace ≤ toRat (ofRat q) ∧
      toRat (ofRat q) < 10 ^ ((Neighbourhood.of (ofRat q)).leadingPlace + 1) := by
  have hspec := Neighbourhood.leadingPlace_spec (significand_pos h.toRat_pos)
    (canonical_of (ofRat q)).exponent_ge
  rwa [value_of h.toRat_pos] at hspec

/-- A power with a short numerator is rounded once. -/
theorem rounds (h : IsDecimal q) (hn : q.num.natAbs < 2 ^ 53) : Rounds (ofRat q) q := by
  have hden := h.den_le
  exact rounds_ofRat h.pos hn (by omega)

theorem leadingPlace_le_exponent (h : IsDecimal q) :
    (Neighbourhood.of (ofRat q)).leadingPlace - 16 ≤ (written q).exponent :=
  Neighbourhood.leadingPlace_le_exponent (canonical_of _) h.significand_ge

theorem le_leadingPlace {k : ℤ} (h : IsDecimal q) (hk : 10 ^ k ≤ toRat (ofRat q)) :
    k ≤ (Neighbourhood.of (ofRat q)).leadingPlace :=
  Int.lt_add_one_iff.1
    ((zpow_lt_zpow_iff_right₀ (by norm_num)).1 (hk.trans_lt h.leadingPlace.2))

theorem leadingPlace_lt {k : ℤ} (h : IsDecimal q) (hk : toRat (ofRat q) < 10 ^ k) :
    (Neighbourhood.of (ofRat q)).leadingPlace < k :=
  (zpow_lt_zpow_iff_right₀ (by norm_num)).1 (h.leadingPlace.1.trans_lt hk)

/-- The numerator of a decimal is no larger than its digits make. -/
theorem num_le (h : IsDecimal q) (hq : q = n / 10 ^ j) : 0 < n ∧ q.num.natAbs ≤ n := by
  have h0 : 0 < n := by
    rcases Nat.eq_zero_or_pos n with rfl | h0
    · rw [Nat.cast_zero, zero_div] at hq
      exact absurd hq h.pos.ne'
    · exact h0
  have hten : q = n / (10 ^ j : ℕ) := by
    rw [hq]
    push_cast
    rfl
  exact ⟨h0, hten ▸ (Exponent.parts_div_le h0 (by positivity)).1⟩

/-- A power of few digits lies in the interval of its float. -/
theorem contains (h : IsDecimal q) (hq : q = n / 10 ^ j) (hn : n < 2 ^ 53 - 1) :
    (Neighbourhood.of (ofRat q)).Contains q := by
  obtain ⟨h0, hnum⟩ := h.num_le hq
  have hrounds := h.rounds (by omega)
  have hnormal := h.two_pow_le
  generalize ofRat q = x at *
  rw [hq] at hrounds ⊢
  exact contains_decimal hrounds hnormal h0 hn

/-- Seventeen digits of a large power leave few places. -/
theorem exponent_ge_of_le (h : IsDecimal q) (hlarge : 9 * 10 ^ 9 ≤ q) :
    -7 ≤ (written q).exponent := by
  have hl := (abs_le.1 h.near).1
  have hplace : (10 : ℚ) ^ (9 : ℤ) ≤ toRat (ofRat q) := by
    norm_num
    linarith
  have := h.le_leadingPlace hplace
  have := h.leadingPlace_le_exponent
  omega

/-- A smaller power lies on the grid of six places. -/
theorem exponent_ge_of_lt (h : IsDecimal q) (hsmall : q < 9 * 10 ^ 9) :
    -7 ≤ (written q).exponent := by
  obtain ⟨hl, hu⟩ := abs_le.1 h.near
  have hge := h.ge
  have hlow : (10 : ℚ) ^ (-7 : ℤ) ≤ toRat (ofRat q) := by
    norm_num at hge ⊢
    linarith
  have hhigh : toRat (ofRat q) < (10 : ℚ) ^ (11 : ℤ) := by
    norm_num
    linarith
  have hlow := h.le_leadingPlace hlow
  have hhigh := h.leadingPlace_lt hhigh
  obtain ⟨n, hn, hq⟩ := h.exists_places
  have hsmall : n < 2 ^ 53 - 1 := by
    rw [hq, div_lt_iff₀ (by positivity)] at hsmall
    have hsmall : (n : ℚ) < (9 * 10 ^ 15 : ℕ) := by
      push_cast
      linarith
    have hsmall : n < 9 * 10 ^ 15 := by exact_mod_cast hsmall
    omega
  have hcontains := h.contains hq hsmall
  have hgrid : q = n * 10 ^ (-6 : ℤ) := by
    rw [hq, zpow_neg, div_eq_mul_inv]
    rfl
  have hsig := significand_pos h.toRat_pos
  rw [written]
  generalize Neighbourhood.of (ofRat q) = v at *
  -- the coarser grid of the six places and of the leading one
  obtain ⟨c, hc⟩ := Neighbourhood.exists_finer n (min_le_left (-6) v.leadingPlace)
  rw [hgrid, hc] at hcontains
  have := (Neighbourhood.exists_shortest hsig (min_le_right _ _) (by omega) hcontains).1
  omega

theorem exponent_ge (h : IsDecimal q) : -7 ≤ (written q).exponent :=
  (lt_or_ge q (9 * 10 ^ 9)).elim h.exponent_ge_of_lt h.exponent_ge_of_le

theorem short (h : IsDecimal q) : (written q).Short where
  coefficient_lt := by
    have hexp := h.leadingPlace_le_exponent
    have hnear := (abs_le.1 h.written_near_toRat).2
    have hpos := h.toRat_pos
    have hplace := h.leadingPlace.2
    generalize (Neighbourhood.of (ofRat q)).leadingPlace = p at *
    have hten : (10 : ℚ) ^ (p + 1) = 10 ^ 17 * 10 ^ (p - 16) := by
      rw [← zpow_natCast, ← zpow_add₀ (by norm_num)]
      congr 1
      omega
    have hle : ((written q).coefficient : ℚ) * 10 ^ (p - 16) ≤ (written q).value :=
      mul_le_mul_of_nonneg_left (zpow_le_zpow_right₀ (by norm_num) hexp) (by positivity)
    have hlt : ((written q).coefficient : ℚ) * 10 ^ (p - 16) < 10 ^ 18 * 10 ^ (p - 16) := by
      linarith
    exact_mod_cast lt_of_mul_lt_mul_right hlt (by positivity)
  exponent_ge := by
    have := h.exponent_ge
    omega
  value_lt := by
    have hnear := (abs_le.1 h.written_near).2
    have hle := h.le
    norm_num at hle ⊢
    linarith

/-- The power that is read is the decimal that is written. -/
theorem power_powerChars (h : IsDecimal q) :
    ∃ y, Token.power (powerChars q) = some (y, []) ∧ y.val = (written q).value := by
  rw [h.powerChars_eq]
  exact Token.power_value h.short

theorem readsBack_iff_value (h : IsDecimal q) : ReadsBack q ↔ (written q).value = q := by
  obtain ⟨y, hy, hv⟩ := h.power_powerChars
  constructor
  · rintro ⟨x, hx, rfl⟩
    rw [hy] at hx
    cases hx
    exact hv.symm
  · exact fun hq => ⟨y, hy, hv.trans hq⟩

/-- The power itself is written if it has few digits. -/
theorem value_eq (h : IsDecimal q) (hq : q = n / 10 ^ j) (hn : n < 2 ^ 52) :
    (written q).value = q := by
  obtain ⟨h0, hnum⟩ := h.num_le hq
  have hrounds := h.rounds (by omega)
  have hnormal := h.two_pow_le
  rw [written]
  generalize ofRat q = x at *
  rw [hq] at hrounds ⊢
  exact shortest_of_rounds hrounds hnormal h0 hn

end IsDecimal

/-- What is known of the text of a positive power. -/
structure PowerTextLaw (x : Exponent) : Prop where
  reads : ∃ y, Token.power (powerChars x.val) = some (y, []) ∧ |y.val - x.val| ≤ x.val / 2 ^ 51
  readsBack : x.den = 1 ∨ 1000000 % x.den ≠ 0 ∨ (∃ n j : ℕ, n < 2 ^ 52 ∧ x.val = n / 10 ^ j) →
    ReadsBack x.val
  readsBack_iff : x.den ≠ 1 → 1000000 % x.den = 0 →
    (ReadsBack x.val ↔ (written x.val).value = x.val)

/-- A positive power is read from its text up to rounding. It is read back unless it is a decimal whose digits
make `2 ^ 52` or more, and then just if it is the shortest decimal of its float. -/
theorem powerTextLaw (x : Exponent) (hx : 0 < x.val) : PowerTextLaw x := by
  have hnum := Rat.num_pos.2 hx
  have hrep : Representable x.val :=
    (representable_iff_of_fits x.fits).2 fun hmin => by
      rw [hmin] at hnum
      exact absurd hnum (by decide)
  have hself : |x.val - x.val| ≤ x.val / 2 ^ 51 := by
    rw [sub_self, abs_zero]
    positivity
  by_cases hdecimal : x.den ≠ 1 ∧ 1000000 % x.den = 0
  · have h : IsDecimal x.val := ⟨hx, hrep, hdecimal.1, hdecimal.2⟩
    refine ⟨?_, ?_, fun _ _ => h.readsBack_iff_value⟩
    · obtain ⟨y, hy, hv⟩ := h.power_powerChars
      exact ⟨y, hy, hv ▸ h.written_near⟩
    · rintro (hd | hd | ⟨n, j, hn, hq⟩)
      · exact absurd hd hdecimal.1
      · exact absurd hdecimal.2 hd
      · exact h.readsBack_iff_value.2 (h.value_eq hq hn)
  · have hback : ReadsBack x.val := readsBack_of_not_decimal hrep (by tauto)
    refine ⟨?_, fun _ => hback, fun h1 h2 => absurd ⟨h1, h2⟩ hdecimal⟩
    obtain ⟨y, hy, hv⟩ := hback
    exact ⟨y, hy, hv ▸ hself⟩

/-- A power of sixteen digits and six places is read back. -/
theorem powerTextLaw_six_places : ∃ x : Exponent, x.text = "4503599627370493/1000000" ∧
    0 < x.val ∧ PowerTextLaw x ∧ ReadsBack x.val :=
  have hx : 0 < (4503599627370493 / 1000000 : ℚ) := by norm_num
  have hlaw := powerTextLaw ⟨4503599627370493 / 1000000, by decide +kernel⟩ hx
  ⟨_, by decide +kernel, hx, hlaw,
    hlaw.readsBack (.inr (.inr ⟨4503599627370493, 6, by norm_num, by norm_num⟩))⟩

/-- A larger numerator is rounded, and another power is read. -/
theorem not_readsBack : ∃ x : Exponent, x.text = "9007199254740993/1000" ∧ 0 < x.val ∧
    ¬ ReadsBack x.val :=
  ⟨⟨9007199254740993 / 1000, by decide +kernel⟩, by decide +kernel, by decide +kernel,
    by decide +kernel⟩

end Powers

end QuantityCalculus
