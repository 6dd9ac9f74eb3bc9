import Mathlib.Tactic.TFAE
import QuantityCalculus.Proofs.Exponent.Wide

/-! Arithmetic of exponents is that of rational numbers, up to a sharp boundary. A checked operation
has the exact result if both of its parts in lowest terms are at most `2 ^ 63 - 1` in absolute value,
and is refused as too large otherwise. Only a difference is refused more often: when the negation of
its second term does not fit. The asserted operations end exactly when the checked ones refuse,
nothing on the way is too large for a wide word, and exponents are equal and ordered as the rational
numbers they stand for. -/

namespace QuantityCalculus.Exponent

variable {n d : ℤ} {x y z : Exponent}

/-- Every fraction in lowest terms with parts of 64 bits is that of an exponent. -/
theorem exists_of_coprime (hn : Wide.HoldsNarrow n) (hd : Wide.HoldsNarrow d) (hpos : 0 < d)
    (h : n.natAbs.Coprime d.natAbs) : ∃ x : Exponent, x.fraction = ⟨n, d⟩ := by
  have hden : ((Rat.mk' n d.natAbs (by omega) h).den : ℤ) = d := Int.natAbs_of_nonneg hpos.le
  refine ⟨⟨Rat.mk' n d.natAbs (by omega) h, hn.1, hn.2, ?_⟩, congrArg (Wide.Fraction.mk n) hden⟩
  have := hd.2
  show d.natAbs < _
  omega

/-! ### Checked operations -/

/-- The outcome of an operation with exact result `q`: the parts of `q` in lowest terms if they are
small enough, and a refusal as too large otherwise. -/
structure Exact (r : Except ExponentError Exponent) (q : ℚ) : Prop where
  ok : Representable q → ∃ z, r = .ok z ∧ z.num = q.num ∧ z.den = q.den
  overflow : ¬ Representable q → ∃ n d, r = .error (.overflow n d)

theorem reduce_exact (n d : ℤ) : Exact (reduce n d) (Rat.divInt n d) where
  ok h := ⟨⟨_, h.fits⟩, reduce_eq_ok_iff.2 ⟨h, rfl⟩, rfl, rfl⟩
  overflow h := ⟨n, d, reduce_eq_error h⟩

theorem add_exact (x y : Exponent) : Exact (x.add y) (x.val + y.val) := by
  rw [← divInt_sumParts]
  exact reduce_exact _ _

theorem mul_exact (x y : Exponent) : Exact (x.mul y) (x.val * y.val) := by
  rw [← divInt_productParts]
  exact reduce_exact _ _

theorem neg_exact (x : Exponent) : Exact x.neg (-x.val) := by
  rw [← divInt_negationParts]
  exact reduce_exact _ _

theorem ofParts_exact (n : ℤ) (h : d ≠ 0) : Exact (ofParts n d) (n / d) := by
  rw [ofParts, if_neg h, ← Rat.divInt_eq_div]
  exact reduce_exact n d

/-- Only the smallest numerator cannot be negated. -/
theorem representable_iff (x : Exponent) : Representable x.val ↔ x.num ≠ -2 ^ 63 :=
  representable_iff_of_fits x.fits

theorem sub_exact (x : Exponent) (hy : y.num ≠ -2 ^ 63) : Exact (x.sub y) (x.val - y.val) := by
  obtain ⟨z, hz, hval⟩ := exists_neg ((representable_iff y).2 hy)
  have hsub : x.sub y = x.add z := by rw [sub, hz]; rfl
  rw [hsub, sub_eq_add_neg, ← hval]
  exact add_exact x z

theorem sub_overflow (x : Exponent) (hy : y.num = -2 ^ 63) :
    ∃ n d, x.sub y = .error (.overflow n d) := by
  have hneg : ¬ Representable (-y.val) := by
    rw [representable_neg_iff, representable_iff]
    exact not_not_intro hy
  obtain ⟨n, d, h⟩ := (neg_exact y).overflow hneg
  exact ⟨n, d, by rw [sub, h]; rfl⟩

/-! ### Asserted operations -/

theorem asserted_reduce_eq_ok_iff : Asserted.reduce n d = .ok z ↔ reduce n d = .ok z := by
  unfold Asserted.reduce
  cases reduce n d <;> simp

theorem asserted_sub_eq_ok_iff : Asserted.sub x y = .ok z ↔ x.sub y = .ok z := by
  unfold Asserted.sub Exponent.sub
  simp only [bind_eq_ok_iff, asserted_neg_eq_ok_iff]
  exact exists_congr fun _ => and_congr_right fun _ => asserted_reduce_eq_ok_iff

theorem divInt_quotientParts (x y : Exponent) :
    Rat.divInt (quotientParts x y).1 (quotientParts x y).2 = x.val / y.val := by
  rw [← divInt_num_den x, ← divInt_num_den y, Rat.divInt_div_divInt]
  rfl

theorem asserted_div_eq_ok_iff : Asserted.div x y = .ok z ↔
    y.val ≠ 0 ∧ Representable (x.val / y.val) ∧ z.val = x.val / y.val := by
  have hzero : y = 0 ↔ y.val = 0 := ⟨fun h => h ▸ rfl, fun h => ext h⟩
  unfold Asserted.div
  split_ifs with hy
  · simp [hzero.1 hy]
  · rw [asserted_reduce_eq_ok_iff, reduce_eq_ok_iff, divInt_quotientParts, Ne, ← hzero]
    exact ⟨fun h => ⟨hy, h⟩, And.right⟩

/-! ### Equality and order -/

theorem val_eq_div (x : Exponent) : x.val = (x.num : ℚ) / x.den := (Rat.num_div_den x.val).symm

theorem parts_eq_iff : x.num = y.num ∧ x.den = y.den ↔ x = y :=
  ⟨fun h => ext (Rat.ext h.1 h.2), fun h => h ▸ ⟨rfl, rfl⟩⟩

theorem cmp_eq (x y : Exponent) : x.cmp y = compare x.val y.val := by
  unfold cmp
  rcases lt_trichotomy x.val y.val with h | h | h
  · rw [compare_lt_iff_lt.2 h, compare_lt_iff_lt]
    exact Rat.lt_iff _ _ |>.1 h
  · rw [ext h]
    simp
  · rw [compare_gt_iff_gt.2 h, compare_gt_iff_gt]
    exact Rat.lt_iff _ _ |>.1 h

/-! ### The laws of arithmetic -/

/-- Checked operations are exact. -/
structure ExactChecked (x y : Exponent) (n d : Int64) : Prop where
  add : Exact (x.add y) (x.val + y.val)
  mul : Exact (x.mul y) (x.val * y.val)
  neg : Exact x.neg (-x.val)
  sub : y.num ≠ -2 ^ 63 → Exact (x.sub y) (x.val - y.val)
  sub_smallest : y.num = -2 ^ 63 → ∃ n d, x.sub y = .error (.overflow n d)
  parts : d ≠ 0 → Exact (ofParts n.toInt d.toInt) (n.toInt / d.toInt)
  parts_zero : ofParts n.toInt d.toInt = .error .zeroDenominator ↔ d = 0

/-- Asserted operations have the checked results, and no others; a quotient is exact. -/
structure ExactAsserted (x y : Exponent) : Prop where
  add : ∀ z, Asserted.add x y = .ok z ↔ x.add y = .ok z
  sub : ∀ z, Asserted.sub x y = .ok z ↔ x.sub y = .ok z
  mul : ∀ z, Asserted.mul x y = .ok z ↔ x.mul y = .ok z
  neg : ∀ z, Asserted.neg x = .ok z ↔ x.neg = .ok z
  div : ∀ z, Asserted.div x y = .ok z ↔
    y.val ≠ 0 ∧ Representable (x.val / y.val) ∧ z.val = x.val / y.val
  div_isOk_iff : (∃ z, Asserted.div x y = .ok z) ↔ y.val ≠ 0 ∧ Representable (x.val / y.val)

/-- Computing in wide words has an outcome, and it is the exact one. -/
structure ExactInWords (x y : Exponent) (n d : Int64) : Prop where
  add : x.fraction.add y.fraction = some ((x.add y).map fraction)
  sub : x.fraction.sub y.fraction = some ((x.sub y).map fraction)
  mul : x.fraction.mul y.fraction = some ((x.mul y).map fraction)
  neg : x.fraction.neg = some (x.neg.map fraction)
  div : y ≠ 0 → ∃ r : Except ExponentError Exponent,
    x.fraction.div y.fraction = some (r.map fraction) ∧ ∀ z, Asserted.div x y = .ok z ↔ r = .ok z
  parts : d ≠ 0 → Wide.reduce n.toInt d.toInt = some ((ofParts n.toInt d.toInt).map fraction)
  cmp : x.fraction.cmp y.fraction = some (x.cmp y)

/-- Exponents are fractions in lowest terms, which makes them equal and ordered as rational numbers
are. -/
structure ExactOrder (x y : Exponent) : Prop where
  lowestTerms : 0 < x.den ∧ x.num.natAbs.Coprime x.den ∧ x.val = (x.num : ℚ) / x.den
  equality : [x = y, x.num = y.num ∧ x.den = y.den, (x.num : ℚ) / x.den = y.num / y.den].TFAE
  cmp : x.cmp y = compare ((x.num : ℚ) / x.den) (y.num / y.den)

theorem toInt_ne_zero {d : Int64} : d.toInt ≠ 0 ↔ d ≠ 0 :=
  not_congr (by rw [← Int64.toInt_zero, Int64.toInt_inj])

theorem exactChecked (x y : Exponent) (n d : Int64) : ExactChecked x y n d where
  add := add_exact x y
  mul := mul_exact x y
  neg := neg_exact x
  sub := sub_exact x
  sub_smallest := sub_overflow x
  parts h := ofParts_exact _ (toInt_ne_zero.2 h)
  parts_zero := by
    by_cases h : d = 0
    · simp [h, ofParts]
    · have hd := toInt_ne_zero.2 h
      rw [ofParts, if_neg hd]
      refine ⟨fun he => ?_, fun h0 => absurd h0 h⟩
      unfold reduce at he
      split at he <;> cases he

theorem exactAsserted (x y : Exponent) : ExactAsserted x y where
  add _ := asserted_reduce_eq_ok_iff
  sub _ := asserted_sub_eq_ok_iff
  mul _ := asserted_reduce_eq_ok_iff
  neg _ := asserted_neg_eq_ok_iff
  div _ := asserted_div_eq_ok_iff
  div_isOk_iff := by
    simp only [asserted_div_eq_ok_iff, exists_and_left, and_congr_right_iff, and_iff_left_iff_imp]
    exact fun _ h => ⟨⟨_, h.fits⟩, rfl⟩

theorem exactInWords (x y : Exponent) (n d : Int64) : ExactInWords x y n d where
  add := Wide.fraction_add x y
  sub := Wide.fraction_sub x y
  mul := Wide.fraction_mul x y
  neg := Wide.fraction_neg x
  div hy := ⟨_, Wide.fraction_div x y hy, fun z => by
    rw [Asserted.div, if_neg hy, asserted_reduce_eq_ok_iff]⟩
  parts h := by
    have hn := n.le_toInt
    have hn' := n.toInt_lt
    have hd := d.le_toInt
    have hd' := d.toInt_lt
    rw [ofParts, if_neg (toInt_ne_zero.2 h),
      Wide.reduce_eq (by omega) (by omega) (toInt_ne_zero.2 h)]
  cmp := Wide.fraction_cmp x y

theorem exactOrder (x y : Exponent) : ExactOrder x y where
  lowestTerms := ⟨x.den_pos, x.val.reduced, val_eq_div x⟩
  equality := by
    tfae_have 1 ↔ 2 := parts_eq_iff.symm
    tfae_have 1 ↔ 3 := by
      rw [← val_eq_div, ← val_eq_div]
      exact ⟨fun h => h ▸ rfl, ext⟩
    tfae_finish
  cmp := by rw [← val_eq_div, ← val_eq_div, cmp_eq]

/-- Checked and asserted operations succeed exactly if the exact result can be represented, and then
yield it; words hold all numbers on the way; the order is that of the fractions. -/
theorem exactArithmeticLaw (x y : Exponent) (n d : Int64) :
    ExactChecked x y n d ∧ ExactAsserted x y ∧ ExactInWords x y n d ∧ ExactOrder x y :=
  ⟨exactChecked x y n d, exactAsserted x y, exactInWords x y n d, exactOrder x y⟩

end QuantityCalculus.Exponent
