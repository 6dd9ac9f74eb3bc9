import QuantityCalculus.Proofs.Binary64.Parts
import QuantityCalculus.Proofs.Decimal.Shortest

/-! The text of a float determines it. A finite number is written as a numeral of its sign that rounds to
it; the words for the others are no numerals. -/

namespace QuantityCalculus.Decimal

open Binary64

variable {x y : Float}

theorem canonical_of (x : Float) : (Neighbourhood.of x).Canonical where
  significand_lt := significand_lt x
  exponent_ge := exponent_ge x
  leading := significand_ge
  narrowBelow_iff := by
    show ((parts x).significand == 2 ^ 52 && (parts x).exponent != -1074) = true ↔ _
    rw [Bool.and_eq_true, beq_iff_eq, bne_iff_ne]
    rfl

theorem floatChars_of_isNaN (h : x.isNaN = true) : floatChars x = ['N', 'a', 'N'] := by
  rw [floatChars, if_pos h]

theorem floatChars_eq (h : x.isNaN = false) : floatChars x = signChars (parts x).negative ++
    if x.isInf then ['i', 'n', 'f']
    else if (parts x).significand = 0 then ['0']
    else (Neighbourhood.of x).shortest.chars := by
  rw [floatChars, if_neg (Bool.eq_false_iff.1 h)]
  dsimp only
  cases (parts x).negative <;> rfl

/-- A finite number is written as a numeral that rounds to it. -/
theorem exists_denotes (hn : x.isNaN = false) (hi : x.isInf = false) :
    ∃ r, Denotes (floatChars x) (parts x).negative r ∧ (Neighbourhood.of x).Contains r := by
  rw [floatChars_eq hn, if_neg (Bool.eq_false_iff.1 hi)]
  split_ifs with hzero
  · exact ⟨0, denotes_zero _, Neighbourhood.contains_zero hzero⟩
  · exact ⟨_, denotes_chars _ _, Neighbourhood.contains_shortest (Nat.pos_of_ne_zero hzero)⟩

/-- The words for the others are no numerals. -/
theorem take?_eq_none (h : x.isNaN = true ∨ x.isInf = true) :
    Numeral.take? (floatChars x) = none := by
  cases hn : x.isNaN with
  | true =>
    rw [floatChars_of_isNaN hn]
    rfl
  | false =>
    rw [floatChars_eq hn, if_pos (h.resolve_left (Bool.eq_false_iff.1 hn))]
    cases (parts x).negative <;> rfl

theorem not_denotes (h : x.isNaN = true ∨ x.isInf = true) {negative : Bool} {r : ℚ} :
    ¬ Denotes (floatChars x) negative r := by
  rintro ⟨n, hn, -⟩
  rw [take?_eq_none h] at hn
  cases hn

/-- Words for what is not finite are told apart by the word and the sign. -/
theorem eq_of_floatChars_eq_of_not_finite (hx : x.isNaN = true ∨ x.isInf = true)
    (hy : y.isNaN = true ∨ y.isInf = true) (h : floatChars x = floatChars y) : x = y := by
  cases hnx : x.isNaN <;> cases hny : y.isNaN
  · have hix := hx.resolve_left (Bool.eq_false_iff.1 hnx)
    have hiy := hy.resolve_left (Bool.eq_false_iff.1 hny)
    rw [floatChars_eq hnx, floatChars_eq hny, if_pos hix, if_pos hiy] at h
    have hsign : (parts x).negative = (parts y).negative := by
      revert h
      cases (parts x).negative <;> cases (parts y).negative <;> decide
    obtain ⟨hmx, hex⟩ := parts_of_isInf hix
    obtain ⟨hmy, hey⟩ := parts_of_isInf hiy
    exact eq_of_parts hsign (hmx.trans hmy.symm) (hex.trans hey.symm)
  · rw [floatChars_eq hnx, if_pos (hx.resolve_left (Bool.eq_false_iff.1 hnx)),
      floatChars_of_isNaN hny] at h
    cases hs : (parts x).negative <;> rw [hs] at h <;> cases h
  · rw [floatChars_eq hny, if_pos (hy.resolve_left (Bool.eq_false_iff.1 hny)),
      floatChars_of_isNaN hnx] at h
    cases hs : (parts y).negative <;> rw [hs] at h <;> cases h
  · exact eq_of_isNaN hnx hny

theorem floatChars_injective : Function.Injective floatChars := by
  intro x y h
  by_cases hx : x.isNaN = true ∨ x.isInf = true <;> by_cases hy : y.isNaN = true ∨ y.isInf = true
  · exact eq_of_floatChars_eq_of_not_finite hx hy h
  all_goals simp only [not_or, Bool.not_eq_true] at hx hy
  · obtain ⟨r, hr, -⟩ := exists_denotes hy.1 hy.2
    exact absurd (h ▸ hr) (not_denotes hx)
  · obtain ⟨r, hr, -⟩ := exists_denotes hx.1 hx.2
    exact absurd (h ▸ hr) (not_denotes hy)
  · obtain ⟨r, hr, hc⟩ := exists_denotes hx.1 hx.2
    obtain ⟨q, hq, hc'⟩ := exists_denotes hy.1 hy.2
    obtain ⟨hsign, rfl⟩ := hr.unique (h ▸ hq)
    obtain ⟨hm, he⟩ := (canonical_of x).eq_of_contains (canonical_of y) hc hc'
    exact eq_of_parts hsign hm he

end QuantityCalculus.Decimal
