import Mathlib.Data.List.TakeWhile
import Mathlib.Tactic.IntervalCases
import QuantityCalculus.Decimal.Numeral
import QuantityCalculus.Decimal.Positional
import QuantityCalculus.Text.Blank

/-! Digits read back. The digits of a natural number denote it. The text of a float consists of digits, a
sign, a point and the letters of the words for what is no number. -/

namespace QuantityCalculus.Decimal

theorem digitsValue_natChars (n : ℕ) : digitsValue (natChars n) = n :=
  Nat.ofDigitChars_ten_toDigits

theorem natChars_ne_nil (n : ℕ) : natChars n ≠ [] := Nat.toDigits_ne_nil

theorem isDigit_of_mem_natChars {n : ℕ} {c : Char} (h : c ∈ natChars n) : c.isDigit = true :=
  Nat.isDigit_of_mem_toDigits (by decide) (by decide) h

theorem takeSign_cons {c : Char} {cs : List Char} (h : c.isDigit = true) :
    takeSign (c :: cs) = (false, c :: cs) := by
  unfold takeSign
  split
  · rename_i heq
    cases heq
    exact absurd h (by decide)
  · rename_i heq
    cases heq
    exact absurd h (by decide)
  · rfl

/-! ### The text of a float -/

/-- A character of the text of a float. -/
def isFloatChar (c : Char) : Bool := c.isDigit || ['-', '.', 'N', 'a', 'i', 'n', 'f'].contains c

theorem isFloatChar_of_isDigit {c : Char} (h : c.isDigit = true) : isFloatChar c = true := by
  simp [isFloatChar, h]

theorem isFloatChar_scientific (d : Scientific) : ∀ c ∈ d.chars, isFloatChar c = true := by
  have hdigits : ∀ c ∈ natChars d.coefficient, isFloatChar c = true := fun c hc =>
    isFloatChar_of_isDigit (isDigit_of_mem_natChars hc)
  have hzeros : ∀ n, ∀ c ∈ List.replicate n '0', isFloatChar c = true := by
    intro n c hc
    rw [List.eq_of_mem_replicate hc]
    rfl
  intro c hc
  unfold Scientific.chars at hc
  dsimp only at hc
  split_ifs at hc
  · exact (List.mem_append.1 hc).elim (hdigits c) (hzeros _ c)
  · rw [List.mem_append, List.mem_cons] at hc
    rcases hc with hc | rfl | hc
    · exact hdigits c (List.mem_of_mem_take hc)
    · rfl
    · exact hdigits c (List.mem_of_mem_drop hc)
  · rw [List.mem_cons, List.mem_cons, List.mem_append] at hc
    rcases hc with rfl | rfl | hc | hc
    · rfl
    · rfl
    · exact hzeros _ c hc
    · exact hdigits c hc

theorem isFloatChar_of_mem {x : Float} : ∀ c ∈ floatChars x, isFloatChar c = true := by
  have hunsigned : ∀ c ∈ (if x.isInf then ['i', 'n', 'f']
      else if (Binary64.parts x).significand = 0 then ['0']
      else (Neighbourhood.of x).shortest.chars), isFloatChar c = true := by
    split_ifs
    · exact List.all_eq_true.1 rfl
    · exact List.all_eq_true.1 rfl
    · exact isFloatChar_scientific _
  intro c hc
  rw [floatChars] at hc
  split at hc
  · have hwords : ∀ c ∈ ['N', 'a', 'N'], isFloatChar c = true := List.all_eq_true.1 rfl
    exact hwords c hc
  · dsimp only at hc
    split at hc
    · rcases List.mem_cons.1 hc with rfl | hc
      · rfl
      · exact hunsigned c hc
    · exact hunsigned c hc

theorem not_isBlank_of_isDigit {c : Char} (h : c.isDigit = true) : Text.isBlank c = false := by
  obtain ⟨hl, hu⟩ : 48 ≤ c.toNat ∧ c.toNat ≤ 57 := by
    rw [Char.isDigit, Bool.and_eq_true, decide_eq_true_iff, decide_eq_true_iff] at h
    exact ⟨UInt32.le_iff_toNat_le.1 h.1, UInt32.le_iff_toNat_le.1 h.2⟩
  unfold Text.isBlank
  generalize c.toNat = n at hl hu
  interval_cases n <;> rfl

end QuantityCalculus.Decimal
