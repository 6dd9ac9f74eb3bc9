import QuantityCalculus.CompoundUnit.Render
import QuantityCalculus.Proofs.CompoundUnit.TokenKinds
import QuantityCalculus.Proofs.Exponent.Text

/-! Powers read back. The text of an exponent is read as this exponent, alone or in parentheses. Behind a
caret it is a power in parentheses, or alone if it is a whole number, and nothing of it is left. So of
the powers in the text of a unit, only those that are written as decimals may be misread. -/

namespace QuantityCalculus

open Text Decimal
open Exponent (IsSign IsDigits chars_of_den_eq_one)

namespace Token

variable {cs sign digits : List Char} {s : ℤ} {x : Exponent}

theorem leadingDigits_of_isDigits (h : IsDigits digits) : leadingDigits digits = digits :=
  List.takeWhile_eq_self_iff.2 h.isDigit

theorem afterDigits_of_isDigits (h : IsDigits digits) : afterDigits digits = [] :=
  List.dropWhile_eq_nil_iff.2 h.isDigit

theorem takeSignChars_of_isSign (h : IsSign sign s) (hd : IsDigits digits) (rest : List Char) :
    takeSignChars (sign ++ (digits ++ rest)) = (sign, digits ++ rest) := by
  cases h with
  | none =>
    obtain ⟨c, cs, rfl⟩ := List.exists_cons_of_ne_nil hd.ne_nil
    have hc := hd.isDigit c List.mem_cons_self
    rw [List.nil_append, List.cons_append]
    unfold takeSignChars
    split
    · rename_i heq
      cases heq
      cases hc
    · rename_i heq
      cases heq
      cases hc
    · rfl
  | plus => rfl
  | minus => rfl

theorem power_eq_decimalPower (h : ∀ rest, cs ≠ '(' :: rest) : power cs = decimalPower cs := by
  have hparen : parenPower cs = none := by
    unfold parenPower
    split
    · rename_i rest
      exact absurd rfl (h rest)
    · rfl
  rw [power, hparen, Option.none_or]

/-- A text that is taken as a decimal up to its end is read as a power if the exponent in it is. -/
theorem power_of_takeDecimalChars (hp : '(' ∉ cs) (ht : takeDecimalChars cs = some (cs, []))
    (hx : Exponent.read cs = .ok x) : power cs = some (x, []) := by
  have hne : ∀ rest, cs ≠ '(' :: rest := by
    rintro rest rfl
    exact hp List.mem_cons_self
  rw [power_eq_decimalPower hne, decimalPower, ht]
  simp only [Option.bind_eq_bind, Option.bind_some, exponent?_eq_some_iff.2 hx]
  rfl

theorem takeDecimalChars_of_isDigits (hs : IsSign sign s) (hd : IsDigits digits) :
    takeDecimalChars (sign ++ digits) = some (sign ++ digits, []) := by
  have hne : digits.isEmpty = false := by simpa using hd.ne_nil
  have hsign := takeSignChars_of_isSign hs hd []
  rw [List.append_nil] at hsign
  rw [takeDecimalChars, hsign]
  simp [leadingDigits_of_isDigits hd, afterDigits_of_isDigits hd, hne, takeFractionChars]

/-- A text in parentheses is read as a power if the exponent in it is. -/
theorem power_paren {body : List Char} {x : Exponent} (hne : body ≠ [])
    (hb : ∀ c ∈ body, isPlainBlank c = false) (hi : ∀ c ∈ body, isInner c = true)
    (hx : Exponent.read body = .ok x) : power ('(' :: body ++ [')']) = some (x, []) := by
  have hskip : skipPlainBlanks (body ++ [')']) = body ++ [')'] := by
    obtain ⟨c, cs, rfl⟩ := List.exists_cons_of_ne_nil hne
    exact List.dropWhile_cons_of_neg (by simp [hb c List.mem_cons_self])
  have htake : (body ++ [')']).takeWhile isInner = body := by
    rw [List.takeWhile_append_of_pos hi]
    simp [isInner]
  have hdrop : (body ++ [')']).dropWhile isInner = [')'] := by
    rw [List.dropWhile_append_of_pos hi]
    simp [isInner]
  obtain ⟨c, cs, rfl⟩ := List.exists_cons_of_ne_nil hne
  rw [power, List.cons_append, parenPower, hskip, htake, hdrop]
  simp [exponent?_eq_some_iff.2 hx]

/-! ### The text of an exponent -/

theorem power_chars (hx : Representable x.val) (hd : x.den = 1) : power x.chars = some (x, []) := by
  have hword := x.isWord_num
  rw [← Exponent.chars_of_den_eq_one hd] at hword
  obtain ⟨sign, s, digits, hs, hdigits, hchars, -⟩ := hword.literal
  have htake := takeDecimalChars_of_isDigits hs hdigits
  rw [← hchars] at htake
  exact power_of_takeDecimalChars (hword.notMem rfl (by decide) (by decide)) htake
    (Exponent.read_chars hx)

theorem power_paren_chars (hx : Representable x.val) :
    power ('(' :: x.chars ++ [')']) = some (x, []) := by
  refine power_paren ?_ ?_ ?_ (Exponent.read_chars hx)
  · by_cases hd : x.den = 1
    · rw [Exponent.chars_of_den_eq_one hd]
      exact x.isWord_num.ne_nil
    · rw [Exponent.chars_of_den_ne_one hd]
      exact List.append_ne_nil_of_right_ne_nil _ (List.cons_ne_nil _ _)
  · intro c hc
    by_contra hb
    have hb := isBlank_of_isPlainBlank (by simpa using hb)
    rw [Exponent.not_isBlank_of_mem_chars c hc] at hb
    cases hb
  · intro c hc
    rcases Exponent.isDigit_or_of_mem_chars hc with hd | rfl | rfl | rfl
    · obtain ⟨ho, hi⟩ := ne_paren_of_isDigit hd
      simp [isInner, ho, hi]
    · rfl
    · rfl
    · rfl

end Token

namespace Exponent

/-- What is known of the text of an exponent. -/
structure TextLaw (x : Exponent) : Prop where
  read : ofString x.text = .ok x
  read_paren : ofString ("(" ++ x.text ++ ")") = .ok x
  power_paren : Token.power ("(" ++ x.text ++ ")").toList = some (x, [])
  power : x.isInteger = true → Token.power x.text.toList = some (x, [])

theorem toList_paren_text (x : Exponent) :
    ("(" ++ x.text ++ ")").toList = '(' :: (x.chars ++ [')']) := by
  simp [text]

/-- An exponent is read back from its text unless its numerator is the smallest one, and the text
determines the exponent in any case. -/
theorem textLaw : Function.Injective text ∧ ∀ x : Exponent, x.num ≠ -2 ^ 63 → TextLaw x := by
  constructor
  · intro x y h
    exact chars_injective (String.ofList_injective h)
  · intro x hx
    have hr := (representable_iff_of_fits x.fits).2 hx
    have htext : x.text.toList = x.chars := String.toList_ofList
    constructor
    · rw [ofString, htext, read_chars hr]
    · rw [ofString, toList_paren_text, read_paren_chars hr]
    · rw [toList_paren_text]
      exact Token.power_paren_chars hr
    · intro hi
      rw [htext]
      exact Token.power_chars hr (beq_iff_eq.1 hi)

/-- The numbers at the end of the range are read back, a ratio as well as a whole number. -/
theorem textLaw_ends :
    (∃ x : Exponent, x.text = "-9223372036854775807/9223372036854775806" ∧ x.num ≠ -2 ^ 63 ∧
      TextLaw x) ∧
    ∃ x : Exponent, x.text = "-9223372036854775807" ∧ x.num ≠ -2 ^ 63 ∧ x.isInteger = true ∧
      TextLaw x :=
  ⟨⟨⟨-9223372036854775807 / 9223372036854775806, by decide +kernel⟩, by decide +kernel,
    by decide +kernel, textLaw.2 _ (by decide +kernel)⟩,
   ⟨⟨-9223372036854775807, by decide +kernel⟩, by decide +kernel, by decide +kernel,
    by decide +kernel, textLaw.2 _ (by decide +kernel)⟩⟩

end Exponent

namespace Powers

/-- The text of a power is read as the power. -/
def ReadsBack (q : ℚ) : Prop := ∃ x, Token.power (powerChars q) = some (x, []) ∧ x.val = q

theorem readsBack_iff {q : ℚ} : ReadsBack q ↔
    (Token.power (powerChars q)).map (fun r => (r.1.val, r.2)) = some (q, []) := by
  simp only [ReadsBack, Option.map_eq_some_iff, Prod.exists, Prod.mk.injEq]
  constructor
  · rintro ⟨x, hx, hv⟩
    exact ⟨x, [], hx, hv, rfl⟩
  · rintro ⟨x, rest, hx, hv, rfl⟩
    exact ⟨x, hx, hv⟩

instance : DecidablePred ReadsBack := fun _ => decidable_of_iff _ readsBack_iff.symm

/-- Whole numbers and ratios in parentheses are always read back. -/
theorem readsBack_of_not_decimal {q : ℚ} (h : Representable q)
    (hq : q.den = 1 ∨ 1000000 % q.den ≠ 0) : ReadsBack q := by
  obtain ⟨x, rfl⟩ : ∃ x : Exponent, x.val = q := ⟨⟨q, h.fits⟩, rfl⟩
  refine ⟨x, ?_, rfl⟩
  by_cases hd : x.den = 1
  · have hchars : powerChars x.val = x.chars := (if_pos hd).trans (chars_of_den_eq_one hd).symm
    rw [hchars]
    exact Token.power_chars h hd
  · have hchars : powerChars x.val = '(' :: x.chars ++ [')'] :=
      (if_neg hd).trans (if_neg (hq.resolve_left hd))
    rw [hchars]
    exact Token.power_paren_chars h

/-- A power that is read back, or not written because it is one. -/
def Legible (q : ℚ) : Prop := q = 1 ∨ ReadsBack q

/-- Only decimals may be misread. -/
theorem legible_abs {q : ℚ} (h : Representable q)
    (hdecimal : q.den ≠ 1 → 1000000 % q.den = 0 → ReadsBack |q|) : Legible |q| := by
  have hrep : Representable |q| := by
    rcases abs_choice q with he | he
    · rwa [he]
    · exact he ▸ h.neg
  by_cases hd : q.den ≠ 1 ∧ 1000000 % q.den = 0
  · exact .inr (hdecimal hd.1 hd.2)
  · refine .inr (readsBack_of_not_decimal hrep ?_)
    rw [Rat.den_abs_eq_den]
    tauto

end Powers

end QuantityCalculus
