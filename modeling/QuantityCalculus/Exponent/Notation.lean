import QuantityCalculus.Exponent.Text

/-! The notations of an exponent. A text expresses a number as a ratio of two 64-bit words, as an exact
decimal of at most eighteen places, or as a single word. Blanks and one pair of parentheses around the
text do not belong to it. -/

namespace QuantityCalculus.Exponent

open Decimal Text

/-- Decimal digits, at least one. -/
structure IsDigits (cs : List Char) : Prop where
  ne_nil : cs ≠ []
  isDigit : ∀ c ∈ cs, c.isDigit = true

/-- An optional sign and the factor it stands for. -/
inductive IsSign : List Char → Int → Prop
  | none : IsSign [] 1
  | plus : IsSign ['+'] 1
  | minus : IsSign ['-'] (-1)

/-- An optional sign and digits that denote a signed 64-bit word. -/
structure IsWord (cs : List Char) (n : Int) : Prop where
  literal : ∃ sign s digits, IsSign sign s ∧ IsDigits digits ∧ cs = sign ++ digits ∧
    n = s * digitsValue digits
  ge : -0x8000000000000000 ≤ n
  lt : n < 0x8000000000000000

/-- The text stands for the number. -/
inductive Expresses : List Char → Rat → Prop
  | ratio {num den : List Char} {n d : Int} : '/' ∉ num → IsWord (trim num) n →
    IsWord (trim den) d → d ≠ 0 → Expresses (num ++ '/' :: den) (n / d)
  | decimal {sign whole fraction : List Char} {s : Int} : IsSign sign s → IsDigits whole →
    IsDigits fraction → fraction.length ≤ 18 → whole.length + fraction.length ≤ 36 →
    Expresses (sign ++ (whole ++ '.' :: fraction))
      (s * (digitsValue whole + digitsValue fraction / 10 ^ fraction.length))
  | whole {cs : List Char} {n : Int} : IsWord cs n → Expresses cs n

/-- What remains of a text without blanks and one pair of parentheses around it. -/
inductive Bare (cs : List Char) : List Char → Prop
  | inner {inner : List Char} : trim cs = '(' :: (inner ++ [')']) → Bare cs (trim inner)
  | whole : (∀ inner, trim cs ≠ '(' :: (inner ++ [')'])) → Bare cs (trim cs)

end QuantityCalculus.Exponent
