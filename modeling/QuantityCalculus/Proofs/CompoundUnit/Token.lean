import Mathlib.Data.List.TakeWhile
import QuantityCalculus.CompoundUnit.Token
import QuantityCalculus.Proofs.Exponent.Exact

/-! What the readers of tokens take. For each reader, the text it accepts is its own part followed
by the rest, and the part has the shape the reader stands for. Exponents come from the checked
reader only, so they are representable. -/

namespace QuantityCalculus

open Text Decimal

namespace Exponent

theorem reduce_representable {n d : ℤ} {x : Exponent} (h : reduce n d = .ok x) :
    Representable x.val := by
  obtain ⟨hr, hv⟩ := reduce_eq_ok_iff.1 h
  exact hv ▸ hr

theorem ofParts_representable {n d : ℤ} {x : Exponent} (h : ofParts n d = .ok x) :
    Representable x.val := by
  unfold ofParts at h
  split_ifs at h
  exact reduce_representable h

theorem readBare_representable {cs : List Char} {x : Exponent} (h : readBare cs = .ok x) :
    Representable x.val := by
  unfold readBare at h
  split at h
  · split at h
    · exact ofParts_representable h
    · cases h
  · split at h
    · split at h
      · exact reduce_representable h
      · cases h
    · split at h
      · exact ofParts_representable h
      · cases h

end Exponent

namespace Token

variable {cs rest name digits : List Char} {x : Exponent} {x? : Option Exponent}

theorem exponent?_eq_some_iff : exponent? cs = some x ↔ Exponent.read cs = .ok x :=
  toOption_eq_some_iff

theorem exponent?_representable (h : exponent? cs = some x) : Representable x.val :=
  Exponent.readBare_representable (exponent?_eq_some_iff.1 h)

/-! ### Powers -/

/-- A power in parentheses: blanks, a body without parentheses, and the rest. -/
theorem parenPower_cases (h : parenPower cs = some (x, rest)) :
    ∃ inner body, cs = '(' :: inner ∧ skipPlainBlanks inner = body ++ ')' :: rest ∧
      (∀ c ∈ body, isInner c = true) ∧ exponent? body = some x := by
  unfold parenPower at h
  split at h
  · rename_i inner
    dsimp only at h
    have hall : ∀ c ∈ (skipPlainBlanks inner).takeWhile isInner, isInner c = true :=
      fun c hc => List.mem_takeWhile_imp hc
    have happ := List.takeWhile_append_dropWhile (p := isInner) (l := skipPlainBlanks inner)
    split at h
    · cases h
    · rename_i hd _
      obtain ⟨y, hy, he⟩ := Option.map_eq_some_iff.1 h
      cases he
      rw [hd] at happ
      exact ⟨inner, _, rfl, happ.symm, hall, hy⟩
    · cases h
  · cases h

theorem takeSignChars_append (cs : List Char) :
    (takeSignChars cs).1 ++ (takeSignChars cs).2 = cs := by
  unfold takeSignChars
  split <;> rfl

theorem mem_takeSignChars {c : Char} (h : c ∈ (takeSignChars cs).1) : c = '-' ∨ c = '+' := by
  unfold takeSignChars at h
  split at h <;> simp_all

theorem leadingDigits_append (cs : List Char) : leadingDigits cs ++ afterDigits cs = cs :=
  List.takeWhile_append_dropWhile

theorem isDigit_of_mem_leadingDigits {c : Char} (h : c ∈ leadingDigits cs) : c.isDigit = true :=
  List.mem_takeWhile_imp h

theorem takeFractionChars_append (cs : List Char) :
    (takeFractionChars cs).1 ++ (takeFractionChars cs).2 = cs := by
  unfold takeFractionChars
  split
  · split_ifs
    · rfl
    · rw [List.cons_append, leadingDigits_append]
  · rfl

theorem mem_takeFractionChars {c : Char} (h : c ∈ (takeFractionChars cs).1) :
    c = '.' ∨ c.isDigit = true := by
  unfold takeFractionChars at h
  split at h
  · split_ifs at h
    · cases h
    · exact (List.mem_cons.1 h).imp_right isDigit_of_mem_leadingDigits
  · cases h

/-- A character of a decimal. -/
def isDecimalChar (c : Char) : Bool := c.isDigit || c == '-' || c == '+' || c == '.'

theorem takeDecimalChars_cases (h : takeDecimalChars cs = some (digits, rest)) :
    cs = digits ++ rest ∧ ∀ c ∈ digits, isDecimalChar c = true := by
  unfold takeDecimalChars at h
  dsimp only at h
  split_ifs at h
  simp only [Option.some.injEq, Prod.mk.injEq] at h
  obtain ⟨rfl, rfl⟩ := h
  constructor
  · rw [List.append_assoc, takeFractionChars_append, List.append_assoc, leadingDigits_append,
      takeSignChars_append]
  · intro c hc
    simp only [List.mem_append] at hc
    simp only [isDecimalChar, Bool.or_eq_true, beq_iff_eq]
    rcases hc with (hc | hc) | hc
    · have := mem_takeSignChars hc
      tauto
    · have := isDigit_of_mem_leadingDigits hc
      tauto
    · have := mem_takeFractionChars hc
      tauto

theorem decimalPower_cases (h : decimalPower cs = some (x, rest)) :
    ∃ digits, cs = digits ++ rest ∧ (∀ c ∈ digits, isDecimalChar c = true) ∧
      exponent? digits = some x := by
  simp only [decimalPower, Option.bind_eq_bind, Option.bind_eq_some_iff] at h
  obtain ⟨⟨digits, tail⟩, ht, y, hy, he⟩ := h
  cases he
  obtain ⟨happ, hall⟩ := takeDecimalChars_cases ht
  exact ⟨digits, happ, hall, hy⟩

theorem power_cases (h : power cs = some (x, rest)) :
    parenPower cs = some (x, rest) ∨ decimalPower cs = some (x, rest) :=
  (Option.or_eq_some_iff.1 h).imp_right And.right

theorem power_representable (h : power cs = some (x, rest)) : Representable x.val := by
  rcases power_cases h with h | h
  · obtain ⟨_, _, _, _, _, hx⟩ := parenPower_cases h
    exact exponent?_representable hx
  · obtain ⟨_, _, _, hx⟩ := decimalPower_cases h
    exact exponent?_representable hx

/-! ### Atoms -/

theorem unitName_cases (h : unitName cs = some (name, rest)) :
    cs = name ++ rest ∧ name ≠ [] ∧ ∀ c ∈ name, isNameChar c = true := by
  unfold unitName at h
  split_ifs at h with he
  simp only [Option.some.injEq, Prod.mk.injEq] at h
  obtain ⟨rfl, rfl⟩ := h
  exact ⟨List.takeWhile_append_dropWhile.symm, by simpa using he,
    fun c hc => List.mem_takeWhile_imp hc⟩

theorem markedPower_cases (h : markedPower cs = some (x, rest)) :
    ∃ inner, skipPlainBlanks cs = '^' :: inner ∧ power (skipPlainBlanks inner) = some (x, rest) := by
  unfold markedPower at h
  split at h
  · rename_i inner hi
    exact ⟨inner, hi, h⟩
  · cases h

/-- An atom is a name, and behind it a caret with a power or nothing but plain blanks. -/
theorem atom?_cases (h : atom? cs = some (name, x?)) :
    ∃ rest, unitName (skipPlainBlanks cs) = some (name, rest) ∧
      ((∃ x tail, x? = some x ∧ markedPower rest = some (x, tail) ∧ skipPlainBlanks tail = []) ∨
        (x? = none ∧ skipPlainBlanks rest = [])) := by
  simp only [atom?, Option.bind_eq_bind, Option.bind_eq_some_iff] at h
  obtain ⟨⟨n, rest⟩, hn, h⟩ := h
  cases hm : markedPower rest with
  | none =>
    simp only [hm] at h
    split_ifs at h with hb
    cases h
    exact ⟨rest, hn, .inr ⟨rfl, List.isEmpty_iff.1 hb⟩⟩
  | some marked =>
    obtain ⟨x, tail⟩ := marked
    simp only [hm] at h
    split_ifs at h with hb
    cases h
    exact ⟨rest, hn, .inl ⟨x, tail, rfl, hm, List.isEmpty_iff.1 hb⟩⟩

theorem atom?_representable (h : atom? cs = some (name, x?)) :
    Representable (x?.getD 1).val := by
  obtain ⟨rest, -, ⟨x, tail, rfl, hm, -⟩ | ⟨rfl, -⟩⟩ := atom?_cases h
  · obtain ⟨inner, -, hp⟩ := markedPower_cases hm
    exact power_representable hp
  · exact representable_one

end Token

end QuantityCalculus
