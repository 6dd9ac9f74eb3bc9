import QuantityCalculus.Proofs.Exponent.Notation

/-! The text of an exponent read back. The text is a word, or a ratio of two words without blanks around
it, so it expresses the exponent and no other number. Parentheses around it are taken off. -/

namespace QuantityCalculus.Exponent

open Decimal Text

variable {cs : List Char} {n : ℤ} {q : ℚ} {x : Exponent}

/-! ### Bare texts -/

theorem bare_self (hb : ∀ c ∈ cs, isBlank c = false) (hp : '(' ∉ cs) : Bare cs cs := by
  have htrim := trim_eq_self_of_forall hb
  have hbare : Bare cs (trim cs) := by
    refine .whole fun inner h => hp ?_
    rw [← htrim, h]
    exact List.mem_cons_self
  rwa [htrim] at hbare

theorem bare_paren (hb : ∀ c ∈ cs, isBlank c = false) : Bare ('(' :: (cs ++ [')'])) cs := by
  have htrim : trim ('(' :: (cs ++ [')'])) = '(' :: (cs ++ [')']) := by
    apply trim_eq_self_of_forall
    intro c hc
    simp only [List.mem_cons, List.mem_append, List.not_mem_nil, or_false] at hc
    rcases hc with rfl | hc | rfl
    · rfl
    · exact hb c hc
    · rfl
  have hbare : Bare ('(' :: (cs ++ [')'])) (trim cs) := .inner htrim
  rwa [trim_eq_self_of_forall hb] at hbare

/-! ### Words -/

theorem isWord_intChars (hl : -0x8000000000000000 ≤ n) (hu : n < 0x8000000000000000) :
    IsWord (intChars n) n := by
  refine ⟨?_, hl, hu⟩
  unfold intChars
  split_ifs with h
  · refine ⟨['-'], -1, natChars n.natAbs, .minus, isDigits_natChars _, rfl, ?_⟩
    rw [digitsValue_natChars]
    omega
  · refine ⟨[], 1, natChars n.natAbs, .none, isDigits_natChars _, rfl, ?_⟩
    rw [digitsValue_natChars]
    omega

theorem isWord_natChars {n : ℕ} (h : n < 0x8000000000000000) : IsWord (natChars n) n := by
  have hword := isWord_intChars (n := (n : ℤ)) (by omega) (by omega)
  rwa [intChars, if_neg (by omega), Int.natAbs_natCast] at hword

theorem IsWord.ne_nil (h : IsWord cs n) : cs ≠ [] := by
  obtain ⟨sign, s, digits, -, hd, rfl, -⟩ := h.literal
  exact List.append_ne_nil_of_right_ne_nil sign hd.ne_nil

theorem IsWord.not_isBlank (h : IsWord cs n) : ∀ c ∈ cs, isBlank c = false := by
  intro c hc
  rcases h.isDigit_or c hc with hd | rfl | rfl
  · exact not_isBlank_of_isDigit hd
  · rfl
  · rfl

/-! ### The text of an exponent -/

theorem isWord_num (x : Exponent) : IsWord (intChars x.num) x.num :=
  isWord_intChars x.fits.1 x.fits.2.1

theorem isWord_den (x : Exponent) : IsWord (natChars x.den) x.den :=
  isWord_natChars x.fits.2.2

theorem chars_of_den_eq_one (h : x.den = 1) : x.chars = intChars x.num := if_pos h

theorem chars_of_den_ne_one (h : x.den ≠ 1) : x.chars = intChars x.num ++ '/' :: natChars x.den :=
  if_neg h

theorem expresses_chars (x : Exponent) : Expresses x.chars x.val := by
  by_cases h : x.den = 1
  · have hval : x.val = x.num := ((Rat.den_eq_one_iff _).1 h).symm
    rw [chars_of_den_eq_one h, hval]
    exact .whole x.isWord_num
  · have hnum := x.isWord_num
    have hden := x.isWord_den
    have hslash : '/' ∉ intChars x.num := hnum.notMem rfl (by decide) (by decide)
    rw [← trim_eq_self_of_forall hnum.not_isBlank] at hnum
    rw [← trim_eq_self_of_forall hden.not_isBlank] at hden
    have hratio := Expresses.ratio hslash hnum hden x.den_ne_zero
    rw [← chars_of_den_ne_one h, Int.cast_natCast] at hratio
    rwa [← Rat.num_div_den x.val]

/-- The text of an exponent determines it. -/
theorem chars_injective : Function.Injective chars := by
  intro x y h
  have hx := x.expresses_chars
  rw [h] at hx
  exact ext (hx.unique y.expresses_chars)

theorem isDigit_or_of_mem_chars {c : Char} (h : c ∈ x.chars) :
    c.isDigit = true ∨ c = '+' ∨ c = '-' ∨ c = '/' := by
  have hword {cs : List Char} {n : ℤ} (hw : IsWord cs n) (hc : c ∈ cs) :
      c.isDigit = true ∨ c = '+' ∨ c = '-' ∨ c = '/' := by
    have := hw.isDigit_or c hc
    tauto
  by_cases hd : x.den = 1
  · rw [chars_of_den_eq_one hd] at h
    exact hword x.isWord_num h
  · rw [chars_of_den_ne_one hd, List.mem_append, List.mem_cons] at h
    rcases h with h | rfl | h
    · exact hword x.isWord_num h
    · exact .inr (.inr (.inr rfl))
    · exact hword x.isWord_den h

theorem not_isBlank_of_mem_chars : ∀ c ∈ x.chars, isBlank c = false := by
  intro c hc
  rcases isDigit_or_of_mem_chars hc with hd | rfl | rfl | rfl
  · exact not_isBlank_of_isDigit hd
  · rfl
  · rfl
  · rfl

theorem read_eq_ok {t : List Char} (ht : Bare cs t) (he : Expresses t x.val)
    (hx : Representable x.val) : read cs = .ok x :=
  read_eq_ok_iff.2 ⟨t, x.val, ht, he, hx, rfl⟩

theorem read_chars (hx : Representable x.val) : read x.chars = .ok x := by
  refine read_eq_ok (bare_self not_isBlank_of_mem_chars ?_) x.expresses_chars hx
  intro hp
  rcases isDigit_or_of_mem_chars hp with h | h | h | h <;> cases h

theorem read_paren_chars (hx : Representable x.val) : read ('(' :: (x.chars ++ [')'])) = .ok x :=
  read_eq_ok (bare_paren not_isBlank_of_mem_chars) x.expresses_chars hx

end QuantityCalculus.Exponent
