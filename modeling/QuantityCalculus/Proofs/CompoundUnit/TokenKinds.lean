import QuantityCalculus.Proofs.CompoundUnit.Token
import QuantityCalculus.Proofs.Table.Names
import QuantityCalculus.Proofs.Text.TopLevel

/-! The two kinds of tokens. Readers keep track of parentheses: what they take opens as many as it
closes, so a whole token does too. A numeral begins like a number and the name of an atomic unit does
not, so no text is both. -/

namespace QuantityCalculus.Token

open Text Decimal Table

variable {cs rest name digits : List Char} {x : Exponent} {x? : Option Exponent} {y : Float}

/-! ### Parentheses -/

@[simp] theorem nesting_skipPlainBlanks (cs : List Char) :
    nesting (skipPlainBlanks cs) = nesting cs := by
  have hz : nesting (cs.takeWhile isPlainBlank) = 0 := nesting_eq_zero fun c hc =>
    ne_paren_of_isBlank (isBlank_of_isPlainBlank (List.mem_takeWhile_imp hc))
  conv_rhs => rw [← List.takeWhile_append_dropWhile (p := isPlainBlank) (l := cs)]
  rw [nesting_append, hz, zero_add]
  rfl

theorem ne_paren_of_isDigit {c : Char} (h : c.isDigit = true) : c ≠ '(' ∧ c ≠ ')' := by
  constructor <;> rintro rfl <;> exact absurd h (by decide)

theorem nesting_afterDigits (cs : List Char) : nesting (afterDigits cs) = nesting cs := by
  have hz : nesting (leadingDigits cs) = 0 :=
    nesting_eq_zero fun c hc => ne_paren_of_isDigit (isDigit_of_mem_leadingDigits hc)
  conv_rhs => rw [← leadingDigits_append cs]
  rw [nesting_append, hz, zero_add]

theorem nesting_power (h : power cs = some (x, rest)) : nesting cs = nesting rest := by
  rcases power_cases h with h | h
  · obtain ⟨inner, body, rfl, hi, hall, -⟩ := parenPower_cases h
    have hbody : nesting body = 0 := nesting_eq_zero fun c hc => by
      simpa [isInner] using hall c hc
    have ho : nesting ['('] = 1 := rfl
    have hc : nesting [')'] = -1 := rfl
    have hinner := nesting_skipPlainBlanks inner
    rw [hi, nesting_append, nesting_cons ')'] at hinner
    rw [nesting_cons]
    omega
  · obtain ⟨digits, rfl, hall, -⟩ := decimalPower_cases h
    have hz : nesting digits = 0 := by
      apply nesting_eq_zero
      intro c hc
      constructor <;> rintro rfl <;> exact absurd (hall _ hc) (by decide)
    rw [nesting_append, hz, zero_add]

/-- The parentheses of an atom match in number if its name has none. -/
theorem nesting_atom? (h : atom? cs = some (name, x?)) (hn : nesting name = 0) :
    nesting cs = 0 := by
  obtain ⟨rest, hu, hr⟩ := atom?_cases h
  obtain ⟨happ, -, -⟩ := unitName_cases hu
  rw [← nesting_skipPlainBlanks, happ, nesting_append, hn, zero_add, ← nesting_skipPlainBlanks]
  rcases hr with ⟨x, tail, -, hm, ht⟩ | ⟨-, hr⟩
  · obtain ⟨inner, hi, hp⟩ := markedPower_cases hm
    have hcaret : nesting ['^'] = 0 := rfl
    rw [hi, nesting_cons, hcaret, zero_add, ← nesting_skipPlainBlanks, nesting_power hp,
      ← nesting_skipPlainBlanks, ht, nesting_nil]
  · rw [hr, nesting_nil]

theorem takeSign_cases (cs : List Char) :
    (takeSign cs).2 = cs ∨ ∃ c, (c = '-' ∨ c = '+') ∧ cs = c :: (takeSign cs).2 := by
  unfold takeSign
  split
  · exact .inr ⟨'-', .inl rfl, rfl⟩
  · exact .inr ⟨'+', .inr rfl, rfl⟩
  · exact .inl rfl

theorem nesting_takeSign (cs : List Char) : nesting (takeSign cs).2 = nesting cs := by
  obtain h | ⟨c, rfl | rfl, h⟩ := takeSign_cases cs
  · rw [h]
  · conv_rhs => rw [h, nesting_cons]
    exact (zero_add _).symm
  · conv_rhs => rw [h, nesting_cons]
    exact (zero_add _).symm

theorem nesting_point (cs : List Char) : nesting ('.' :: cs) = nesting cs := by
  rw [nesting_cons]
  exact zero_add _

theorem nesting_takeMantissa {whole fraction : List Char}
    (h : takeMantissa cs = some (whole, fraction, rest)) : nesting cs = nesting rest := by
  have hafter := nesting_afterDigits cs
  unfold takeMantissa at h
  dsimp only at h
  split at h
  · rename_i tail _ ha
    split_ifs at h
    cases h
    rw [← hafter, ha, nesting_point, nesting_afterDigits]
  · cases h
  · rename_i tail ha _
    cases h
    rw [← hafter, ha, nesting_point, nesting_afterDigits]
  · cases h
    exact hafter.symm

theorem nesting_takeExponent {e : ℤ} (h : takeExponent cs = some (e, rest)) :
    nesting cs = nesting rest := by
  unfold takeExponent at h
  split at h
  · rename_i c tail
    dsimp only at h
    by_cases hc : c = 'e' ∨ c = 'E'
    · have hn : nesting [c] = 0 := by rcases hc with rfl | rfl <;> rfl
      rw [if_pos hc] at h
      split at h
      · cases h
      · cases h
        rw [nesting_afterDigits, nesting_takeSign, nesting_cons, hn, zero_add]
    · rw [if_neg hc] at h
      cases h
      rfl
  · cases h
    rfl

theorem nesting_numeral? (h : numeral? cs = some y) : nesting cs = 0 := by
  simp only [numeral?, Numeral.take?, Option.bind_eq_bind, Option.bind_eq_some_iff] at h
  obtain ⟨⟨n, rest⟩, ⟨⟨whole, fraction, tail⟩, hm, ⟨e, behind⟩, he, hn⟩, h⟩ := h
  cases hn
  split_ifs at h with hb
  rw [← nesting_skipPlainBlanks, ← nesting_takeSign, nesting_takeMantissa hm,
    nesting_takeExponent he, ← nesting_skipPlainBlanks, List.isEmpty_iff.1 hb, nesting_nil]

/-! ### First characters -/

theorem startsNumber_of_isDigit {c : Char} (h : c.isDigit = true) : startsNumber c = true := by
  simp [startsNumber, h]

/-- A mantissa begins with a digit or a point. -/
theorem startsNumber_of_takeMantissa {r : List Char × List Char × List Char}
    (h : takeMantissa cs = some r) : ∃ c ds, cs = c :: ds ∧ startsNumber c = true := by
  have happ := leadingDigits_append cs
  cases hd : leadingDigits cs with
  | nil =>
    rw [hd, List.nil_append] at happ
    cases ha : afterDigits cs with
    | nil => simp [takeMantissa, hd, ha] at h
    | cons c ds =>
      rw [ha] at happ
      refine ⟨c, ds, happ.symm, ?_⟩
      by_cases hc : c = '.'
      · subst hc
        rfl
      · simp [takeMantissa, hd, ha, hc] at h
  | cons c ds =>
    rw [hd] at happ
    refine ⟨c, ds ++ afterDigits cs, happ.symm, startsNumber_of_isDigit ?_⟩
    exact isDigit_of_mem_leadingDigits (hd ▸ List.mem_cons_self)

theorem startsNumber_of_numeral? (h : numeral? cs = some y) :
    ∃ c ds, skipPlainBlanks cs = c :: ds ∧ startsNumber c = true := by
  simp only [numeral?, Numeral.take?, Option.bind_eq_bind, Option.bind_eq_some_iff] at h
  obtain ⟨_, ⟨_, hm, -⟩, -⟩ := h
  obtain ⟨c, ds, hs, hc⟩ := startsNumber_of_takeMantissa hm
  obtain heq | ⟨sign, hsign, heq⟩ := takeSign_cases (skipPlainBlanks cs)
  · exact ⟨c, ds, heq ▸ hs, hc⟩
  · refine ⟨sign, _, heq, ?_⟩
    rcases hsign with rfl | rfl <;> rfl

/-- No numeral is an atom with a known name. -/
theorem lookup?_eq_none_of_numeral? (h : numeral? cs = some y) (ha : atom? cs = some (name, x?)) :
    lookup? (String.ofList name) = none := by
  rw [Option.eq_none_iff_forall_ne_some]
  intro unit hu
  obtain ⟨c, ds, hs, hc⟩ := startsNumber_of_numeral? h
  obtain ⟨a, as, hname, hfirst⟩ := exists_cons_of_lookup hu
  obtain ⟨rest, hn, -⟩ := atom?_cases ha
  obtain ⟨happ, -, -⟩ := unitName_cases hn
  rw [String.toList_ofList] at hname
  rw [hs, hname, List.cons_append, List.cons.injEq] at happ
  rw [← happ.1, hc] at hfirst
  cases hfirst

end QuantityCalculus.Token
