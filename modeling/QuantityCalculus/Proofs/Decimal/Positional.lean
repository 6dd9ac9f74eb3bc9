import Mathlib.Algebra.Field.Rat
import Mathlib.Data.List.Induction
import QuantityCalculus.Proofs.Decimal.Digits

/-! Positional notation read back. Digits with a point among them, or without one, are read as the number
they denote, wherever zeros were filled up to the point. So the text of a decimal determines its
value. -/

namespace QuantityCalculus.Decimal

/-- The number that a decimal denotes. -/
def Scientific.value (d : Scientific) : ℚ := d.coefficient * 10 ^ d.exponent

/-- The number that a numeral denotes, regardless of its sign. -/
def Numeral.absValue (n : Numeral) : ℚ := n.coefficient * 10 ^ n.exponent

section Digits

variable {cs ds : List Char}

theorem digitsValue_append (cs ds : List Char) :
    digitsValue (cs ++ ds) = 10 ^ ds.length * digitsValue cs + digitsValue ds := by
  rw [digitsValue, Nat.ofDigitChars_append, Nat.ofDigitChars_eq_ofDigitChars_zero]
  rfl

theorem digit_lt {c : Char} (h : c.isDigit = true) : c.toNat - '0'.toNat < 10 := by
  rw [Char.isDigit_iff_toNat] at h
  have h9 : '9'.toNat = '0'.toNat + 9 := rfl
  omega

theorem digitsValue_concat (cs : List Char) (c : Char) :
    digitsValue (cs ++ [c]) = 10 * digitsValue cs + (c.toNat - '0'.toNat) := by
  rw [digitsValue, Nat.ofDigitChars_append, Nat.ofDigitChars_cons]
  rfl

theorem digitsValue_lt (h : ∀ c ∈ cs, c.isDigit = true) : digitsValue cs < 10 ^ cs.length := by
  induction cs using List.reverseRecOn with
  | nil => exact Nat.one_pos
  | append_singleton cs c ih =>
    have hcs := ih fun a ha => h a (List.mem_append_left _ ha)
    have hc := digit_lt (h c List.mem_concat_self)
    rw [digitsValue_concat, List.length_append, List.length_singleton, pow_succ]
    omega

theorem digitsValue_replicate_zero (n : ℕ) : digitsValue (List.replicate n '0') = 0 := by
  induction n with
  | zero => rfl
  | succ n ih => rw [List.replicate_succ', digitsValue_append, ih]; rfl

theorem isDigit_of_mem_replicate_zero {n : ℕ} {c : Char} (h : c ∈ List.replicate n '0') :
    c.isDigit = true := by
  rw [List.eq_of_mem_replicate h]
  rfl

theorem leadingDigits_append_point (ds : List Char) (h : ∀ c ∈ cs, c.isDigit = true) :
    leadingDigits (cs ++ '.' :: ds) = cs := by
  rw [leadingDigits, List.takeWhile_append_of_pos h]
  exact List.append_nil cs

theorem afterDigits_append_point (ds : List Char) (h : ∀ c ∈ cs, c.isDigit = true) :
    afterDigits (cs ++ '.' :: ds) = '.' :: ds := by
  rw [afterDigits, List.dropWhile_append_of_pos h]
  rfl

/-- The sign in front of a number. -/
def signChars (negative : Bool) : List Char := if negative then ['-'] else []

theorem takeSign_signChars (negative : Bool) {c : Char} (h : c.isDigit = true) (cs : List Char) :
    takeSign (signChars negative ++ c :: cs) = (negative, c :: cs) := by
  cases negative with
  | false => exact takeSign_cons h
  | true => rfl

/-- Digits without a point. -/
theorem take?_whole (negative : Bool) (hne : cs ≠ []) (h : ∀ c ∈ cs, c.isDigit = true) :
    Numeral.take? (signChars negative ++ cs) = some (⟨negative, digitsValue cs, 0⟩, []) := by
  have hlead : leadingDigits cs = cs := List.takeWhile_eq_self_iff.2 h
  have hafter : afterDigits cs = [] := List.dropWhile_eq_nil_iff.2 h
  obtain ⟨c, cs, rfl⟩ := List.exists_cons_of_ne_nil hne
  have hsign := takeSign_signChars negative (h c List.mem_cons_self) cs
  simp [Numeral.take?, hsign, takeMantissa, hlead, hafter, takeExponent]

/-- Digits with a point behind some of them. -/
theorem take?_point (negative : Bool) (hne : cs ≠ []) (h : ∀ c ∈ cs, c.isDigit = true)
    (h' : ∀ c ∈ ds, c.isDigit = true) :
    Numeral.take? (signChars negative ++ (cs ++ '.' :: ds)) =
      some (⟨negative, digitsValue (cs ++ ds), -(ds.length : ℤ)⟩, []) := by
  have hlead := leadingDigits_append_point ds h
  have hafter := afterDigits_append_point ds h
  have hlead' : leadingDigits ds = ds := List.takeWhile_eq_self_iff.2 h'
  have hafter' : afterDigits ds = [] := List.dropWhile_eq_nil_iff.2 h'
  obtain ⟨c, cs, rfl⟩ := List.exists_cons_of_ne_nil hne
  have hsign := takeSign_signChars negative (h c List.mem_cons_self) (cs ++ '.' :: ds)
  rw [List.cons_append] at hlead hafter ⊢
  simp [Numeral.take?, hsign, takeMantissa, hlead, hafter, hlead', hafter', takeExponent]

end Digits

/-- The text of a decimal: digits that are all of it, or digits on both sides of a point. -/
inductive Layout (d : Scientific) : Prop
  | whole (ne_nil : d.chars ≠ []) (isDigit : ∀ x ∈ d.chars, x.isDigit = true)
    (value : d.value = digitsValue d.chars)
  | point (whole fraction : List Char) (chars : d.chars = whole ++ '.' :: fraction)
    (ne_nil : whole ≠ []) (isDigit : ∀ x ∈ whole, x.isDigit = true)
    (fraction_isDigit : ∀ x ∈ fraction, x.isDigit = true) (length : d.exponent = -fraction.length)
    (exponent_neg : d.exponent < 0) (digits : digitsValue (whole ++ fraction) = d.coefficient)
    (whole_length : whole.length ≤ digitCount d.coefficient)

theorem layout (d : Scientific) : Layout d := by
  obtain ⟨c, k⟩ := d
  have hdigits : ∀ x ∈ natChars c, x.isDigit = true := fun _ => isDigit_of_mem_natChars
  rcases lt_or_ge k 0 with hneg | hk
  · obtain ⟨n, rfl⟩ : ∃ n : ℕ, k = -(n : ℤ) := ⟨(-k).toNat, by omega⟩
    have hn : (-(-(n : ℤ))).toNat = n := by omega
    by_cases hp : n < (natChars c).length
    · -- the point among the digits
      have hlen : ((natChars c).drop ((natChars c).length - n)).length = n := by
        rw [List.length_drop]
        omega
      have hne : (natChars c).take ((natChars c).length - n) ≠ [] := by
        rw [Ne, List.take_eq_nil_iff, not_or]
        exact ⟨by omega, natChars_ne_nil c⟩
      refine .point _ _ ?_ hne (fun x hx => hdigits x (List.mem_of_mem_take hx))
        (fun x hx => hdigits x (List.mem_of_mem_drop hx)) (by rw [hlen]) hneg ?_ ?_
      · rw [Scientific.chars, if_neg (by dsimp only; omega)]
        dsimp only
        rw [hn, if_pos hp]
      · rw [List.take_append_drop, digitsValue_natChars]
      · rw [List.length_take]
        exact Nat.min_le_right _ _
    · -- zeros between the point and the digits
      have hlen : (List.replicate (n - (natChars c).length) '0' ++ natChars c).length = n := by
        rw [List.length_append, List.length_replicate]
        omega
      refine .point ['0'] (List.replicate (n - (natChars c).length) '0' ++ natChars c) ?_
        (List.cons_ne_nil _ _) (fun x => isDigit_of_mem_replicate_zero (n := 1)) ?_
        (by rw [hlen]) hneg ?_ ?_
      · rw [Scientific.chars, if_neg (by dsimp only; omega)]
        dsimp only
        rw [hn, if_neg hp]
        rfl
      · intro x hx
        exact (List.mem_append.1 hx).elim isDigit_of_mem_replicate_zero (hdigits x)
      · have hzero : digitsValue ['0'] = 0 := rfl
        rw [digitsValue_append, digitsValue_append, digitsValue_replicate_zero,
          digitsValue_natChars, hzero, mul_zero, mul_zero, zero_add, zero_add]
      · exact Nat.length_toDigits_pos
  · -- zeros behind the digits
    obtain ⟨n, rfl⟩ := Int.eq_ofNat_of_zero_le hk
    have hchars : Scientific.chars ⟨c, n⟩ = natChars c ++ List.replicate n '0' := by
      rw [Scientific.chars, if_pos hk]
      rfl
    refine .whole ?_ ?_ ?_
    · rw [hchars]
      exact List.append_ne_nil_of_left_ne_nil (natChars_ne_nil c) _
    · rw [hchars]
      intro x hx
      exact (List.mem_append.1 hx).elim (hdigits x) isDigit_of_mem_replicate_zero
    · rw [hchars, digitsValue_append, digitsValue_natChars, digitsValue_replicate_zero]
      simp [Scientific.value, mul_comm]

/-- A numeral of the given sign and value is all of a text. -/
def Denotes (cs : List Char) (negative : Bool) (r : ℚ) : Prop :=
  ∃ n, Numeral.take? cs = some (n, []) ∧ n.negative = negative ∧ n.absValue = r

/-- The text of a decimal, with or without a minus sign, denotes its value. -/
theorem denotes_chars (negative : Bool) (d : Scientific) :
    Denotes (signChars negative ++ d.chars) negative d.value := by
  cases layout d with
  | whole hne hd hvalue =>
    refine ⟨_, take?_whole negative hne hd, rfl, ?_⟩
    rw [hvalue, Numeral.absValue, zpow_zero, mul_one]
  | point whole fraction hchars hne hd hf hlen _ hvalue _ =>
    rw [hchars]
    refine ⟨_, take?_point negative hne hd hf, rfl, ?_⟩
    rw [hvalue, ← hlen]
    rfl

theorem denotes_zero (negative : Bool) : Denotes (signChars negative ++ ['0']) negative 0 :=
  ⟨_, take?_whole negative (List.cons_ne_nil _ _) fun _ => isDigit_of_mem_replicate_zero (n := 1),
    rfl, zero_mul _⟩

/-- A text denotes one number at most. -/
theorem Denotes.unique {cs : List Char} {s t : Bool} {q r : ℚ} (h : Denotes cs s q)
    (h' : Denotes cs t r) : s = t ∧ q = r := by
  obtain ⟨n, hn, rfl, rfl⟩ := h
  obtain ⟨m, hm, rfl, rfl⟩ := h'
  rw [hn] at hm
  cases hm
  exact ⟨rfl, rfl⟩

end QuantityCalculus.Decimal
