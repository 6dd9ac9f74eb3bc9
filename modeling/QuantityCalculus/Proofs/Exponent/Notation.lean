import Mathlib.Tactic.FieldSimp
import QuantityCalculus.Exponent.Notation
import QuantityCalculus.Proofs.Decimal.Positional
import QuantityCalculus.Proofs.Exponent.Exact
import QuantityCalculus.Proofs.Text.Blank

/-! The language of exponents. The reader takes the parts of a fraction from a text exactly if the text
expresses a number, and the parts are those of this number. So a text expresses one number at most, and
it is read exactly if this number is representable. -/

namespace QuantityCalculus.Exponent

open Decimal Text

variable {cs sign digits : List Char} {s n d : ℤ} {q r : ℚ} {x : Exponent}

/-! ### Words -/

theorem isDigits_natChars (n : ℕ) : IsDigits (natChars n) :=
  ⟨natChars_ne_nil n, fun _ => isDigit_of_mem_natChars⟩

theorem readNat?_eq_some_iff {n : ℕ} : readNat? cs = some n ↔ IsDigits cs ∧ n = digitsValue cs := by
  unfold readNat?
  split_ifs with h
  · rw [Bool.or_eq_true, List.isEmpty_iff, Bool.not_eq_true', ← Bool.not_eq_true,
      List.all_eq_true] at h
    constructor
    · rintro ⟨⟩
    · rintro ⟨hd, -⟩
      exact absurd hd.isDigit (h.resolve_left hd.ne_nil)
  · rw [Bool.or_eq_true, not_or, List.isEmpty_iff, Bool.not_eq_true', Bool.not_eq_false,
      List.all_eq_true] at h
    rw [Option.some_inj]
    exact ⟨fun hn => ⟨⟨h.1, h.2⟩, hn.symm⟩, fun hn => hn.2.symm⟩

theorem IsSign.mul_eq (h : IsSign sign s) (n : ℤ) :
    (if decide (s = -1) then -n else n) = s * n := by
  cases h <;> simp

/-- A sign in front of digits is taken. -/
theorem IsSign.takeSign_append (h : IsSign sign s) (hd : IsDigits digits) (rest : List Char) :
    takeSign (sign ++ (digits ++ rest)) = (decide (s = -1), digits ++ rest) := by
  cases h with
  | none =>
    obtain ⟨c, cs, rfl⟩ := List.exists_cons_of_ne_nil hd.ne_nil
    exact takeSign_cons (hd.isDigit c List.mem_cons_self)
  | plus => rfl
  | minus => rfl

theorem exists_isSign (cs : List Char) : ∃ sign s digits, IsSign sign s ∧ cs = sign ++ digits ∧
    takeSign cs = (decide (s = -1), digits) := by
  unfold takeSign
  split
  · exact ⟨['-'], -1, _, .minus, rfl, rfl⟩
  · exact ⟨['+'], 1, _, .plus, rfl, rfl⟩
  · exact ⟨[], 1, cs, .none, rfl, rfl⟩

theorem readInt?_eq (cs : List Char) : readInt? cs =
    (readNat? (takeSign cs).2).map fun n : ℕ => if (takeSign cs).1 then -(n : ℤ) else n := by
  unfold readInt?
  obtain ⟨negative, digits⟩ := takeSign cs
  dsimp only
  cases readNat? digits <;> rfl

theorem readInt?_eq_some_iff : readInt? cs = some n ↔
    ∃ sign s digits, IsSign sign s ∧ IsDigits digits ∧ cs = sign ++ digits ∧
      n = s * digitsValue digits := by
  constructor
  · intro h
    obtain ⟨sign, s, digits, hs, hcs, hsign⟩ := exists_isSign cs
    rw [readInt?_eq, hsign] at h
    obtain ⟨v, hv, rfl⟩ := Option.map_eq_some_iff.1 h
    obtain ⟨hd, rfl⟩ := readNat?_eq_some_iff.1 hv
    exact ⟨sign, s, digits, hs, hd, hcs, hs.mul_eq _⟩
  · rintro ⟨sign, s, digits, hs, hd, rfl, rfl⟩
    have hv := readNat?_eq_some_iff.2 ⟨hd, rfl⟩
    have hsign := hs.takeSign_append hd []
    rw [List.append_nil] at hsign
    rw [readInt?_eq, hsign, hv]
    exact congrArg some (hs.mul_eq _)

theorem readWord?_eq_some_iff : readWord? cs = some n ↔ IsWord cs n := by
  rw [readWord?, Option.filter_eq_some_iff, readInt?_eq_some_iff, decide_eq_true_iff]
  exact ⟨fun h => ⟨h.1, h.2.1, h.2.2⟩, fun h => ⟨h.1, h.2, h.3⟩⟩

/-- Words are made of digits and signs. -/
theorem IsWord.isDigit_or (h : IsWord cs n) : ∀ c ∈ cs, c.isDigit = true ∨ c = '+' ∨ c = '-' := by
  obtain ⟨sign, s, digits, hs, hd, rfl, -⟩ := h.literal
  intro c hc
  rcases List.mem_append.1 hc with hc | hc
  · cases hs with
    | none => cases hc
    | plus => exact .inr (.inl (List.mem_singleton.1 hc))
    | minus => exact .inr (.inr (List.mem_singleton.1 hc))
  · exact .inl (hd.isDigit c hc)

theorem IsWord.notMem (h : IsWord cs n) {c : Char} (hc : c.isDigit = false) (hp : c ≠ '+')
    (hm : c ≠ '-') : c ∉ cs := by
  intro hmem
  rcases h.isDigit_or c hmem with hd | hd | hd
  · rw [hc] at hd
    cases hd
  · exact hp hd
  · exact hm hd

/-! ### Decimals -/

theorem takeWhile_ne {c : Char} (h : c ∉ cs) (ds : List Char) :
    (cs ++ c :: ds).takeWhile (· != c) = cs := by
  rw [List.takeWhile_append_of_pos]
  · simp
  · intro a ha
    exact bne_iff_ne.2 fun he => h (he ▸ ha)

theorem dropWhile_ne {c : Char} (h : c ∉ cs) (ds : List Char) :
    (cs ++ c :: ds).dropWhile (· != c) = c :: ds := by
  rw [List.dropWhile_append_of_pos]
  · simp
  · intro a ha
    exact bne_iff_ne.2 fun he => h (he ▸ ha)

/-- A text is cut where a character first occurs. -/
theorem eq_append_of_dropWhile {c a : Char} {ds : List Char}
    (h : cs.dropWhile (· != c) = a :: ds) : cs = cs.takeWhile (· != c) ++ c :: ds := by
  have ha : a = c := by
    have := List.head?_dropWhile_not (· != c) cs
    rw [h] at this
    simpa using this
  conv_lhs => rw [← List.takeWhile_append_dropWhile (p := (· != c)) (l := cs), h, ha]

theorem notMem_takeWhile (c : Char) (cs : List Char) : c ∉ cs.takeWhile (· != c) := by
  intro h
  have := List.mem_takeWhile_imp h
  simp at this

theorem IsDigits.point_notMem (h : IsDigits cs) : '.' ∉ cs := by
  intro hmem
  have := h.isDigit _ hmem
  cases this

theorem decimalParts?_eq_some_iff : decimalParts? cs = some (n, d) ↔
    ∃ sign whole fraction s, IsSign sign s ∧ IsDigits whole ∧ IsDigits fraction ∧
      fraction.length ≤ 18 ∧ whole.length + fraction.length ≤ 36 ∧
      cs = sign ++ (whole ++ '.' :: fraction) ∧
      n = s * digitsValue (whole ++ fraction) ∧ d = 10 ^ fraction.length := by
  constructor
  · intro h
    obtain ⟨sign, s, digits, hs, hcs, hsign⟩ := exists_isSign cs
    unfold decimalParts? at h
    rw [hsign] at h
    dsimp only at h
    split at h
    · cases h
    · rename_i a fraction hdrop
      split at h
      · cases h
      rename_i hlen
      rw [Bool.or_eq_true, decide_eq_true_iff, decide_eq_true_iff, not_or, not_lt, not_lt] at hlen
      split at h
      · rename_i v w hv hw
        rw [hs.mul_eq, Option.some_inj, Prod.mk.injEq] at h
        rw [eq_append_of_dropWhile hdrop] at hcs
        exact ⟨sign, _, fraction, s, hs, (readNat?_eq_some_iff.1 hv).1,
          (readNat?_eq_some_iff.1 hw).1, hlen.1, hlen.2, hcs, h.1.symm, by simp [← h.2]⟩
      · cases h
  · rintro ⟨sign, whole, fraction, s, hs, hw, hf, h18, h36, rfl, rfl, rfl⟩
    have hpoint := hw.point_notMem
    have htake := takeWhile_ne hpoint fraction
    have hdrop := dropWhile_ne hpoint fraction
    have hlen : (decide (fraction.length > 18) || decide (whole.length + fraction.length > 36)) =
        false := by
      simp [h18, h36]
    unfold decimalParts?
    rw [hs.takeSign_append hw]
    dsimp only
    rw [hdrop, htake]
    dsimp only
    rw [hlen, readNat?_eq_some_iff.2 ⟨hw, rfl⟩, readNat?_eq_some_iff.2 ⟨hf, rfl⟩, hs.mul_eq]
    simp

/-- All digits over a power of ten make the whole part and the places behind the point. -/
theorem decimal_value (s : ℤ) (whole fraction : List Char) :
    (s : ℚ) * (digitsValue whole + digitsValue fraction / 10 ^ fraction.length) =
      (s * digitsValue (whole ++ fraction) : ℤ) / (10 ^ fraction.length : ℤ) := by
  rw [digitsValue_append]
  push_cast
  field_simp

/-! ### Parts -/

/-- The parts that a bare text denotes, before they are brought to lowest terms. -/
def parts? (cs : List Char) : Option (ℤ × ℤ) :=
  match cs.dropWhile (· != '/') with
  | _ :: denominator => do
    let n ← readWord? (trim (cs.takeWhile (· != '/')))
    let d ← readWord? (trim denominator)
    pure (n, d)
  | [] => if cs.contains '.' then decimalParts? cs else (readWord? cs).map (·, 1)

theorem readBare_eq (cs : List Char) : readBare cs =
    match parts? cs with
    | some (n, d) => ofParts n d
    | none => .error (.unreadable (String.ofList cs)) := by
  unfold readBare parts?
  cases cs.dropWhile (· != '/') with
  | cons c denominator =>
    dsimp only
    cases readWord? (trim (cs.takeWhile (· != '/'))) with
    | none => rfl
    | some n => cases readWord? (trim denominator) <;> rfl
  | nil =>
    dsimp only
    split_ifs
    · cases hp : decimalParts? cs with
      | none => rfl
      | some p =>
        obtain ⟨n, d⟩ := p
        obtain ⟨_, _, fraction, _, -, -, -, -, -, -, -, rfl⟩ := decimalParts?_eq_some_iff.1 hp
        exact (if_neg (by positivity)).symm
    · cases readWord? cs <;> rfl

theorem dropWhile_eq_nil {c : Char} (h : c ∉ cs) : cs.dropWhile (· != c) = [] :=
  List.dropWhile_eq_nil_iff.2 fun _ ha => bne_iff_ne.2 fun he => h (he ▸ ha)

/-- The parts of a number that a text expresses. -/
theorem Expresses.parts (h : Expresses cs q) :
    ∃ n d, parts? cs = some (n, d) ∧ d ≠ 0 ∧ q = (n : ℚ) / (d : ℚ) := by
  cases h with
  | @ratio num den n d hslash hn hd h0 =>
    refine ⟨n, d, ?_, h0, rfl⟩
    simp only [parts?, dropWhile_ne hslash, takeWhile_ne hslash,
      readWord?_eq_some_iff.2 hn, readWord?_eq_some_iff.2 hd]
    rfl
  | @decimal sign whole fraction s hs hw hf h18 h36 =>
    have hmem : ∀ c ∈ sign ++ (whole ++ '.' :: fraction),
        c.isDigit = true ∨ c = '+' ∨ c = '-' ∨ c = '.' := by
      intro c hc
      simp only [List.mem_append, List.mem_cons] at hc
      rcases hc with hc | hc | hc | hc
      · cases hs <;> simp_all
      · exact .inl (hw.isDigit c hc)
      · exact .inr (.inr (.inr hc))
      · exact .inl (hf.isDigit c hc)
    have hslash : '/' ∉ sign ++ (whole ++ '.' :: fraction) := fun h => by
      rcases hmem _ h with h | h | h | h <;> cases h
    have hpoint : (sign ++ (whole ++ '.' :: fraction)).contains '.' = true := by simp
    refine ⟨_, _, ?_, ?_, decimal_value s whole fraction⟩
    · simp only [parts?, dropWhile_eq_nil hslash, hpoint, if_true]
      exact decimalParts?_eq_some_iff.2
        ⟨sign, whole, fraction, s, hs, hw, hf, h18, h36, rfl, rfl, rfl⟩
    · positivity
  | @whole _ n hn =>
    have hslash := hn.notMem (c := '/') rfl (by decide) (by decide)
    have hpoint : cs.contains '.' = false := by
      simpa using hn.notMem (c := '.') rfl (by decide) (by decide)
    refine ⟨n, 1, ?_, one_ne_zero, by simp⟩
    simp only [parts?, dropWhile_eq_nil hslash, hpoint, readWord?_eq_some_iff.2 hn]
    rfl

/-- Parts that are taken from a text are those of a number that it expresses. -/
theorem expresses_of_parts (h : parts? cs = some (n, d)) (h0 : d ≠ 0) :
    Expresses cs ((n : ℚ) / (d : ℚ)) := by
  unfold parts? at h
  split at h
  · rename_i a den hdrop
    simp only [Option.bind_eq_bind, Option.bind_eq_some_iff, readWord?_eq_some_iff] at h
    obtain ⟨n', hn, d', hd, h⟩ := h
    cases h
    rw [eq_append_of_dropWhile hdrop]
    exact .ratio (notMem_takeWhile '/' cs) hn hd h0
  · split_ifs at h
    · obtain ⟨sign, whole, fraction, s, hs, hw, hf, h18, h36, rfl, rfl, rfl⟩ :=
        decimalParts?_eq_some_iff.1 h
      have := Expresses.decimal hs hw hf h18 h36
      rw [decimal_value] at this
      exact_mod_cast this
    · obtain ⟨n', hn, he⟩ := Option.map_eq_some_iff.1 h
      cases he
      rw [Int.cast_one, div_one]
      exact .whole (readWord?_eq_some_iff.1 hn)

/-- A text expresses one number at most. -/
theorem Expresses.unique (h : Expresses cs q) (h' : Expresses cs r) : q = r := by
  obtain ⟨n, d, hp, -, rfl⟩ := h.parts
  obtain ⟨n', d', hp', -, rfl⟩ := h'.parts
  rw [hp] at hp'
  cases hp'
  rfl

/-- A bare text is read exactly if it expresses a representable number. -/
theorem readBare_eq_ok_iff :
    readBare cs = .ok x ↔ ∃ q, Expresses cs q ∧ Representable q ∧ x.val = q := by
  rw [readBare_eq]
  constructor
  · intro h
    split at h
    · rename_i n d hp
      unfold ofParts at h
      split_ifs at h with h0
      rw [reduce_eq_ok_iff, Rat.divInt_eq_div] at h
      exact ⟨_, expresses_of_parts hp h0, h⟩
    · cases h
  · rintro ⟨q, he, hr⟩
    obtain ⟨n, d, hp, h0, rfl⟩ := he.parts
    rw [hp]
    dsimp only
    rw [ofParts, if_neg h0, reduce_eq_ok_iff, Rat.divInt_eq_div]
    exact hr

/-! ### Blanks and parentheses -/

theorem stripParens_cases (cs : List Char) :
    (∃ inner, cs = '(' :: (inner ++ [')']) ∧ stripParens cs = inner) ∨
      (∀ inner, cs ≠ '(' :: (inner ++ [')'])) ∧ stripParens cs = cs := by
  unfold stripParens
  split
  · rename_i inner
    split
    · rename_i middle hrev
      have hinner : inner = middle.reverse ++ [')'] := by
        rw [← List.reverse_reverse inner, hrev, List.reverse_cons]
      exact .inl ⟨_, by rw [hinner], rfl⟩
    · rename_i hne
      refine .inr ⟨fun middle h => hne middle.reverse ?_, rfl⟩
      rw [(List.cons.inj h).2, List.reverse_append]
      rfl
  · rename_i hne
    exact .inr ⟨fun inner h => hne _ h, rfl⟩

theorem bare_iff {t : List Char} : Bare cs t ↔ t = trim (stripParens (trim cs)) := by
  constructor
  · intro h
    rcases stripParens_cases (trim cs) with ⟨inner, hp, hs⟩ | ⟨hp, hs⟩
    · rw [hs]
      cases h with
      | inner h =>
        rw [h] at hp
        rw [(List.append_inj' (List.cons.inj hp).2 rfl).1]
      | whole h => exact absurd hp (h inner)
    · rw [hs, trim_trim]
      cases h with
      | inner h => exact absurd h (hp _)
      | whole h => rfl
  · rintro rfl
    rcases stripParens_cases (trim cs) with ⟨inner, hp, hs⟩ | ⟨hp, hs⟩
    · rw [hs]
      exact .inner hp
    · rw [hs, trim_trim]
      exact .whole hp

/-- A text is read exactly if what is bare of it expresses a representable number. -/
theorem read_eq_ok_iff :
    read cs = .ok x ↔ ∃ t q, Bare cs t ∧ Expresses t q ∧ Representable q ∧ x.val = q := by
  rw [read, readBare_eq_ok_iff]
  constructor
  · rintro ⟨q, h⟩
    exact ⟨_, q, bare_iff.2 rfl, h⟩
  · rintro ⟨t, q, ht, h⟩
    rw [bare_iff.1 ht] at h
    exact ⟨q, h⟩

end QuantityCalculus.Exponent
