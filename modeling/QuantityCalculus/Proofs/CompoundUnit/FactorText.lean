import QuantityCalculus.Proofs.CompoundUnit.PowerText
import QuantityCalculus.Proofs.CompoundUnit.TokenContent
import QuantityCalculus.Proofs.Text.Closed

/-! Factors read back. The text of a name with a power, and the text of a scale, are closed for all
separators of a unit. If the power is read back, the name with its power is read as a unit with this one
component. -/

namespace QuantityCalculus

open Text Decimal

variable {sep : Char → Bool} {cs : List Char} {x : Exponent}

/-- Separators of a unit are slashes, stars and blanks. -/
def Separator (sep : Char → Bool) : Prop :=
  ∀ c, sep c = true → c = '/' ∨ c = '*' ∨ isBlank c = true

theorem separator_isSlash : Separator CompoundUnit.isSlash :=
  fun _ h => .inl (beq_iff_eq.1 h)

theorem separator_isStar : Separator CompoundUnit.isStar :=
  fun _ h => .inr (.inl (beq_iff_eq.1 h))

theorem separator_isBlank : Separator isBlank :=
  fun _ h => .inr (.inr h)

/-- Whether a character neither separates nor nests. -/
def isInert (c : Char) : Bool :=
  !isBlank c && c != '/' && c != '*' && Token.isInner c

theorem isInert_of_isDigit {c : Char} (h : c.isDigit = true) : isInert c = true := by
  have hne : ∀ a : Char, a.isDigit = false → c ≠ a := by
    rintro a ha rfl
    rw [h] at ha
    cases ha
  simp [isInert, Token.isInner, not_isBlank_of_isDigit h, hne '/' rfl, hne '*' rfl, hne '(' rfl,
    hne ')' rfl]

/-- A text of characters that neither separate nor nest is closed. -/
theorem Separator.closed (hs : Separator sep) (h : ∀ c ∈ cs, isInert c = true) :
    Closed sep cs := by
  have hmem : ∀ c ∈ cs, ((isBlank c = false ∧ c ≠ '/') ∧ c ≠ '*') ∧ c ≠ '(' ∧ c ≠ ')' := by
    intro c hc
    simpa [isInert, Token.isInner] using h c hc
  refine closed_of_forall (fun c hc => ?_) fun c hc => (hmem c hc).2
  obtain ⟨⟨⟨hblank, hslash⟩, hstar⟩, -⟩ := hmem c hc
  by_contra hsep
  rcases hs c (by simpa using hsep) with he | he | he
  · exact hslash he
  · exact hstar he
  · rw [hblank] at he
    cases he

theorem Separator.closed_plain (hs : Separator sep)
    (h : ∀ c ∈ cs, Table.isPlainChar c = true) : Closed sep cs := by
  apply hs.closed
  intro c hc
  have := h c hc
  simp only [Table.isPlainChar, Token.isNameChar, Bool.and_eq_true] at this
  simp only [isInert, Bool.and_eq_true]
  tauto

theorem Separator.closed_caret (hs : Separator sep) : Closed sep ['^'] :=
  hs.closed (List.all_eq_true.1 rfl)

/-- A text of digits and of some further characters is closed. -/
theorem Separator.closed_digits {m : List Char} (hs : Separator sep)
    (hm : m.all isInert = true) (h : ∀ c ∈ cs, c.isDigit = true ∨ c ∈ m) :
    Closed sep cs :=
  hs.closed fun c hc => (h c hc).elim isInert_of_isDigit (List.all_eq_true.1 hm c)

theorem Separator.closed_floatChars (hs : Separator sep) (x : Float) :
    Closed sep (floatChars x) := by
  apply hs.closed_digits (m := ['-', '.', 'N', 'a', 'i', 'n', 'f']) rfl
  intro c hc
  exact (Bool.or_eq_true_iff.1 (isFloatChar_of_mem c hc)).imp_right List.contains_iff_mem.1

/-- What is read as a power is closed. -/
theorem Separator.closed_power (hs : Separator sep) (h : Token.power cs = some (x, [])) :
    Closed sep cs := by
  rcases Token.power_cases h with h | h
  · obtain ⟨inner, body, rfl, hi, hall, -⟩ := Token.parenPower_cases h
    have happ := List.takeWhile_append_dropWhile (p := isPlainBlank) (l := inner)
    have hd : inner.dropWhile isPlainBlank = body ++ [')'] := hi
    rw [← happ, hd, ← List.append_assoc, ← List.cons_append]
    apply closed_paren
    intro c hc
    rcases List.mem_append.1 hc with hc | hc
    · exact ne_paren_of_isBlank (isBlank_of_isPlainBlank (List.mem_takeWhile_imp hc))
    · simpa [Token.isInner] using hall c hc
  · obtain ⟨digits, rfl, hall, -⟩ := Token.decimalPower_cases h
    rw [List.append_nil]
    apply hs.closed_digits (m := ['-', '+', '.']) rfl
    intro c hc
    have := hall c hc
    simp only [Token.isDecimalChar, Bool.or_eq_true, beq_iff_eq] at this
    simp only [List.mem_cons, List.not_mem_nil, or_false]
    tauto

/-! ### Reading a factor -/

namespace Token

variable {name p : List Char}

theorem skipPlainBlanks_of_cons {c : Char} {cs : List Char} (h : isBlank c = false) :
    skipPlainBlanks (c :: cs) = c :: cs := by
  apply List.dropWhile_cons_of_neg
  intro hb
  rw [isBlank_of_isPlainBlank hb] at h
  cases h

/-- A power does not begin with a blank. -/
theorem skipPlainBlanks_of_power (h : power p = some (x, [])) : skipPlainBlanks p = p := by
  rcases power_cases h with h | h
  · obtain ⟨inner, _, rfl, -⟩ := parenPower_cases h
    exact skipPlainBlanks_of_cons rfl
  · obtain ⟨digits, rfl, hall, -⟩ := decimalPower_cases h
    cases digits with
    | nil => rfl
    | cons c cs =>
      apply skipPlainBlanks_of_cons
      have hc := hall c List.mem_cons_self
      simp only [isDecimalChar, Bool.or_eq_true, beq_iff_eq] at hc
      rcases hc with ((hc | rfl) | rfl) | rfl
      · exact not_isBlank_of_isDigit hc
      · rfl
      · rfl
      · rfl

theorem skipPlainBlanks_name (hname : ∀ c ∈ name, isNameChar c = true) (hne : name ≠ [])
    (rest : List Char) : skipPlainBlanks (name ++ rest) = name ++ rest := by
  obtain ⟨c, cs, rfl⟩ := List.exists_cons_of_ne_nil hne
  apply skipPlainBlanks_of_cons
  have hc := hname c List.mem_cons_self
  simp only [isNameChar, Bool.and_eq_true, Bool.not_eq_true'] at hc
  exact hc.2

theorem atom?_name (hname : ∀ c ∈ name, isNameChar c = true) (hne : name ≠ []) :
    atom? name = some (name, none) := by
  have hskip := skipPlainBlanks_name hname hne []
  rw [List.append_nil] at hskip
  have htake : name.takeWhile isNameChar = name := List.takeWhile_eq_self_iff.2 hname
  have hdrop : name.dropWhile isNameChar = [] := List.dropWhile_eq_nil_iff.2 hname
  have hmarked : markedPower [] = none := rfl
  have hnil : skipPlainBlanks [] = [] := rfl
  have hempty : name.isEmpty = false := by simpa using hne
  simp [atom?, unitName, hskip, htake, hdrop, hmarked, hnil, hempty]

/-- A name, a caret and a power make an atom. -/
theorem atom?_power (hname : ∀ c ∈ name, isNameChar c = true) (hne : name ≠ [])
    (hp : power p = some (x, [])) : atom? (name ++ '^' :: p) = some (name, some x) := by
  have hskip := skipPlainBlanks_name hname hne ('^' :: p)
  have htake : (name ++ '^' :: p).takeWhile isNameChar = name := by
    rw [List.takeWhile_append_of_pos hname]
    simp [isNameChar]
  have hdrop : (name ++ '^' :: p).dropWhile isNameChar = '^' :: p := by
    rw [List.dropWhile_append_of_pos hname]
    simp [isNameChar]
  have hmarked : markedPower ('^' :: p) = some (x, []) := by
    rw [markedPower, skipPlainBlanks_of_cons rfl]
    show power (skipPlainBlanks p) = _
    rw [skipPlainBlanks_of_power hp, hp]
  have hnil : skipPlainBlanks [] = [] := rfl
  have hempty : name.isEmpty = false := by simpa using hne
  simp [atom?, unitName, hskip, htake, hdrop, hmarked, hnil, hempty]

theorem isNameChar_of_lookup {name : String} {unit : AtomicUnit}
    (h : Table.lookup? name = some unit) : ∀ c ∈ name.toList, isNameChar c = true := by
  intro c hc
  have := Table.isPlainChar_of_lookup h c hc
  simp only [Table.isPlainChar, Bool.and_eq_true] at this
  exact this.1.1.1

theorem toList_ne_nil_of_lookup {name : String} {unit : AtomicUnit}
    (h : Table.lookup? name = some unit) : name.toList ≠ [] := by
  obtain ⟨c, cs, hc, -⟩ := Table.exists_cons_of_lookup h
  rw [hc]
  exact List.cons_ne_nil c cs

/-- A text that begins with the name of an atomic unit is no numeral. -/
theorem numeral?_eq_none {name : String} {unit : AtomicUnit}
    (h : Table.lookup? name = some unit) (rest : List Char) :
    numeral? (name.toList ++ rest) = none := by
  rw [Option.eq_none_iff_forall_ne_some]
  intro y hy
  obtain ⟨c, ds, hs, hc⟩ := startsNumber_of_numeral? hy
  obtain ⟨a, as, ha, hfirst⟩ := Table.exists_cons_of_lookup h
  rw [skipPlainBlanks_name (isNameChar_of_lookup h) (toList_ne_nil_of_lookup h), ha,
    List.cons_append, List.cons.injEq] at hs
  rw [hs.1, hc] at hfirst
  cases hfirst

end Token

namespace CompoundUnit

open Powers

/-- A dimension that is the sum of those of the names, each times its power. -/
def Measures (ps : Powers) (d : Dimension) : Prop :=
  ∀ b, (d.get b).val = weigh (Table.exponentOf b) ps

/-- A text that is closed for all separators of a unit. -/
structure IsFactor (t : List Char) : Prop where
  nonempty : t ≠ []
  closed : ∀ sep, Separator sep → Closed sep t

theorem IsFactor.trim_eq {t : List Char} (h : IsFactor t) : trim t = t := by
  have hb := h.closed isBlank separator_isBlank
  exact trim_piece hb.whole hb.nesting_eq_zero

section Factor

variable {name : String} {unit : AtomicUnit} {q : ℚ}

theorem isFactor_factorChars (h : Table.lookup? name = some unit) (hq : Legible q) :
    IsFactor (factorChars name q) := by
  have hname := Token.toList_ne_nil_of_lookup h
  have hplain := Table.isPlainChar_of_lookup h
  unfold factorChars
  split_ifs with h1
  · exact ⟨hname, fun sep hs => hs.closed_plain hplain⟩
  · obtain ⟨x, hx, -⟩ := hq.resolve_left h1
    refine ⟨by simp, fun sep hs => ?_⟩
    exact (hs.closed_plain hplain).append (hs.closed_caret.append (hs.closed_power hx))

/-- The text of a factor is the name with its power. -/
theorem atom?_factorChars (h : Table.lookup? name = some unit) (hq : Legible q) :
    ∃ x?, Token.atom? (factorChars name q) = some (name.toList, x?) ∧ (x?.getD 1).val = q := by
  have hname := Token.isNameChar_of_lookup h
  have hne := Token.toList_ne_nil_of_lookup h
  unfold factorChars
  split_ifs with h1
  · exact ⟨none, Token.atom?_name hname hne, h1.symm⟩
  · obtain ⟨x, hx, hv⟩ := hq.resolve_left h1
    exact ⟨some x, Token.atom?_power hname hne hx, hv⟩

theorem numeral?_factorChars (h : Table.lookup? name = some unit) (q : ℚ) :
    Token.numeral? (factorChars name q) = none := by
  unfold factorChars
  split_ifs
  · have := Token.numeral?_eq_none h []
    rwa [List.append_nil] at this
  · exact Token.numeral?_eq_none h _

/-- A factor is read as the unit with this one component. -/
theorem parseToken_factorChars {x : Exponent} (h : Known name) (hx : Legible x.val)
    (hd : ∀ b, Representable (x.val * Table.exponentOf b name)) :
    ∃ d, parseToken (factorChars name x.val) = .ok (build [(name, x)] 1.0 d) ∧
      Measures [(name, x)] d := by
  obtain ⟨hn, unit, hu⟩ := h
  obtain ⟨x?, ha, hv⟩ := atom?_factorChars hu hx
  have hx : x?.getD 1 = x := Exponent.ext hv
  have hname : String.ofList name.toList = name := String.ofList_toList
  have hunit := Table.unitDimension_eq_ok_iff.2 ⟨unit, hu, rfl⟩
  have hparse := parseToken_named (numeral?_factorChars hu x.val) ha (by rwa [hname])
  rw [hname, hx, hunit] at hparse
  have hscale := Dimension.scale_yields unit.family.dimension x
  simp only [← Table.exponentOf_eq hunit, mul_comm _ x.val] at hscale
  obtain ⟨d, hd⟩ := hscale.isOk_iff.2 hd
  refine ⟨d, ?_, fun b => ?_⟩
  · rw [hparse]
    show liftExponent .badExponent (unit.family.dimension.scale x >>= fun e =>
      pure (build [(name, x)] 1.0 e)) = _
    rw [hd]
    rfl
  · rw [weigh_cons, weigh_nil, add_zero, ((hscale d).1 hd b).2]

end Factor

end CompoundUnit

end QuantityCalculus
