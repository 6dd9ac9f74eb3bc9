import QuantityCalculus.Exponent.WideText
import QuantityCalculus.Proofs.Exponent.Notation
import QuantityCalculus.Proofs.Exponent.Wide

/-! Wide words suffice to read an exponent. At most thirty-six digits are gathered, so the number that
they denote stays below `10 ^ 36` on the way, and the power of ten under them is `10 ^ 18` at most.
Reading in words always has an outcome, and it is that of reading exactly. So machine words read the
language of exponents, and they read it exactly. -/

namespace QuantityCalculus

namespace Wide

open Decimal Text
open Exponent (fraction stripParens readWord? decimalParts? IsDigits)

variable {cs : List Char} {n d : ℤ}

/-! ### Digits -/

theorem pushDigit_eq {n : ℕ} {c : Char} (hn : n < 10 ^ 36) (hc : c.isDigit = true) :
    pushDigit n c = some ((10 * n + (c.toNat - '0'.toNat) : ℕ) : ℤ) := by
  have hd := digit_lt hc
  rw [pushDigit, word?_bind (by omega), word?_eq_some (holds_of_natAbs_lt (by omega))]
  push_cast
  rfl

theorem digitsValue?_concat (cs : List Char) (c : Char) :
    digitsValue? (cs ++ [c]) = digitsValue? cs >>= fun n => pushDigit n c := by
  unfold digitsValue?
  generalize pushDigit = f
  rw [List.foldlM_append]
  simp only [List.foldlM_cons, List.foldlM_nil, bind_pure]

theorem digitsValue?_eq (hd : ∀ c ∈ cs, c.isDigit = true) (hlen : cs.length ≤ 36) :
    digitsValue? cs = some (digitsValue cs : ℤ) := by
  induction cs using List.reverseRecOn with
  | nil => rfl
  | append_singleton cs c ih =>
    rw [List.length_append, List.length_singleton] at hlen
    have hcs : ∀ a ∈ cs, a.isDigit = true := fun a ha => hd a (List.mem_append_left _ ha)
    have hlt : digitsValue cs < 10 ^ 36 :=
      (digitsValue_lt hcs).trans_le (pow_le_pow_right₀ (by decide) (by omega))
    rw [digitsValue?_concat, ih hcs (by omega), digitsValue_concat, Option.bind_eq_bind,
      Option.bind_some, pushDigit_eq hlt (hd c List.mem_concat_self)]

/-! ### Fractions -/

theorem ofParts_eq (hn : n.natAbs < 2 ^ 127) (hd : d.natAbs < 2 ^ 127) :
    ofParts n d = some ((Exponent.ofParts n d).map fraction) := by
  unfold ofParts Exponent.ofParts
  split_ifs with h0
  · rfl
  · exact reduce_eq hn hd h0

theorem natAbs_lt_of_readWord? (h : readWord? cs = some n) : n.natAbs < 2 ^ 127 := by
  obtain ⟨-, hl, hu⟩ := Exponent.readWord?_eq_some_iff.1 h
  omega

theorem digitsValue?_append {whole fraction : List Char} (hw : IsDigits whole)
    (hf : IsDigits fraction) (h36 : whole.length + fraction.length ≤ 36) :
    digitsValue? (whole ++ fraction) = some (digitsValue (whole ++ fraction) : ℤ) ∧
      digitsValue (whole ++ fraction) < 10 ^ 36 := by
  have hlen : (whole ++ fraction).length ≤ 36 := by rwa [List.length_append]
  have hd : ∀ c ∈ whole ++ fraction, c.isDigit = true := fun c hc =>
    (List.mem_append.1 hc).elim (hw.isDigit c) (hf.isDigit c)
  exact ⟨digitsValue?_eq hd hlen,
    (digitsValue_lt hd).trans_le (pow_le_pow_right₀ (by decide) hlen)⟩

/-- A number of thirty-six digits over a power of ten is brought to lowest terms. -/
theorem reduce_decimal (negative : Bool) {v k : ℕ} (hv : v < 10 ^ 36) (hk : k ≤ 18) :
    ((word? (Nat.pow 10 k)).bind fun d =>
      (word? ((if negative then -1 else 1) * v)).bind fun n => reduce n d) =
    some ((Exponent.reduce (if negative then -(v : ℤ) else v) (Nat.pow 10 k)).map fraction) := by
  have hpow : Nat.pow 10 k ≤ 10 ^ 18 := Nat.pow_le_pow_right (by decide) hk
  have hpos : 0 < Nat.pow 10 k := Nat.pow_pos (by decide)
  have hsign : (if negative then -1 else 1) * (v : ℤ) = if negative then -(v : ℤ) else v := by
    cases negative <;> simp
  have habs : (if negative then -(v : ℤ) else v).natAbs = v := by cases negative <;> simp
  generalize Nat.pow 10 k = d at *
  rw [hsign, word?_eq_some (holds_of_natAbs_lt (by omega)),
    word?_eq_some (holds_of_natAbs_lt (by omega)), Option.bind_some, Option.bind_some,
    reduce_eq (by omega) (by omega) (by omega)]

theorem readDecimal_eq (cs : List Char) : readDecimal cs =
    match decimalParts? cs with
    | some (n, d) => some ((Exponent.reduce n d).map fraction)
    | none => some (.error (.unreadable (String.ofList cs))) := by
  unfold readDecimal decimalParts?
  obtain ⟨negative, digits⟩ := takeSign cs
  dsimp only
  cases digits.dropWhile (· != '.') with
  | nil => rfl
  | cons point fraction =>
    dsimp only
    cases hw : readNat? (digits.takeWhile (· != '.')) with
    | none => simp
    | some w =>
      cases hf : readNat? fraction with
      | none => simp
      | some f =>
        simp only [Option.isNone_some, Bool.or_self, Bool.false_eq_true, if_false]
        by_cases hlen : (decide (fraction.length > 18) ||
            decide ((digits.takeWhile (· != '.')).length + fraction.length > 36)) = true
        · rw [if_pos hlen, if_pos hlen]
        · rw [if_neg hlen, if_neg hlen]
          rw [Bool.or_eq_true, decide_eq_true_iff, decide_eq_true_iff, not_or, not_lt, not_lt] at hlen
          obtain ⟨hdigits, hlt⟩ := digitsValue?_append (Exponent.readNat?_eq_some_iff.1 hw).1
            (Exponent.readNat?_eq_some_iff.1 hf).1 hlen.2
          rw [hdigits, Option.bind_eq_bind, Option.bind_some, reduce_decimal negative hlt hlen.1]

theorem readBare_eq (cs : List Char) :
    readBare cs = some ((Exponent.readBare cs).map fraction) := by
  unfold readBare Exponent.readBare
  cases cs.dropWhile (· != '/') with
  | cons slash denominator =>
    dsimp only
    cases hn : readWord? (trim (cs.takeWhile (· != '/'))) with
    | none => rfl
    | some n =>
      cases hd : readWord? (trim denominator) with
      | none => rfl
      | some d => exact ofParts_eq (natAbs_lt_of_readWord? hn) (natAbs_lt_of_readWord? hd)
  | nil =>
    dsimp only
    split_ifs
    · rw [readDecimal_eq]
      cases decimalParts? cs <;> rfl
    · cases hn : readWord? cs with
      | none => rfl
      | some n => exact ofParts_eq (natAbs_lt_of_readWord? hn) (by decide)

/-- Reading in words has an outcome, and it is the exact one. -/
theorem read_eq (cs : List Char) : read cs = some ((Exponent.read cs).map fraction) :=
  readBare_eq _

end Wide

namespace Exponent

/-- What is known of reading an exponent. -/
structure ReadingLaw (s : String) : Prop where
  language : ∀ x, ofString s = .ok x ↔ ∃ t q, Bare s.toList t ∧ Expresses t q ∧
    Representable q ∧ x.num = q.num ∧ x.den = q.den
  words : Wide.read s.toList = some ((ofString s).map fraction)

/-- Exactly the texts of representable numbers are read, each as its number in lowest terms, and wide
words hold every number on the way. -/
theorem readingLaw (s : String) : ReadingLaw s where
  language x := by
    rw [ofString, read_eq_ok_iff]
    have hparts : ∀ q, x.val = q ↔ x.num = q.num ∧ x.den = q.den := fun q =>
      ⟨fun h => ⟨congrArg Rat.num h, congrArg Rat.den h⟩, fun h => Rat.ext h.1 h.2⟩
    simp only [hparts]
  words := Wide.read_eq s.toList

example : (ofString " ( -0.50) ").toOption.map val = some (-1 / 2) := by decide +kernel

end Exponent

end QuantityCalculus
