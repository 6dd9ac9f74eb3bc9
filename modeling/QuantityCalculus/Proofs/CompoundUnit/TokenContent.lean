import QuantityCalculus.Proofs.CompoundUnit.Outcome
import QuantityCalculus.Proofs.CompoundUnit.TokenKinds

/-! The content of a token. A numeral has none, and a name with a power has its power and the dimension
of the atomic unit times the power. Reading a token succeeds exactly if it is a numeral of finite value
other than zero or a known name with an optional power, and its content is representable. -/

namespace QuantityCalculus.CompoundUnit

open Powers

/-- The name and the power of a token that is no numeral. -/
def namedPower? (t : List Char) : Option (String × Exponent) :=
  match Token.numeral? t, Token.atom? t with
  | none, some (name, x?) => some (String.ofList name, x?.getD 1)
  | _, _ => none

/-- A numeral with a finite value other than zero, or a known name with an optional power. -/
def IsToken (t : List Char) : Prop :=
  (∃ x, Token.numeral? t = some x ∧ x.isFinite = true ∧ (x == 0.0) = false) ∨
    ∃ name x?, Token.atom? t = some (name, x?) ∧ (String.ofList name = dimensionlessName ∨
      ∃ unit, Table.lookup (String.ofList name) = .ok unit)

/-- The power that a token gives to a name. -/
def tokenPower (t : List Char) (n : String) : ℚ :=
  match namedPower? t with
  | some (name, x) => if n = name then x.val else 0
  | none => 0

/-- The exponent that a token gives to a base quantity. -/
def tokenExponent (t : List Char) (b : BaseQuantity) : ℚ :=
  match namedPower? t with
  | some (name, x) => x.val * Table.exponentOf b name
  | none => 0

/-- The exponents that a token stands for. The name of the pure number counts for nothing. -/
def tokenContent (t : List Char) : Content
  | .inl n => if n = dimensionlessName then 0 else tokenPower t n
  | .inr b => tokenExponent t b

/-- Every token that is no numeral resolves to an atomic unit. -/
theorem IsToken.exists_lookup {t : List Char} (h : IsToken t) (hn : Token.numeral? t = none) :
    ∃ name x? unit, Token.atom? t = some (name, x?) ∧
      Table.lookup? (String.ofList name) = some unit := by
  rcases h with ⟨x, hx, -⟩ | ⟨name, x?, ha, hname | ⟨unit, hu⟩⟩
  · rw [hn] at hx
    cases hx
  · obtain ⟨unit, hu, -⟩ := lookup_dimensionless
    exact ⟨name, x?, unit, ha, hname ▸ hu⟩
  · exact ⟨name, x?, unit, ha, Table.lookup_eq_ok_iff.1 hu⟩

theorem IsToken.finite {t : List Char} (h : IsToken t) {x : Float}
    (hx : Token.numeral? t = some x) : x.isFinite = true ∧ (x == 0.0) = false := by
  rcases h with ⟨y, hy, hf⟩ | ⟨name, x?, ha, hname⟩
  · rw [hx] at hy
    cases hy
    exact hf
  · have hnone := Token.lookup?_eq_none_of_numeral? hx ha
    rcases hname with hname | ⟨unit, hu⟩
    · obtain ⟨unit, hu, -⟩ := lookup_dimensionless
      rw [hname, hu] at hnone
      cases hnone
    · rw [Table.lookup_eq_ok_iff.1 hu] at hnone
      cases hnone

theorem tokenContent_eq_zero {t : List Char} (h : namedPower? t = none) : tokenContent t = 0 := by
  funext i
  rcases i with n | b
  · simp [tokenContent, tokenPower, h]
  · simp [tokenContent, tokenExponent, h]

theorem tokenContent_dimensionless {t : List Char} {x : Exponent}
    (h : namedPower? t = some (dimensionlessName, x)) : tokenContent t = 0 := by
  funext i
  rcases i with n | b
  · by_cases hn : n = dimensionlessName
    · simp [tokenContent, hn]
    · simp [tokenContent, tokenPower, h, hn]
  · simp [tokenContent, tokenExponent, h, exponentOf_dimensionless]

/-- A name with a power makes a unit with one component. -/
theorem namedPower_yields {t : List Char} {name : String} {x : Exponent}
    (h : namedPower? t = some (name, x)) (hx : Representable x.val)
    (hn : name ≠ dimensionlessName) {d : Dimension} (hd : Table.unitDimension name = .ok d) :
    Yields (do
        let powers ← .ok [(name, x)]
        let dimension ← d.scale x
        pure (build powers 1.0 dimension))
      (tokenContent t) := by
  have hpower : ∀ n, (Powers.powerOf [(name, x)] n).val = tokenContent t (.inl n) := by
    intro n
    rw [powerOf_cons, powerOf_nil]
    by_cases he : n = name
    · subst he
      simp [tokenContent, tokenPower, h, hn]
    · by_cases hz : n = dimensionlessName
      · simp [tokenContent, hz, Ne.symm hn]
      · simp [tokenContent, tokenPower, h, he, hz]
  have hexp : (fun b => (d.get b).val * x.val) = fun b => tokenContent t (.inr b) := by
    funext b
    simp [tokenContent, tokenExponent, h, Table.exponentOf_eq hd, mul_comm]
  have hsound : Sound [(name, x)] := sound_cons_iff.2 ⟨by simp, hx, sound_nil⟩
  refine yields_build _ ?_ ?_ ?_
  · refine ⟨fun _ n => ?_, fun _ => ⟨_, rfl⟩⟩
    rw [← hpower]
    exact hsound.representable_powerOf n
  · rintro _ ⟨⟩
    exact ⟨hsound.nodup, hpower⟩
  · rw [← hexp]
    exact Dimension.scale_yields d x

section Token

variable {t name : List Char} {x? : Option Exponent}

theorem numeral_reads {x : Float} (hx : Token.numeral? t = some x) :
    Reads (parseToken t) (IsToken t ∧ ∀ i, Representable (tokenContent t i)) (tokenContent t) := by
  have hzero : tokenContent t = 0 := tokenContent_eq_zero (by simp [namedPower?, hx])
  rw [hzero]
  simp only [parseToken, hx]
  split_ifs with hbad
  · apply reads_error
    rintro ⟨ht, -⟩
    obtain ⟨hf, hz⟩ := ht.finite hx
    simp [hf, hz] at hbad
  · refine reads_ok ⟨.inl ⟨x, hx, ?_⟩, fun _ => representable_zero⟩ (wellFormed_scalar x)
      (content_scalar x)
    simpa using hbad

theorem dimensionless_reads (hx : Token.numeral? t = none)
    (ha : Token.atom? t = some (name, x?)) (hn : String.ofList name = dimensionlessName) :
    Reads (parseToken t) (IsToken t ∧ ∀ i, Representable (tokenContent t i)) (tokenContent t) := by
  have hnamed : namedPower? t = some (dimensionlessName, x?.getD 1) := by
    rw [← hn]
    simp [namedPower?, hx, ha]
  rw [tokenContent_dimensionless hnamed]
  simp only [parseToken, hx, ha, hn, if_true]
  exact reads_ok ⟨.inr ⟨name, x?, ha, .inl hn⟩, fun _ => representable_zero⟩
    wellFormed_dimensionless content_dimensionless

/-- Reading a name with a power looks the name up and puts the unit together. -/
theorem parseToken_named (hx : Token.numeral? t = none) (ha : Token.atom? t = some (name, x?))
    (hn : String.ofList name ≠ dimensionlessName) :
    parseToken t = Table.unitDimension (String.ofList name) >>= fun d =>
      liftExponent .badExponent (do
        let powers ← .ok [(String.ofList name, x?.getD 1)]
        let dimension ← d.scale (x?.getD 1)
        pure (build powers 1.0 dimension)) := by
  simp only [parseToken, hx, ha, if_neg hn]
  congr 1
  funext d
  cases d.scale (x?.getD 1) <;> rfl

theorem named_reads (hx : Token.numeral? t = none) (ha : Token.atom? t = some (name, x?))
    (hn : String.ofList name ≠ dimensionlessName) :
    Reads (parseToken t) (IsToken t ∧ ∀ i, Representable (tokenContent t i)) (tokenContent t) := by
  have hnamed : namedPower? t = some (String.ofList name, x?.getD 1) := by
    simp [namedPower?, hx, ha]
  have hwf : ∀ u, parseToken t = .ok u → WellFormed u := fun _ => wellFormed_parseToken
  rw [parseToken_named hx ha hn] at hwf ⊢
  cases hd : Table.unitDimension (String.ofList name) with
  | error e =>
    apply reads_error
    rintro ⟨ht, -⟩
    obtain ⟨_, _, unit, he, hu⟩ := ht.exists_lookup hx
    rw [ha] at he
    cases he
    rw [Table.unitDimension_eq_ok_iff.2 ⟨unit, hu, rfl⟩] at hd
    cases hd
  | ok d =>
    rw [hd] at hwf
    obtain ⟨unit, hu, -⟩ := Table.unitDimension_eq_ok_iff.1 hd
    have htoken : IsToken t := .inr ⟨name, x?, ha, .inr ⟨unit, Table.lookup_eq_ok_iff.2 hu⟩⟩
    have hy := namedPower_yields hnamed (Token.atom?_representable ha) hn hd
    refine (hy.reads (fun w hw => hwf w (liftExponent_eq_ok_iff.2 hw)) _).congr ?_ rfl
    simp [htoken]

/-- A token is read exactly if it is one and its content is representable. -/
theorem parseToken_reads (t : List Char) :
    Reads (parseToken t) (IsToken t ∧ ∀ i, Representable (tokenContent t i)) (tokenContent t) := by
  cases hx : Token.numeral? t with
  | some x => exact numeral_reads hx
  | none =>
    cases ha : Token.atom? t with
    | none =>
      simp only [parseToken, hx, ha]
      apply reads_error
      rintro ⟨ht, -⟩
      obtain ⟨_, _, _, he, -⟩ := ht.exists_lookup hx
      rw [ha] at he
      cases he
    | some atom =>
      by_cases hn : String.ofList atom.1 = dimensionlessName
      · exact dimensionless_reads hx ha hn
      · exact named_reads hx ha hn

end Token

end QuantityCalculus.CompoundUnit
