import QuantityCalculus.Proofs.CompoundUnit.Token
import QuantityCalculus.Proofs.CompoundUnit.WellFormed
import QuantityCalculus.Proofs.Memo.Store

/-! Units that can be built. A unit is reachable if finitely many operations lead to it: reading,
directly or through a memo, naming powers, algebra, and rewriting. Reading takes exponents only from
the checked reader, so what it builds keeps the invariant as well, and every reachable unit is
well-formed. -/

namespace QuantityCalculus

namespace CompoundUnit

open Powers

/-! ### Units that are read -/

theorem wellFormed_parseToken {cs : List Char} {u : CompoundUnit} (h : parseToken cs = .ok u) :
    WellFormed u := by
  unfold parseToken at h
  split at h
  · split_ifs at h
    cases h
    exact wellFormed_scalar _
  · split at h
    · cases h
    · rename_i name x? ha
      dsimp only at h
      split_ifs at h with hn
      · cases h
        exact wellFormed_dimensionless
      · simp only [bind_eq_ok_iff, liftExponent_eq_ok_iff] at h
        obtain ⟨unit, hu, d, hd, h⟩ := h
        cases h
        have hd := Dimension.scale_eq_ok_iff.1 hd
        obtain ⟨entry, he, -⟩ := Table.unitDimension_eq_ok_iff.1 hu
        have hx := Token.atom?_representable ha
        refine Agrees.build ⟨?_, ?_, fun b => ?_, fun b => (hd b).2 ▸ (hd b).1⟩ _
        · exact sound_cons_iff.2 ⟨List.not_mem_nil, hx, sound_nil⟩
        · intro n hmem
          rw [names_cons, names_nil, List.mem_singleton] at hmem
          exact hmem ▸ ⟨hn, entry, he⟩
        · rw [(hd b).2, weigh_cons, weigh_nil, add_zero, Table.exponentOf_eq hu, mul_comm]

section Product

variable {parse : List Char → Except Error CompoundUnit}

theorem wellFormed_foldlM_multiply (hp : ∀ cs u, parse cs = .ok u → WellFormed u)
    {pieces : List (List Char)} {u v : CompoundUnit} (hu : WellFormed u)
    (h : pieces.foldlM (fun acc piece => do
      liftExponent .badExponent (acc.multiply (← parse piece))) u = .ok v) : WellFormed v := by
  induction pieces generalizing u with
  | nil =>
    cases h
    exact hu
  | cons piece pieces ih =>
    simp only [List.foldlM_cons, bind_eq_ok_iff, liftExponent_eq_ok_iff] at h
    obtain ⟨w, ⟨t, ht, hw⟩, h⟩ := h
    exact ih (hu.multiply (hp piece t ht) hw) h

theorem wellFormed_parseProduct (hp : ∀ cs u, parse cs = .ok u → WellFormed u)
    {pieces : List (List Char)} {u : CompoundUnit} (h : parseProduct parse pieces = .ok u) :
    WellFormed u :=
  wellFormed_foldlM_multiply hp wellFormed_dimensionless h

end Product

theorem wellFormed_parseWord {cs : List Char} {u : CompoundUnit} (h : parseWord cs = .ok u) :
    WellFormed u := by
  unfold parseWord at h
  split_ifs at h
  · exact wellFormed_parseProduct (fun _ _ => wellFormed_parseToken) h
  · exact wellFormed_parseToken h

theorem wellFormed_parseOperand {cs : List Char} {u : CompoundUnit} (h : parseOperand cs = .ok u) :
    WellFormed u := by
  unfold parseOperand at h
  split_ifs at h
  · split at h
    · cases h
    · exact wellFormed_parseProduct (fun _ _ => wellFormed_parseWord) h
  · exact wellFormed_parseWord h

theorem wellFormed_parseQuotient {operands : List (List Char)} {u : CompoundUnit}
    (h : parseQuotient operands = .ok u) : WellFormed u := by
  induction operands generalizing u with
  | nil => cases h
  | cons operand operands ih =>
    cases operands with
    | nil =>
      simp only [parseQuotient] at h
      split_ifs at h
      exact wellFormed_parseOperand h
    | cons next operands =>
      simp only [parseQuotient] at h
      split_ifs at h
      simp only [bind_eq_ok_iff, liftExponent_eq_ok_iff] at h
      obtain ⟨v, hv, w, hw, h⟩ := h
      exact (wellFormed_parseOperand hv).divide (ih hw) h

theorem wellFormed_parseScaled {s : String} {scale : Float} {u : CompoundUnit}
    (h : parseScaled s scale = .ok u) : WellFormed u := by
  simp only [parseScaled, bind_eq_ok_iff] at h
  obtain ⟨v, hv, h⟩ := h
  have hv := wellFormed_parseQuotient hv
  split_ifs at h
  · cases h
    exact hv.rename _
  · exact hv.multiply (wellFormed_scalar scale) (liftExponent_eq_ok_iff.1 h)

/-! ### Reachable units -/

/-- Units that finitely many operations lead to. A memo may hold any reachable units when a text is
read through it. -/
inductive Reachable : CompoundUnit → Prop
  | dimensionless : Reachable dimensionless
  | scalar (scale : Float) : Reachable (scalar scale)
  | ofComponents {components : Powers} {scale : Float} {u : CompoundUnit} :
    ofComponents components scale = .ok u → Reachable u
  | parseScaled {s : String} {scale : Float} {u : CompoundUnit} :
    parseScaled s scale = .ok u → Reachable u
  | memo {m : Memo} {s : String} {scale : Float} {u : CompoundUnit} :
    (∀ key v, m.get? key = some v → Reachable v) → (m.parse s scale).1 = .ok u → Reachable u
  | multiply {u v w : CompoundUnit} :
    Reachable u → Reachable v → u.multiply v = .ok w → Reachable w
  | divide {u v w : CompoundUnit} : Reachable u → Reachable v → u.divide v = .ok w → Reachable w
  | power {u w : CompoundUnit} {x : Exponent} : Reachable u → u.power x = .ok w → Reachable w
  | reciprocal {u w : CompoundUnit} : Reachable u → u.reciprocal = .ok w → Reachable w
  | simplified {u : CompoundUnit} : Reachable u → Reachable u.simplified
  | toBaseUnits {u w : CompoundUnit} : Reachable u → u.toBaseUnits = .ok w → Reachable w

/-- What is stored after an insertion is the new unit or was there before. -/
theorem get?_insert {m : Memo} {key k : String} {u v : CompoundUnit}
    (h : (m.insert key u).2.get? k = some v) : k = key ∧ v = u ∨ m.get? k = some v := by
  rcases Memo.insert_cases m key u with ⟨-, -, hi⟩ | ⟨-, hi⟩ <;> rw [hi] at h
  · exact .inr h
  · rw [Memo.get?, Memo.lookup_put] at h
    split_ifs at h with hk
    · cases h
      exact .inl ⟨hk, rfl⟩
    · exact .inr h

theorem memo_parse_cases {m : Memo} {s : String} {scale : Float} {u : CompoundUnit}
    (h : (m.parse s scale).1 = .ok u) :
    m.get? (Memo.key s scale) = some u ∨ CompoundUnit.parseScaled s scale = .ok u := by
  unfold Memo.parse at h
  split at h
  · rename_i v hv
    cases h
    exact .inl hv
  · split at h
    · rename_i v hv
      cases h
      exact .inr hv
    · cases h

/-- Reading through a memo of reachable units leaves a memo of reachable units. -/
theorem reachable_of_memo_parse {m : Memo} {s key : String} {scale : Float} {v : CompoundUnit}
    (hm : ∀ key v, m.get? key = some v → Reachable v)
    (h : (m.parse s scale).2.get? key = some v) : Reachable v := by
  unfold Memo.parse at h
  split at h
  · exact hm key v h
  · split at h
    · rename_i u hu
      rcases get?_insert h with ⟨-, rfl⟩ | h
      · exact .parseScaled hu
      · exact hm key v h
    · exact hm key v h

theorem Reachable.wellFormed {u : CompoundUnit} (h : Reachable u) : WellFormed u := by
  induction h with
  | dimensionless => exact wellFormed_dimensionless
  | scalar scale => exact wellFormed_scalar scale
  | ofComponents h => exact wellFormed_ofComponents h
  | parseScaled h => exact wellFormed_parseScaled h
  | memo _ h ih => exact (memo_parse_cases h).elim (ih _ _) wellFormed_parseScaled
  | multiply _ _ h ihu ihv => exact ihu.multiply ihv h
  | divide _ _ h ihu ihv => exact ihu.divide ihv h
  | power _ h ih => exact ih.power h
  | reciprocal _ h ih => exact wellFormed_dimensionless.divide ih h
  | simplified _ ih => exact ih.simplified
  | toBaseUnits _ h _ => exact wellFormed_toBaseUnits h

/-- The invariant of units, spelled out. Exponents are in lowest terms, and the negations that are
formed when a unit is written down succeed. -/
structure Invariant (u : CompoundUnit) : Prop where
  power_ne_zero : ∀ q ∈ u.components, q.2 ≠ 0
  nodup_names : (u.components.map Prod.fst).Nodup
  known : ∀ q ∈ u.components, q.1 ≠ dimensionlessName ∧ ∃ unit, Table.lookup? q.1 = some unit
  lowestTerms : ∀ q ∈ u.components,
    0 < q.2.den ∧ q.2.num.natAbs.Coprime q.2.den ∧ q.2.num ≠ -2 ^ 63
  negatable : ∀ q ∈ u.components, ∃ y, Exponent.Asserted.neg q.2 = .ok y ∧ y.val = -q.2.val
  dimension_eq : ∀ b, (u.dimension.get b).val =
    (u.components.map fun q => q.2.val * Table.exponentOf b q.1).sum

theorem Reachable.invariant {u : CompoundUnit} (h : Reachable u) : Invariant u := by
  obtain ⟨⟨⟨hd, hr⟩, hk, hv, -⟩, hz⟩ := h.wellFormed
  exact {
    power_ne_zero := hz
    nodup_names := hd
    known := fun q hq => hk _ (List.mem_map_of_mem hq)
    lowestTerms := fun q hq =>
      ⟨q.2.den_pos, q.2.val.reduced, (representable_iff_of_fits q.2.fits).1 (hr q hq)⟩
    negatable := fun q hq => by
      obtain ⟨y, hy, hval⟩ := Exponent.exists_neg (hr q hq)
      exact ⟨y, Exponent.asserted_neg_eq_ok_iff.2 hy, hval⟩
    dimension_eq := hv }

/-- A text whose reading was computed is that of a reachable unit. -/
theorem exists_reachable {α : Type} {s : String} {f : CompoundUnit → α} {a : α}
    (h : ((parse s).map f).toOption = some a) : ∃ u, parse s = .ok u ∧ Reachable u ∧ f u = a := by
  obtain ⟨u, hu, hf⟩ := map_eq_ok_iff.1 (toOption_eq_some_iff.1 h)
  exact ⟨u, hu, .parseScaled hu, hf⟩

/-- The powers of one name come together from a product and two quotients. -/
theorem invariant_kilonewton :
    ∃ u, Reachable u ∧ u.components.map (fun q => (q.1, q.2.val)) =
      [("kN", 1), ("meter", 1 / 3), ("second", 1)] ∧ Invariant u := by
  have hrun : ((parse "kN^2 * meter^(1/3) / kN / second").map fun u =>
      u.components.map fun q => (q.1, q.2.val)).toOption =
        some [("kN", 1), ("meter", 1 / 3), ("second", 1)] := by
    decide +kernel
  obtain ⟨u, -, hu, hc⟩ := exists_reachable hrun
  exact ⟨u, hu, hc, hu.invariant⟩

end CompoundUnit

end QuantityCalculus
