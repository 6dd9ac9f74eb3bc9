import QuantityCalculus.Proofs.CompoundUnit.ProductText

/-! Operands read back. The texts of the factors of a product, led by the text of its scale unless this
is one, are read as the product. Its powers are readable if their texts are, and if the dimension of
every name and every sum of dimensions from the left is representable. -/

namespace QuantityCalculus.CompoundUnit

open Powers Text Decimal

/-- A finite scale other than zero that is read from its text. -/
structure ReadableScale (x : Float) : Prop where
  finite : x.isFinite = true
  ne_zero : (x == 0.0) = false
  reads : Token.numeral? (floatChars x) = some x

instance : DecidablePred ReadableScale := fun x =>
  decidable_of_iff (x.isFinite = true ∧ (x == 0.0) = false ∧ Token.numeral? (floatChars x) = some x)
    ⟨fun h => ⟨h.1, h.2.1, h.2.2⟩, fun h => ⟨h.finite, h.ne_zero, h.reads⟩⟩

theorem readableScale_one : ReadableScale 1.0 := by decide +kernel

/-- Powers whose product is read from the texts of its factors. -/
structure Readable (qs : Powers) : Prop where
  nodup : (names qs).Nodup
  nonzero : ∀ q ∈ qs, q.2 ≠ 0
  known : ∀ q ∈ qs, Known q.1
  legible : ∀ q ∈ qs, Legible q.2.val
  component_fits : ∀ q ∈ qs, ∀ b, Representable (q.2.val * Table.exponentOf b q.1)
  sum_fits : ∀ rs, rs <+: qs → ∀ b, Representable (weigh (Table.exponentOf b) rs)

/-- The text of a name with its power. -/
def factorText (q : String × Exponent) : List Char := factorChars q.1 q.2.val

/-- The texts of a scale and of powers. Only a scale of one may be left out. -/
inductive Spells : List (List Char) → Float → Powers → Prop
  | factors {qs : Powers} : qs ≠ [] → Spells (qs.map factorText) 1.0 qs
  | scaled {qs : Powers} (x : Float) : Spells (floatChars x :: qs.map factorText) x qs

variable {x : Float} {qs : Powers} {ts : List (List Char)}

theorem floatChars_ne_nil (hx : ReadableScale x) : floatChars x ≠ [] := by
  intro hnil
  have := hx.reads
  rw [hnil] at this
  cases this

theorem isFactor_floatChars (hx : ReadableScale x) : IsFactor (floatChars x) :=
  ⟨floatChars_ne_nil hx, fun _ hs => hs.closed_floatChars x⟩

theorem parseToken_floatChars (hx : ReadableScale x) :
    parseToken (floatChars x) = .ok (scalar x) := by
  unfold parseToken
  rw [hx.reads]
  simp [hx.finite, hx.ne_zero]

theorem isFactor_factorText (h : Readable qs) : ∀ t ∈ qs.map factorText, IsFactor t := by
  intro t ht
  obtain ⟨q, hq, rfl⟩ := List.mem_map.1 ht
  obtain ⟨-, unit, hu⟩ := h.known q hq
  exact isFactor_factorChars hu (h.legible q hq)

theorem Spells.isFactor (hs : Spells ts x qs) (hx : ReadableScale x) (h : Readable qs) :
    ∀ t ∈ ts, IsFactor t := by
  cases hs with
  | factors hne => exact isFactor_factorText h
  | scaled => exact List.forall_mem_cons.2 ⟨isFactor_floatChars hx, isFactor_factorText h⟩

theorem Spells.ne_nil (hs : Spells ts x qs) : ts ≠ [] := by
  cases hs with
  | factors hne => simpa using hne
  | scaled => exact List.cons_ne_nil _ _

theorem measures_nil : Measures [] .dimensionless := by
  intro b
  rw [Dimension.get_dimensionless]
  rfl

theorem Readable.parseToken (h : Readable qs) {q : String × Exponent} (hq : q ∈ qs) :
    ∃ d, CompoundUnit.parseToken (factorText q) = .ok (build [q] 1.0 d) ∧ Measures [q] d :=
  parseToken_factorChars (h.known q hq) (h.legible q hq) (h.component_fits q hq)

/-- Readable powers are multiplied to a scale one after the other. -/
theorem Readable.foldlM (h : Readable qs) (x : Float) :
    ∃ e, (qs.map factorText).foldlM (fun acc piece => do
        liftExponent Error.badExponent (acc.multiply (← CompoundUnit.parseToken piece)))
        (build [] x .dimensionless) = .ok (build qs x e) ∧ Measures qs e :=
  foldlM_factors factorText measures_nil h.nodup h.nonzero (fun _ => h.parseToken) h.sum_fits

theorem multiply_scalar (x : Float) : dimensionless.multiply (scalar x) = .ok (scalar x) := by
  have hadd : Dimension.dimensionless.add .dimensionless = .ok .dimensionless := by
    apply Dimension.add_eq_ok_iff.2
    intro b
    rw [Dimension.get_dimensionless, Exponent.zero_val, add_zero]
    exact ⟨representable_zero, rfl⟩
  refine multiply_eq_ok_iff.2 ⟨[], .dimensionless, rfl, hadd, ?_⟩
  show build [] x .dimensionless = build [] (1.0 * x) .dimensionless
  rw [Binary64.one_mul]

/-- The texts of a scale and of powers are read as their product. -/
theorem Spells.parseOperand (hs : Spells ts x qs) (hx : ReadableScale x) (h : Readable qs) :
    ∃ e, CompoundUnit.parseOperand (trim (product ts)) = .ok (build qs x e) ∧ Measures qs e := by
  have hcases := parseOperand_product (hs.isFactor hx h) hs.ne_nil
  cases hs with
  | factors hne =>
    rcases hcases with ⟨t, ht, hparse⟩ | hparse
    · obtain ⟨q, rfl, rfl⟩ := List.map_eq_singleton_iff.1 ht
      rw [hparse]
      exact h.parseToken (List.mem_singleton_self q)
    · rw [hparse]
      exact h.foldlM 1.0
  | scaled =>
    rcases hcases with ⟨t, ht, hparse⟩ | hparse
    · obtain ⟨rfl, hnil⟩ := List.cons.inj ht
      obtain rfl := List.map_eq_nil_iff.1 hnil
      rw [hparse]
      exact ⟨.dimensionless, parseToken_floatChars hx, measures_nil⟩
    · obtain ⟨e, he, hm⟩ := h.foldlM x
      refine ⟨e, ?_, hm⟩
      rw [hparse, parseProduct, List.foldlM_cons, parseToken_floatChars hx]
      show (liftExponent Error.badExponent (dimensionless.multiply (scalar x)) >>= _) = _
      rw [multiply_scalar]
      exact he

end QuantityCalculus.CompoundUnit
