import Mathlib.Data.List.Infix
import QuantityCalculus.Proofs.CompoundUnit.QuotientText

/-! The canonical text read back. It has at most one slash. What stands in front of it is read as the
positive powers, what stands behind it as the opposites of the negative ones, so that the quotient has
the same powers again, the positive ones first. -/

namespace QuantityCalculus.CompoundUnit

open Powers Text Decimal

variable {x : Float} {ps qs : Powers}

/-- The dimensions that are formed when the canonical text is read are representable. -/
structure DimensionsFit (ps : Powers) : Prop where
  component : ∀ q ∈ ps, ∀ b, Representable (q.2.val * Table.exponentOf b q.1)
  numerator : ∀ rs, rs <+: positives ps → ∀ b, Representable (weigh (Table.exponentOf b) rs)
  denominator : ∀ rs, rs <+: negatives ps → ∀ b, Representable (weigh (Table.exponentOf b) rs)

theorem dimensionsFit_iff : DimensionsFit ps ↔ ∀ b ∈ BaseQuantity.all,
    (∀ q ∈ ps, Representable (q.2.val * Table.exponentOf b q.1)) ∧
    (∀ rs ∈ (positives ps).inits, Representable (weigh (Table.exponentOf b) rs)) ∧
    ∀ rs ∈ (negatives ps).inits, Representable (weigh (Table.exponentOf b) rs) := by
  simp only [List.mem_inits]
  constructor
  · rintro ⟨hc, hn, hd⟩ b -
    exact ⟨fun q hq => hc q hq b, fun rs hrs => hn rs hrs b, fun rs hrs => hd rs hrs b⟩
  · intro h
    have hall := fun b => h b (BaseQuantity.mem_all b)
    exact ⟨fun q hq b => (hall b).1 q hq, fun rs hrs b => (hall b).2.1 rs hrs,
      fun rs hrs b => (hall b).2.2 rs hrs⟩

instance : DecidablePred DimensionsFit := fun _ => decidable_of_iff _ dimensionsFit_iff.symm

theorem scaleFactor_cases (x : Float) :
    (x = 1.0 ∧ scaleFactor x = []) ∨ scaleFactor x = [floatChars x] := by
  unfold scaleFactor
  split_ifs with h
  · exact .inr rfl
  · refine .inl ⟨Binary64.eq_one_of_beq ?_, rfl⟩
    simpa [bne] using h

/-- The factors in front of the slash, which are a single one if there are none. -/
theorem exists_spells (ps : Powers) (x : Float) :
    (x = 1.0 ∧ positives ps = [] ∧ scaleFactor x ++ numerator ps = [] ∧
        Spells [['1']] x (positives ps)) ∨
      (scaleFactor x ++ numerator ps ≠ [] ∧
        Spells (scaleFactor x ++ numerator ps) x (positives ps)) := by
  rcases scaleFactor_cases x with ⟨rfl, h⟩ | h
  · rw [h, List.nil_append, numerator_eq]
    by_cases hp : positives ps = []
    · have hone : floatChars 1.0 = ['1'] := by decide +kernel
      refine .inl ⟨rfl, hp, by rw [hp]; rfl, ?_⟩
      rw [hp, ← hone]
      exact @Spells.scaled [] 1.0
    · exact .inr ⟨by simpa using hp, .factors hp⟩
  · rw [h, numerator_eq]
    exact .inr ⟨List.cons_ne_nil _ _, .scaled x⟩

theorem render_cases (ps : Powers) (x : Float) :
    (x = 1.0 ∧ positives ps = [] ∧ denominator ps = [] ∧ render ps x = "dimensionless".toList) ∨
      ∃ ts, Spells ts x (positives ps) ∧
        (denominator ps = [] ∧ render ps x = product ts ∨
          denominator ps ≠ [] ∧
            render ps x = product ts ++ ' ' :: '/' :: ' ' :: product (denominator ps)) := by
  unfold render
  rcases exists_spells ps x with ⟨hx, hp, hfront, hs⟩ | ⟨hne, hs⟩
  · rw [hfront]
    cases hd : denominator ps with
    | nil => exact .inl ⟨hx, hp, rfl, rfl⟩
    | cons t den =>
      refine .inr ⟨[['1']], hs, .inr ⟨List.cons_ne_nil t den, ?_⟩⟩
      rw [product_singleton]
      rfl
  · obtain ⟨t, ts, hts⟩ := List.exists_cons_of_ne_nil hne
    rw [hts] at hs ⊢
    refine .inr ⟨t :: ts, hs, ?_⟩
    cases hd : denominator ps with
    | nil => exact .inl ⟨rfl, rfl⟩
    | cons s den => exact .inr ⟨List.cons_ne_nil s den, rfl⟩

section Parts

variable {d : Dimension}

theorem readable_positives (ha : Agrees ps d) (hz : ∀ q ∈ ps, q.2 ≠ 0)
    (hl : ∀ q ∈ ps, Legible |q.2.val|) (hf : DimensionsFit ps) : Readable (positives ps) where
  nodup := ha.sound.nodup.sublist (List.filter_sublist.map _)
  nonzero q hq := hz q (mem_positives.1 hq).1
  known q hq := ha.known _ (List.mem_map_of_mem (mem_positives.1 hq).1)
  legible q hq := by
    obtain ⟨hmem, hpos⟩ := mem_positives.1 hq
    exact abs_of_pos hpos ▸ hl q hmem
  component_fits q hq := hf.component q (mem_positives.1 hq).1
  sum_fits := hf.numerator

theorem readable_opposites (ha : Agrees ps d) (hz : ∀ q ∈ ps, q.2 ≠ 0)
    (hl : ∀ q ∈ ps, Legible |q.2.val|) (hf : DimensionsFit ps) :
    Readable ((negatives ps).map opposite) := by
  have hrep : ∀ q ∈ negatives ps, Representable q.2.val := fun q hq =>
    ha.sound.representable q (mem_negatives.1 hq).1
  have hval : ∀ q ∈ negatives ps, (opposite q).2.val = -q.2.val := fun q hq =>
    (neg_opposite (hrep q hq)).1
  constructor
  · rw [names_map_opposite]
    exact ha.sound.nodup.sublist (List.filter_sublist.map _)
  · exact List.forall_mem_map.2 fun q hq => opposite_ne_zero (hrep q hq) (hz q (mem_negatives.1 hq).1)
  · rw [List.forall_mem_map]
    intro q hq
    exact ha.known q.1 (List.mem_map_of_mem (mem_negatives.1 hq).1)
  · rw [List.forall_mem_map]
    intro q hq
    obtain ⟨hmem, hneg⟩ := mem_negatives.1 hq
    rw [hval q hq, ← abs_of_neg hneg]
    exact hl q hmem
  · rw [List.forall_mem_map]
    intro q hq b
    rw [hval q hq, neg_mul]
    exact (hf.component q (mem_negatives.1 hq).1 b).neg
  · intro rs hrs b
    obtain ⟨ss, hss, rfl⟩ := List.prefix_map_iff.1 hrs
    rw [weigh_map_opposite _ fun q hq => hrep q (hss.subset hq)]
    exact (hf.denominator ss hss b).neg

theorem parseExpression_dimensionless :
    parseExpression "dimensionless".toList = .ok dimensionless := rfl

/-- The canonical text is read as the positive powers and behind them the negative ones. -/
theorem parseExpression_render (ha : Agrees ps d) (hz : ∀ q ∈ ps, q.2 ≠ 0)
    (hl : ∀ q ∈ ps, Legible |q.2.val|) (hf : DimensionsFit ps) (hx : ReadableScale x) :
    ∃ g, parseExpression (render ps x) = .ok (build (positives ps ++ negatives ps) x g) ∧
      Measures (positives ps ++ negatives ps) g := by
  have hp := readable_positives ha hz hl hf
  have hn := readable_opposites ha hz hl hf
  rcases render_cases ps x with ⟨rfl, hpos, hnil, hr⟩ | ⟨ts, hs, hr⟩
  · rw [hr, hpos, denominator_eq_nil_iff.1 hnil]
    exact ⟨.dimensionless, parseExpression_dimensionless, measures_nil⟩
  · have hfactor := hs.isFactor hx hp
    have hclosed := closed_product hfactor
    have hne := trim_product_ne_nil hfactor hs.ne_nil
    obtain ⟨e, he, hm⟩ := hs.parseOperand hx hp
    rcases hr with ⟨hnil, hr⟩ | ⟨hden, hr⟩
    · rw [hr, denominator_eq_nil_iff.1 hnil, List.append_nil, parseExpression_operand hclosed hne]
      exact ⟨e, he, hm⟩
    · have hneg : (negatives ps).map opposite ≠ [] := by
        simpa using mt denominator_eq_nil_iff.2 hden
      have ht := Spells.factors hneg
      rw [← denominator_eq ha.sound.representable] at ht
      have hfactor' := ht.isFactor readableScale_one hn
      obtain ⟨e', he', hm'⟩ := ht.parseOperand readableScale_one hn
      have hperm := positives_append_negatives hz
      have hmem : ∀ q ∈ negatives ps, q ∈ ps := fun q hq => (mem_negatives.1 hq).1
      obtain ⟨g, hg, hmg⟩ := divide_build hp.nonzero (fun q hq => hz q (hmem q hq))
        (fun q hq => ha.sound.representable q (hmem q hq))
        ((hperm.map Prod.fst).nodup_iff.2 ha.sound.nodup) hm hm'
        (hf.denominator _ (List.prefix_refl _)) fun b => by
          rw [weigh_perm _ hperm, ← ha.dimension_val]
          exact ha.dimension_representable b
      refine ⟨g, ?_, hmg⟩
      rw [hr, parseExpression_quotient hclosed (closed_product hfactor') hne
        (trim_product_ne_nil hfactor' ht.ne_nil), he, he']
      show liftExponent _ _ = _
      rw [hg]
      rfl

end Parts

end QuantityCalculus.CompoundUnit
