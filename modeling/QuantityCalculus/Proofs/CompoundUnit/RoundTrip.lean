import QuantityCalculus.Proofs.CompoundUnit.CanonicalText
import QuantityCalculus.Proofs.CompoundUnit.Reachable

/-! Units are rebuilt from their texts. The canonical text of a reachable unit is read as a unit with the
same scale, powers and dimension, and hence with the same canonical text. A unit that does not go by
its canonical text was read from the text it goes by. -/

namespace QuantityCalculus.CompoundUnit

open Powers Text Decimal

variable {u v w : CompoundUnit} {s : String} {scale x : Float}

/-! ### Names -/

/-- A unit goes by its canonical text, or by a text that is read as this unit. -/
def Named (u : CompoundUnit) : Prop := u.name = u.simplified.name ∨ parse u.name = .ok u

theorem named_build (ps : Powers) (x : Float) (d : Dimension) : Named (build ps x d) := .inl rfl

theorem parseExpression_trim (cs : List Char) : parseExpression (trim cs) = parseExpression cs := by
  rw [parseExpression, trim_trim, ← parseExpression]

/-- A text is read as a unit that goes by the trimmed text. -/
theorem parse_eq (s : String) :
    parse s = (parseExpression s.toList).map fun u => { u with name := trimmed s } := by
  have hone : ((1.0 : Float) == 1.0) = true := by decide +kernel
  rw [parse, parseScaled]
  simp only [if_pos hone]
  cases parseExpression s.toList <;> rfl

theorem parse_trimmed (s : String) : parse (trimmed s) = parse s := by
  have hlist : (trimmed s).toList = trim s.toList := String.toList_ofList
  have htwice : trimmed (trimmed s) = trimmed s := by rw [trimmed, hlist, trim_trim, ← trimmed]
  rw [parse_eq, parse_eq, hlist, parseExpression_trim, htwice]

theorem named_multiply (h : u.multiply v = .ok w) : Named w := by
  obtain ⟨ps, d, -, -, rfl⟩ := multiply_eq_ok_iff.1 h
  exact named_build ps _ d

theorem named_divide (h : u.divide v = .ok w) : Named w := by
  obtain ⟨ps, d, -, -, rfl⟩ := divide_eq_ok_iff.1 h
  exact named_build ps _ d

theorem named_ofComponents {components : Powers} (h : ofComponents components scale = .ok u) :
    Named u := by
  simp only [ofComponents, bind_eq_ok_iff] at h
  obtain ⟨⟨ps, d⟩, -, h⟩ := h
  cases h
  exact named_build ps scale d

theorem named_parseScaled (h : parseScaled s scale = .ok u) : Named u := by
  simp only [parseScaled, bind_eq_ok_iff] at h
  obtain ⟨v, hv, h⟩ := h
  split_ifs at h
  · cases h
    refine .inr ?_
    show parse (trimmed s) = _
    rw [parse_trimmed, parse_eq, hv]
    rfl
  · exact named_multiply (liftExponent_eq_ok_iff.1 h)

theorem Reachable.named (h : Reachable u) : Named u := by
  induction h with
  | dimensionless => exact named_build _ _ _
  | scalar scale => exact named_build _ _ _
  | ofComponents h => exact named_ofComponents h
  | parseScaled h => exact named_parseScaled h
  | memo _ h ih => exact (memo_parse_cases h).elim (ih _ _) named_parseScaled
  | multiply _ _ h => exact named_multiply h
  | divide _ _ h => exact named_divide h
  | power _ h =>
    obtain ⟨ps, d, -, -, rfl⟩ := power_eq_ok_iff.1 h
    exact named_build ps _ d
  | reciprocal _ h => exact named_divide h
  | simplified _ => exact .inl rfl
  | toBaseUnits _ h =>
    obtain ⟨families, -, h⟩ := bind_eq_ok_iff.1 h
    exact named_ofComponents h

/-! ### Texts that rebuild a unit -/

/-- The text is read as a unit that is equal to the given one, and has the same canonical text. -/
def Rebuilds (text : String) (u : CompoundUnit) : Prop :=
  ∃ v, parse text = .ok v ∧ (v == u) = true ∧ v.dimension = u.dimension ∧
    v.simplified.name = u.simplified.name

theorem beq_of_perm (hs : v.scale = u.scale) (hx : u.scale.isFinite = true)
    (hp : v.components.Perm u.components) (hn : (names u.components).Nodup) :
    (v == u) = true := by
  show (v.scale == u.scale && v.components.length == u.components.length &&
    v.components.all fun q => u.powerOf q.1 == q.2) = true
  rw [hs, Binary64.beq_self hx, hp.length_eq]
  simp only [BEq.rfl, Bool.true_and, List.all_eq_true, beq_iff_eq]
  intro q hq
  exact powerOf_of_mem hn (hp.subset hq)

/-- The canonical text of a well-formed unit rebuilds it. -/
theorem WellFormed.rebuilds (hu : WellFormed u) (hl : ∀ q ∈ u.components, Legible |q.2.val|)
    (hf : DimensionsFit u.components) (hx : ReadableScale u.scale) :
    Rebuilds u.simplified.name u := by
  obtain ⟨g, hg, hm⟩ := parseExpression_render hu.agrees hu.nonzero hl hf hx
  have hperm := positives_append_negatives hu.nonzero
  have hz : ∀ q ∈ positives u.components ++ negatives u.components, q.2 ≠ 0 := fun q hq =>
    hu.nonzero q (hperm.subset hq)
  have hparse := parse_eq u.simplified.name
  have hlist : u.simplified.name.toList = render u.components u.scale := String.toList_ofList
  rw [hlist, hg] at hparse
  refine ⟨_, hparse, ?_, ?_, ?_⟩
  · refine beq_of_perm rfl hx.finite ?_ hu.agrees.sound.nodup
    show (dropZeros _).Perm _
    rwa [dropZeros_eq_self hz]
  · refine Dimension.ext fun b => Exponent.ext ?_
    show (g.get b).val = _
    rw [hm b, weigh_perm _ hperm, hu.agrees.dimension_val]
  · show String.ofList ((dropZeros _).render u.scale) = _
    rw [dropZeros_eq_self hz, render_append]
    rfl

/-- Reading the text a unit goes by, or its canonical text, rebuilds the unit. -/
theorem Reachable.roundTrip (h : Reachable u)
    (hdecimal : ∀ q ∈ u.components, q.2.den ≠ 1 → 1000000 % q.2.den = 0 → ReadsBack |q.2.val|)
    (hscale : u.scale = 1.0 ∨ ReadableScale u.scale) (hfit : DimensionsFit u.components) :
    Rebuilds u.name u ∧ Rebuilds u.simplified.name u := by
  have hu := h.wellFormed
  have hx : ReadableScale u.scale := hscale.elim (fun h1 => h1 ▸ readableScale_one) id
  have hlegible : ∀ q ∈ u.components, Legible |q.2.val| := by
    intro q hq
    exact legible_abs (hu.agrees.sound.representable q hq) (hdecimal q hq)
  have hcanonical := hu.rebuilds hlegible hfit hx
  refine ⟨?_, hcanonical⟩
  rcases h.named with hname | hparse
  · rwa [hname]
  · exact ⟨u, hparse, beq_of_perm rfl hx.finite (List.Perm.refl _) hu.agrees.sound.nodup, rfl, rfl⟩

/-- A whole number, a ratio, a decimal and a scale are read back. -/
theorem roundTrip_scaled : ∃ u, Reachable u ∧ u.name = "2.5 meter^(1/3) / second^0.5 / kN^2" ∧
    u.simplified.name = "2.5 * meter^(1/3) * kN^2 / second^0.5" ∧
    Rebuilds u.name u ∧ Rebuilds u.simplified.name u := by
  have hrun : ((parse "2.5 meter^(1/3) / second^0.5 / kN^2").map fun u =>
      (u.name, u.simplified.name, decide (ReadableScale u.scale),
        decide (DimensionsFit u.components), decide (∀ q ∈ u.components, q.2.den ≠ 1 →
          1000000 % q.2.den = 0 → ReadsBack |q.2.val|))).toOption =
      some ("2.5 meter^(1/3) / second^0.5 / kN^2", "2.5 * meter^(1/3) * kN^2 / second^0.5",
        true, true, true) := by
    decide +kernel
  obtain ⟨u, -, hu, hdata⟩ := exists_reachable hrun
  simp only [Prod.mk.injEq, decide_eq_true_iff] at hdata
  obtain ⟨hname, hcanonical, hscale, hfit, hdecimal⟩ := hdata
  exact ⟨u, hu, hname, hcanonical, hu.roundTrip hdecimal (.inr hscale) hfit⟩

end QuantityCalculus.CompoundUnit
