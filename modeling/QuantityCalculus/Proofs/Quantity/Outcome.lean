import QuantityCalculus.Proofs.CompoundUnit.Algebra
import QuantityCalculus.Proofs.CompoundUnit.Conversion
import QuantityCalculus.Proofs.CompoundUnit.Overflow
import QuantityCalculus.Proofs.Magnitude.Shape
import QuantityCalculus.Quantity.Arithmetic
import QuantityCalculus.Quantity.Comparison

/-! How operations on quantities end. An operation that does not suit its operands fails with an error
of its own kind, one on rows of different lengths fails with an error of shape, and any other
succeeds. The first cause goes before the second. Nothing else goes wrong on the way, because the
units of quantities are well-formed, so that a conversion that is allowed succeeds. -/

namespace QuantityCalculus.Quantity

open Magnitude

/-- The three ways in which an operation ends: an error of its kind, an error of shape, or a
result. -/
structure Outcome {α : Type} (r : Except Error α) (kind : ErrorKind) (unfit clash : Prop)
    (result : α → Prop) : Prop where
  refused : unfit → ∃ e, r = .error e ∧ e.kind = kind
  mismatched : ¬ unfit → clash → ∃ e, r = .error e ∧ e.kind = .shape
  succeeds : ¬ unfit → ¬ clash → ∃ a, r = .ok a ∧ result a

section Outcomes

variable {α β γ : Type} {r : Except Error α} {kind : ErrorKind} {unfit clash : Prop}
  {result : α → Prop}

theorem outcome_of_unfit {e : Error} (h : unfit) (he : e.kind = kind) :
    Outcome (.error e) kind unfit clash result where
  refused _ := ⟨e, rfl, he⟩
  mismatched hn := absurd h hn
  succeeds hn := absurd h hn

theorem outcome_of_clash {e : Error} (hu : ¬ unfit) (hc : clash) (he : e.kind = .shape) :
    Outcome (.error e) kind unfit clash result where
  refused h := absurd h hu
  mismatched _ _ := ⟨e, rfl, he⟩
  succeeds _ h := absurd hc h

/-- Operands that suit an operation. -/
theorem Outcome.of_not_unfit (h : Outcome r kind False clash result) (hn : ¬ unfit) :
    Outcome r kind unfit clash result where
  refused hu := absurd hu hn
  mismatched _ := h.mismatched not_false
  succeeds _ := h.succeeds not_false

/-- There is a result only if nothing stood against it. -/
theorem Outcome.of_ok {a : α} (h : Outcome (.ok a) kind unfit clash result) :
    ¬ unfit ∧ ¬ clash ∧ result a := by
  have hu : ¬ unfit := fun hu => by obtain ⟨e, he, -⟩ := h.refused hu; cases he
  have hc : ¬ clash := fun hc => by obtain ⟨e, he, -⟩ := h.mismatched hu hc; cases he
  obtain ⟨b, hb, hr⟩ := h.succeeds hu hc
  cases hb
  exact ⟨hu, hc, hr⟩

theorem Outcome.mono {result' : α → Prop} (h : Outcome r kind unfit clash result)
    (hr : ∀ a, result a → result' a) : Outcome r kind unfit clash result' where
  refused := h.refused
  mismatched := h.mismatched
  succeeds hu hc := (h.succeeds hu hc).imp fun a ha => ⟨ha.1, hr a ha.2⟩

theorem Outcome.map {f : α → β} {result : β → Prop}
    (h : Outcome r kind unfit clash fun a => result (f a)) :
    Outcome (r >>= fun a => pure (f a)) kind unfit clash result where
  refused hu := by
    obtain ⟨e, rfl, he⟩ := h.refused hu
    exact ⟨e, rfl, he⟩
  mismatched hu hc := by
    obtain ⟨e, rfl, he⟩ := h.mismatched hu hc
    exact ⟨e, rfl, he⟩
  succeeds hu hc := by
    obtain ⟨a, rfl, ha⟩ := h.succeeds hu hc
    exact ⟨f a, rfl, ha⟩

/-- Combining magnitudes value by value. -/
theorem zipWith_outcome (kind : ErrorKind) (f : α → β → γ) (m : Magnitude α) (n : Magnitude β) :
    Outcome (liftShape (m.zipWith f n)) kind False (Clash m n)
      fun p => p.shape = commonShape m.shape n.shape where
  refused hf := hf.elim
  mismatched _ hc := by
    obtain ⟨e, he⟩ := zipWith_of_clash hc f
    exact ⟨.shape e, by rw [he]; rfl, rfl⟩
  succeeds _ hc := by
    obtain ⟨p, hp, hs⟩ := zipWith_of_not_clash hc f
    exact ⟨p, by rw [hp]; rfl, hs⟩

end Outcomes

section Operations

variable {q r : Quantity} {t : CompoundUnit}

theorem isCompatibleWith_iff : q.isCompatibleWith r = true ↔ q.dimension = r.dimension :=
  CompoundUnit.isCompatibleWith_iff

/-! ### Sums and comparisons -/

theorem inUnit_outcome (hq : q.unit.WellFormed) (ht : t.WellFormed) :
    Outcome (q.inUnit t) .dimension (q.dimension ≠ t.dimension) False
      fun p => p.unit = t ∧ p.magnitude.shape = q.magnitude.shape where
  refused hd := ⟨_, inUnit_of_ne hd, rfl⟩
  mismatched _ hf := hf.elim
  succeeds hd _ := by
    obtain ⟨f, hf⟩ := inUnit_of_eq hq ht (not_not.1 hd)
    exact ⟨_, hf, rfl, shape_map f q.magnitude⟩

/-- The second quantity in the unit of the first, or an error about both of them. -/
def broughtTogether (e : Error) (q r : Quantity) : Except Error Quantity :=
  if q.isCompatibleWith r then r.inUnit q.unit else .error e

/-- Combining a quantity with another one that is brought into its unit. -/
theorem broughtTogether_outcome {β : Type} (hq : q.unit.WellFormed) (hr : r.unit.WellFormed)
    (e : Error) (f : Float → Float → β) :
    Outcome (broughtTogether e q r >>= fun p => liftShape (q.magnitude.zipWith f p.magnitude))
      e.kind (q.dimension ≠ r.dimension) (Clash q.magnitude r.magnitude)
      fun m => m.shape = commonShape q.magnitude.shape r.magnitude.shape := by
  unfold broughtTogether
  by_cases hd : q.dimension = r.dimension
  · obtain ⟨h, hh⟩ := inUnit_of_eq hr hq hd.symm
    rw [if_pos (isCompatibleWith_iff.2 hd), hh]
    have hzip := zipWith_outcome e.kind f q.magnitude (r.magnitude.map h)
    rw [clash_congr rfl (shape_map h r.magnitude), shape_map] at hzip
    exact hzip.of_not_unfit (not_not_intro hd)
  · rw [if_neg (mt isCompatibleWith_iff.1 hd)]
    exact outcome_of_unfit hd rfl

/-- Operations that combine two quantities of the same dimension in the unit of the first. -/
theorem sum_outcome (hq : q.unit.WellFormed) (hr : r.unit.WellFormed) (e : Error)
    (f : Float → Float → Float) :
    Outcome (broughtTogether e q r >>= fun p =>
        liftShape (q.magnitude.zipWith f p.magnitude) >>= fun m => pure ⟨m, q.unit⟩)
      e.kind (q.dimension ≠ r.dimension) (Clash q.magnitude r.magnitude)
      fun p : Quantity => p.unit = q.unit ∧
        p.magnitude.shape = commonShape q.magnitude.shape r.magnitude.shape := by
  rw [← bind_assoc]
  exact ((broughtTogether_outcome hq hr e f).mono fun m hm => ⟨rfl, hm⟩).map

theorem add_eq (q r : Quantity) : q.add r =
    (broughtTogether (.unlike .add q.unit.name r.unit.name) q r >>= fun p =>
      liftShape (q.magnitude.zipWith (· + ·) p.magnitude) >>= fun m => pure ⟨m, q.unit⟩) := by
  unfold add requireAlike broughtTogether
  split <;> rfl

theorem sub_eq (q r : Quantity) : q.sub r =
    (broughtTogether (.unlike .subtract q.unit.name r.unit.name) q r >>= fun p =>
      liftShape (q.magnitude.zipWith (· - ·) p.magnitude) >>= fun m => pure ⟨m, q.unit⟩) := by
  unfold sub requireAlike broughtTogether
  split <;> rfl

theorem lt_outcome (hq : q.unit.WellFormed) (hr : r.unit.WellFormed) :
    Outcome (q.lt r) .comparison (q.dimension ≠ r.dimension) (Clash q.magnitude r.magnitude)
      fun _ => True := by
  have heq : q.lt r = (broughtTogether (.incomparable q.unit.name r.unit.name) q r >>= fun p =>
      liftShape (q.magnitude.zipWith (fun a b => decide (a < b)) p.magnitude)) >>= fun m =>
        pure (m.toList.all id) := by
    simp only [lt, comparable, allPairs, liftShape_map, bind_assoc]
    rfl
  rw [heq]
  exact ((broughtTogether_outcome hq hr _ _).mono fun _ _ => trivial).map

/-- Quantities that cannot be compared are not equal. -/
theorem isEqual_eq_false (h : q.dimension ≠ r.dimension ∨ Clash q.magnitude r.magnitude) :
    (q == r) = false := by
  show isEqual q r = false
  unfold isEqual
  split
  · rename_i hc
    have hclash := h.resolve_left (not_not_intro (isCompatibleWith_iff.1 hc))
    split
    · rename_i p hp
      obtain ⟨f, rfl⟩ := inUnit_cases hp
      obtain ⟨e, he⟩ := zipWith_of_clash ((clash_congr rfl (shape_map f r.magnitude)).2 hclash)
        isClose
      unfold allClose allPairs
      rw [he]
      rfl
    · rfl
  · rfl

theorem le_outcome (hq : q.unit.WellFormed) (hr : r.unit.WellFormed) :
    Outcome (q.le r) .comparison (q.dimension ≠ r.dimension) (Clash q.magnitude r.magnitude)
      fun _ => True := by
  have h := lt_outcome hq hr
  unfold le
  constructor
  · intro hd
    rw [isEqual_eq_false (.inl hd)]
    exact h.refused hd
  · intro hd hc
    rw [isEqual_eq_false (.inr hc)]
    exact h.mismatched hd hc
  · intro hd hc
    split
    · exact ⟨true, rfl, trivial⟩
    · exact h.succeeds hd hc

/-! ### Products, quotients and powers -/

/-- An operation on units was refused because an exponent is too large. -/
def Overflows (u : Except ExponentError CompoundUnit) : Prop :=
  ∃ n d, u = .error (.overflow n d)

/-- Operations on units and magnitudes apart, the units first. -/
theorem product_outcome {u : Except ExponentError CompoundUnit} (hu : FailsByOverflow u)
    (wrap : ExponentError → Error) (f : Float → Float → Float) (kind : ErrorKind)
    (hw : ∀ e, (wrap e).kind = kind) (m n : Magnitude Float) :
    Outcome (liftExponent wrap u >>= fun w =>
        liftShape (m.zipWith f n) >>= fun p => pure ⟨p, w⟩) kind (Overflows u) (Clash m n)
      fun p : Quantity => u = .ok p.unit ∧ p.magnitude.shape = commonShape m.shape n.shape := by
  cases u with
  | error e =>
    obtain ⟨n, d, rfl⟩ := hu e rfl
    exact outcome_of_unfit ⟨n, d, rfl⟩ (hw _)
  | ok w =>
    have hn : ¬ Overflows (.ok w) := by
      rintro ⟨n, d, h⟩
      cases h
    exact (((zipWith_outcome kind f m n).mono fun p hp => ⟨rfl, hp⟩).map).of_not_unfit hn

theorem power_outcome {u : Except ExponentError CompoundUnit} (hu : FailsByOverflow u)
    (wrap : ExponentError → Error) (kind : ErrorKind) (hw : ∀ e, (wrap e).kind = kind)
    (m : Magnitude Float) :
    Outcome (liftExponent wrap u >>= fun w => pure ⟨m, w⟩) kind (Overflows u) False
      fun p : Quantity => u = .ok p.unit ∧ p.magnitude = m := by
  cases u with
  | error e =>
    obtain ⟨n, d, rfl⟩ := hu e rfl
    exact outcome_of_unfit ⟨n, d, rfl⟩ (hw _)
  | ok w =>
    refine ⟨?_, fun _ hf => hf.elim, fun _ _ => ⟨_, rfl, rfl, rfl⟩⟩
    rintro ⟨n, d, h⟩
    cases h

end Operations

/-! ### The law of outcomes -/

/-- How each operation on two quantities ends, with a unit to convert to, an exponent and a plain
number. -/
structure OutcomeLaw (q r : Quantity) (t : CompoundUnit) (x : Exponent) (v : Float) : Prop where
  convert : Outcome (q.convert (.built t)) .dimension (q.dimension ≠ t.dimension) False
    fun p => p.unit = t ∧ p.magnitude.shape = q.magnitude.shape
  add : Outcome (q.add r) .operation (q.dimension ≠ r.dimension) (Clash q.magnitude r.magnitude)
    fun p => p.unit = q.unit ∧
      p.magnitude.shape = commonShape q.magnitude.shape r.magnitude.shape
  sub : Outcome (q.sub r) .operation (q.dimension ≠ r.dimension) (Clash q.magnitude r.magnitude)
    fun p => p.unit = q.unit ∧
      p.magnitude.shape = commonShape q.magnitude.shape r.magnitude.shape
  mul : Outcome (q.mul r) .operation (Overflows (q.unit.multiply r.unit))
    (Clash q.magnitude r.magnitude) fun p => q.unit.multiply r.unit = .ok p.unit ∧
      p.magnitude.shape = commonShape q.magnitude.shape r.magnitude.shape
  div : Outcome (q.div r) .operation (Overflows (q.unit.divide r.unit))
    (Clash q.magnitude r.magnitude) fun p => q.unit.divide r.unit = .ok p.unit ∧
      p.magnitude.shape = commonShape q.magnitude.shape r.magnitude.shape
  pow : Outcome (q.pow x) .value (Overflows (q.unit.power x)) False
    fun p => q.unit.power x = .ok p.unit ∧ p.magnitude.shape = q.magnitude.shape
  scalarDiv : ∃ p, scalarDiv v q = .ok p ∧ q.unit.reciprocal = .ok p.unit ∧
    p.magnitude.shape = q.magnitude.shape
  lt : Outcome (q.lt r) .comparison (q.dimension ≠ r.dimension) (Clash q.magnitude r.magnitude)
    fun _ => True
  le : Outcome (q.le r) .comparison (q.dimension ≠ r.dimension) (Clash q.magnitude r.magnitude)
    fun _ => True
  gt : Outcome (q.gt r) .comparison (q.dimension ≠ r.dimension) (Clash q.magnitude r.magnitude)
    fun _ => True
  ge : Outcome (q.ge r) .comparison (q.dimension ≠ r.dimension) (Clash q.magnitude r.magnitude)
    fun _ => True
  beq : q.dimension ≠ r.dimension ∨ Clash q.magnitude r.magnitude → (q == r) = false

theorem outcomeLaw {q r : Quantity} {t : CompoundUnit} (hq : q.unit.Reachable)
    (hr : r.unit.Reachable) (ht : t.Reachable) (x : Exponent) (v : Float) :
    OutcomeLaw q r t x v := by
  have hq := hq.wellFormed
  have hr := hr.wellFormed
  have hlt := lt_outcome hq hr
  have hle := le_outcome hq hr
  obtain ⟨w, hw, -⟩ := hq.reciprocal_isOk
  exact {
    convert := inUnit_outcome hq ht.wellFormed
    add := add_eq q r ▸ sum_outcome hq hr _ _
    sub := sub_eq q r ▸ sum_outcome hq hr _ _
    mul := product_outcome (CompoundUnit.multiply_failsByOverflow _ _) .productUnit _ .operation
      (fun _ => rfl) _ _
    div := product_outcome (CompoundUnit.divide_failsByOverflow _ _) .quotientUnit _ .operation
      (fun _ => rfl) _ _
    pow := (power_outcome (CompoundUnit.power_failsByOverflow _ _) (.powerTooLarge x) .value
      (fun _ => rfl) _).mono fun p hp => ⟨hp.1, by rw [hp.2, shape_map]⟩
    scalarDiv := ⟨⟨q.magnitude.map (v / ·), w⟩, by rw [scalarDiv, hw]; rfl, hw, shape_map _ _⟩
    lt := hlt
    le := hle
    gt := hle.map
    ge := hlt.map
    beq := isEqual_eq_false }

/-- Rows of different lengths, in units of one dimension. -/
theorem outcomeLaw_rows :
    ∃ u v t : CompoundUnit, u.Reachable ∧ v.Reachable ∧ t.Reachable ∧ u.dimension = v.dimension ∧
      u.dimension ≠ t.dimension ∧
      OutcomeLaw ⟨.row [1.5], u⟩ ⟨.row [2.5, 3.5], v⟩ t .half 2.0 := by
  have hrun : ((CompoundUnit.parse "meter").map (·.dimension)).toOption =
      some (.of .length) := by
    decide +kernel
  obtain ⟨u, -, hu, hl⟩ := CompoundUnit.exists_reachable hrun
  have hrun : ((CompoundUnit.parse "newton * foot / kN").map (·.dimension)).toOption =
      some (.of .length) := by
    decide +kernel
  obtain ⟨v, -, hv, hm⟩ := CompoundUnit.exists_reachable hrun
  have hrun : ((CompoundUnit.parse "degC").map (·.dimension)).toOption =
      some (.of .temperature) := by
    decide +kernel
  obtain ⟨t, -, ht, hk⟩ := CompoundUnit.exists_reachable hrun
  refine ⟨u, v, t, hu, hv, ht, hl.trans hm.symm, ?_, outcomeLaw hu hv ht .half 2.0⟩
  rw [hl, hk]
  decide

end QuantityCalculus.Quantity
