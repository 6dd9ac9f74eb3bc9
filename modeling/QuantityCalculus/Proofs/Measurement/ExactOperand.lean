import QuantityCalculus.Proofs.CompoundUnit.Equality
import QuantityCalculus.Proofs.Magnitude.Repeated
import QuantityCalculus.Proofs.Measurement.Propagated
import QuantityCalculus.Proofs.Measurement.Uncertainty

/-! Products and quotients with an exact operand. The operand can be given as a quantity, which scales
the uncertainty, or as a measurement without uncertainty, which combines relative uncertainties. Both
ways go through the same elements, a value with its uncertainty and the number it is scaled by, and
differ in what they make of an element. So they give the same quantity, with uncertainties that are
close unless a value is zero. -/

namespace QuantityCalculus.Measurement

open Binary64 Magnitude

variable {m n k k' : Measurement} {q p : Quantity} {a : Scaling} {es : Magnitude Element}

namespace Scaling

def quantities : Scaling → Quantity → Quantity → Except Error Quantity
  | product => Quantity.mul
  | quotient => Quantity.div

def measurements : Scaling → Measurement → Measurement → Except Error Measurement
  | product => mul
  | quotient => div

/-- The operation with a quantity, which is exact. -/
def byQuantity : Scaling → Measurement → Quantity → Except Error Measurement
  | product => mulQuantity
  | quotient => divQuantity

theorem measurements_eq (a : Scaling) (m n : Measurement) : a.measurements m n =
    a.quantities m.quantity n.quantity >>= fun p => m.combineRelative n p := by
  cases a <;> rfl

theorem byQuantity_eq (a : Scaling) (m : Measurement) (q : Quantity) : a.byQuantity m q =
    liftShape (m.uncertainty.zipWith (fun s x => a.act s x.abs) q.magnitude) >>= fun sigma =>
      a.quantities m.quantity q >>= fun p => ofQuantity p sigma := by
  cases a <;> rfl

theorem zipWith_of_quantities {q r : Quantity} (h : a.quantities q r = .ok p) :
    q.magnitude.zipWith a.act r.magnitude = .ok p.magnitude := by
  cases a <;>
    simp only [quantities, Quantity.mul, Quantity.div, bind_eq_ok_iff, liftShape_eq_ok_iff] at h <;>
    obtain ⟨u, -, v, hv, h⟩ := h <;> cases h <;> exact hv

theorem reachable_of_quantities {q r : Quantity} (hq : CompoundUnit.Reachable q.unit)
    (hr : CompoundUnit.Reachable r.unit) (h : a.quantities q r = .ok p) :
    CompoundUnit.Reachable p.unit := by
  cases a <;>
    simp only [quantities, Quantity.mul, Quantity.div, bind_eq_ok_iff, liftExponent_eq_ok_iff] at h <;>
    obtain ⟨u, hu, v, -, h⟩ := h <;> cases h
  · exact .multiply hq hr hu
  · exact .divide hq hr hu

end Scaling

/-! ### Elements -/

/-- The values of a measurement with their uncertainties and the numbers they are scaled by. -/
def elements (m : Measurement) (q : Quantity) : Except ShapeError (Magnitude Element) := do
  let readings ← m.magnitude.zipWith Prod.mk m.uncertainty
  readings.zipWith (fun r x => ⟨r.1, r.2, x⟩) q.magnitude

/-- The operands hold the parts of the elements. -/
structure Spread (m : Measurement) (q : Quantity) (es : Magnitude Element) : Prop where
  value : Repeats es Element.value m.magnitude
  uncertainty : Repeats es Element.uncertainty m.uncertainty
  factor : Repeats es Element.factor q.magnitude
  shape : es.shape = commonShape m.magnitude.shape q.magnitude.shape

section Spread

variable (hm : m.uncertainty.shape = m.magnitude.shape)

include hm

theorem spread_of_elements (h : elements m q = .ok es) : Spread m q es := by
  obtain ⟨readings, hr, hes⟩ := bind_eq_ok_iff.1 h
  obtain ⟨hvalue, huncertainty⟩ := repeats_of_zipWith (f := Prod.fst) (g := Prod.snd) (fun _ _ => rfl)
    (fun _ _ => rfl) hr
  obtain ⟨hreading, hfactor⟩ := repeats_of_zipWith (f := fun e : Element => (e.value, e.uncertainty))
    (g := Element.factor) (fun _ _ => rfl) (fun _ _ => rfl) hes
  refine ⟨hvalue.comp hreading, huncertainty.comp hreading, hfactor, ?_⟩
  rw [shape_zipWith hes, shape_zipWith hr, hm, commonShape_self]

theorem exists_elements (hc : ¬ Clash m.magnitude q.magnitude) : ∃ es, elements m q = .ok es := by
  obtain ⟨readings, hr, hshape⟩ := zipWith_of_not_clash (not_clash_of_shape_eq hm.symm)
    fun (x s : Float) => (x, s)
  rw [hm, commonShape_self] at hshape
  obtain ⟨es, hes, -⟩ := zipWith_of_not_clash (mt (clash_congr hshape rfl).1 hc)
    fun (r : Float × Float) (x : Float) => Element.mk r.1 r.2 x
  exact ⟨es, bind_eq_ok_iff.2 ⟨readings, hr, hes⟩⟩

end Spread

/-! ### The two ways -/

theorem shapeLike_of_shape_eq {sigma v : Magnitude Float} (h : sigma.shape = v.shape) :
    shapeLike sigma v = .ok sigma := by
  cases sigma with
  | scalar s =>
    cases v with
    | scalar x => rfl
    | row xs => cases h
  | row ss =>
    cases v with
    | scalar x => cases h
    | row xs =>
      have hlength : ss.length = xs.length := Option.some.inj h
      show liftShape ((row ss).zipWith (fun s _ => s) (row xs)) = .ok (row ss)
      rw [liftShape_eq_ok_iff, zipWith, if_pos hlength]
      refine congrArg (fun ss => Except.ok (row ss)) (List.ext_getElem (by simp [hlength]) ?_)
      intro i _ _
      rw [List.getElem_zipWith]

/-- A valid uncertainty in the shape of the values is attached as it is. -/
theorem ofQuantity_eq_ok {sigma : Magnitude Float} (hshape : sigma.shape = q.magnitude.shape)
    (hvalid : ∀ s ∈ sigma.toList, s.isNaN = false ∧ ¬ s < 0.0) :
    ofQuantity q sigma = .ok ⟨q, sigma⟩ := by
  have hnone : sigma.toList.find? isInvalid = none :=
    List.find?_eq_none.2 fun s hs => Bool.eq_false_iff.1 (isInvalid_eq_false_iff.2 (hvalid s hs))
  rw [ofQuantity, shapeLike_of_shape_eq hshape]
  simp only [bind, Except.bind, hnone]
  rfl

section Ways

variable (hm : m.uncertainty.shape = m.magnitude.shape) (hs : Spread m q es)
  (hp : a.quantities m.quantity q = .ok p)

include hs hp

/-- The quantity that both ways lead to, element by element. -/
theorem Spread.magnitude_eq : p.magnitude = es.map fun e => a.act e.value e.factor := by
  have hzip := hs.value.zipWith_eq_ok hs.factor hs.shape a.act
  exact Except.ok.inj ((Scaling.zipWith_of_quantities hp).symm.trans hzip)

include hm

theorem Spread.byQuantity_eq_ok
    (hvalid : ∀ e ∈ es.toList, (e.scaled a).isNaN = false ∧ ¬ e.scaled a < 0.0) :
    a.byQuantity m q = .ok ⟨p, es.map (Element.scaled a)⟩ := by
  have hzip := hs.uncertainty.zipWith_eq_ok hs.factor (by rw [hm]; exact hs.shape)
    fun s x => a.act s x.abs
  rw [Scaling.byQuantity_eq, liftShape_eq_ok_iff.2 hzip, hp]
  refine ofQuantity_eq_ok ?_ (forall_mem_toList_map.2 hvalid)
  rw [hs.magnitude_eq hp, shape_map, shape_map]

theorem Spread.measurements_eq_ok
    (hvalid : ∀ e ∈ es.toList, (e.propagated a).isNaN = false ∧ ¬ e.propagated a < 0.0) :
    a.measurements m (exact q) = .ok ⟨p, es.map (Element.propagated a)⟩ := by
  have hexact : (exact q).uncertainty.shape = (exact q).magnitude.shape := shape_map _ _
  have hrelative : Repeats es Element.relative m.relativeUncertainty := by
    obtain ⟨r, hr, h⟩ := hs.uncertainty.zipWith hs.value relativeTo
    rwa [Except.ok.inj ((zipWith_relativeTo hm).symm.trans hr)]
  have hzero : Repeats es (fun e => relativeTo 0.0 e.factor) (exact q).relativeUncertainty := by
    obtain ⟨r, hr, h⟩ := (hs.factor.map fun _ => 0.0).zipWith hs.factor relativeTo
    rwa [Except.ok.inj ((zipWith_relativeTo hexact).symm.trans hr)]
  have hquadrature := hrelative.zipWith_eq_ok hzero
    (by rw [shape_relativeUncertainty hm, shape_relativeUncertainty hexact]; exact hs.shape) hypot
  have hmagnitude : p.magnitude.abs = es.map fun e => (a.act e.value e.factor).abs := by
    rw [hs.magnitude_eq hp]
    exact map_map _ _ _
  have hroots : Repeats es (fun e => hypot e.relative (relativeTo 0.0 e.factor)) _ := .whole
  have hproduct := (Repeats.of_map_eq hmagnitude.symm).zipWith_eq_ok hroots
    (by rw [hmagnitude, shape_map, shape_map, commonShape_self]) (· * ·)
  have hrun : m.combineRelative (exact q) p = ofQuantity p (es.map (Element.propagated a)) := by
    rw [combineRelative, quadrature, liftShape_eq_ok_iff.2 hquadrature]
    show liftShape _ >>= _ = _
    rw [liftShape_eq_ok_iff.2 hproduct]
    rfl
  rw [Scaling.measurements_eq]
  show a.quantities m.quantity q >>= _ = _
  rw [hp]
  refine hrun.trans (ofQuantity_eq_ok ?_ (forall_mem_toList_map.2 hvalid))
  rw [hs.magnitude_eq hp, shape_map, shape_map]

end Ways

/-! ### The law -/

/-- What the two ways give for operands whose product or quotient is `p`. -/
structure Agree (a : Scaling) (es : Magnitude Element) (p : Quantity) (k k' : Measurement) : Prop where
  quantity : k.quantity = p ∧ k'.quantity = p
  uncertainty : k.uncertainty = es.map (Element.scaled a) ∧
    k'.uncertainty = es.map (Element.propagated a)
  isClose : ∀ e ∈ es.toList, (e.value == 0.0) = false →
    Magnitude.isClose (e.scaled a) (e.propagated a) = true ∧
      Magnitude.isClose (e.propagated a) (e.scaled a) = true
  /-- A zero has no relative uncertainty, so that none is propagated. -/
  zero : ∀ e ∈ es.toList, (e.value == 0.0) = true → e.propagated a = 0.0
  allClose_iff : k.uncertainty.allClose k'.uncertainty = true ↔
    ∀ e ∈ es.toList, (e.value == 0.0) = true → Magnitude.isClose (e.scaled a) 0.0 = true
  allClose_iff' : k'.uncertainty.allClose k.uncertainty = true ↔
    ∀ e ∈ es.toList, (e.value == 0.0) = true → Magnitude.isClose 0.0 (e.scaled a) = true

theorem agree (hrange : ∀ e ∈ es.toList, e.InRange a)
    (hsign : ∀ e ∈ es.toList, ¬ e.uncertainty < 0.0) :
    Agree a es p ⟨p, es.map (Element.scaled a)⟩ ⟨p, es.map (Element.propagated a)⟩ where
  quantity := ⟨rfl, rfl⟩
  uncertainty := ⟨rfl, rfl⟩
  isClose e he hv := (hrange e he).isClose (hsign e he) hv
  zero e he hv := (hrange e he).propagated_of_zero hv
  allClose_iff := by
    rw [allClose_map_iff]
    refine forall₂_congr fun e he => ?_
    cases hv : e.value == 0.0 with
    | true => rw [(hrange e he).propagated_of_zero hv]; simp
    | false => simp [((hrange e he).isClose (hsign e he) hv).1]
  allClose_iff' := by
    rw [allClose_map_iff]
    refine forall₂_congr fun e he => ?_
    cases hv : e.value == 0.0 with
    | true => rw [(hrange e he).propagated_of_zero hv]; simp
    | false => simp [((hrange e he).isClose (hsign e he) hv).2]

theorem exists_agree (hm : Reachable m)
    (hrange : ∀ es, elements m q = .ok es → ∀ e ∈ es.toList, e.InRange a)
    (hp : a.quantities m.quantity q = .ok p) : ∃ es k k', elements m q = .ok es ∧
      a.byQuantity m q = .ok k ∧ a.measurements m (exact q) = .ok k' ∧ Agree a es p k k' := by
  obtain ⟨es, hes⟩ := exists_elements hm.shape
    (not_clash_of_zipWith (Scaling.zipWith_of_quantities hp))
  have hrange := hrange es hes
  have hs := spread_of_elements hm.shape hes
  have hsign : ∀ e ∈ es.toList, ¬ e.uncertainty < 0.0 := fun e he =>
    hm.not_lt_zero _ (hs.uncertainty.mem e he)
  have hnumber : ∀ {x : Float}, x.isFinite = true → x.isNaN = false := fun hx =>
    (Rounds.self hx).not_isNaN
  refine ⟨es, _, _, hes, hs.byQuantity_eq_ok hm.shape hp fun e he => ?_,
    hs.measurements_eq_ok hm.shape hp fun e he => ?_, agree hrange hsign⟩
  · exact ⟨hnumber (hrange e he).scaled, a.not_act_abs_lt_zero (hsign e he) _⟩
  · exact ⟨hnumber (hrange e he).propagated, e.not_propagated_lt_zero a⟩

/-- An exact operand given as a quantity and as a measurement. The two ways fail together and otherwise
agree. -/
structure ExactOperandLaw (a : Scaling) (m : Measurement) (q : Quantity) : Prop where
  fails : ∀ e, a.quantities m.quantity q = .error e →
    (∃ e', a.byQuantity m q = .error e') ∧ a.measurements m (exact q) = .error e
  agrees : ∀ p, a.quantities m.quantity q = .ok p → ∃ es k k', elements m q = .ok es ∧
    a.byQuantity m q = .ok k ∧ a.measurements m (exact q) = .ok k' ∧ Agree a es p k k'
  /-- The units are equal as units, too, if their scale is a number. -/
  unit_beq : ∀ k k', a.byQuantity m q = .ok k → a.measurements m (exact q) = .ok k' →
    CompoundUnit.Reachable m.unit → CompoundUnit.Reachable q.unit → k.unit.scale.isNaN = false →
    (k.unit == k'.unit) = true

theorem Reachable.exactOperandLaw (hm : Reachable m)
    (hrange : ∀ es, elements m q = .ok es → ∀ e ∈ es.toList, e.InRange a) :
    ExactOperandLaw a m q where
  fails e he := by
    rw [Scaling.byQuantity_eq, Scaling.measurements_eq]
    constructor
    · rw [he]
      cases liftShape (m.uncertainty.zipWith (fun s x => a.act s x.abs) q.magnitude) with
      | error e' => exact ⟨e', rfl⟩
      | ok sigma => exact ⟨e, rfl⟩
    · show a.quantities m.quantity q >>= _ = _
      rw [he]
      rfl
  agrees p hp := exists_agree hm hrange hp
  unit_beq k k' hk hk' hu hv hscale := by
    obtain ⟨p, hp, -⟩ := bind_eq_ok_iff.1 (Scaling.measurements_eq a m _ ▸ hk')
    obtain ⟨es, l, l', -, hl, hl', hagree⟩ := exists_agree hm hrange hp
    cases Except.ok.inj (hk.symm.trans hl)
    cases Except.ok.inj (hk'.symm.trans hl')
    obtain ⟨hquantity, hquantity'⟩ := hagree.quantity
    have hreachable := Scaling.reachable_of_quantities hu hv hp
    rw [unit, hquantity] at hscale
    rw [unit, unit, hquantity, hquantity']
    exact CompoundUnit.beq_self hreachable.wellFormed.reduced (beq_self_of_not_isNaN hscale)

/-- A row of values on both sides of zero, and an exact zero among them. -/
theorem exactOperandLaw_row : ∃ (m : Measurement) (q : Quantity), Reachable m ∧
    m.magnitude = .row [2.0, -3.5, 0.0] ∧ m.uncertainty = .row [0.5, 0.25, 0.0] ∧
    q.magnitude = .row [-4.0, 1.5, 1e-3] ∧
    ∀ a, (∀ es, elements m q = .ok es → ∀ e ∈ es.toList, e.InRange a) ∧ ExactOperandLaw a m q := by
  have hrun : ((ofSource (.row [2.0, -3.5, 0.0]) (.text "kN / second^2")
      (some (.row [0.5, 0.25, 0.0])) none).map fun m => (m.magnitude, m.uncertainty)).toOption =
        some (.row [2.0, -3.5, 0.0], .row [0.5, 0.25, 0.0]) := by
    decide +kernel
  obtain ⟨m, hm, hs⟩ := map_eq_ok_iff.1 (toOption_eq_some_iff.1 hrun)
  obtain ⟨hvalue, huncertainty⟩ := Prod.mk.inj hs
  have hm := Reachable.ofSource hm
  let q : Quantity := ⟨.row [-4.0, 1.5, 1e-3], .dimensionless⟩
  have hrange : ∀ a, ∀ es, elements m q = .ok es → ∀ e ∈ es.toList, e.InRange a := by
    intro a es hes
    have helements : elements m q =
        .ok (.row [⟨2.0, 0.5, -4.0⟩, ⟨-3.5, 0.25, 1.5⟩, ⟨0.0, 0.0, 1e-3⟩]) := by
      rw [elements, hvalue, huncertainty]
      rfl
    cases Except.ok.inj (hes.symm.trans helements)
    cases a <;> decide +kernel
  exact ⟨m, q, hm, hvalue, huncertainty, rfl, fun a => ⟨hrange a, hm.exactOperandLaw (hrange a)⟩⟩

/-- An uncertain zero keeps its uncertainty on one way and loses it on the other. -/
theorem not_allClose_zero : ∃ (m k k' : Measurement) (q : Quantity), Reachable m ∧
    m.magnitude = .scalar 0.0 ∧ m.uncertainty = .scalar 0.5 ∧ q.magnitude = .scalar 2.0 ∧
    (∀ es, elements m q = .ok es → ∀ e ∈ es.toList, e.InRange .product) ∧
    m.mulQuantity q = .ok k ∧ m.mul (exact q) = .ok k' ∧
    k.uncertainty = .scalar 1.0 ∧ k'.uncertainty = .scalar 0.0 ∧
    k.uncertainty.allClose k'.uncertainty = false ∧
    k'.uncertainty.allClose k.uncertainty = false := by
  have hrun : (do
      let m ← ofSource (.scalar 0.0) (.text "m") (some (.scalar 0.5)) none
      let q ← Quantity.ofSource (.scalar 2.0) (.text "s")
      let k ← m.mulQuantity q
      let k' ← m.mul (exact q)
      pure (m.magnitude, m.uncertainty, q.magnitude, k.uncertainty, k'.uncertainty)).toOption =
        some (.scalar 0.0, .scalar 0.5, .scalar 2.0, .scalar 1.0, .scalar 0.0) := by
    decide +kernel
  simp only [toOption_eq_some_iff, bind_eq_ok_iff, pure, Except.pure, Except.ok.injEq,
    Prod.mk.injEq] at hrun
  obtain ⟨m, hm, q, -, k, hk, k', hk', hvalue, huncertainty, hq, hscaled, hpropagated⟩ := hrun
  refine ⟨m, k, k', q, .ofSource hm, hvalue, huncertainty, hq, ?_, hk, hk', hscaled, hpropagated,
    ?_, ?_⟩
  · intro es hes
    have helements : elements m q = .ok (.scalar ⟨0.0, 0.5, 2.0⟩) := by
      rw [elements, hvalue, huncertainty, hq]
      rfl
    cases Except.ok.inj (hes.symm.trans helements)
    decide +kernel
  · rw [hscaled, hpropagated]
    decide +kernel
  · rw [hscaled, hpropagated]
    decide +kernel

end QuantityCalculus.Measurement
