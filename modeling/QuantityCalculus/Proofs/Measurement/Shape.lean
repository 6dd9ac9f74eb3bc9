import QuantityCalculus.Measurement.Arithmetic
import QuantityCalculus.Proofs.Quantity.Combination

/-! Uncertainties in the shape of the values. Attaching an uncertainty that is a single number, or of
the shape of the values, either gives the quantity with an uncertainty in its shape or is refused
because what was attached is no uncertainty. So nothing can go wrong with shapes or units on the
second path, on which the operations of measurements compute uncertainties. -/

namespace QuantityCalculus.Measurement

open Magnitude

variable {m n : Measurement} {q p : Quantity} {t : CompoundUnit}

section Attach

variable {sigma tau v : Magnitude Float}

theorem shape_shapeLike (h : shapeLike sigma v = .ok tau) : tau.shape = v.shape := by
  cases v with
  | scalar y =>
    cases sigma with
    | scalar s =>
      cases h
      rfl
    | row ss => cases h
  | row ys =>
    have h : liftShape (sigma.broadcastLike (row ys)) = .ok tau := by
      cases sigma <;> exact h
    have h := liftShape_eq_ok_iff.1 h
    rw [shape_zipWith h]
    cases sigma with
    | scalar s => rfl
    | row ss => exact Classical.byContradiction fun hne =>
        not_clash_of_zipWith h ⟨_, _, rfl, rfl, fun he => hne (congrArg some he)⟩

theorem exists_shapeLike (h : sigma.shape = none ∨ sigma.shape = v.shape) :
    ∃ tau, shapeLike sigma v = .ok tau := by
  have hc : ¬ Clash sigma v := h.elim not_clash_of_scalar not_clash_of_shape_eq
  obtain ⟨tau, ht, -⟩ := zipWith_of_not_clash hc fun s _ => s
  unfold shapeLike
  split
  · rcases h with h | h <;> cases h
  · exact ⟨tau, liftShape_eq_ok_iff.2 ht⟩

/-- The outcome is the given quantity with an uncertainty in its shape, unless what should have
become the uncertainty is not a valid one. -/
def Attaches (r : Except Error Measurement) (q : Quantity) : Prop :=
  (∃ m, r = .ok m ∧ m.quantity = q ∧ m.uncertainty.shape = q.magnitude.shape) ∨
    ∃ e, r = .error e ∧ e.kind = .value

theorem ofQuantity_attaches (h : sigma.shape = none ∨ sigma.shape = q.magnitude.shape) :
    Attaches (ofQuantity q sigma) q := by
  obtain ⟨tau, ht⟩ := exists_shapeLike h
  cases hf : tau.toList.find? isInvalid with
  | some s =>
    have hr : ofQuantity q sigma = .error (.invalidUncertainty s) := by
      simp only [ofQuantity, ht, bind, Except.bind, hf]
    exact .inr ⟨_, hr, rfl⟩
  | none =>
    have hr : ofQuantity q sigma = .ok ⟨q, tau⟩ := by
      simp only [ofQuantity, ht, bind, Except.bind, hf, pure, Except.pure]
    exact .inl ⟨_, hr, rfl, shape_shapeLike ht⟩

/-- An uncertainty that is combined from two magnitudes. -/
theorem zipWith_attaches (f : Float → Float → Float) (hc : ¬ Clash sigma tau)
    (hs : q.magnitude.shape = commonShape sigma.shape tau.shape) :
    Attaches (liftShape (sigma.zipWith f tau) >>= ofQuantity q) q := by
  obtain ⟨r, hr, hshape⟩ := zipWith_of_not_clash hc f
  rw [liftShape_eq_ok_iff.2 hr]
  exact ofQuantity_attaches (.inr (hshape.trans hs.symm))

theorem shape_of_ofQuantity (h : ofQuantity q sigma = .ok m) :
    m.uncertainty.shape = m.magnitude.shape := by
  obtain ⟨tau, ht, h⟩ := bind_eq_ok_iff.1 h
  split at h
  · cases h
  · cases h
    exact shape_shapeLike ht

end Attach

section Paths

variable (hm : m.uncertainty.shape = m.magnitude.shape)
  (hn : n.uncertainty.shape = n.magnitude.shape)

include hm

/-- There is no need for a value in place of relative uncertainties that cannot be formed. -/
theorem zipWith_relativeTo :
    m.uncertainty.zipWith relativeTo m.magnitude = .ok m.relativeUncertainty := by
  obtain ⟨r, hr, -⟩ := zipWith_of_not_clash (not_clash_of_shape_eq hm) relativeTo
  rw [relativeUncertainty, hr]

theorem shape_relativeUncertainty : m.relativeUncertainty.shape = m.magnitude.shape := by
  rw [shape_zipWith (zipWith_relativeTo hm), hm, commonShape_self]

theorem replaceQuantity_attaches
    (h : m.magnitude.shape = none ∨ m.magnitude.shape = p.magnitude.shape) :
    Attaches (m.replaceQuantity p) p :=
  ofQuantity_attaches (hm ▸ h)

theorem inUnit_attaches (h : m.quantity.inUnit t = .ok p) : Attaches (m.inUnit t) p := by
  obtain ⟨x, hx⟩ := Quantity.exists_conversionFactor h
  obtain ⟨f, rfl⟩ := Quantity.inUnit_cases h
  have heq : m.inUnit t = ofQuantity ⟨m.quantity.magnitude.map f, t⟩
      (m.uncertainty.map (· * x.abs)) := by
    rw [inUnit, h]
    show (conversionScale m.unit t >>= _) = _
    rw [conversionScale, show m.unit.conversionFactor t = .ok x from hx]
    rfl
  rw [heq]
  refine ofQuantity_attaches (.inr ?_)
  rw [shape_map, shape_map, hm]
  rfl

/-- The relative uncertainties carry over to a quantity of the same shape. -/
theorem scaledRelative_attaches (f : Float → Float → Float)
    (h : p.magnitude.shape = m.quantity.magnitude.shape) :
    Attaches (liftShape (p.magnitude.abs.zipWith f m.relativeUncertainty) >>= ofQuantity p) p := by
  have hr : p.magnitude.abs.shape = m.relativeUncertainty.shape := by
    rw [shape_relativeUncertainty hm, shape_abs, h]
    rfl
  refine zipWith_attaches f (not_clash_of_shape_eq hr) ?_
  rw [← hr, commonShape_self, shape_abs]

include hn

/-- Uncertainties of a sum, once the second measurement is converted as well. -/
theorem sumUncertainty_attaches {s : Quantity} (hc : Quantity.Combines m.quantity n.quantity p)
    (hs : n.quantity.inUnit t = .ok s) :
    Attaches (n.inUnit t >>= fun k =>
      quadrature m.uncertainty k.uncertainty >>= ofQuantity p) p := by
  obtain ⟨k, hk, rfl, hshape⟩ | ⟨e, he, hkind⟩ := inUnit_attaches hn hs
  · obtain ⟨f, hf⟩ := Quantity.inUnit_cases hs
    have hk' : k.uncertainty.shape = n.quantity.magnitude.shape := by
      rw [hshape, hf, shape_map]
    rw [hk]
    refine zipWith_attaches hypot (mt (clash_congr hm hk').1 hc.not_clash) ?_
    rw [hc.shape, hm, hk']
    rfl
  · rw [he]
    exact .inr ⟨e, rfl, hkind⟩

theorem combineRelative_attaches (hc : Quantity.Combines m.quantity n.quantity p) :
    Attaches (m.combineRelative n p) p := by
  have hm' := shape_relativeUncertainty hm
  have hn' := shape_relativeUncertainty hn
  obtain ⟨relative, hr, hshape⟩ := zipWith_of_not_clash
    (mt (clash_congr hm' hn').1 hc.not_clash) hypot
  have hp : p.magnitude.abs.shape = relative.shape := by
    rw [hshape, hm', hn', shape_abs, hc.shape]
    rfl
  rw [combineRelative, quadrature, liftShape_eq_ok_iff.2 hr]
  refine zipWith_attaches (· * ·) (not_clash_of_shape_eq hp) ?_
  rw [← hp, commonShape_self, shape_abs]

end Paths

end QuantityCalculus.Measurement
