import QuantityCalculus.Proofs.CompoundUnit.Reachable
import QuantityCalculus.Proofs.Measurement.Shape

/-! Measurements refine quantities. Every operation on measurements has a counterpart on the quantities
they are made of. It fails if its counterpart does; otherwise it gives the same quantity, or is
refused because a propagated uncertainty is not a valid one. Along the way the uncertainty keeps the
shape of the values, which is what the operations rest on. -/

namespace QuantityCalculus.Measurement

open Magnitude

/-! ### Operations and their counterparts -/

/-- The operations on a measurement, with their further operands. -/
inductive Operation
  | convert (target : UnitSource)
  | add (n : Measurement)
  | sub (n : Measurement)
  | mul (n : Measurement)
  | div (n : Measurement)
  | addQuantity (q : Quantity)
  | subQuantity (q : Quantity)
  | mulQuantity (q : Quantity)
  | divQuantity (q : Quantity)
  | addScalar (x : Float)
  | subScalar (x : Float)
  | scalarSub (x : Float)
  | mulScalar (x : Float)
  | divScalar (x : Float)
  | scalarDiv (x : Float)
  | pow (x : Exponent)
  | powFloat (x : Float)
  | sqrt
  | neg
  | abs

namespace Operation

/-- The second measurement of an operation on two of them. -/
def operand? : Operation → Option Measurement
  | add n | sub n | mul n | div n => some n
  | _ => none

def apply : Operation → Measurement → Except Error Measurement
  | convert target, m => m.convert target
  | add n, m => m.add n
  | sub n, m => m.sub n
  | mul n, m => m.mul n
  | div n, m => m.div n
  | addQuantity q, m => m.addQuantity q
  | subQuantity q, m => m.subQuantity q
  | mulQuantity q, m => m.mulQuantity q
  | divQuantity q, m => m.divQuantity q
  | addScalar x, m => m.addScalar x
  | subScalar x, m => m.subScalar x
  | scalarSub x, m => Measurement.scalarSub x m
  | mulScalar x, m => .ok (m.mulScalar x)
  | divScalar x, m => .ok (m.divScalar x)
  | scalarDiv x, m => Measurement.scalarDiv x m
  | pow x, m => m.pow x
  | powFloat x, m => m.powFloat x
  | sqrt, m => m.sqrt
  | neg, m => .ok m.neg
  | abs, m => .ok m.abs

/-- The operation on quantities that corresponds to one on measurements. -/
def counterpart : Operation → Quantity → Except Error Quantity
  | convert target, q => q.convert target
  | add n, q => q.add n.quantity
  | sub n, q => q.sub n.quantity
  | mul n, q => q.mul n.quantity
  | div n, q => q.div n.quantity
  | addQuantity r, q => q.add r
  | subQuantity r, q => q.sub r
  | mulQuantity r, q => q.mul r
  | divQuantity r, q => q.div r
  | addScalar x, q => q.addScalar x
  | subScalar x, q => q.subScalar x
  | scalarSub x, q => Quantity.scalarSub x q
  | mulScalar x, q => .ok (q.mulScalar x)
  | divScalar x, q => .ok (q.divScalar x)
  | scalarDiv x, q => Quantity.scalarDiv x q
  | pow x, q => q.pow x
  | powFloat x, q => q.powFloat x
  | sqrt, q => q.sqrt
  | neg, q => .ok q.neg
  | abs, q => .ok q.abs

end Operation

/-- Measurements that finitely many operations lead to, with any quantities and units as operands. -/
inductive Reachable : Measurement → Prop
  | ofSource {magnitude : Magnitude Float} {source : UnitSource}
    {uncertainty : Option (Magnitude Float)} {relative : Option Float} {m : Measurement} :
    ofSource magnitude source uncertainty relative = .ok m → Reachable m
  | ofQuantity {q : Quantity} {uncertainty : Magnitude Float} {m : Measurement} :
    ofQuantity q uncertainty = .ok m → Reachable m
  | exact (q : Quantity) : Reachable (exact q)
  | step {m k : Measurement} {op : Operation} : Reachable m →
    (∀ n, op.operand? = some n → Reachable n) → op.apply m = .ok k → Reachable k

/-! ### Refinement -/

/-- An operation fails if its counterpart does, and otherwise attaches an uncertainty to the result of
its counterpart. -/
def Refines (r : Except Error Measurement) : Except Error Quantity → Prop
  | .error _ => ∃ e, r = .error e
  | .ok q => Attaches r q

theorem Refines.shape {k : Measurement} {s : Except Error Quantity} (h : Refines (.ok k) s) :
    k.uncertainty.shape = k.magnitude.shape := by
  cases s with
  | error e =>
    obtain ⟨e', he⟩ := h
    cases he
  | ok q =>
    obtain ⟨m, hm, rfl, hshape⟩ | ⟨e, he, -⟩ := h
    · cases hm
      exact hshape
    · cases he

/-- An operation that first computes its counterpart. -/
theorem refines_bind {s : Except Error Quantity} {f : Quantity → Except Error Measurement}
    (h : ∀ p, s = .ok p → Attaches (f p) p) : Refines (s >>= f) s := by
  cases s with
  | error e => exact ⟨e, rfl⟩
  | ok p => exact h p rfl

variable {m : Measurement}

/-- An operation that computes the uncertainty before its counterpart. A failure to do so is one of
the counterpart, too. -/
theorem exactFactor_refines (hm : m.uncertainty.shape = m.magnitude.shape) {q : Quantity}
    {s : Except Error Quantity} (hs : ∀ p, s = .ok p → Quantity.Combines m.quantity q p)
    (f : Float → Float → Float) :
    Refines (liftShape (m.uncertainty.zipWith f q.magnitude) >>= fun sigma =>
      s >>= fun p => ofQuantity p sigma) s := by
  cases s with
  | error e =>
    cases liftShape (m.uncertainty.zipWith f q.magnitude) with
    | error e' => exact ⟨e', rfl⟩
    | ok sigma => exact ⟨e, rfl⟩
  | ok p =>
    have hc := hs p rfl
    obtain ⟨sigma, hsigma, hshape⟩ := zipWith_of_not_clash
      (mt (clash_congr hm rfl).1 hc.not_clash) f
    rw [liftShape_eq_ok_iff.2 hsigma]
    refine ofQuantity_attaches (.inr ?_)
    rw [hshape, hm, hc.shape]
    rfl

theorem convert_refines (hm : m.uncertainty.shape = m.magnitude.shape) (target : UnitSource) :
    Refines (m.convert target) (m.quantity.convert target) := by
  unfold convert Quantity.convert
  cases target.resolve with
  | error e => exact ⟨e, rfl⟩
  | ok t =>
    show Refines (m.inUnit t) (m.quantity.inUnit t)
    cases h : m.quantity.inUnit t with
    | error e => exact ⟨e, by rw [inUnit, h]; rfl⟩
    | ok p => exact inUnit_attaches hm h

theorem pow_refines (hm : m.uncertainty.shape = m.magnitude.shape) (x : Exponent) :
    Refines (m.pow x) (m.quantity.pow x) :=
  refines_bind fun _ h => scaledRelative_attaches hm _ (Quantity.shape_of_map h)

theorem powFloat_refines (hm : m.uncertainty.shape = m.magnitude.shape) (x : Float) :
    Refines (m.powFloat x) (m.quantity.powFloat x) := by
  unfold powFloat Quantity.powFloat
  cases Quantity.exponentOfFloat x with
  | error e => exact ⟨e, rfl⟩
  | ok y => exact pow_refines hm y

theorem Operation.refines (hm : m.uncertainty.shape = m.magnitude.shape) (op : Operation)
    (hop : ∀ n, op.operand? = some n → n.uncertainty.shape = n.magnitude.shape) :
    Refines (op.apply m) (op.counterpart m.quantity) := by
  have hkeep : ∀ p : Quantity, p.magnitude.shape = m.quantity.magnitude.shape →
      Attaches (m.replaceQuantity p) p :=
    fun p hp => replaceQuantity_attaches hm (.inr hp.symm)
  have hcombine : ∀ q p : Quantity, Quantity.Combines m.quantity q p →
      Attaches (m.replaceQuantity p) p := fun q p hc =>
    replaceQuantity_attaches hm (hc.shape ▸ eq_none_or_eq_commonShape _ _)
  have hscale : ∀ f g : Float → Float,
      (m.uncertainty.map g).shape = (m.quantity.magnitude.map f).shape := fun f g => by
    rw [shape_map, shape_map, hm]
    rfl
  cases op with
  | convert target => exact convert_refines hm target
  | add n =>
    refine refines_bind fun p h => ?_
    obtain ⟨hc, _, hs⟩ := Quantity.combines_of_add h
    exact sumUncertainty_attaches hm (hop n rfl) hc hs
  | sub n =>
    refine refines_bind fun p h => ?_
    obtain ⟨hc, _, hs⟩ := Quantity.combines_of_sub h
    exact sumUncertainty_attaches hm (hop n rfl) hc hs
  | mul n => exact refines_bind fun p h =>
      combineRelative_attaches hm (hop n rfl) (Quantity.combines_of_product h)
  | div n => exact refines_bind fun p h =>
      combineRelative_attaches hm (hop n rfl) (Quantity.combines_of_product h)
  | addQuantity q => exact refines_bind fun p h => hcombine q p (Quantity.combines_of_add h).1
  | subQuantity q => exact refines_bind fun p h => hcombine q p (Quantity.combines_of_sub h).1
  | mulQuantity q => exact exactFactor_refines hm (fun _ => Quantity.combines_of_product) _
  | divQuantity q => exact exactFactor_refines hm (fun _ => Quantity.combines_of_product) _
  | addScalar x => exact refines_bind fun p h => hkeep p (Quantity.shape_of_map h)
  | subScalar x => exact refines_bind fun p h => hkeep p (Quantity.shape_of_map h)
  | scalarSub x => exact refines_bind fun p h => hkeep p (Quantity.shape_of_map h)
  | mulScalar x => exact .inl ⟨_, rfl, rfl, hscale _ _⟩
  | divScalar x => exact .inl ⟨_, rfl, rfl, hscale _ _⟩
  | scalarDiv x => exact refines_bind fun p h =>
      scaledRelative_attaches hm _ (Quantity.shape_of_map h)
  | pow x => exact pow_refines hm x
  | powFloat x => exact powFloat_refines hm x
  | sqrt => exact pow_refines hm .half
  | neg => exact .inl ⟨_, rfl, rfl, hm.trans (shape_map _ _).symm⟩
  | abs => exact .inl ⟨_, rfl, rfl, hm.trans (shape_abs _).symm⟩

theorem Reachable.shape (h : Reachable m) : m.uncertainty.shape = m.magnitude.shape := by
  induction h with
  | ofSource h =>
    obtain ⟨q, -, h⟩ := bind_eq_ok_iff.1 h
    exact shape_of_ofQuantity h
  | ofQuantity h => exact shape_of_ofQuantity h
  | exact q => exact shape_map _ _
  | @step m k op _ _ hk ihm ihop => exact (hk ▸ op.refines ihm ihop : Refines (.ok k) _).shape

/-- What holds of a measurement that was reached. -/
structure RefinementLaw (m : Measurement) : Prop where
  refines : ∀ op : Operation, (∀ n, op.operand? = some n → Reachable n) →
    Refines (op.apply m) (op.counterpart m.quantity)
  shape : m.uncertainty.shape = m.magnitude.shape
  relativeUncertainty_eq :
    m.uncertainty.zipWith relativeTo m.magnitude = .ok m.relativeUncertainty

theorem Reachable.refinementLaw (h : Reachable m) : RefinementLaw m where
  refines op hop := op.refines h.shape fun n hn => (hop n hn).shape
  shape := h.shape
  relativeUncertainty_eq := zipWith_relativeTo h.shape

/-- A row with one uncertainty for all its values, and a single value in another unit. -/
theorem refinementLaw_row : ∃ m n : Measurement, Reachable m ∧ Reachable n ∧
    m.magnitude.shape = some 2 ∧ n.magnitude.shape = none ∧ RefinementLaw m ∧
      Refines (m.add n) (m.quantity.add n.quantity) := by
  have hrun : ((withUncertainty (.row [2.0, -3.5]) (.text "kN / second^2") (.scalar 0.5)).map
      fun m => m.magnitude.shape).toOption = some (some 2) := by
    decide +kernel
  obtain ⟨m, hm, hs⟩ := map_eq_ok_iff.1 (toOption_eq_some_iff.1 hrun)
  have hrun : ((withRelativeUncertainty (.scalar 1.5) (.text "newton / minute^2") 0.25).map
      fun n => n.magnitude.shape).toOption = some none := by
    decide +kernel
  obtain ⟨n, hn, ht⟩ := map_eq_ok_iff.1 (toOption_eq_some_iff.1 hrun)
  have hm := Reachable.ofSource hm
  have hn := Reachable.ofSource hn
  refine ⟨m, n, hm, hn, hs, ht, hm.refinementLaw, ?_⟩
  exact hm.refinementLaw.refines (.add n) fun k hk => Option.some.inj hk ▸ hn

end QuantityCalculus.Measurement
