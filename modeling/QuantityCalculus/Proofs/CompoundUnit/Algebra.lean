import Mathlib.Algebra.Module.Rat
import QuantityCalculus.Proofs.CompoundUnit.Reachable

/-! The algebra of units is exact. The content of a unit is the rational exponent of every name and
of every base quantity. Products add contents, quotients subtract them and powers multiply them; an
operation fails exactly if some exponent of the exact result is not representable. -/

namespace QuantityCalculus.CompoundUnit

open Powers

/-- An exponent for every name and for every base quantity. -/
abbrev Content := String ⊕ BaseQuantity → ℚ

/-- The exponents of a unit. -/
def content (u : CompoundUnit) : Content
  | .inl name => (u.powerOf name).val
  | .inr b => (u.dimension.get b).val

/-- The outcome of an operation with exact result `c`: a unit of this content if all of its
exponents are representable, and a failure otherwise. -/
structure Yields (r : Except ExponentError CompoundUnit) (c : Content) : Prop where
  isOk_iff : (∃ w, r = .ok w) ↔ ∀ i, Representable (c i)
  content_eq : ∀ w, r = .ok w → w.content = c

theorem forall_representable_iff {c : Content} :
    (∀ i, Representable (c i)) ↔
      (∀ n, Representable (c (.inl n))) ∧ ∀ b, Representable (c (.inr b)) :=
  Sum.forall

theorem content_eq_iff {u : CompoundUnit} {c : Content} :
    u.content = c ↔ (∀ n, (u.powerOf n).val = c (.inl n)) ∧
      ∀ b, (u.dimension.get b).val = c (.inr b) := by
  rw [funext_iff, Sum.forall]
  rfl

/-- A unit that is put together has the exponents it is put together from. -/
theorem content_build {ps : Powers} (h : (names ps).Nodup) (scale : Float) (d : Dimension) :
    (build ps scale d).content =
      Sum.elim (fun n => (Powers.powerOf ps n).val) fun b => (d.get b).val := by
  refine content_eq_iff.2 ⟨fun n => ?_, fun b => rfl⟩
  show (Powers.powerOf ps.dropZeros n).val = _
  rw [powerOf_dropZeros h]
  rfl

theorem WellFormed.representable_content {u : CompoundUnit} (h : WellFormed u) :
    ∀ i, Representable (u.content i) :=
  forall_representable_iff.2
    ⟨h.agrees.sound.representable_powerOf, h.agrees.dimension_representable⟩

/-- Without exponents there are no components, because no component has exponent zero. -/
theorem WellFormed.components_eq_nil {u : CompoundUnit} (h : WellFormed u) (hc : u.content = 0) :
    u.components = [] := by
  rw [List.eq_nil_iff_forall_not_mem]
  intro q hq
  have hp : u.powerOf q.1 = q.2 := powerOf_of_mem h.agrees.sound.nodup hq
  have hv : (u.powerOf q.1).val = 0 := congrFun hc (.inl q.1)
  exact h.nonzero q hq (Exponent.ext (hp ▸ hv))

@[simp] theorem content_scalar (scale : Float) : (scalar scale).content = 0 := by
  rw [scalar, content_build sound_nil.nodup]
  funext i
  rcases i with n | b
  · rfl
  · exact congrArg Exponent.val (Dimension.get_dimensionless b)

@[simp] theorem content_dimensionless : dimensionless.content = 0 :=
  content_scalar 1.0

/-- A unit is put together from powers and a dimension, and fails with either of them. -/
theorem yields_build {powers : Except ExponentError Powers}
    {dimension : Except ExponentError Dimension} {c : Content} (scale : Float)
    (hp : (∃ rs, powers = .ok rs) ↔ ∀ n, Representable (c (.inl n)))
    (hn : ∀ rs, powers = .ok rs →
      (names rs).Nodup ∧ ∀ n, (Powers.powerOf rs n).val = c (.inl n))
    (hd : Dimension.Yields dimension fun b => c (.inr b)) :
    Yields (do let rs ← powers; let d ← dimension; pure (build rs scale d)) c := by
  constructor
  · rw [forall_representable_iff, ← hp, ← hd.isOk_iff]
    simp only [bind_eq_ok_iff]
    constructor
    · rintro ⟨w, rs, hr, d, he, -⟩
      exact ⟨⟨rs, hr⟩, d, he⟩
    · rintro ⟨⟨rs, hr⟩, d, he⟩
      exact ⟨_, rs, hr, d, he, rfl⟩
  · intro w h
    simp only [bind_eq_ok_iff] at h
    obtain ⟨rs, hr, d, he, h⟩ := h
    cases h
    obtain ⟨hnodup, hpow⟩ := hn rs hr
    rw [content_build hnodup]
    funext i
    rcases i with n | b
    · exact hpow n
    · exact ((hd d).1 he b).2

section Operations

variable {u v w : CompoundUnit}

theorem WellFormed.multiply_yields (hu : WellFormed u) (hv : WellFormed v) :
    Yields (u.multiply v) (u.content + v.content) := by
  have hs := hu.agrees.sound
  have ht := hv.agrees.sound
  refine yields_build _ ?_ (fun rs hr => ?_) (Dimension.add_yields _ _)
  · have h := mergeThrough_isOk_iff multiplies_ok hs ht
    simp only [one_mul] at h
    exact h
  · have hm := mergeThrough_merged multiplies_ok hs ht hr
    refine ⟨hm.sound.nodup, fun n => (hm.powerOf n).trans ?_⟩
    rw [one_mul]
    rfl

theorem WellFormed.divide_yields (hu : WellFormed u) (hv : WellFormed v) :
    Yields (u.divide v) (u.content - v.content) := by
  have hs := hu.agrees.sound
  have ht := hv.agrees.sound
  refine yields_build _ ?_ (fun rs hr => ?_)
    (Dimension.sub_yields _ hv.agrees.dimension_representable)
  · have h := mergeThrough_isOk_iff multiplies_neg hs ht
    simp only [neg_one_mul, ← sub_eq_add_neg] at h
    exact h
  · have hm := mergeThrough_merged multiplies_neg hs ht hr
    refine ⟨hm.sound.nodup, fun n => (hm.powerOf n).trans ?_⟩
    rw [neg_one_mul, ← sub_eq_add_neg]
    rfl

theorem WellFormed.power_yields (hu : WellFormed u) (x : Exponent) :
    Yields (u.power x) (x.val • u.content) := by
  have hs := hu.agrees.sound
  refine yields_build _ ?_ (fun rs hr => ?_) ?_
  · have h := scale_isOk_iff hs x
    simp only [mul_comm _ x.val] at h
    exact h
  · have hm := scale_scaled hr
    refine ⟨hm.names_eq ▸ hs.nodup, fun n => (hm.powerOf n).trans ?_⟩
    exact mul_comm _ _
  · have h := Dimension.scale_yields u.dimension x
    simp only [mul_comm _ x.val] at h
    exact h

theorem WellFormed.reciprocal_yields (hu : WellFormed u) : Yields u.reciprocal (-u.content) := by
  have h := wellFormed_dimensionless.divide_yields hu
  rwa [content_dimensionless, zero_sub] at h

/-- An operation succeeds if its exact result is the content of a unit that exists. -/
theorem Yields.exists_of_eq {r : Except ExponentError CompoundUnit} {c : Content} (h : Yields r c)
    (hu : WellFormed u) (hc : c = u.content) : ∃ w, r = .ok w ∧ w.content = u.content := by
  obtain ⟨w, hw⟩ := h.isOk_iff.2 (hc ▸ hu.representable_content)
  exact ⟨w, hw, (h.content_eq w hw).trans hc⟩

theorem WellFormed.reciprocal_isOk (hu : WellFormed u) :
    ∃ w, u.reciprocal = .ok w ∧ w.content = -u.content := by
  have h := hu.reciprocal_yields
  obtain ⟨w, hw⟩ := h.isOk_iff.2 fun i => (hu.representable_content i).neg
  exact ⟨w, hw, h.content_eq w hw⟩

theorem WellFormed.divide_self (hu : WellFormed u) :
    ∃ w, u.divide u = .ok w ∧ w.components = [] ∧ w.isDimensionless = true := by
  have h := hu.divide_yields hu
  rw [sub_self, ← content_dimensionless] at h
  obtain ⟨w, hw, hc⟩ := h.exists_of_eq wellFormed_dimensionless rfl
  rw [content_dimensionless] at hc
  refine ⟨w, hw, (hu.divide hu hw).components_eq_nil hc, ?_⟩
  exact Dimension.isDimensionless_iff.2 fun b => congrFun hc (.inr b)

theorem WellFormed.divide_multiply (hu : WellFormed u) (hv : WellFormed v)
    (h : u.multiply v = .ok w) : ∃ t, w.divide v = .ok t ∧ t.content = u.content := by
  apply ((hu.multiply hv h).divide_yields hv).exists_of_eq hu
  rw [(hu.multiply_yields hv).content_eq w h, add_sub_cancel_right]

theorem WellFormed.reciprocal_reciprocal (hu : WellFormed u) (h : u.reciprocal = .ok w) :
    ∃ t, w.reciprocal = .ok t ∧ t.content = u.content := by
  apply (wellFormed_dimensionless.divide hu h).reciprocal_yields.exists_of_eq hu
  rw [hu.reciprocal_yields.content_eq w h, neg_neg]

theorem WellFormed.power_power (hu : WellFormed u) {x y : Exponent} (hxy : x.val * y.val = 1)
    (h : u.power x = .ok w) : ∃ t, w.power y = .ok t ∧ t.content = u.content := by
  apply ((hu.power h).power_yields y).exists_of_eq hu
  rw [(hu.power_yields x).content_eq w h, smul_smul, mul_comm, hxy, one_smul]

end Operations

/-- The laws of the algebra of units, for two units and an exponent. -/
structure ExactAlgebra (u v : CompoundUnit) (x : Exponent) : Prop where
  multiply : Yields (u.multiply v) (u.content + v.content)
  divide : Yields (u.divide v) (u.content - v.content)
  power : Yields (u.power x) (x.val • u.content)
  reciprocal : ∃ w, u.reciprocal = .ok w ∧ w.content = -u.content
  divide_self : ∃ w, u.divide u = .ok w ∧ w.components = [] ∧ w.isDimensionless = true
  divide_multiply : ∀ w, u.multiply v = .ok w → ∃ t, w.divide v = .ok t ∧ t.content = u.content
  reciprocal_reciprocal : ∀ w, u.reciprocal = .ok w →
    ∃ t, w.reciprocal = .ok t ∧ t.content = u.content
  power_power : ∀ (y : Exponent) (w : CompoundUnit), x.val ≠ 0 → y.val = 1 / x.val →
    u.power x = .ok w → ∃ t, w.power y = .ok t ∧ t.content = u.content
  multiply_isOk_comm : (∃ w, u.multiply v = .ok w) ↔ ∃ w, v.multiply u = .ok w
  multiply_content_comm : ∀ w t, u.multiply v = .ok w → v.multiply u = .ok t →
    w.content = t.content

theorem Reachable.exactAlgebra {u v : CompoundUnit} (hu : Reachable u) (hv : Reachable v)
    (x : Exponent) : ExactAlgebra u v x := by
  have hu := hu.wellFormed
  have hv := hv.wellFormed
  have huv := hu.multiply_yields hv
  have hvu := hv.multiply_yields hu
  rw [add_comm] at hvu
  exact {
    multiply := huv
    divide := hu.divide_yields hv
    power := hu.power_yields x
    reciprocal := hu.reciprocal_isOk
    divide_self := hu.divide_self
    divide_multiply := fun _ => hu.divide_multiply hv
    reciprocal_reciprocal := fun _ => hu.reciprocal_reciprocal
    power_power := fun y w hx hy h => hu.power_power (by rw [hy, mul_one_div_cancel hx]) h
    multiply_isOk_comm := by rw [huv.isOk_iff, hvu.isOk_iff]
    multiply_content_comm := fun w t hw ht => by rw [huv.content_eq w hw, hvu.content_eq t ht] }

/-- The largest power of a meter, and a unit that makes it overflow. -/
theorem exactAlgebra_meter :
    ∃ u v, Reachable u ∧ Reachable v ∧ (u.powerOf "meter").val = 2 ^ 63 - 1 ∧
      (v.powerOf "meter").val = 1 / 3 ∧ ExactAlgebra u v Exponent.half := by
  have hrun : ((parse "meter^9223372036854775807 / second").map fun u =>
      (u.powerOf "meter").val).toOption = some (2 ^ 63 - 1) := by
    decide +kernel
  obtain ⟨u, -, hu, hp⟩ := exists_reachable hrun
  have hrun : ((parse "meter^(1/3) * kN").map fun u => (u.powerOf "meter").val).toOption =
      some (1 / 3) := by
    decide +kernel
  obtain ⟨v, -, hv, hq⟩ := exists_reachable hrun
  exact ⟨u, v, hu, hv, hp, hq, hu.exactAlgebra hv Exponent.half⟩

end QuantityCalculus.CompoundUnit
