import Mathlib.Data.List.Perm.Subperm
import QuantityCalculus.Proofs.Binary64.Value
import QuantityCalculus.Proofs.CompoundUnit.Algebra

/-! Equality of units. Two products with distinct names and no zeros give every name the same exponent
exactly if one is the other in some order. It is enough for this that they are equally long and that
every power of the first is one of the second, which is what comparing units tests. So units are
equal as maps from names to exponents, and so are their dimensions, which the exponents determine. -/

namespace QuantityCalculus

namespace Powers

/-- Names are distinct and no exponent is zero. -/
structure Reduced (ps : Powers) : Prop where
  nodup : (names ps).Nodup
  nonzero : ∀ q ∈ ps, q.2 ≠ 0

variable {ps qs : Powers}

theorem Reduced.perm (h : Reduced ps) (hp : ps.Perm qs) : Reduced qs where
  nodup := (hp.map Prod.fst).nodup_iff.1 h.nodup
  nonzero q hq := h.nonzero q (hp.mem_iff.2 hq)

/-- The powers of a product are the exponents other than zero. -/
theorem Reduced.mem_iff (h : Reduced ps) (q : String × Exponent) :
    q ∈ ps ↔ q.2 ≠ 0 ∧ powerOf ps q.1 = q.2 := by
  constructor
  · exact fun hq => ⟨h.nonzero q hq, powerOf_of_mem h.nodup hq⟩
  · rintro ⟨hne, he⟩
    have hmem := mem_of_powerOf_ne_zero (he ▸ hne)
    rwa [he] at hmem

theorem Reduced.perm_iff_powerOf (hp : Reduced ps) (hq : Reduced qs) :
    ps.Perm qs ↔ ∀ n, powerOf ps n = powerOf qs n := by
  rw [List.perm_ext_iff_of_nodup hp.nodup.of_map hq.nodup.of_map]
  simp only [hp.mem_iff, hq.mem_iff]
  constructor
  · intro h n
    by_cases hn : powerOf ps n = 0
    · by_contra hne
      exact hne ((h (n, powerOf qs n)).2 ⟨fun h0 => hne (hn.trans h0.symm), rfl⟩).2
    · exact ((h (n, powerOf ps n)).1 ⟨hn, rfl⟩).2.symm
  · intro h q
    rw [h]

/-- Products of the same length are the same up to order if one holds the powers of the other, because
no name is counted twice. -/
theorem Reduced.perm_iff_length (hp : Reduced ps) (hq : Reduced qs) :
    ps.Perm qs ↔ ps.length = qs.length ∧ ∀ q ∈ ps, powerOf qs q.1 = q.2 := by
  constructor
  · exact fun h => ⟨h.length_eq, fun q hmem => powerOf_of_mem hq.nodup (h.subset hmem)⟩
  · rintro ⟨hl, h⟩
    have hsub : ps ⊆ qs := fun q hmem => (hq.mem_iff q).2 ⟨hp.nonzero q hmem, h q hmem⟩
    exact (List.subperm_of_subset hp.nodup.of_map hsub).perm_of_length_le hl.ge

end Powers

namespace CompoundUnit

open Powers

variable {u v w : CompoundUnit}

theorem WellFormed.reduced (h : WellFormed u) : Reduced u.components :=
  ⟨h.agrees.sound.nodup, h.nonzero⟩

/-- Units are equal if their scales are and their powers are the same up to order. -/
theorem beq_iff_perm (hu : Reduced u.components) (hv : Reduced v.components) :
    (u == v) = true ↔ (u.scale == v.scale) = true ∧ u.components.Perm v.components := by
  rw [hu.perm_iff_length hv]
  show (u.scale == v.scale && u.components.length == v.components.length &&
    u.components.all fun q => v.powerOf q.1 == q.2) = true ↔ _
  simp only [Bool.and_eq_true, beq_iff_eq, List.all_eq_true, and_assoc]
  rfl

theorem beq_iff_powerOf (hu : Reduced u.components) (hv : Reduced v.components) :
    (u == v) = true ↔ (u.scale == v.scale) = true ∧ ∀ n, u.powerOf n = v.powerOf n := by
  rw [beq_iff_perm hu hv, hu.perm_iff_powerOf hv]
  rfl

theorem beq_symm (hu : Reduced u.components) (hv : Reduced v.components) (h : (u == v) = true) :
    (v == u) = true := by
  obtain ⟨hs, hp⟩ := (beq_iff_perm hu hv).1 h
  exact (beq_iff_perm hv hu).2 ⟨Binary64.beq_symm hs, hp.symm⟩

theorem beq_trans (hu : Reduced u.components) (hv : Reduced v.components)
    (hw : Reduced w.components) (huv : (u == v) = true) (hvw : (v == w) = true) :
    (u == w) = true := by
  obtain ⟨hs, hp⟩ := (beq_iff_perm hu hv).1 huv
  obtain ⟨ht, hq⟩ := (beq_iff_perm hv hw).1 hvw
  exact (beq_iff_perm hu hw).2 ⟨Binary64.beq_trans hs ht, hp.trans hq⟩

/-- A unit is equal to itself if its scale is. -/
theorem beq_self (hu : Reduced u.components) (hs : (u.scale == u.scale) = true) :
    (u == u) = true :=
  (beq_iff_perm hu hu).2 ⟨hs, .refl _⟩

/-- The powers of a unit determine its dimension. -/
theorem WellFormed.dimension_eq_of_perm (hu : WellFormed u) (hv : WellFormed v)
    (h : u.components.Perm v.components) : u.dimension = v.dimension := by
  refine Dimension.ext fun b => Exponent.ext ?_
  rw [hu.agrees.dimension_val, hv.agrees.dimension_val, weigh_perm _ h]

/-- Units of one scale and one content are equal. -/
theorem WellFormed.beq_of_content_eq (hu : WellFormed u) (hv : WellFormed v)
    (hs : (u.scale == v.scale) = true) (hc : u.content = v.content) :
    (u == v) = true ∧ u.dimension = v.dimension := by
  obtain ⟨hp, hd⟩ := content_eq_iff.1 hc
  refine ⟨(beq_iff_powerOf hu.reduced hv.reduced).2 ⟨hs, fun n => Exponent.ext (hp n)⟩, ?_⟩
  exact Dimension.ext fun b => Exponent.ext (hd b)

/-! ### The law of equality -/

/-- What it means that units are equal, for three of them. -/
structure EqualityLaw (u v w : CompoundUnit) : Prop where
  beq_iff : (u == v) = true ↔ (u.scale == v.scale) = true ∧ ∀ n, u.powerOf n = v.powerOf n
  symmetric : (u == v) = (v == u)
  transitive : (u == v) = true → (v == w) = true → (u == w) = true
  /-- Neither the order of the components nor the display name counts. -/
  arranged : ∀ t : CompoundUnit, t.scale = u.scale → t.components.Perm u.components →
    (t == v) = (u == v) ∧ (v == t) = (v == u)
  compatible : (u == v) = true → u.dimension = v.dimension ∧ u.isCompatibleWith v = true

theorem Reachable.equalityLaw (hu : Reachable u) (hv : Reachable v) (hw : Reachable w) :
    EqualityLaw u v w := by
  have hu := hu.wellFormed
  have hv := hv.wellFormed
  have hw := hw.wellFormed
  constructor
  case beq_iff => exact beq_iff_powerOf hu.reduced hv.reduced
  case symmetric =>
    rw [Bool.eq_iff_iff]
    exact ⟨beq_symm hu.reduced hv.reduced, beq_symm hv.reduced hu.reduced⟩
  case transitive => exact beq_trans hu.reduced hv.reduced hw.reduced
  case arranged =>
    intro t hs hp
    have ht : Reduced t.components := hu.reduced.perm hp.symm
    constructor
    · rw [Bool.eq_iff_iff, beq_iff_perm ht hv.reduced, beq_iff_perm hu.reduced hv.reduced, hs,
        hp.congr_left]
    · rw [Bool.eq_iff_iff, beq_iff_perm hv.reduced ht, beq_iff_perm hv.reduced hu.reduced, hs,
        hp.congr_right]
  case compatible =>
    intro h
    have hd := hu.dimension_eq_of_perm hv ((beq_iff_perm hu.reduced hv.reduced).1 h).2
    exact ⟨hd, decide_eq_true hd⟩

/-- Three texts of one unit, with its powers in three orders. -/
theorem equalityLaw_orders : ∃ u v w, Reachable u ∧ Reachable v ∧ Reachable w ∧
    u.name = "2.5 kN^2 * meter^(1/3) / second" ∧ v.name = "2.5 meter^(1/3) kN^2 * second^-1" ∧
    w.name = "kN * second^-1 * 2.5 / meter^(-1/3) * kN^-1" ∧
    (u == v) = true ∧ (v == w) = true ∧ EqualityLaw u v w := by
  have hrun : (do
      let u ← parse "2.5 kN^2 * meter^(1/3) / second"
      let v ← parse "2.5 meter^(1/3) kN^2 * second^-1"
      let w ← parse "kN * second^-1 * 2.5 / meter^(-1/3) * kN^-1"
      pure (u.name, v.name, w.name, u == v, v == w)).toOption =
        some ("2.5 kN^2 * meter^(1/3) / second", "2.5 meter^(1/3) kN^2 * second^-1",
          "kN * second^-1 * 2.5 / meter^(-1/3) * kN^-1", true, true) := by
    decide +kernel
  simp only [toOption_eq_some_iff, bind_eq_ok_iff, pure, Except.pure, Except.ok.injEq,
    Prod.mk.injEq] at hrun
  obtain ⟨u, hu, v, hv, w, hw, hname, hname', hname'', huv, hvw⟩ := hrun
  exact ⟨u, v, w, .parseScaled hu, .parseScaled hv, .parseScaled hw, hname, hname', hname'', huv,
    hvw, Reachable.equalityLaw (.parseScaled hu) (.parseScaled hv) (.parseScaled hw)⟩

end CompoundUnit

end QuantityCalculus
