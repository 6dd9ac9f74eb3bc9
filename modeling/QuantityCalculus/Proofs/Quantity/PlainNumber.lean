import QuantityCalculus.Proofs.Magnitude.Close
import QuantityCalculus.Proofs.Quantity.Converted
import QuantityCalculus.Quantity.Element

/-! Plain numbers next to quantities without a dimension. A plain number is never converted, so it
counts in the unit of the quantity it is added to, subtracted from or assigned to: it acts as a
quantity in a unit that is worth as much. It acts as a pure number if the unit is worth one, and
does not if the unit is a percent. -/

namespace QuantityCalculus.Quantity

open Binary64 Magnitude

variable {q : Quantity} {x : Float} {u t : CompoundUnit} {m : Magnitude Float}

/-! ### Values that stay as they are -/

theorem map_mul_one (m : Magnitude Float) : m.map (· * 1.0) = m := by
  cases m with
  | scalar x => exact congrArg scalar (Binary64.mul_one x)
  | row xs => exact congrArg row ((List.map_congr_left fun x _ => Binary64.mul_one x).trans
      (List.map_id xs))

/-! ### Units that are worth as much -/

/-- Units without a dimension that are worth the same amount, by which one can divide. -/
structure SameWorth (u t : CompoundUnit) : Prop where
  wellFormed : u.WellFormed ∧ t.WellFormed
  isDimensionless : u.isDimensionless = true
  dimension : u.dimension = t.dimension
  worth : u.worth = t.worth
  usable : Usable u.worth

theorem SameWorth.refl (hu : u.WellFormed) (hd : u.isDimensionless = true) (hk : Usable u.worth) :
    SameWorth u u :=
  ⟨⟨hu, hu⟩, hd, rfl, rfl, hk⟩

theorem SameWorth.symm (h : SameWorth u t) : SameWorth t u where
  wellFormed := h.wellFormed.symm
  isDimensionless := by
    have hd := h.isDimensionless
    rwa [CompoundUnit.isDimensionless, h.dimension] at hd
  dimension := h.dimension.symm
  worth := h.worth.symm
  usable := h.worth ▸ h.usable

theorem SameWorth.inUnit (h : SameWorth u t) (m : Magnitude Float) :
    Quantity.inUnit ⟨m, u⟩ t = .ok ⟨m, t⟩ := by
  have hnone : u.temperatureScale? = none := by
    cases hs : u.temperatureScale? with
    | none => rfl
    | some a =>
      have hd := h.wellFormed.1.temperature_of_scale hs
      rw [h.isDimensionless] at hd
      cases hd
  have hconverted : converted u t = (· * 1.0) := by
    rw [converted, hnone, ← h.worth, Binary64.div_self h.usable]
  rw [inUnit_eq h.wellFormed.1 h.wellFormed.2 h.dimension, hconverted, map_mul_one]

theorem SameWorth.beq (h : SameWorth u t) (hm : ∀ v ∈ m.toList, v.isNaN = false) :
    ((⟨m, u⟩ : Quantity) == ⟨m, t⟩) = true := by
  show isEqual _ _ = true
  have hd : (⟨m, u⟩ : Quantity).isCompatibleWith ⟨m, t⟩ = true :=
    CompoundUnit.isCompatibleWith_iff.2 h.dimension
  rw [isEqual, if_pos hd, h.symm.inUnit]
  exact allClose_self hm

/-- A plain number acts as a quantity in a given unit: when it is added, when it is subtracted, when it
is subtracted from, and when it is assigned to an element. -/
structure ActsAs (q : Quantity) (x : Float) (t : CompoundUnit) : Prop where
  addScalar : Agree (q.addScalar x) (q.add ⟨.scalar x, t⟩)
  subScalar : Agree (q.subScalar x) (q.sub ⟨.scalar x, t⟩)
  scalarSub : Agree (scalarSub x q) (Quantity.sub ⟨.scalar x, t⟩ q)
  setValue : ∀ index n, q.magnitude.shape = some n → index < n →
    Agree (q.setValue index x) (q.set index ⟨.scalar x, t⟩)

/-! ### Both ways to compute -/

theorem SameWorth.requireDimensionless (h : SameWorth u t) (m : Magnitude Float) (verb : Verb) :
    Quantity.requireDimensionless ⟨m, u⟩ verb = .ok () := if_pos h.isDimensionless

theorem SameWorth.isCompatibleWith (h : SameWorth u t) (m n : Magnitude Float) :
    (⟨m, u⟩ : Quantity).isCompatibleWith ⟨n, t⟩ = true :=
  CompoundUnit.isCompatibleWith_iff.2 h.dimension

theorem SameWorth.add (h : SameWorth u t) (m n : Magnitude Float) :
    Quantity.add ⟨m, u⟩ ⟨n, t⟩ = liftShape (m.zipWith (· + ·) n) >>= fun p => pure ⟨p, u⟩ := by
  rw [add_eq, broughtTogether, if_pos (h.isCompatibleWith m n), h.symm.inUnit]
  rfl

theorem SameWorth.sub (h : SameWorth u t) (m n : Magnitude Float) :
    Quantity.sub ⟨m, u⟩ ⟨n, t⟩ = liftShape (m.zipWith (· - ·) n) >>= fun p => pure ⟨p, u⟩ := by
  rw [sub_eq, broughtTogether, if_pos (h.isCompatibleWith m n), h.symm.inUnit]
  rfl

theorem SameWorth.set (h : SameWorth u t) (m : Magnitude Float) (index : Nat) (x : Float) :
    Quantity.set ⟨m, u⟩ index ⟨.scalar x, t⟩ =
      liftShape (m.set index x) >>= fun p => pure ⟨p, u⟩ := by
  rw [Quantity.set, if_pos (h.isCompatibleWith m _), h.symm.inUnit]
  rfl

theorem not_isNaN_map {f : Float → Float} (h : ∀ v ∈ m.toList, v.isFinite = true)
    (hf : ∀ v, v.isFinite = true → (f v).isNaN = false) :
    ∀ v ∈ (m.map f).toList, v.isNaN = false :=
  forall_mem_toList_map.2 fun v hv => hf v (h v hv)

/-- A plain number acts as a quantity in a unit that is worth as much as the one it meets. -/
theorem SameWorth.actsAs (h : SameWorth u t) (hm : ∀ v ∈ m.toList, v.isFinite = true)
    (hx : x.isFinite = true) : ActsAs ⟨m, u⟩ x t := by
  have hself := SameWorth.refl h.wellFormed.1 h.isDimensionless h.usable
  constructor
  case addScalar =>
    refine ⟨⟨m.map (· + x), u⟩, ⟨m.map (· + x), u⟩, ?_, ?_, hself.beq ?_⟩
    · rw [Quantity.addScalar, h.requireDimensionless]
      rfl
    · rw [h.add, zipWith_scalar]
      rfl
    · exact not_isNaN_map hm fun v hv => (rounds_add hv hx).not_isNaN
  case subScalar =>
    refine ⟨⟨m.map (· - x), u⟩, ⟨m.map (· - x), u⟩, ?_, ?_, hself.beq ?_⟩
    · rw [Quantity.subScalar, h.requireDimensionless]
      rfl
    · rw [h.sub, zipWith_scalar]
      rfl
    · exact not_isNaN_map hm fun v hv => (rounds_sub hv hx).not_isNaN
  case scalarSub =>
    refine ⟨⟨m.map (x - ·), u⟩, ⟨m.map (x - ·), t⟩, ?_, ?_, h.beq ?_⟩
    · rw [Quantity.scalarSub, h.requireDimensionless]
      rfl
    · rw [h.symm.sub, scalar_zipWith]
      rfl
    · exact not_isNaN_map hm fun v hv => (rounds_sub hx hv).not_isNaN
  case setValue =>
    intro index n hn hindex
    cases m with
    | scalar y => cases hn
    | row xs =>
      have hset : (row xs).set index x = .ok (row (xs.set index x)) :=
        if_pos (Option.some.inj hn ▸ hindex)
      refine ⟨⟨row (xs.set index x), u⟩, ⟨row (xs.set index x), u⟩, ?_, ?_, hself.beq ?_⟩
      · rw [Quantity.setValue, h.requireDimensionless, hset]
        rfl
      · rw [h.set, hset]
        rfl
      · intro v hv
        rcases List.mem_or_eq_of_mem_set hv with hv | rfl
        · exact (Rounds.self (hm v hv)).not_isNaN
        · exact (Rounds.self hx).not_isNaN

theorem dimension_eq_of_isDimensionless (hu : u.isDimensionless = true)
    (ht : t.isDimensionless = true) : u.dimension = t.dimension := by
  have hu := Dimension.isDimensionless_iff.1 hu
  have ht := Dimension.isDimensionless_iff.1 ht
  exact Dimension.ext fun b => Exponent.ext ((hu b).trans (ht b).symm)

/-- How a plain number acts next to a quantity without a dimension. -/
structure PlainNumberLaw (q : Quantity) (x : Float) : Prop where
  inUnit : ActsAs q x q.unit
  pure : q.unit.coherentFactor = .ok 1.0 → ActsAs q x .dimensionless

/-- A plain number acts as a quantity in the unit that it meets, and as a pure number if that unit is
worth one. -/
theorem plainNumberLaw {k : Float} (hq : q.unit.Reachable) (hd : q.isDimensionless = true)
    (hk : q.unit.coherentFactor = .ok k) (hk' : k.isFinite = true ∧ (k == 0.0) = false)
    (hm : ∀ v ∈ q.magnitude.toList, v.isFinite = true) (hx : x.isFinite = true) :
    PlainNumberLaw q x := by
  have hworth : q.unit.worth = k := by rw [CompoundUnit.worth, hk]
  have hself := SameWorth.refl hq.wellFormed hd (hworth ▸ hk')
  refine ⟨hself.actsAs hm hx, fun hone => SameWorth.actsAs ?_ hm hx⟩
  have hone : q.unit.worth = 1.0 := by rw [CompoundUnit.worth, hone]
  exact ⟨⟨hq.wellFormed, CompoundUnit.wellFormed_dimensionless⟩, hd,
    dimension_eq_of_isDimensionless hd rfl, hone, hself.usable⟩

/-- Next to a percentage a plain number counts in percent, and next to radians it is a pure number. -/
theorem plainNumberLaw_percent : ∃ u v : CompoundUnit, u.Reachable ∧ v.Reachable ∧
    u.coherentFactor.toOption = some 0.01 ∧ PlainNumberLaw ⟨.row [50.0, 12.5], u⟩ 1.5 ∧
      v.coherentFactor.toOption = some 1.0 ∧ ActsAs ⟨.scalar 50.0, v⟩ 1.5 .dimensionless := by
  have hrun : ((CompoundUnit.parse "percent").map fun u =>
      (u.isDimensionless, u.coherentFactor.toOption)).toOption = some (true, some 0.01) := by
    decide +kernel
  obtain ⟨u, -, hu, hc⟩ := CompoundUnit.exists_reachable hrun
  have hrun : ((CompoundUnit.parse "meter * radian / m").map fun u =>
      (u.isDimensionless, u.coherentFactor.toOption)).toOption = some (true, some 1.0) := by
    decide +kernel
  obtain ⟨v, -, hv, hd⟩ := CompoundUnit.exists_reachable hrun
  have hpercent : (0.01 : Float).isFinite = true ∧ ((0.01 : Float) == 0.0) = false := by
    decide +kernel
  have hone : (1.0 : Float).isFinite = true ∧ ((1.0 : Float) == 0.0) = false := by decide +kernel
  have hx : (1.5 : Float).isFinite = true := by decide +kernel
  have hrow : ∀ y ∈ [50.0, 12.5], Float.isFinite y = true := by decide +kernel
  have hscalar : ∀ y ∈ [50.0], Float.isFinite y = true := by decide +kernel
  obtain ⟨hu0, hk⟩ := Prod.mk.inj hc
  obtain ⟨hv0, hl⟩ := Prod.mk.inj hd
  have hk := toOption_eq_some_iff.1 hk
  have hl := toOption_eq_some_iff.1 hl
  have hlaw : PlainNumberLaw ⟨.scalar 50.0, v⟩ 1.5 := plainNumberLaw hv hv0 hl hone hscalar hx
  exact ⟨u, v, hu, hv, (Prod.mk.inj hc).2, plainNumberLaw hu hu0 hk hpercent hrow hx,
    (Prod.mk.inj hd).2, hlaw.pure hl⟩

/-- Fifty percent and one are 51 percent if one is a plain number, and 150 percent if it is a quantity
without a dimension. In a unit that is worth too much to divide by, a quantity cannot even be added
in the unit itself. -/
theorem not_agree_percent : ∃ u v : CompoundUnit,
    u.Reachable ∧ u.isDimensionless = true ∧
    ¬ Agree (Quantity.addScalar ⟨.scalar 50.0, u⟩ 1.0)
      (Quantity.add ⟨.scalar 50.0, u⟩ (dimensionless (.scalar 1.0))) ∧
    v.Reachable ∧ v.isDimensionless = true ∧
    ¬ Agree (Quantity.addScalar ⟨.scalar 50.0, v⟩ 1.0)
      (Quantity.add ⟨.scalar 50.0, v⟩ ⟨.scalar 1.0, v⟩) := by
  have hrun : ((CompoundUnit.parse "percent").map fun u => (u.isDimensionless,
      decide (Agree (Quantity.addScalar ⟨.scalar 50.0, u⟩ 1.0)
        (Quantity.add ⟨.scalar 50.0, u⟩ (dimensionless (.scalar 1.0)))))).toOption =
      some (true, false) := by
    decide +kernel
  obtain ⟨u, -, hu, hc⟩ := CompoundUnit.exists_reachable hrun
  have hrun : ((CompoundUnit.parse "1e200 * 1e200").map fun v => (v.isDimensionless,
      decide (Agree (Quantity.addScalar ⟨.scalar 50.0, v⟩ 1.0)
        (Quantity.add ⟨.scalar 50.0, v⟩ ⟨.scalar 1.0, v⟩)))).toOption = some (true, false) := by
    decide +kernel
  obtain ⟨v, -, hv, hd⟩ := CompoundUnit.exists_reachable hrun
  exact ⟨u, v, hu, (Prod.mk.inj hc).1, of_decide_eq_false (Prod.mk.inj hc).2, hv,
    (Prod.mk.inj hd).1, of_decide_eq_false (Prod.mk.inj hd).2⟩

end QuantityCalculus.Quantity
