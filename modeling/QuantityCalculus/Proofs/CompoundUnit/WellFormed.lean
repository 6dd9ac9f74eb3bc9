import QuantityCalculus.CompoundUnit.Conversion
import QuantityCalculus.CompoundUnit.Parse
import QuantityCalculus.Proofs.CompoundUnit.MergeAll

/-! The invariant of units. The names of a unit are distinct and known, its powers are representable
and not zero, and its dimension is the sum of the dimensions of its names, each times the power.
Every way to build a unit is shown to keep all of this. Powers and dimension are gathered apart
from each other, so what is kept along the way is that they agree (`Agrees`). -/

namespace QuantityCalculus

theorem liftExponent_eq_ok_iff {α : Type} {wrap : ExponentError → Error}
    {r : Except ExponentError α} {a : α} : liftExponent wrap r = .ok a ↔ r = .ok a := by
  cases r <;> simp [liftExponent]

namespace Table

theorem lookup_eq_ok_iff {name : String} {unit : AtomicUnit} :
    lookup name = .ok unit ↔ lookup? name = some unit := by
  unfold lookup
  split <;> simp_all

theorem unitDimension_eq_ok_iff {name : String} {d : Dimension} :
    unitDimension name = .ok d ↔ ∃ unit, lookup? name = some unit ∧ d = unit.family.dimension := by
  simp only [unitDimension, bind_eq_ok_iff, lookup_eq_ok_iff, pure, Except.pure, Except.ok.injEq,
    eq_comm (b := d)]

/-- The exponent of a base quantity in the dimension of an atomic unit. -/
def exponentOf (b : BaseQuantity) (name : String) : ℚ :=
  match unitDimension name with
  | .ok d => (d.get b).val
  | .error _ => 0

theorem exponentOf_eq {name : String} {d : Dimension} (h : unitDimension name = .ok d)
    (b : BaseQuantity) : exponentOf b name = (d.get b).val := by
  simp [exponentOf, h]

end Table

namespace CompoundUnit

open Powers

/-- An atomic unit other than the pure number. -/
def Known (name : String) : Prop :=
  name ≠ dimensionlessName ∧ ∃ unit, Table.lookup? name = some unit

theorem lookup_dimensionless :
    ∃ unit, Table.lookup? dimensionlessName = some unit ∧ unit.family = .dimensionless :=
  Option.map_eq_some_iff.1 (by decide +kernel)

theorem exponentOf_dimensionless (b : BaseQuantity) :
    Table.exponentOf b dimensionlessName = 0 := by
  obtain ⟨unit, hu, hf⟩ := lookup_dimensionless
  rw [Table.exponentOf_eq (Table.unitDimension_eq_ok_iff.2 ⟨unit, hu, rfl⟩), hf]
  cases b <;> rfl

/-- Powers and a dimension gathered for the same unit. Powers may have cancelled to zero. -/
structure Agrees (ps : Powers) (d : Dimension) : Prop where
  sound : Sound ps
  known : ∀ n ∈ names ps, Known n
  dimension_val : ∀ b, (d.get b).val = weigh (Table.exponentOf b) ps
  dimension_representable : ∀ b, Representable (d.get b).val

structure WellFormed (u : CompoundUnit) : Prop where
  agrees : Agrees u.components u.dimension
  nonzero : ∀ q ∈ u.components, q.2 ≠ 0

theorem agrees_nil : Agrees [] .dimensionless := by
  refine ⟨sound_nil, by simp, fun b => ?_, fun b => ?_⟩
  · rw [Dimension.get_dimensionless, weigh_nil, Exponent.zero_val]
  · rw [Dimension.get_dimensionless]
    exact representable_zero

theorem Agrees.build {ps : Powers} {d : Dimension} (h : Agrees ps d) (scale : Float) :
    WellFormed (build ps scale d) := by
  refine ⟨⟨h.sound.dropZeros, fun n hn => ?_, fun b => ?_, h.dimension_representable⟩, ?_⟩
  · obtain ⟨q, hq, rfl⟩ := List.mem_map.1 hn
    exact h.known _ (List.mem_map_of_mem (List.mem_of_mem_filter hq))
  · exact (h.dimension_val b).trans (weigh_dropZeros _ _).symm
  · intro q hq
    simpa using (List.mem_filter.1 hq).2

/-! ### Products, quotients and powers -/

theorem Agrees.merged {s : ℚ} {ps qs rs : Powers} {d e g : Dimension} (hp : Agrees ps d)
    (hq : Agrees qs e) (hm : Merged s ps qs rs)
    (hg : ∀ b, Representable (g.get b).val ∧ (g.get b).val = (d.get b).val + s * (e.get b).val) :
    Agrees rs g := by
  refine ⟨hm.sound, fun n hn => ?_, fun b => ?_, fun b => (hg b).1⟩
  · exact ((hm.mem_names n).1 hn).elim (hp.known n) (hq.known n)
  · rw [(hg b).2, hm.weigh, hp.dimension_val, hq.dimension_val]

theorem Agrees.scaled {x : Exponent} {ps rs : Powers} {d e : Dimension} (hp : Agrees ps d)
    (hs : Scaled x.val ps rs)
    (he : ∀ b, Representable (e.get b).val ∧ (e.get b).val = (d.get b).val * x.val) :
    Agrees rs e := by
  refine ⟨⟨hs.names_eq ▸ hp.sound.nodup, hs.representable⟩, ?_, fun b => ?_, fun b => (he b).1⟩
  · rw [hs.names_eq]
    exact hp.known
  · rw [(he b).2, hs.weigh, hp.dimension_val]

theorem multiply_eq_ok_iff {u v w : CompoundUnit} :
    u.multiply v = .ok w ↔ ∃ rs d, mergeAll u.components v.components = .ok rs ∧
      u.dimension.add v.dimension = .ok d ∧ w = build rs (u.scale * v.scale) d := by
  simp only [multiply, bind_eq_ok_iff, pure, Except.pure, Except.ok.injEq, eq_comm (b := w)]
  grind

theorem divide_eq_ok_iff {u v w : CompoundUnit} :
    u.divide v = .ok w ↔ ∃ rs d, mergeAllNeg u.components v.components = .ok rs ∧
      u.dimension.sub v.dimension = .ok d ∧ w = build rs (u.scale / v.scale) d := by
  simp only [divide, bind_eq_ok_iff, pure, Except.pure, Except.ok.injEq, eq_comm (b := w)]
  grind

theorem power_eq_ok_iff {u w : CompoundUnit} {x : Exponent} :
    u.power x = .ok w ↔ ∃ rs d, u.components.scale x = .ok rs ∧
      u.dimension.scale x = .ok d ∧ w = build rs (x.raise u.scale) d := by
  simp only [power, bind_eq_ok_iff, pure, Except.pure, Except.ok.injEq, eq_comm (b := w)]
  grind

theorem wellFormed_scalar (scale : Float) : WellFormed (scalar scale) :=
  agrees_nil.build scale

theorem wellFormed_dimensionless : WellFormed dimensionless :=
  agrees_nil.build 1.0

theorem WellFormed.multiply {u v w : CompoundUnit} (hu : WellFormed u) (hv : WellFormed v)
    (h : u.multiply v = .ok w) : WellFormed w := by
  obtain ⟨rs, d, hm, hd, rfl⟩ := multiply_eq_ok_iff.1 h
  have hd := Dimension.add_eq_ok_iff.1 hd
  have hm := mergeThrough_merged multiplies_ok hu.agrees.sound hv.agrees.sound hm
  refine (hu.agrees.merged hv.agrees hm fun b => ?_).build _
  rw [(hd b).2, one_mul]
  exact ⟨(hd b).1, rfl⟩

theorem WellFormed.divide {u v w : CompoundUnit} (hu : WellFormed u) (hv : WellFormed v)
    (h : u.divide v = .ok w) : WellFormed w := by
  obtain ⟨rs, d, hm, hd, rfl⟩ := divide_eq_ok_iff.1 h
  have hd := (Dimension.sub_eq_ok_iff hv.agrees.dimension_representable).1 hd
  have hm := mergeThrough_merged multiplies_neg hu.agrees.sound hv.agrees.sound hm
  refine (hu.agrees.merged hv.agrees hm fun b => ?_).build _
  rw [(hd b).2, neg_one_mul, ← sub_eq_add_neg]
  exact ⟨(hd b).1, rfl⟩

theorem WellFormed.power {u w : CompoundUnit} {x : Exponent} (hu : WellFormed u)
    (h : u.power x = .ok w) : WellFormed w := by
  obtain ⟨rs, d, hs, hd, rfl⟩ := power_eq_ok_iff.1 h
  have hd := Dimension.scale_eq_ok_iff.1 hd
  refine (hu.agrees.scaled (scale_scaled hs) fun b => ?_).build _
  rw [(hd b).2]
  exact ⟨(hd b).1, rfl⟩

theorem WellFormed.simplified {u : CompoundUnit} (hu : WellFormed u) : WellFormed u.simplified :=
  ⟨hu.agrees, hu.nonzero⟩

theorem WellFormed.rename {u : CompoundUnit} (hu : WellFormed u) (name : String) :
    WellFormed { u with name := name } :=
  ⟨hu.agrees, hu.nonzero⟩

/-! ### Units from names and powers -/

@[simp] theorem gather_dimensionless (acc : Powers × Dimension) (x : Exponent) :
    gather acc (dimensionlessName, x) = .ok acc := by
  simp [gather]

/-- All that gathering a name other than the pure number does. -/
theorem gather_eq_ok_iff {ps rs : Powers} {d e : Dimension} {name : String} {x : Exponent}
    (hn : name ≠ dimensionlessName) :
    gather (ps, d) (name, x) = .ok (rs, e) ↔
      Representable x.val ∧ (∃ unit, Table.lookup? name = some unit) ∧
        (∀ b, Representable (x.val * Table.exponentOf b name)) ∧
        (∀ b, Representable ((d.get b).val + x.val * Table.exponentOf b name) ∧
          (e.get b).val = (d.get b).val + x.val * Table.exponentOf b name) ∧
        merge ps name x = .ok rs := by
  simp only [gather, if_neg hn, bind_eq_ok_iff, liftExponent_eq_ok_iff, pure, Except.pure,
    Except.ok.injEq, Prod.mk.injEq]
  constructor
  · rintro ⟨y, hy, base, hu, scaled, hs, total, ht, merged, hm, rfl, rfl⟩
    obtain ⟨unit, hl, -⟩ := Table.unitDimension_eq_ok_iff.1 hu
    have hs : ∀ b, Representable (x.val * Table.exponentOf b name) ∧
        (scaled.get b).val = x.val * Table.exponentOf b name := by
      intro b
      rw [Table.exponentOf_eq hu, mul_comm]
      exact Dimension.scale_eq_ok_iff.1 hs b
    refine ⟨representable_neg_iff.1 (Exponent.neg_eq_ok_iff.1 hy).1, ⟨unit, hl⟩,
      fun b => (hs b).1, fun b => ?_, hm⟩
    rw [← (hs b).2]
    exact Dimension.add_eq_ok_iff.1 ht b
  · rintro ⟨hx, ⟨unit, hl⟩, hscaled, htotal, hm⟩
    obtain ⟨y, hy, -⟩ := Exponent.exists_neg hx
    have hu := Table.unitDimension_eq_ok_iff.2 ⟨unit, hl, rfl⟩
    simp only [Table.exponentOf_eq hu, mul_comm x.val] at hscaled htotal
    obtain ⟨scaled, hs⟩ := (Dimension.scale_yields unit.family.dimension x).isOk_iff.2 hscaled
    have hval := Dimension.scale_eq_ok_iff.1 hs
    refine ⟨y, hy, _, hu, scaled, hs, e, Dimension.add_eq_ok_iff.2 fun b => ?_, rs, hm, rfl, rfl⟩
    rw [(hval b).2]
    exact htotal b

theorem gather_agrees {ps rs : Powers} {d e : Dimension} {q : String × Exponent}
    (hp : Agrees ps d) (h : gather (ps, d) q = .ok (rs, e)) : Agrees rs e := by
  obtain ⟨name, x⟩ := q
  by_cases hn : name = dimensionlessName
  · subst hn
    rw [gather_dimensionless] at h
    cases h
    exact hp
  · obtain ⟨hx, hu, -, ht, hm⟩ := (gather_eq_ok_iff hn).1 h
    refine ⟨hp.sound.merge hx hm, fun n hmem => ?_, fun b => ?_, fun b => (ht b).2 ▸ (ht b).1⟩
    · rcases (mem_names_merge hm n).1 hmem with hmem | rfl
      · exact hp.known n hmem
      · exact ⟨hn, hu⟩
    · rw [(ht b).2, weigh_merge _ hm, hp.dimension_val]

theorem foldlM_gather_agrees {components ps rs : Powers} {d e : Dimension} (hp : Agrees ps d)
    (h : components.foldlM gather (ps, d) = .ok (rs, e)) : Agrees rs e := by
  induction components generalizing ps d with
  | nil =>
    cases h
    exact hp
  | cons q components ih =>
    rw [List.foldlM_cons, bind_eq_ok_iff] at h
    obtain ⟨⟨ms, f⟩, hg, h⟩ := h
    exact ih (gather_agrees hp hg) h

theorem wellFormed_ofComponents {components : Powers} {scale : Float} {u : CompoundUnit}
    (h : ofComponents components scale = .ok u) : WellFormed u := by
  simp only [ofComponents, bind_eq_ok_iff] at h
  obtain ⟨⟨ps, d⟩, hg, h⟩ := h
  cases h
  exact (foldlM_gather_agrees agrees_nil hg).build scale

theorem wellFormed_toBaseUnits {u v : CompoundUnit} (h : u.toBaseUnits = .ok v) : WellFormed v := by
  obtain ⟨families, -, h⟩ := bind_eq_ok_iff.1 h
  exact wellFormed_ofComponents h

end CompoundUnit

end QuantityCalculus
