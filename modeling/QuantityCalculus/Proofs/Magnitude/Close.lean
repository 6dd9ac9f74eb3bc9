import QuantityCalculus.Proofs.Binary64.Accuracy
import QuantityCalculus.Proofs.Magnitude.Shape

/-! Closeness and errors. What a number may be away from another one is more than a part in `2 ^ 19`
of the other one and `9 / 2 ^ 30` besides, and their distance is computed up to a small part of
itself; so finite numbers that are near the same rational are close. -/

namespace QuantityCalculus.Magnitude

open Binary64 Float.Model Float.Model.UnpackedFloat

variable {x y : Float} {a : ℚ}

theorem absoluteTolerance_mem : absoluteTolerance.isFinite = true ∧
    5 / 2 ^ 29 ≤ toRat absoluteTolerance ∧ toRat absoluteTolerance ≤ 1 / 2 := by
  decide +kernel

theorem relativeTolerance_mem : relativeTolerance.isFinite = true ∧
    1 / 2 ^ 17 ≤ toRat relativeTolerance ∧
    toRat relativeTolerance ≤ 1 / 2 ^ 16 := by
  decide +kernel

/-- A rational of half the size that numbers can have is rounded to a finite number. -/
theorem exists_large : ∃ p : ℚ, 1 ≤ p ∧ (∀ x, |toRat x| ≤ 2 * p) ∧
    ∀ z v, Rounds z v → |v| ≤ p → z.isFinite = true := by
  refine ⟨2 ^ (1023 : ℤ), one_le_zpow₀ one_le_two (by decide), fun x => ?_, fun z v h hv => ?_⟩
  · refine (abs_toRat_le x).trans_eq ?_
    rw [← zpow_natCast, ← zpow_one_add₀ two_ne_zero]
    rfl
  · exact (h.le_two_pow (by decide) le_rfl hv).1

/-- The part of a number that another one may be away from it. -/
theorem relative_mem (hy : y.isFinite = true) :
    (relativeTolerance * y.abs).isFinite = true ∧
      |toRat y| / 2 ^ 18 ≤ toRat (relativeTolerance * y.abs) + tiny ∧
      toRat (relativeTolerance * y.abs) ≤ |toRat y| / 2 ^ 15 + tiny := by
  obtain ⟨hρ, hρ₁, hρ₂⟩ := relativeTolerance_mem
  generalize relativeTolerance = ρ at *
  obtain ⟨p, hp, hlarge, hrange⟩ := exists_large
  have hbound := hlarge y
  have hpos := abs_nonneg (toRat y)
  have hge : 1 / 2 ^ 17 * |toRat y| ≤ toRat ρ * |toRat y| := mul_le_mul_of_nonneg_right hρ₁ hpos
  have hle : toRat ρ * |toRat y| ≤ 1 / 2 ^ 16 * |toRat y| := mul_le_mul_of_nonneg_right hρ₂ hpos
  have hexact : 0 ≤ toRat ρ * |toRat y| := le_trans (by positivity) hge
  have hrounds := rounds_mul hρ ((isFinite_abs y).trans hy)
  rw [toRat_abs] at hrounds
  have hfinite : (ρ * y.abs).isFinite = true := by
    refine hrange _ _ hrounds ?_
    rw [abs_of_nonneg hexact]
    linarith
  have hnear := hrounds.near_toRat hfinite
  have hbelow := Near.abs_ge hnear
  have habove := Near.abs_le hnear
  rw [abs_of_nonneg hexact, abs_of_nonneg (hrounds.nonneg hfinite hexact)] at hbelow habove
  refine ⟨hfinite, ?_, ?_⟩ <;> linarith

/-- What a number is allowed to be away from another one. -/
theorem le_tolerance (hy : y.isFinite = true) :
    (absoluteTolerance + relativeTolerance * y.abs).isFinite = true ∧
      9 / 2 ^ 30 + |toRat y| / 2 ^ 19 ≤ toRat (absoluteTolerance + relativeTolerance * y.abs) := by
  obtain ⟨hα, hα₁, hα₂⟩ := absoluteTolerance_mem
  obtain ⟨hρ, hρ₁, hρ₂⟩ := relative_mem hy
  generalize absoluteTolerance = α at *
  generalize relativeTolerance * y.abs = z at *
  obtain ⟨p, hp, hlarge, hrange⟩ := exists_large
  have hbound := hlarge y
  have htiny := tiny_le
  have hpos := abs_nonneg (toRat y)
  have hexact : 0 ≤ toRat α + toRat z := by linarith
  have hrounds := rounds_add hα hρ
  have hfinite : (α + z).isFinite = true := by
    refine hrange _ _ hrounds ?_
    rw [abs_of_nonneg hexact]
    linarith
  have hbelow := Near.abs_ge (near_add hα hρ hfinite)
  rw [abs_of_nonneg hexact, abs_of_nonneg (hrounds.nonneg hfinite hexact)] at hbelow
  exact ⟨hfinite, by linarith⟩

/-- Finite numbers that are both near some rational are close. -/
theorem isClose_of_near (hx : x.isFinite = true) (hy : y.isFinite = true)
    (ha : Near (1 / 2 ^ 40) (1 / 2 ^ 28) (toRat x) a)
    (hb : Near (1 / 2 ^ 40) (1 / 2 ^ 28) (toRat y) a) : isClose x y = true := by
  have hle := hb.abs_ge
  have hxy : |toRat x - toRat y| ≤ 17 / 2 ^ 31 + 1 / 2 ^ 20 * |toRat y| := by
    have htriangle := abs_sub_le (toRat x) a (toRat y)
    rw [abs_sub_comm a] at htriangle
    have ha : |toRat x - a| ≤ 1 / 2 ^ 40 * |a| + 1 / 2 ^ 28 := ha
    have hb : |toRat y - a| ≤ 1 / 2 ^ 40 * |a| + 1 / 2 ^ 28 := hb
    have hpos := abs_nonneg a
    linarith
  obtain ⟨p, hp, hlarge, hrange⟩ := exists_large
  have hbound := hlarge y
  have hfinite : (x - y).isFinite = true := by
    refine hrange _ _ (rounds_sub hx hy) ?_
    linarith
  have hsub : |toRat (x - y)| ≤ (1 + 1 / 2 ^ 53) * |toRat x - toRat y| + 0 :=
    Near.abs_le (near_sub hx hy hfinite)
  obtain ⟨htolerance, hge⟩ := le_tolerance hy
  have hpos := abs_nonneg (toRat y)
  rw [isClose, Bool.or_eq_true, decide_eq_true_iff,
    le_iff ((isFinite_abs _).trans hfinite) htolerance, toRat_abs]
  right
  linarith

/-- The tolerance around an infinity. -/
theorem unpack_tolerance (hy : y.isInf = true) :
    (absoluteTolerance + relativeTolerance * y.abs).toModel.unpack = .infinity .positive := by
  obtain ⟨s, hu⟩ := isInf_iff.1 hy
  have hy : y.abs.toModel.unpack = .infinity .positive := by
    rw [unpack_abs, hu]
    rfl
  obtain ⟨m, e, hm, hρ⟩ := unpack_of_toRat_pos
    (lt_of_lt_of_le (by norm_num) relativeTolerance_mem.2.1)
  have hproduct : (relativeTolerance * y.abs).toModel.unpack = .infinity .positive := by
    rw [unpack_mul, hρ, hy]
    exact unpack_pack_infinity .positive
  have hsum : (absoluteTolerance + relativeTolerance * y.abs).toModel.unpack =
      (Float.Model.pack (absoluteTolerance.toModel.unpack.add .binary64
        (relativeTolerance * y.abs).toModel.unpack)).unpack := rfl
  rcases finite_cases absoluteTolerance_mem.1 with ⟨s', hα⟩ | ⟨s', m, e, hm, hα, -⟩ <;>
    rw [hsum, hα, hproduct] <;> exact unpack_pack_infinity .positive

/-- A finite number is close to any infinity, which allows for any distance. -/
theorem isClose_of_isInf (hx : x.isFinite = true) (hy : y.isInf = true) : isClose x y = true := by
  have htolerance := unpack_tolerance hy
  obtain ⟨s, hu⟩ := isInf_iff.1 hy
  have hdistance : (x - y).abs.toModel.unpack = .infinity .positive := by
    have hsub : (x - y).toModel.unpack =
        (Float.Model.pack (x.toModel.unpack.sub .binary64 y.toModel.unpack)).unpack := rfl
    rw [unpack_abs]
    rcases finite_cases hx with ⟨s', hu'⟩ | ⟨s', m, e, hm, hu', -⟩ <;> rw [hsub, hu, hu'] <;>
      exact congrArg UnpackedFloat.abs (unpack_pack_infinity (-s))
  rw [isClose, Bool.or_eq_true, decide_eq_true_iff, le_iff_compare, hdistance, htolerance]
  exact .inr rfl

/-- No number is close to what is not one. -/
theorem isClose_of_isNaN (hy : y.isNaN = true) : isClose x y = false := by
  have hpart : (relativeTolerance * y.abs).isNaN = true :=
    isNaN_mul_iff.2 (.inr (.inl ((isNaN_abs y).trans hy)))
  rw [isClose, beq_eq_false_of_isNaN hy, Bool.false_or, decide_eq_false_iff_not]
  exact not_le_of_isNaN (isNaN_add_right hpart)

theorem allClose_map_iff {α : Type} {f g : α → Float} {m : Magnitude α} :
    (m.map f).allClose (m.map g) = true ↔ ∀ v ∈ m.toList, isClose (f v) (g v) = true := by
  cases m with
  | scalar v =>
    have hall : (map f (scalar v)).allClose (map g (scalar v)) = [isClose (f v) (g v)].all id := rfl
    simp [hall, toList]
  | row vs =>
    have hlength : (vs.map f).length = (vs.map g).length := by
      rw [List.length_map, List.length_map]
    have hall : (map f (row vs)).allClose (map g (row vs)) =
        (List.zipWith isClose (vs.map f) (vs.map g)).all id := by
      unfold allClose allPairs
      rw [map, map, zipWith, if_pos hlength]
      rfl
    simp [hall, toList, List.zipWith_map, List.zipWith_self]

theorem allClose_map {α : Type} {f g : α → Float} {m : Magnitude α}
    (h : ∀ v ∈ m.toList, isClose (f v) (g v) = true) : (m.map f).allClose (m.map g) = true :=
  allClose_map_iff.2 h

/-- A magnitude of numbers is close to itself. -/
theorem allClose_self {m : Magnitude Float} (h : ∀ v ∈ m.toList, v.isNaN = false) :
    m.allClose m = true := by
  have hclose : ∀ v ∈ m.toList, isClose (id v) (id v) = true := fun v hv => by
    rw [isClose, id, beq_self_of_not_isNaN (h v hv), Bool.true_or]
  have hself := allClose_map hclose
  rwa [map_id] at hself

end QuantityCalculus.Magnitude
