import QuantityCalculus.Proofs.Binary64.Special
import QuantityCalculus.Proofs.Measurement.Refinement

/-! Valid uncertainties. An uncertainty is valid if it is a number that is not negative. It is checked
wherever it is attached to a quantity, so that an operation can only lose its validity where it
changes an uncertainty without attaching it again: the product and the quotient by a plain number.
There an uncertainty is lost exactly if its product or quotient is indeterminate. -/

namespace QuantityCalculus.Measurement

open Binary64

/-- Every uncertainty is a number and none is negative. -/
def Valid (m : Measurement) : Prop :=
  ∀ s ∈ m.uncertainty.toList, s.isNaN = false ∧ ¬ s < 0.0

/-- Neither a product with a plain number is one of zero and infinity, nor a quotient by a plain
number one of two zeros or of two infinities. -/
def Operation.Determinate : Operation → Measurement → Prop
  | mulScalar x, m => ∀ s ∈ m.uncertainty.toList, x.isNaN = false ∧
      ¬ (s.isInf = true ∧ (x == 0.0) = true) ∧ ¬ ((s == 0.0) = true ∧ x.isInf = true)
  | divScalar x, m => ∀ s ∈ m.uncertainty.toList, x.isNaN = false ∧
      ¬ (s.isInf = true ∧ x.isInf = true) ∧ ¬ ((s == 0.0) = true ∧ (x == 0.0) = true)
  | _, _ => True

variable {m k : Measurement}

theorem isInvalid_eq_false_iff {s : Float} : isInvalid s = false ↔ s.isNaN = false ∧ ¬ s < 0.0 := by
  rw [isInvalid, Bool.or_eq_false_iff, decide_eq_false_iff_not]

/-! ### Uncertainties that are checked -/

/-- What comes out has valid uncertainties. -/
def Checked (r : Except Error Measurement) : Prop := ∀ k, r = .ok k → k.Valid

theorem checked_ofQuantity (q : Quantity) (sigma : Magnitude Float) :
    Checked (ofQuantity q sigma) := by
  intro k h
  obtain ⟨tau, -, h⟩ := bind_eq_ok_iff.1 h
  split at h
  · cases h
  · rename_i hnone
    cases h
    intro s hs
    exact isInvalid_eq_false_iff.1 (Bool.eq_false_iff.2 (List.find?_eq_none.1 hnone s hs))

theorem checked_bind {α : Type} {r : Except Error α} {f : α → Except Error Measurement}
    (h : ∀ a, Checked (f a)) : Checked (r >>= f) := by
  intro k hk
  obtain ⟨a, -, ha⟩ := bind_eq_ok_iff.1 hk
  exact h a k ha

theorem valid_exact (q : Quantity) : (exact q).Valid := by
  have hzero : (0.0 : Float).isNaN = false ∧ ¬ (0.0 : Float) < 0.0 := by decide +kernel
  intro s hs
  have hs : s ∈ q.magnitude.zerosLike.toList := hs
  cases hq : q.magnitude with
  | scalar x =>
    rw [hq] at hs
    exact List.mem_singleton.1 hs ▸ hzero
  | row xs =>
    rw [hq] at hs
    obtain ⟨x, -, rfl⟩ := List.mem_map.1 hs
    exact hzero

/-! ### Uncertainties that are scaled -/

/-- A valid uncertainty keeps its sign when it is multiplied with an absolute value. -/
theorem valid_mul_abs_iff {s x : Float} (hs : s.isNaN = false ∧ ¬ s < 0.0) :
    ((s * x.abs).isNaN = false ∧ ¬ s * x.abs < 0.0) ↔ x.isNaN = false ∧
      ¬ (s.isInf = true ∧ (x == 0.0) = true) ∧ ¬ ((s == 0.0) = true ∧ x.isInf = true) := by
  rw [and_iff_left (not_mul_abs_lt_zero hs.2 x), ← Bool.not_eq_true, isNaN_mul_iff, isNaN_abs,
    isInf_abs, abs_beq_zero, hs.1]
  simp

theorem valid_div_abs_iff {s x : Float} (hs : s.isNaN = false ∧ ¬ s < 0.0) :
    ((s / x.abs).isNaN = false ∧ ¬ s / x.abs < 0.0) ↔ x.isNaN = false ∧
      ¬ (s.isInf = true ∧ x.isInf = true) ∧ ¬ ((s == 0.0) = true ∧ (x == 0.0) = true) := by
  rw [and_iff_left (not_div_abs_lt_zero hs.2 x), ← Bool.not_eq_true, isNaN_div_iff, isNaN_abs,
    isInf_abs, abs_beq_zero, hs.1]
  simp

theorem valid_mulScalar_iff (hm : m.Valid) (x : Float) :
    (m.mulScalar x).Valid ↔ (Operation.mulScalar x).Determinate m :=
  Magnitude.forall_mem_toList_map.trans (forall₂_congr fun s hs => valid_mul_abs_iff (hm s hs))

theorem valid_divScalar_iff (hm : m.Valid) (x : Float) :
    (m.divScalar x).Valid ↔ (Operation.divScalar x).Determinate m :=
  Magnitude.forall_mem_toList_map.trans (forall₂_congr fun s hs => valid_div_abs_iff (hm s hs))

/-! ### Operations -/

theorem checked_convert (m : Measurement) (target : UnitSource) : Checked (m.convert target) :=
  checked_bind fun _ => checked_bind fun _ => checked_bind fun _ => checked_ofQuantity _ _

theorem checked_pow (m : Measurement) (x : Exponent) : Checked (m.pow x) :=
  checked_bind fun _ => checked_bind fun _ => checked_ofQuantity _ _

/-- An operation checks what it attaches, keeps the uncertainty it had, or scales it by a plain
number. -/
theorem Operation.checked_cases (op : Operation) (m : Measurement) :
    (Checked (op.apply m) ∧ op.Determinate m) ∨ op = .neg ∨ op = .abs ∨
      (∃ x, op = .mulScalar x) ∨ ∃ x, op = .divScalar x := by
  have hattached : ∀ q sigma, Checked (ofQuantity q sigma) := checked_ofQuantity
  cases op with
  | convert target => exact .inl ⟨checked_convert m target, trivial⟩
  | add n | sub n | mul n | div n =>
    exact .inl ⟨checked_bind fun _ => checked_bind fun _ => checked_bind fun _ => hattached _ _, trivial⟩
  | addQuantity q | subQuantity q => exact .inl ⟨checked_bind fun _ => hattached _ _, trivial⟩
  | mulQuantity q | divQuantity q =>
    exact .inl ⟨checked_bind fun _ => checked_bind fun _ => hattached _ _, trivial⟩
  | addScalar x | subScalar x | scalarSub x =>
    exact .inl ⟨checked_bind fun _ => hattached _ _, trivial⟩
  | scalarDiv x => exact .inl ⟨checked_bind fun _ => checked_bind fun _ => hattached _ _, trivial⟩
  | pow x => exact .inl ⟨checked_pow m x, trivial⟩
  | powFloat x => exact .inl ⟨checked_bind fun y => checked_pow m y, trivial⟩
  | sqrt => exact .inl ⟨checked_pow m .half, trivial⟩
  | neg => exact .inr (.inl rfl)
  | abs => exact .inr (.inr (.inl rfl))
  | mulScalar x => exact .inr (.inr (.inr (.inl ⟨x, rfl⟩)))
  | divScalar x => exact .inr (.inr (.inr (.inr ⟨x, rfl⟩)))

/-- An operation keeps uncertainties valid exactly if it forms none that is indeterminate. -/
theorem Operation.valid_iff (hm : m.Valid) {op : Operation} (h : op.apply m = .ok k) :
    k.Valid ↔ op.Determinate m := by
  rcases op.checked_cases m with ⟨hc, hd⟩ | rfl | rfl | ⟨x, rfl⟩ | ⟨x, rfl⟩
  · exact iff_of_true (hc k h) hd
  · cases h
    exact iff_true_intro hm
  · cases h
    exact iff_true_intro hm
  · cases h
    exact valid_mulScalar_iff hm x
  · cases h
    exact valid_divScalar_iff hm x

/-- No uncertainty of a measurement that was reached is negative, although it need not be a number. -/
theorem Reachable.not_lt_zero (h : Reachable m) : ∀ s ∈ m.uncertainty.toList, ¬ s < 0.0 := by
  have hvalid : ∀ {k : Measurement}, k.Valid → ∀ s ∈ k.uncertainty.toList, ¬ s < 0.0 :=
    fun hk s hs => (hk s hs).2
  induction h with
  | ofSource h => exact hvalid (checked_bind (fun _ => checked_ofQuantity _ _) _ h)
  | ofQuantity h => exact hvalid (checked_ofQuantity _ _ _ h)
  | exact q => exact hvalid (valid_exact q)
  | @step m k op _ _ hk ih _ =>
    rcases op.checked_cases m with ⟨hc, -⟩ | rfl | rfl | ⟨x, rfl⟩ | ⟨x, rfl⟩
    · exact hvalid (hc k hk)
    · cases hk
      exact ih
    · cases hk
      exact ih
    · cases hk
      exact Magnitude.forall_mem_toList_map.2 fun s hs => not_mul_abs_lt_zero (ih s hs) x
    · cases hk
      exact Magnitude.forall_mem_toList_map.2 fun s hs => not_div_abs_lt_zero (ih s hs) x

/-- Measurements that finitely many operations lead to, none of which forms an indeterminate
uncertainty. -/
inductive DeterminatelyReachable : Measurement → Prop
  | ofSource {magnitude : Magnitude Float} {source : UnitSource}
    {uncertainty : Option (Magnitude Float)} {relative : Option Float} {m : Measurement} :
    ofSource magnitude source uncertainty relative = .ok m → DeterminatelyReachable m
  | ofQuantity {q : Quantity} {uncertainty : Magnitude Float} {m : Measurement} :
    ofQuantity q uncertainty = .ok m → DeterminatelyReachable m
  | exact (q : Quantity) : DeterminatelyReachable (exact q)
  | step {m k : Measurement} {op : Operation} : DeterminatelyReachable m →
    (∀ n, op.operand? = some n → DeterminatelyReachable n) → op.Determinate m →
    op.apply m = .ok k → DeterminatelyReachable k

theorem DeterminatelyReachable.valid (h : DeterminatelyReachable m) : m.Valid := by
  induction h with
  | ofSource h => exact checked_bind (fun _ => checked_ofQuantity _ _) _ h
  | ofQuantity h => exact checked_ofQuantity _ _ _ h
  | exact q => exact valid_exact q
  | step _ _ hdet hk ih _ => exact (Operation.valid_iff ih hk).2 hdet

/-- What holds of a measurement that was reached without an indeterminate uncertainty. -/
structure ValidityLaw (m : Measurement) : Prop where
  valid : m.Valid
  step : ∀ (op : Operation) (k : Measurement), op.apply m = .ok k → (k.Valid ↔ op.Determinate m)

theorem DeterminatelyReachable.validityLaw (h : DeterminatelyReachable m) : ValidityLaw m where
  valid := h.valid
  step _ _ hk := Operation.valid_iff h.valid hk

/-- A row with a zero among its uncertainties, multiplied by zero. -/
theorem validityLaw_row : ∃ m : Measurement, DeterminatelyReachable m ∧
    m.uncertainty = .row [0.5, 0.0] ∧ ValidityLaw m ∧ (m.mulScalar 0.0).Valid := by
  have hrun : ((ofSource (.row [2.0, -3.5]) (.text "kN / second^2") (some (.row [0.5, 0.0])) none).map
      fun m => m.uncertainty).toOption = some (.row [0.5, 0.0]) := by
    decide +kernel
  obtain ⟨m, hm, hs⟩ := map_eq_ok_iff.1 (toOption_eq_some_iff.1 hrun)
  have hm := DeterminatelyReachable.ofSource hm
  have hdet : ∀ s ∈ [0.5, 0.0], (0.0 : Float).isNaN = false ∧
      ¬ (s.isInf = true ∧ ((0.0 : Float) == 0.0) = true) ∧
      ¬ ((s == 0.0) = true ∧ (0.0 : Float).isInf = true) := by
    decide +kernel
  refine ⟨m, hm, hs, hm.validityLaw, (hm.validityLaw.step (.mulScalar 0.0) _ rfl).2 ?_⟩
  show ∀ s ∈ m.uncertainty.toList, _
  rw [hs]
  exact hdet

/-- The quotient of an exact measurement by zero has an uncertainty that is not a number. -/
theorem not_valid_divScalar_zero : ∃ m k : Measurement, Reachable m ∧ m.Valid ∧
    (Operation.divScalar 0.0).apply m = .ok k ∧ Reachable k ∧ ¬ k.Valid := by
  have hrun : ((ofSource (.scalar 5.0) (.text "s") none none).map
      fun m => m.uncertainty).toOption = some (.scalar 0.0) := by
    decide +kernel
  obtain ⟨m, hm, hs⟩ := map_eq_ok_iff.1 (toOption_eq_some_iff.1 hrun)
  have hnan : (0.0 / (0.0 : Float).abs).isNaN = true := by decide +kernel
  have hvalid := checked_bind (fun _ => checked_ofQuantity _ _) m hm
  have hm := Reachable.ofSource hm
  have hstep : (Operation.divScalar 0.0).apply m = .ok (m.divScalar 0.0) := rfl
  have hnone : ∀ n, (Operation.divScalar 0.0).operand? = some n → Reachable n := by
    rintro n ⟨⟩
  refine ⟨m, _, hm, hvalid, hstep, .step hm hnone hstep, fun h => ?_⟩
  have hmem : 0.0 / (0.0 : Float).abs ∈ (m.divScalar 0.0).uncertainty.toList := by
    show 0.0 / (0.0 : Float).abs ∈ (m.uncertainty.map (· / (0.0 : Float).abs)).toList
    rw [hs]
    exact List.mem_singleton.2 rfl
  rw [(h _ hmem).1] at hnan
  cases hnan

end QuantityCalculus.Measurement
