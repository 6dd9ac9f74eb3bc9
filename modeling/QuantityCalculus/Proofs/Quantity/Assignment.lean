import QuantityCalculus.Proofs.Quantity.Outcome
import QuantityCalculus.Quantity.Element

/-! Assignment in place is atomic and local. An assignment makes its checks before it writes, so that what
it does to the state can be read off the function that gives a new quantity: if there is one, it
becomes the state, and otherwise the state is what it was. The new quantity differs from the old one
in one element, and there is one exactly if the value is a single one of the same dimension and the
index is one of the row. -/

namespace QuantityCalculus

section State

variable {ε σ α β : Type}

/-- A change of the state that is made completely or not at all. -/
def allOrNothing (s : σ) : Except ε σ → EStateM.Result ε σ Unit
  | .ok t => .ok () t
  | .error e => .error e s

theorem allOrNothing_eq_ok_iff {s t : σ} {r : Except ε σ} :
    allOrNothing s r = .ok () t ↔ r = .ok t := by
  cases r <;> simp [allOrNothing]

theorem run_get_bind (f : σ → EStateM ε σ α) (s : σ) : (get >>= f).run s = (f s).run s := rfl

/-- Reading a result leaves the state as it is. -/
theorem run_ofExcept_bind (r : Except ε α) (f : α → EStateM ε σ β) (s : σ) :
    (ofExcept r >>= f).run s =
      match r with
      | .ok a => (f a).run s
      | .error e => .error e s := by
  cases r <;> rfl

end State

namespace Magnitude

variable {α : Type} {m : Magnitude α} {index : Nat} {x : α}

/-- The index of a value in a row. -/
def IsIndex (m : Magnitude α) (index : Nat) : Prop :=
  ∃ length, m.shape = some length ∧ index < length

/-- The value at an index is `x`, and all others are those of `m`, in the same shape. -/
structure Overwritten (m : Magnitude α) (index : Nat) (x : α) (n : Magnitude α) : Prop where
  shape_eq : n.shape = m.shape
  value_eq : n.toList[index]? = some x
  others_eq : ∀ i, i ≠ index → n.toList[i]? = m.toList[i]?

theorem set_of_isIndex (h : IsIndex m index) (x : α) :
    ∃ n, m.set index x = .ok n ∧ Overwritten m index x n := by
  obtain ⟨length, hs, hi⟩ := h
  cases m with
  | scalar y => cases hs
  | row xs =>
    cases hs
    refine ⟨row (xs.set index x), if_pos hi, congrArg some List.length_set, ?_, fun i hne => ?_⟩
    · exact List.getElem?_set_self hi
    · exact List.getElem?_set_ne hne.symm

theorem set_of_not_isIndex (h : ¬ IsIndex m index) (x : α) : ∃ e, m.set index x = .error e := by
  cases m with
  | scalar y => exact ⟨_, rfl⟩
  | row xs => exact ⟨_, if_neg fun hi => h ⟨xs.length, rfl, hi⟩⟩

/-- The index is checked before the value is overwritten. -/
theorem run_assign (m : Magnitude α) (index : Nat) (x : α) :
    (assign index x).run m = allOrNothing m (m.set index x) := by
  rw [assign, run_get_bind, run_ofExcept_bind]
  cases m with
  | scalar y => rfl
  | row xs =>
    simp only [checkIndex, set]
    split_ifs <;> rfl

end Magnitude

namespace Quantity

open Magnitude

variable {q r : Quantity} {index : Nat} {x : Float}

/-- A quantity with one element overwritten, or an error of shape. -/
def overwritten (q : Quantity) (index : Nat) (x : Float) : Except Error Quantity := do
  let magnitude ← liftShape (q.magnitude.set index x)
  pure { q with magnitude }

theorem run_onMagnitude {α : Type} (f : EStateM ShapeError (Magnitude Float) α) (q : Quantity) :
    (onMagnitude f).run q =
      match f.run q.magnitude with
      | .ok a magnitude => .ok a { q with magnitude }
      | .error e magnitude => .error (.shape e) { q with magnitude } := rfl

theorem run_onMagnitude_assign (q : Quantity) (index : Nat) (x : Float) :
    (onMagnitude (Magnitude.assign index x)).run q = allOrNothing q (overwritten q index x) := by
  rw [run_onMagnitude, Magnitude.run_assign, overwritten]
  cases q.magnitude.set index x <;> rfl

/-- All checks of an assignment come before the write. -/
theorem run_assign (q : Quantity) (index : Nat) (r : Quantity) :
    (assign index r).run q = allOrNothing q (q.set index r) := by
  rw [assign, run_get_bind, set]
  split_ifs
  · rw [run_ofExcept_bind]
    cases r.inUnit q.unit with
    | error e => rfl
    | ok converted =>
      dsimp only [bind, Except.bind]
      cases converted.value? with
      | none => rfl
      | some y => exact run_onMagnitude_assign q index y
  · rfl

theorem run_assignValue (q : Quantity) (index : Nat) (x : Float) :
    (assignValue index x).run q = allOrNothing q (q.setValue index x) := by
  rw [assignValue, run_get_bind, run_ofExcept_bind, setValue]
  cases q.requireDimensionless .assign with
  | error e => rfl
  | ok _ => exact run_onMagnitude_assign q index x

/-! ### How assignments end -/

/-- The element at an index is `x`, and the rest is that of `q`. -/
structure Assigned (q : Quantity) (index : Nat) (x : Float) (p : Quantity) : Prop where
  unit_eq : p.unit = q.unit
  overwritten : Overwritten q.magnitude index x p.magnitude

/-- The single value of a quantity in another unit. -/
def Converts (r : Quantity) (t : CompoundUnit) (y : Float) : Prop :=
  ∃ converted, r.inUnit t = .ok converted ∧ converted.value? = some y

theorem overwritten_outcome (kind : ErrorKind) (q : Quantity) (index : Nat) (x : Float) :
    Outcome (overwritten q index x) kind False (¬ IsIndex q.magnitude index)
      (Assigned q index x) where
  refused h := h.elim
  mismatched _ hi := by
    obtain ⟨e, he⟩ := set_of_not_isIndex hi x
    exact ⟨.shape e, by rw [overwritten, he]; rfl, rfl⟩
  succeeds _ hi := by
    obtain ⟨m, hm, ho⟩ := set_of_isIndex (not_not.1 hi) x
    exact ⟨⟨m, q.unit⟩, by rw [overwritten, hm]; rfl, rfl, ho⟩

theorem set_outcome (hq : q.unit.WellFormed) (hr : r.unit.WellFormed) (index : Nat) :
    Outcome (q.set index r) .operation (r.dimension ≠ q.dimension)
      (¬ (r.magnitude.isScalar = true ∧ IsIndex q.magnitude index))
      fun p => ∃ y, Converts r q.unit y ∧ Assigned q index y p := by
  by_cases hd : r.dimension = q.dimension
  · obtain ⟨f, hf⟩ := inUnit_of_eq hr hq hd
    rw [set, if_pos (isCompatibleWith_iff.2 hd.symm), hf]
    obtain ⟨m, t⟩ := r
    cases m with
    | scalar v =>
      have h := (overwritten_outcome .operation q index (f v)).mono fun p hp =>
        (⟨f v, ⟨_, hf, rfl⟩, hp⟩ : ∃ y, Converts ⟨.scalar v, t⟩ q.unit y ∧ Assigned q index y p)
      have hs : (scalar v).isScalar = true := rfl
      simp only [hs, true_and]
      exact h.of_not_unfit (not_not_intro hd)
    | row vs =>
      exact outcome_of_clash (not_not_intro hd) (fun h => Bool.false_ne_true h.1) rfl
  · rw [set, if_neg fun h => hd (isCompatibleWith_iff.1 h).symm]
    exact outcome_of_unfit hd rfl

theorem setValue_outcome (q : Quantity) (index : Nat) (x : Float) :
    Outcome (q.setValue index x) .operation (¬ q.isDimensionless = true)
      (¬ IsIndex q.magnitude index) (Assigned q index x) := by
  by_cases hd : q.isDimensionless = true
  · rw [setValue, requireDimensionless, if_pos hd]
    exact (overwritten_outcome .operation q index x).of_not_unfit (not_not_intro hd)
  · rw [setValue, requireDimensionless, if_neg hd]
    exact outcome_of_unfit hd rfl

/-- How a change in place ends: with a result, or with an error and the quantity `q` it began with. -/
structure Atomic (ends : EStateM.Result Error Quantity Unit) (q : Quantity) (fit shaped : Prop)
    (result : Quantity → Prop) : Prop where
  isOk_iff : (∃ p, ends = .ok () p) ↔ fit ∧ shaped
  result : ∀ p, ends = .ok () p → result p
  unfit : ¬ fit → ∃ e, ends = .error e q ∧ e.kind = .operation
  misshapen : fit → ¬ shaped → ∃ e, ends = .error e q ∧ e.kind = .shape

theorem Outcome.atomic {a : Except Error Quantity} {fit shaped : Prop} {result : Quantity → Prop}
    (h : Outcome a .operation (¬ fit) (¬ shaped) result) (q : Quantity) :
    Atomic (allOrNothing q a) q fit shaped result where
  isOk_iff := by
    simp only [allOrNothing_eq_ok_iff]
    constructor
    · rintro ⟨p, rfl⟩
      exact ⟨not_not.1 h.of_ok.1, not_not.1 h.of_ok.2.1⟩
    · rintro ⟨hf, hs⟩
      obtain ⟨p, hp, -⟩ := h.succeeds (not_not_intro hf) (not_not_intro hs)
      exact ⟨p, hp⟩
  result p hp := by
    rw [allOrNothing_eq_ok_iff] at hp
    subst hp
    exact h.of_ok.2.2
  unfit hf := by
    obtain ⟨e, rfl, he⟩ := h.refused hf
    exact ⟨e, rfl, he⟩
  misshapen hf hs := by
    obtain ⟨e, rfl, he⟩ := h.mismatched (not_not_intro hf) hs
    exact ⟨e, rfl, he⟩

/-- The law of assigning a quantity `r`, or the number `x`, to an element of `q`. -/
structure AssignmentLaw (q r : Quantity) (index : Nat) (x : Float) : Prop where
  quantity : Atomic ((assign index r).run q) q (r.dimension = q.dimension)
    (r.magnitude.isScalar = true ∧ IsIndex q.magnitude index)
    fun p => ∃ y, Converts r q.unit y ∧ Assigned q index y p
  number : Atomic ((assignValue index x).run q) q (q.isDimensionless = true)
    (IsIndex q.magnitude index) (Assigned q index x)
  /-- The functions that give a new quantity agree with the changes in place. -/
  set_eq : (assign index r).run q = allOrNothing q (q.set index r)
  setValue_eq : (assignValue index x).run q = allOrNothing q (q.setValue index x)

theorem assignmentLaw (hq : q.unit.Reachable) (hr : r.unit.Reachable) (index : Nat) (x : Float) :
    AssignmentLaw q r index x where
  quantity := by
    rw [run_assign]
    exact (set_outcome hq.wellFormed hr.wellFormed index).atomic q
  number := by
    rw [run_assignValue]
    exact (setValue_outcome q index x).atomic q
  set_eq := run_assign q index r
  setValue_eq := run_assignValue q index x

/-- A length in feet becomes an element of a row of lengths in meters. -/
theorem assignmentLaw_feet : ∃ u v p, u.Reachable ∧ v.Reachable ∧ u.name = "m" ∧ v.name = "foot" ∧
    (assign 1 ⟨.scalar 50.0, v⟩).run ⟨.row [1.0, 2.0, 3.0], u⟩ = .ok () p ∧
    p.text = "[1, 15.24, 3] m" ∧
    AssignmentLaw ⟨.row [1.0, 2.0, 3.0], u⟩ ⟨.scalar 50.0, v⟩ 1 0.5 := by
  have hrun : (do
      let u ← CompoundUnit.parse "m"
      let v ← CompoundUnit.parse "foot"
      let p ← Quantity.set ⟨.row [1.0, 2.0, 3.0], u⟩ 1 ⟨.scalar 50.0, v⟩
      pure (u.name, v.name, p.text)).toOption = some ("m", "foot", "[1, 15.24, 3] m") := by
    decide +kernel
  simp only [toOption_eq_some_iff, bind_eq_ok_iff, pure, Except.pure, Except.ok.injEq,
    Prod.mk.injEq] at hrun
  obtain ⟨u, hu, v, hv, p, hp, hname, hname', htext⟩ := hrun
  have hu : u.Reachable := .parseScaled hu
  have hv : v.Reachable := .parseScaled hv
  refine ⟨u, v, p, hu, hv, hname, hname', ?_, htext, assignmentLaw hu hv 1 0.5⟩
  rw [run_assign, hp]
  rfl

end Quantity

end QuantityCalculus
