import QuantityCalculus.Decimal.Positional

/-! Magnitudes: a single number or a row of numbers. An operation on two magnitudes repeats a single
number along a row, and otherwise needs rows of equal length. The element type is left open, so that
elementwise tests are magnitudes as well. -/

namespace QuantityCalculus

/-- Why the shape of a magnitude does not fit what is done with it. -/
inductive ShapeError
  | lengthMismatch (left right : Nat)
  | notIndexable
  | indexOutOfRange (index length : Nat)
  | notScalar
  /-- A single value with a row of uncertainties. -/
  | rowOfUncertainties
  deriving DecidableEq, Repr

def ShapeError.message : ShapeError → String
  | .lengthMismatch left right =>
    "length mismatch: " ++ Decimal.natText left ++ " and " ++ Decimal.natText right
  | .notIndexable => "cannot index a scalar magnitude"
  | .indexOutOfRange index length =>
    "index " ++ Decimal.natText index ++ " out of range for length " ++ Decimal.natText length
  | .notScalar => "can only assign a scalar"
  | .rowOfUncertainties => "a scalar value needs a scalar uncertainty"

/-- One value, or a row of values. -/
inductive Magnitude (α : Type)
  | scalar (x : α)
  | row (xs : List α)
  deriving DecidableEq, Repr

namespace Magnitude

variable {α β γ : Type}

/-- The values in order. -/
def toList : Magnitude α → List α
  | scalar x => [x]
  | row xs => xs

/-- The number of values. -/
def length (m : Magnitude α) : Nat := m.toList.length

def isEmpty (m : Magnitude α) : Bool := m.toList.isEmpty

def isScalar : Magnitude α → Bool
  | scalar _ => true
  | row _ => false

/-- The value, if there is a single one. -/
def scalar? : Magnitude α → Option α
  | scalar x => some x
  | row _ => none

/-- The shape: nothing for a single value, the length of a row. -/
def shape : Magnitude α → Option Nat
  | scalar _ => none
  | row xs => some xs.length

def map (f : α → β) : Magnitude α → Magnitude β
  | scalar x => scalar (f x)
  | row xs => row (xs.map f)

@[simp] theorem shape_map (f : α → β) (m : Magnitude α) : (m.map f).shape = m.shape := by
  cases m <;> simp [map, shape]

/-- Combines two magnitudes value by value. -/
def zipWith (f : α → β → γ) : Magnitude α → Magnitude β → Except ShapeError (Magnitude γ)
  | scalar x, scalar y => .ok (scalar (f x y))
  | scalar x, row ys => .ok (row (ys.map (f x)))
  | row xs, scalar y => .ok (row (xs.map fun x => f x y))
  | row xs, row ys =>
    if xs.length = ys.length then .ok (row (List.zipWith f xs ys))
    else .error (.lengthMismatch xs.length ys.length)

/-- The shape of what two magnitudes combine to. -/
def commonShape : Option Nat → Option Nat → Option Nat
  | none, shape => shape
  | shape, _ => shape

/-- Two magnitudes combine unless they are rows of different lengths. -/
theorem zipWith_isOk_iff (f : α → β → γ) (m : Magnitude α) (n : Magnitude β) :
    (∃ r, m.zipWith f n = .ok r) ↔
      ∀ k l, m.shape = some k → n.shape = some l → k = l := by
  cases m <;> cases n <;> simp [zipWith, shape]
  split <;> simp_all

theorem shape_zipWith {f : α → β → γ} {m : Magnitude α} {n : Magnitude β} {r : Magnitude γ}
    (h : m.zipWith f n = .ok r) : r.shape = commonShape m.shape n.shape := by
  cases m <;> cases n <;> simp only [zipWith] at h
  case row.row xs ys =>
    split at h
    · rename_i he
      cases h
      simp [shape, commonShape, he]
    · cases h
  all_goals cases h; simp [shape, commonShape]

/-- Whether a test holds of all values combined. -/
def allPairs (test : α → β → Bool) (m : Magnitude α) (n : Magnitude β) :
    Except ShapeError Bool := do
  let flags ← m.zipWith test n
  pure (flags.toList.all id)

/-- Refuses an index that is not one of a row. -/
def checkIndex (m : Magnitude α) (index : Nat) : Except ShapeError Unit :=
  match m with
  | scalar _ => .error .notIndexable
  | row xs => if index < xs.length then .ok () else .error (.indexOutOfRange index xs.length)

/-- The value at an index of a row. -/
def get (m : Magnitude α) (index : Nat) : Except ShapeError α :=
  match m with
  | scalar _ => .error .notIndexable
  | row xs =>
    if h : index < xs.length then .ok xs[index] else .error (.indexOutOfRange index xs.length)

/-- Puts a value at an index of a row. -/
def set (m : Magnitude α) (index : Nat) (x : α) : Except ShapeError (Magnitude α) :=
  match m with
  | scalar _ => .error .notIndexable
  | row xs =>
    if index < xs.length then .ok (row (xs.set index x))
    else .error (.indexOutOfRange index xs.length)

/-- The values repeated to the shape of another magnitude. -/
def broadcastLike (m : Magnitude α) (n : Magnitude β) : Except ShapeError (Magnitude α) :=
  m.zipWith (fun x _ => x) n

end Magnitude

end QuantityCalculus
