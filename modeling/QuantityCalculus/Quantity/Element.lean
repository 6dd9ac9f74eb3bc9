import QuantityCalculus.Quantity.Arithmetic

/-! Elements of a quantity with a row of values. The value assigned to an element must be a single one
of the same dimension, and is converted. Assigning gives a new quantity, or changes the quantity in
place. In place the quantity is a state, which a computation may have changed by the time it fails; an
assignment makes its checks on the state before it writes: the dimension of the value, its conversion,
whether it is a single one, and the index, in this order. -/

namespace QuantityCalculus

namespace Quantity

/-- The element at an index. -/
def get (q : Quantity) (index : Nat) : Except Error Quantity := do
  let x ← liftShape (q.magnitude.get index)
  pure ⟨.scalar x, q.unit⟩

/-- Assigns a quantity to the element at an index. -/
def set (q : Quantity) (index : Nat) (r : Quantity) : Except Error Quantity :=
  if q.isCompatibleWith r then do
    let converted ← r.inUnit q.unit
    match converted.value? with
    | none => .error (.shape .notScalar)
    | some x =>
      let magnitude ← liftShape (q.magnitude.set index x)
      pure { q with magnitude }
  else .error (.unassignable r.unit.name q.unit.name)

/-- Assigns a plain number to the element at an index. -/
def setValue (q : Quantity) (index : Nat) (x : Float) : Except Error Quantity := do
  q.requireDimensionless .assign
  let magnitude ← liftShape (q.magnitude.set index x)
  pure { q with magnitude }

end Quantity

/-! ### In place -/

namespace Magnitude

variable {α : Type}

/-- The row with the value at an index replaced. A single value stays. -/
def overwrite (m : Magnitude α) (index : Nat) (x : α) : Magnitude α :=
  match m with
  | scalar y => scalar y
  | row xs => row (xs.set index x)

/-- Overwrites the value at an index of a row. -/
def assign (index : Nat) (x : α) : EStateM ShapeError (Magnitude α) Unit := do
  ofExcept ((← MonadState.get).checkIndex index)
  modify fun m => m.overwrite index x

end Magnitude

namespace Quantity

/-- Works on the magnitude of a quantity in place. -/
def onMagnitude {α : Type} (f : EStateM ShapeError (Magnitude Float) α) : EStateM Error Quantity α :=
  fun q =>
    match f.run q.magnitude with
    | .ok a magnitude => .ok a { q with magnitude }
    | .error e magnitude => .error (.shape e) { q with magnitude }

/-- Overwrites the element at an index with a quantity. -/
def assign (index : Nat) (r : Quantity) : EStateM Error Quantity Unit := do
  let q ← MonadState.get
  if q.isCompatibleWith r then do
    let converted ← ofExcept (r.inUnit q.unit)
    match converted.value? with
    | none => throw (.shape .notScalar)
    | some x => onMagnitude (Magnitude.assign index x)
  else throw (.unassignable r.unit.name q.unit.name)

/-- Overwrites the element at an index with a plain number. -/
def assignValue (index : Nat) (x : Float) : EStateM Error Quantity Unit := do
  ofExcept ((← MonadState.get).requireDimensionless .assign)
  onMagnitude (Magnitude.assign index x)

end Quantity

end QuantityCalculus
