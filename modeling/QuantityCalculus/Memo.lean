import QuantityCalculus.CompoundUnit.Parse

/-! A memo of units that were read. It holds a unit for every key up to its capacity and takes no
further keys once it is full; nothing is ever dropped. Reading through a memo is a step that looks
the key up and, if it is absent and the text can be read, a step that stores the unit. -/

namespace QuantityCalculus

/-- Units by key, in the order in which the keys were stored. -/
structure Memo where
  entries : List (String × CompoundUnit)
  capacity : Nat
  /-- Whether a key has been turned away. -/
  saturated : Bool

namespace Memo

/-- A memo without entries. -/
def empty (capacity : Nat) : Memo := ⟨[], capacity, false⟩

/-- The capacity of the memo that is shared by all readers. -/
def sharedCapacity : Nat := 1000

instance : Inhabited Memo := ⟨empty 0⟩

/-- The key of a text that is read with a scale. -/
def key (s : String) (scale : Float) : String :=
  Text.trimmed s ++ ":" ++ Decimal.floatText scale

def size (m : Memo) : Nat := m.entries.length

def isEmpty (m : Memo) : Bool := m.entries.isEmpty

def get? (m : Memo) (key : String) : Option CompoundUnit := m.entries.lookup key

def contains (m : Memo) (key : String) : Bool := (m.get? key).isSome

/-- Replaces the unit of a key, or puts the key behind the others. -/
def put (key : String) (unit : CompoundUnit) :
    List (String × CompoundUnit) → List (String × CompoundUnit)
  | [] => [(key, unit)]
  | (k, u) :: rest => if k = key then (k, unit) :: rest else (k, u) :: put key unit rest

/-- Stores a unit, and says whether there was room for it. -/
def insert (m : Memo) (key : String) (unit : CompoundUnit) : Bool × Memo :=
  if m.capacity ≤ m.size ∧ m.contains key = false then (false, { m with saturated := true })
  else (true, { m with entries := put key unit m.entries })

/-- Reads a unit through the memo. -/
def parse (m : Memo) (s : String) (scale : Float) : Except Error CompoundUnit × Memo :=
  match m.get? (key s scale) with
  | some unit => (.ok unit, m)
  | none =>
    match CompoundUnit.parseScaled s scale with
    | .ok unit => (.ok unit, (m.insert (key s scale) unit).2)
    | .error e => (.error e, m)

/-- Reads several texts through the memo, one after the other. -/
def parseAll (m : Memo) (texts : List String) : Memo :=
  texts.foldl (fun m s => (m.parse s 1.0).2) m

end Memo

end QuantityCalculus
