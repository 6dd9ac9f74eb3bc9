/-! Edit distance. The distance of two texts is the least number of characters to insert, delete or
replace that turns one into the other. It is computed row by row: the row of a beginning of the
first text holds its distances to all beginnings of the second. Only the previous row is needed to find
the next one, so two rows are enough if they take turns: the next row is written over an old one, entry
by entry, and the rows are swapped. The row that is written over still holds entries of the row before
the previous one. -/

namespace QuantityCalculus

namespace EditDistance

/-- Continues a row. `diagonal` and `above` are entries of the previous row, `left` is the last
entry found. -/
def continueRow (c : Char) : (diagonal left : Nat) → List Char → (above : List Nat) → List Nat
  | diagonal, left, d :: ds, up :: above =>
    let entry := min (min (up + 1) (left + 1)) (diagonal + if c = d then 0 else 1)
    entry :: continueRow c up entry ds above
  | _, _, _, _ => []

/-- The row of a beginning that is one character longer. -/
def nextRow (c : Char) (ds : List Char) : List Nat → List Nat
  | [] => []
  | first :: above => (first + 1) :: continueRow c first (first + 1) ds above

/-- The row of the empty beginning. -/
def firstRow (ds : List Char) : List Nat :=
  List.range (ds.length + 1)

/-- The row of the whole first text. -/
def lastRow (cs ds : List Char) : List Nat :=
  cs.foldl (fun row c => nextRow c ds row) (firstRow ds)

end EditDistance

/-- The least number of edits that turn one text into another. -/
def editDistance (cs ds : List Char) : Nat :=
  (EditDistance.lastRow cs ds).getLastD 0

/-! ### Two rows that take turns -/

namespace EditDistance

/-- Two rows, with an entry for every beginning of the second text. An index is a column of a row by its
type. -/
structure Rows (n : Nat) where
  previous : Vector Nat (n + 1)
  current : Vector Nat (n + 1)

namespace Rows

variable {n : Nat}

/-- The row of the empty beginning, and one without any meaning. -/
def start (n : Nat) : Rows n where
  previous := Vector.ofFn fun j => j.val
  current := Vector.replicate (n + 1) 0

/-- Writes the entry behind a column: `c` is the character of the row, `d` that of the column. -/
def write (rows : Rows n) (c d : Char) (j : Fin n) : Rows n :=
  let deletion := rows.previous[j.val + 1] + 1
  let insertion := rows.current[j.val] + 1
  let substitution := rows.previous[j.val] + if c = d then 0 else 1
  { rows with
    current := rows.current.set (j.val + 1) (min (min deletion insertion) substitution) }

/-- Writes the entries behind the first `k` columns. -/
def fill (ds : Vector Char n) (c : Char) (rows : Rows n) : (k : Nat) → k ≤ n → Rows n
  | 0, _ => rows
  | k + 1, h => (fill ds c rows k (Nat.le_of_succ_le h)).write c ds[k] ⟨k, h⟩

/-- Writes the row of the character at index `i` and swaps the rows. -/
def advance (ds : Vector Char n) (rows : Rows n) (entry : Char × Nat) : Rows n :=
  let (c, i) := entry
  let filled := fill ds c { rows with current := rows.current.set 0 (i + 1) } n (Nat.le_refl n)
  ⟨filled.current, filled.previous⟩

end Rows

/-- The edit distance, found in two rows. -/
def inTwoRows (cs ds : List Char) : Nat :=
  if cs.isEmpty then ds.length
  else if ds.isEmpty then cs.length
  else
    let columns : Vector Char ds.length := ⟨ds.toArray, rfl⟩
    (cs.zipIdx.foldl (Rows.advance columns) (Rows.start ds.length)).previous[ds.length]

end EditDistance

end QuantityCalculus
