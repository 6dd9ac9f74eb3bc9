import QuantityCalculus.Suggestion.EditDistance
import QuantityCalculus.Table.Lookup
import QuantityCalculus.Text.Blank
import QuantityCalculus.Text.Lowercase

/-! Suggestions for a misspelled unit: the names in the table that are close to it, the closest
first. Case is ignored. A name is close if it contains the text or is contained in it, or if few
edits lead from one to the other. -/

namespace QuantityCalculus.Suggestion

/-- How many edits a name may be away if neither text contains the other. -/
def maxDistance : Nat := 2

/-- How many names are suggested if no number is asked for. -/
def defaultCount : Nat := 5

/-- Whether a text occurs in another. -/
def occursIn (needle : List Char) : List Char → Bool
  | [] => needle.isEmpty
  | c :: cs => needle.isPrefixOf (c :: cs) || occursIn needle cs

/-- A name with the number of edits to it. -/
structure Candidate where
  distance : Nat
  name : String
  deriving DecidableEq, Repr

/-- Closer candidates come first, and equally close ones are sorted by name. -/
def Candidate.le (a b : Candidate) : Bool :=
  decide (a.distance < b.distance) || (a.distance == b.distance && decide (a.name ≤ b.name))

/-- What is looked for: the text without blanks around it, in lower case. -/
def query (s : String) : List Char :=
  Text.lower (Text.trim s.toList)

/-- A name as a candidate, if it is close to what is looked for. -/
def candidate? (query : List Char) (name : String) : Option Candidate :=
  let lower := Text.lower name.toList
  let distance := editDistance query lower
  if occursIn query lower || occursIn lower query || decide (distance ≤ maxDistance) then
    some ⟨distance, name⟩
  else none

/-- The names close to what is looked for, the closest first. -/
def candidates (query : List Char) : List Candidate :=
  (Table.names.filterMap (candidate? query)).mergeSort Candidate.le

/-- At most `count` names close to a text. Nothing is close to a blank text. -/
def corrections (s : String) (count : Nat) : List String :=
  if (query s).isEmpty then [] else ((candidates (query s)).take count).map Candidate.name

end QuantityCalculus.Suggestion
