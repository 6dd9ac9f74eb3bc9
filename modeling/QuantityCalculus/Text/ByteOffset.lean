import QuantityCalculus.Text.TopLevel

/-! Cutting a text by byte offsets. The search for a separator yields the byte at which it begins; the
text is sliced there and behind the separator, whose width varies, and the search starts over with the
rest. The depth is counted in a 32-bit word. A depth that no word holds leaves the search without any
outcome, and so does a slice in the middle of a character. -/

namespace QuantityCalculus.Text

theorem byteLength_cons (c : Char) (cs : List Char) :
    byteLength (c :: cs) = c.utf8Size + byteLength cs := rfl

namespace ByteOffset

/-- A signed 32-bit word holds the number. -/
def Holds (n : Int) : Prop := -0x80000000 ≤ n ∧ n < 0x80000000

instance : DecidablePred Holds := fun _ => inferInstanceAs (Decidable (_ ∧ _))

/-- The number as a 32-bit word. -/
def word? (n : Int) : Option Int :=
  if Holds n then some n else none

/-- The text before a byte offset and the text from there on. -/
def slice? : Nat → List Char → Option (List Char × List Char)
  | 0, cs => some ([], cs)
  | _ + 1, [] => none
  | n + 1, c :: cs =>
    if c.utf8Size ≤ n + 1 then
      (slice? (n + 1 - c.utf8Size) cs).map fun (front, rest) => (c :: front, rest)
    else none

/-- The byte offset of the first top-level separator of a text that begins at a depth and at an
offset. -/
def search (sep : Char → Bool) : Int → Nat → List Char → Option (Option Nat)
  | _, _, [] => some none
  | depth, i, c :: rest =>
    if c = '(' then
      (word? (depth + 1)).bind fun deeper => search sep deeper (i + c.utf8Size) rest
    else if c = ')' then
      (word? (depth - 1)).bind fun higher => search sep higher (i + c.utf8Size) rest
    else if depth == 0 && sep c then some (some i)
    else search sep depth (i + c.utf8Size) rest

/-- The byte offset of the first top-level separator. -/
def findTopLevel (sep : Char → Bool) (cs : List Char) : Option (Option Nat) :=
  search sep 0 0 cs

/-- The number of bytes of the first character. -/
def firstWidth : List Char → Nat
  | [] => 1
  | c :: _ => c.utf8Size

theorem firstWidth_pos (cs : List Char) : 0 < firstWidth cs := by
  cases cs with
  | nil => exact Nat.one_pos
  | cons c _ => exact c.utf8Size_pos

theorem slice?_zero (cs : List Char) : slice? 0 cs = some ([], cs) := by
  cases cs <;> rfl

theorem slice?_cons {n : Nat} (c : Char) (cs : List Char) (hn : 0 < n) :
    slice? n (c :: cs) = if c.utf8Size ≤ n then
      (slice? (n - c.utf8Size) cs).map fun (front, rest) => (c :: front, rest) else none := by
  cases n with
  | zero => exact absurd hn (Nat.lt_irrefl 0)
  | succ n => rfl

/-- Slicing succeeds between any two characters. -/
theorem slice?_append (front rest : List Char) :
    slice? (byteLength front) (front ++ rest) = some (front, rest) := by
  induction front with
  | nil => exact slice?_zero rest
  | cons c front ih =>
    rw [List.cons_append, byteLength_cons, slice?_cons c _ (Nat.add_pos_left c.utf8Size_pos _),
      if_pos (Nat.le_add_right _ _), Nat.add_sub_cancel_left, ih]
    rfl

theorem eq_append_of_slice? {n : Nat} {cs front rest : List Char}
    (h : slice? n cs = some (front, rest)) : cs = front ++ rest ∧ n = byteLength front := by
  induction cs generalizing n front with
  | nil =>
    cases n with
    | zero =>
      cases h
      exact ⟨rfl, rfl⟩
    | succ n => cases h
  | cons c cs ih =>
    rcases Nat.eq_zero_or_pos n with rfl | hn
    · cases h
      exact ⟨rfl, rfl⟩
    · rw [slice?_cons c cs hn] at h
      split at h
      · rename_i hle
        obtain ⟨⟨tail, _⟩, htail, heq⟩ := Option.map_eq_some_iff.1 h
        cases heq
        obtain ⟨rfl, hlength⟩ := ih htail
        exact ⟨rfl, by rw [byteLength_cons, ← hlength, Nat.add_sub_cancel' hle]⟩
      · cases h

/-- The text behind a slice of at least one byte is shorter. -/
theorem length_lt_of_slice? {n : Nat} {cs front rest : List Char} (hn : 0 < n)
    (h : slice? n cs = some (front, rest)) : rest.length < cs.length := by
  obtain ⟨rfl, rfl⟩ := eq_append_of_slice? h
  cases front with
  | nil => exact absurd hn (Nat.lt_irrefl 0)
  | cons c front => simp only [List.cons_append, List.length_cons, List.length_append]; omega

/-- The pieces between top-level separators, empty ones included. -/
def pieces (sep : Char → Bool) (rest : List Char) : Option (List (List Char)) := do
  let some i ← findTopLevel sep rest | pure [rest]
  let (piece, behind) ← slice? i rest
  match _ : slice? (i + firstWidth behind) rest with
  | none => none
  | some (_, next) =>
    let others ← pieces sep next
    pure (piece :: others)
termination_by rest.length
decreasing_by exact length_lt_of_slice? (Nat.add_pos_right i (firstWidth_pos behind)) ‹_›

/-- The pieces between top-level separators, trimmed, without those that are blank. -/
def splitTopLevel (sep : Char → Bool) (cs : List Char) : Option (List (List Char)) :=
  (pieces sep cs).map fun found => (found.map trim).filter fun piece => !piece.isEmpty

end ByteOffset

end QuantityCalculus.Text
