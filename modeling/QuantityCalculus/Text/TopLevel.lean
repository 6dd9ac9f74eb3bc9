import QuantityCalculus.Text.Blank

/-! Cutting a text at the separators outside parentheses. A character is at top level if as many
parentheses were opened as closed before it; closing more than were opened leaves the rest of the
text below top level. Parentheses themselves never separate. -/

namespace QuantityCalculus.Text

/-- The nesting depth behind a character. -/
def depthAfter (depth : Int) (c : Char) : Int :=
  if c = '(' then depth + 1 else if c = ')' then depth - 1 else depth

/-- Whether a character at the given depth separates. -/
def separates (sep : Char → Bool) (depth : Int) (c : Char) : Bool :=
  depth == 0 && c != '(' && c != ')' && sep c

/-- The text before the first top-level separator, and the pieces behind it. -/
def cut (sep : Char → Bool) : Int → List Char → List Char × List (List Char)
  | _, [] => ([], [])
  | depth, c :: rest =>
    if separates sep depth c then
      let (piece, pieces) := cut sep 0 rest
      ([], piece :: pieces)
    else
      let (piece, pieces) := cut sep (depthAfter depth c) rest
      (c :: piece, pieces)

/-- The pieces between top-level separators, empty ones included; there is one more of them than
there are separators. -/
def segments (sep : Char → Bool) (cs : List Char) : List (List Char) :=
  (cut sep 0 cs).1 :: (cut sep 0 cs).2

/-- Whether a separator occurs at top level. -/
def hasTopLevel (sep : Char → Bool) (cs : List Char) : Bool :=
  !(cut sep 0 cs).2.isEmpty

/-- The length of a text in UTF-8. -/
def byteLength (cs : List Char) : Nat :=
  cs.foldr (fun c n => c.utf8Size + n) 0

/-- The byte offset of the first top-level separator. -/
def findTopLevel (sep : Char → Bool) (cs : List Char) : Option Nat :=
  if hasTopLevel sep cs then some (byteLength (cut sep 0 cs).1) else none

/-- The pieces between top-level separators, trimmed, without those that are blank. -/
def splitTopLevel (sep : Char → Bool) (cs : List Char) : List (List Char) :=
  ((segments sep cs).map trim).filter fun piece => !piece.isEmpty

theorem cut_nil (sep : Char → Bool) (depth : Int) : cut sep depth [] = ([], []) := rfl

theorem cut_separator {sep : Char → Bool} {depth : Int} {c : Char} {rest : List Char}
    (h : separates sep depth c = true) :
    cut sep depth (c :: rest) = ([], (cut sep 0 rest).1 :: (cut sep 0 rest).2) := by
  simp [cut, h]

theorem cut_other {sep : Char → Bool} {depth : Int} {c : Char} {rest : List Char}
    (h : separates sep depth c = false) :
    cut sep depth (c :: rest) =
      (c :: (cut sep (depthAfter depth c) rest).1, (cut sep (depthAfter depth c) rest).2) := by
  simp [cut, h]

end QuantityCalculus.Text
