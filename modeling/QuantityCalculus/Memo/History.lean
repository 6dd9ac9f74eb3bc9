import QuantityCalculus.Memo.Session

/-! A memo in use. Units are stored under any keys, texts are read through the memo, and keys are
looked up, one command after the other. -/

namespace QuantityCalculus.Memo

/-- One use of a memo. -/
inductive Command
  | insert (key : String) (unit : CompoundUnit)
  | parse (request : Request)
  | get (key : String)

namespace Command

/-- The memo after a command. -/
def run : Command → Memo → Memo
  | .insert key unit, m => (m.insert key unit).2
  | .parse q, m => (m.parse q.text q.scale).2
  | .get _, m => m

/-- What a command asks the memo to store. Reading asks for what it has read, unless its key is
present. -/
def stored? : Command → Memo → Option (String × CompoundUnit)
  | .insert key unit, _ => some (key, unit)
  | .parse q, m => if m.contains q.key then none else q.answer.toOption.map (q.key, ·)
  | .get _, _ => none

/-- A command asks to store a unit under an absent key, and is turned away. -/
def Refused (c : Command) (m : Memo) : Prop :=
  ∃ key unit, c.stored? m = some (key, unit) ∧ m.contains key = false ∧
    (m.insert key unit).1 = false

end Command

/-- The memo after several commands. -/
def after (m : Memo) (commands : List Command) : Memo :=
  commands.foldl (fun m c => c.run m) m

end QuantityCalculus.Memo
