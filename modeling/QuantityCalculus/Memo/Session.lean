import QuantityCalculus.Memo

/-! Readers that share a memo. A reader has one request; someone who reads several texts counts as
several readers. A reader looks its key up and is done if it finds a unit. Otherwise it reads the
text while others may use the memo, and then stores what it has read. It may also do both without a
break. Readers act in any order, and what does not apply to a reader changes nothing. -/

namespace QuantityCalculus.Memo

/-- A text to be read with a scale. -/
structure Request where
  text : String
  scale : Float

/-- The key of what is asked for. -/
def Request.key (q : Request) : String := Memo.key q.text q.scale

/-- The outcome without a memo. -/
def Request.answer (q : Request) : Except Error CompoundUnit :=
  CompoundUnit.parseScaled q.text q.scale

/-- How far a reader has got with its request. -/
inductive Progress
  | waiting
  /-- The key was looked up in vain. -/
  | missed
  | answered (result : Except Error CompoundUnit)

/-- The shared memo and the progress of all readers. -/
structure Session (Reader : Type) where
  memo : Memo
  progress : Reader → Progress

/-- What a reader does next. -/
inductive Action (Reader : Type)
  | lookUp (i : Reader)
  /-- Reads the text after a miss, and stores the unit. -/
  | complete (i : Reader)
  /-- Reads through the memo without a break. -/
  | read (i : Reader)

/-- Stores what was read, unless reading failed. -/
def store (m : Memo) (key : String) : Except Error CompoundUnit → Memo
  | .ok unit => (m.insert key unit).2
  | .error _ => m

namespace Session

variable {Reader : Type}

/-- All readers wait at a memo without entries. -/
def start (capacity : Nat) : Session Reader := ⟨empty capacity, fun _ => .waiting⟩

variable [DecidableEq Reader]

/-- A reader gets on and leaves the memo behind. -/
def advance (session : Session Reader) (i : Reader) (p : Progress) (m : Memo) : Session Reader where
  memo := m
  progress j := if j = i then p else session.progress j

def lookUp (requests : Reader → Request) (session : Session Reader) (i : Reader) :
    Session Reader :=
  match session.progress i with
  | .answered _ => session
  | _ =>
    match session.memo.get? (requests i).key with
    | some unit => session.advance i (.answered (.ok unit)) session.memo
    | none => session.advance i .missed session.memo

def complete (requests : Reader → Request) (session : Session Reader) (i : Reader) :
    Session Reader :=
  match session.progress i with
  | .missed =>
    let result := (requests i).answer
    session.advance i (.answered result) (session.memo.store (requests i).key result)
  | _ => session

def read (requests : Reader → Request) (session : Session Reader) (i : Reader) :
    Session Reader :=
  match session.progress i with
  | .answered _ => session
  | _ =>
    let (result, memo) := session.memo.parse (requests i).text (requests i).scale
    session.advance i (.answered result) memo

/-- One reader acts. -/
def step (requests : Reader → Request) (session : Session Reader) :
    Action Reader → Session Reader
  | .lookUp i => session.lookUp requests i
  | .complete i => session.complete requests i
  | .read i => session.read requests i

/-- Readers act one after the other. -/
def run (requests : Reader → Request) (session : Session Reader) (actions : List (Action Reader)) :
    Session Reader :=
  actions.foldl (step requests) session

end Session

end QuantityCalculus.Memo
