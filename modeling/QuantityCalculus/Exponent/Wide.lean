import QuantityCalculus.Exponent.Basic

/-! Arithmetic of fractions in machine words. The parts of a fraction are 64-bit words; the parts of a
result are formed in signed words of twice that width, divided by their greatest common divisor,
which Euclid's algorithm finds, and narrowed again. A number on the way that no wide word holds
leaves the computation without any outcome, which is told apart from the refusal of a result. -/

namespace QuantityCalculus.Wide

/-- A signed 128-bit word holds the number. -/
def Holds (n : Int) : Prop :=
  -0x80000000000000000000000000000000 ≤ n ∧ n < 0x80000000000000000000000000000000

/-- A signed 64-bit word holds the number. -/
def HoldsNarrow (n : Int) : Prop := -0x8000000000000000 ≤ n ∧ n < 0x8000000000000000

instance : DecidablePred Holds := fun _ => inferInstanceAs (Decidable (_ ∧ _))

instance : DecidablePred HoldsNarrow := fun _ => inferInstanceAs (Decidable (_ ∧ _))

/-- The number as a wide word. -/
def word? (n : Int) : Option Int :=
  if Holds n then some n else none

/-- The quotient, rounded toward zero. -/
def div? (p q : Int) : Option Int :=
  if q = 0 then none else word? (p.tdiv q)

/-- The remainder, with the sign of the dividend. It is formed together with the quotient. -/
def rem? (p q : Int) : Option Int :=
  (div? p q).map fun _ => p.tmod q

theorem natAbs_lt_of_rem? {p q r : Int} (h : rem? p q = some r) : r.natAbs < q.natAbs := by
  unfold rem? div? at h
  split at h
  · cases h
  · rename_i hq
    obtain ⟨_, -, rfl⟩ := Option.map_eq_some_iff.1 h
    rw [Int.natAbs_tmod]
    exact Nat.mod_lt _ (Int.natAbs_pos.2 hq)

/-- Replaces the larger of two numbers by the remainder until none is left. -/
def euclid (p q : Int) : Option Int :=
  if q = 0 then some p
  else
    match _h : rem? p q with
    | some r => euclid q r
    | none => none
termination_by q.natAbs
decreasing_by exact natAbs_lt_of_rem? ‹_›

/-- The greatest common divisor, or one for two zeros. -/
def gcd (p q : Int) : Option Int := do
  let p ← word? p.natAbs
  let q ← word? q.natAbs
  let g ← euclid p q
  pure (if g = 0 then 1 else g)

/-- A numerator and a denominator. -/
structure Fraction where
  num : Int
  den : Int
  deriving DecidableEq

/-- The parts as 64-bit words, refused if one of them does not fit or cannot be negated; a refusal
names the parts `n` and `d` that they come from. -/
def narrow (n d num den : Int) : Except ExponentError Fraction :=
  if num = -0x8000000000000000 then .error (.overflow n d)
  else if HoldsNarrow num ∧ HoldsNarrow den then .ok ⟨num, den⟩
  else .error (.overflow n d)

/-- The fraction `n / d` in lowest terms, with the sign in the numerator. -/
def reduce (n d : Int) : Option (Except ExponentError Fraction) := do
  let g ← gcd n d
  let num ← div? n g
  let den ← div? d g
  if den < 0 then
    match word? (-num), word? (-den) with
    | some num, some den => pure (narrow n d num den)
    | _, _ => pure (.error (.overflow n d))
  else pure (narrow n d num den)

namespace Fraction

def add (x y : Fraction) : Option (Except ExponentError Fraction) := do
  let a ← word? (x.num * y.den)
  let b ← word? (y.num * x.den)
  reduce (← word? (a + b)) (← word? (x.den * y.den))

def mul (x y : Fraction) : Option (Except ExponentError Fraction) := do
  reduce (← word? (x.num * y.num)) (← word? (x.den * y.den))

def neg (x : Fraction) : Option (Except ExponentError Fraction) := do
  reduce (← word? (-x.num)) x.den

/-- The sum with the negation, which is formed first. -/
def sub (x y : Fraction) : Option (Except ExponentError Fraction) := do
  match ← neg y with
  | .ok z => add x z
  | .error e => pure (.error e)

/-- The quotient by a fraction other than zero. -/
def div (x y : Fraction) : Option (Except ExponentError Fraction) := do
  reduce (← word? (x.num * y.den)) (← word? (x.den * y.num))

/-- The order of the cross products. -/
def cmp (x y : Fraction) : Option Ordering := do
  let a ← word? (x.num * y.den)
  let b ← word? (y.num * x.den)
  pure (compare a b)

end Fraction

end QuantityCalculus.Wide
