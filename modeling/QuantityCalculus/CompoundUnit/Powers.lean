import QuantityCalculus.Exponent.Basic

/-! Products of named powers, as a list of names with exponents in the order in which the names
first appeared. A name that is absent has exponent zero. -/

namespace QuantityCalculus

/-- Names with exponents. -/
abbrev Powers := List (String × Exponent)

namespace Powers

/-- The exponent of a name; zero if it is absent. -/
def powerOf (ps : Powers) (name : String) : Exponent :=
  (ps.lookup name).getD 0

/-- Adds an exponent to that of a name, or puts the name behind the others. -/
def merge : Powers → String → Exponent → Except ExponentError Powers
  | [], name, x => .ok [(name, x)]
  | (n, y) :: rest, name, x =>
    if n = name then do
      let sum ← y.add x
      pure ((n, sum) :: rest)
    else do
      let merged ← merge rest name x
      pure ((n, y) :: merged)

/-- Adds the exponents of a second product, one name after the other. -/
def mergeAll (ps qs : Powers) : Except ExponentError Powers :=
  qs.foldlM (fun acc q => merge acc q.1 q.2) ps

/-- Subtracts the exponents of a second product, one name after the other. -/
def mergeAllNeg (ps qs : Powers) : Except ExponentError Powers :=
  qs.foldlM (fun acc q => do merge acc q.1 (← q.2.neg)) ps

/-- Multiplies every exponent. -/
def scale (ps : Powers) (x : Exponent) : Except ExponentError Powers :=
  ps.mapM fun q => do pure (q.1, ← q.2.mul x)

/-- Leaves out the names with exponent zero. -/
def dropZeros (ps : Powers) : Powers :=
  ps.filter fun q => q.2 != 0

@[simp] theorem powerOf_nil (name : String) : powerOf [] name = 0 := rfl

theorem powerOf_cons (n : String) (x : Exponent) (ps : Powers) (name : String) :
    powerOf ((n, x) :: ps) name = if name = n then x else powerOf ps name := by
  by_cases h : name = n
  · simp [powerOf, h]
  · have hb : (name == n) = false := by simpa using h
    simp [powerOf, List.lookup_cons, hb, h]

/-- Merging adds to the exponent of one name and to no other. -/
theorem powerOf_merge {ps qs : Powers} {name : String} {x : Exponent}
    (h : ps.merge name x = .ok qs) (other : String) :
    (qs.powerOf other).val =
      if other = name then (ps.powerOf other).val + x.val else (ps.powerOf other).val := by
  induction ps generalizing qs with
  | nil =>
    simp only [merge, Except.ok.injEq] at h
    subst h
    rw [powerOf_cons]
    split
    · exact (Rat.zero_add x.val).symm
    · rfl
  | cons q ps ih =>
    obtain ⟨n, y⟩ := q
    unfold merge at h
    split at h
    · rename_i hn
      subst hn
      cases hs : y.add x with
      | error e => simp [hs, bind, Except.bind] at h
      | ok sum =>
        simp only [hs, bind, Except.bind, pure, Except.pure, Except.ok.injEq] at h
        subst h
        rw [powerOf_cons, powerOf_cons]
        split
        · exact (Exponent.add_eq_ok_iff.1 hs).2
        · rfl
    · rename_i hn
      cases hm : merge ps name x with
      | error e => simp [hm, bind, Except.bind] at h
      | ok merged =>
        simp only [hm, bind, Except.bind, pure, Except.pure, Except.ok.injEq] at h
        subst h
        rw [powerOf_cons, powerOf_cons]
        by_cases ho : other = n
        · subst ho
          simp [hn]
        · simp only [if_neg ho]
          exact ih hm

end Powers

end QuantityCalculus
