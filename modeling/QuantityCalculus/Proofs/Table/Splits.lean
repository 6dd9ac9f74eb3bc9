import Mathlib.Data.List.Nodup
import QuantityCalculus.Proofs.CompoundUnit.WellFormed
import QuantityCalculus.Proofs.Table.Names

/-! Prefixes are read in one way only. Two readings of a name have prefixes of which one begins with
the other, as `da` begins with `d`. The unit of the shorter one then begins with what the longer one
has in addition; there are few such units in the table, and what is left of them is not the name of a
unit. So the order in which the prefixes are tried does not matter. -/

namespace QuantityCalculus.Table

variable {name n n' : String} {p p' : SiPrefix} {unit unit' : AtomicUnit}

/-- A reading of a name as a prefix followed by the name of a unit that takes prefixes and whose scale
has no zero of its own. -/
structure Reading (name : String) (p : SiPrefix) (n : String) (unit : AtomicUnit) : Prop where
  isPrefix : p ∈ SiPrefix.all
  name_eq : name = p.text ++ n
  entry : entry? n = some unit
  prefixable : unit.prefixable = true
  offset : unit.offset = none

theorem nodup_prefixes : (SiPrefix.all.map SiPrefix.text).Nodup := by
  decide +kernel

/-- What is left of a unit that begins with the difference of two prefixes stands for nothing. -/
theorem overlaps : ∀ p ∈ SiPrefix.all, ∀ p' ∈ SiPrefix.all,
    ∀ r ∈ dropFront? p.text.toList p'.text.toList, r ≠ [] →
    ∀ e ∈ entries, e.2.takesPrefixes = true →
    ∀ rest ∈ dropFront? r e.1.toList, entry? (String.ofList rest) = none := by
  decide +kernel

theorem takesPrefixes_iff : unit.takesPrefixes = true ↔
    unit.prefixable = true ∧ unit.offset = none := by
  rw [AtomicUnit.takesPrefixes, Bool.and_eq_true, Option.isNone_iff_eq_none]

/-- Of two readings none has the longer prefix. -/
theorem Reading.eq_nil_of_append {r : List Char} (h : Reading name p n unit)
    (h' : Reading name p' n' unit') (hp : p'.text.toList = p.text.toList ++ r)
    (hn : n.toList = r ++ n'.toList) : r = [] := by
  by_contra hr
  have hnone := overlaps p h.isPrefix p' h'.isPrefix r (dropFront?_eq_some_iff.2 hp) hr (n, unit)
    (mem_entries_of_entry h.entry) (takesPrefixes_iff.2 ⟨h.prefixable, h.offset⟩) n'.toList
    (dropFront?_eq_some_iff.2 hn)
  rw [String.ofList_toList, h'.entry] at hnone
  cases hnone

/-- A name has one reading at most. -/
theorem Reading.unique (h : Reading name p n unit) (h' : Reading name p' n' unit') :
    p = p' ∧ n = n' ∧ unit = unit' := by
  have hname : p.text.toList ++ n.toList = p'.text.toList ++ n'.toList := by
    rw [← String.toList_append, ← String.toList_append, ← h.name_eq, ← h'.name_eq]
  have hboth : p.text.toList = p'.text.toList ∧ n.toList = n'.toList := by
    rcases List.append_eq_append_iff.1 hname with ⟨r, hp, hn⟩ | ⟨r, hp, hn⟩
    · cases h.eq_nil_of_append h' hp hn
      exact ⟨by simpa using hp.symm, hn⟩
    · cases h'.eq_nil_of_append h hp hn
      exact ⟨by simpa using hp, hn.symm⟩
  obtain rfl : n = n' := String.toList_inj.1 hboth.2
  have hunit := h.entry.symm.trans h'.entry
  exact ⟨List.inj_on_of_nodup_map nodup_prefixes h.isPrefix h'.isPrefix
    (String.toList_inj.1 hboth.1), rfl, Option.some.inj hunit⟩

/-! ### The search for a reading -/

theorem splitAt?_eq_some_iff {s : Split} (hp : p ∈ SiPrefix.all) :
    splitAt? name p = some s ↔ s.attached = p ∧ Reading name p s.unitName s.unit := by
  constructor
  · intro h
    obtain ⟨hname, hentry⟩ := splitAt?_cases h
    obtain ⟨hattached, htakes⟩ := splitAt?_attached h
    obtain ⟨hprefixable, hoffset⟩ := takesPrefixes_iff.1 htakes
    refine ⟨hattached, hp, ?_, hentry, hprefixable, hoffset⟩
    rw [← String.toList_inj, hname, String.toList_append]
  · obtain ⟨attached, n, unit⟩ := s
    rintro ⟨rfl, h⟩
    have hdrop : dropFront? attached.text.toList name.toList = some n.toList := by
      rw [dropFront?_eq_some_iff, h.name_eq, String.toList_append]
    have htakes := takesPrefixes_iff.2 ⟨h.prefixable, h.offset⟩
    simp [splitAt?, hdrop, String.ofList_toList, h.entry, htakes]

section Order

-- The prefixes in any order, with or without repetition.
variable {ps : List SiPrefix} (hps : ∀ p, p ∈ ps ↔ p ∈ SiPrefix.all)

include hps

theorem reading_of_findSome? {s : Split} (h : ps.findSome? (splitAt? name) = some s) :
    Reading name s.attached s.unitName s.unit := by
  obtain ⟨p, hp, h⟩ := List.exists_of_findSome?_eq_some h
  obtain ⟨rfl, h⟩ := (splitAt?_eq_some_iff ((hps p).1 hp)).1 h
  exact h

/-- The search ends with the reading, in whatever order it is made. -/
theorem Reading.findSome?_eq (h : Reading name p n unit) :
    ps.findSome? (splitAt? name) = some ⟨p, n, unit⟩ := by
  have hsplit : splitAt? name p = some ⟨p, n, unit⟩ :=
    (splitAt?_eq_some_iff h.isPrefix).2 ⟨rfl, h⟩
  have hsome : (ps.findSome? (splitAt? name)).isSome := by
    rw [List.findSome?_isSome_iff]
    exact ⟨p, (hps p).2 h.isPrefix, hsplit ▸ rfl⟩
  obtain ⟨⟨p', n', unit'⟩, ht⟩ := Option.isSome_iff_exists.1 hsome
  obtain ⟨rfl, rfl, rfl⟩ := h.unique (reading_of_findSome? hps ht)
  exact ht

theorem findSome?_eq_none (h : ∀ p n unit, ¬ Reading name p n unit) :
    ps.findSome? (splitAt? name) = none := by
  cases hs : ps.findSome? (splitAt? name) with
  | none => rfl
  | some s => exact absurd (reading_of_findSome? hps hs) (h _ _ _)

end Order

theorem splitName?_of_entry (h : entry? name = some unit) : splitName? name = none := by
  rw [splitName?, h]

theorem splitName?_of_not_entry (h : entry? name = none) :
    splitName? name = SiPrefix.all.findSome? (splitAt? name) := by
  rw [splitName?, h]

theorem lookup?_of_entry (h : entry? name = some unit) : lookup? name = some unit := by
  rw [lookup?, h]

theorem lookup?_of_not_entry (h : entry? name = none) :
    lookup? name = (splitName? name).map Split.resolved := by
  rw [lookup?, h]

/-! ### Dimensions of families -/

/-- The dimension of the family with a given name. -/
def familyDimension? (family : String) : Option Dimension :=
  (Family.ofName? family).map Family.dimension

/-- The families are told apart by their names. -/
theorem familyDimension?_name (f : Family) : familyDimension? f.name = some f.dimension := by
  have h : ∀ f ∈ Family.all, Family.ofName? f.name = some f := by decide +kernel
  rw [familyDimension?, h f (Family.mem_all f)]
  rfl

theorem unitDimension_eq (name : String) : unitDimension name =
    match (lookup? name).bind fun unit => familyDimension? unit.family.name with
    | some d => .ok d
    | none => .error (.unknownUnit name) := by
  cases h : lookup? name with
  | none => simp [unitDimension, lookup, h, bind, Except.bind]
  | some unit =>
    simp [unitDimension, lookup, h, familyDimension?_name, bind, Except.bind, pure, Except.pure]

/-! ### The law -/

/-- How a name is resolved. -/
structure ResolutionLaw (name : String) : Prop where
  listed : ∀ unit, entry? name = some unit → splitName? name = none ∧ lookup? name = some unit
  unique : ∀ p n unit p' n' unit', Reading name p n unit → Reading name p' n' unit' →
    p = p' ∧ n = n' ∧ unit = unit'
  read : entry? name = none → ∀ p n unit, Reading name p n unit →
    splitName? name = some ⟨p, n, unit⟩ ∧
      lookup? name = some { unit with factor := unit.factor * p.factor }
  unread : entry? name = none → (∀ p n unit, ¬ Reading name p n unit) →
    splitName? name = none ∧ lookup? name = none
  unordered : entry? name = none → ∀ ps : List SiPrefix, (∀ p, p ∈ ps ↔ p ∈ SiPrefix.all) →
    ps.findSome? (splitAt? name) = splitName? name
  family : ∀ unit, lookup? name = some unit →
    familyDimension? unit.family.name = some unit.family.dimension
  dimension : unitDimension name =
    match (lookup? name).bind fun unit => familyDimension? unit.family.name with
    | some d => .ok d
    | none => .error (.unknownUnit name)
  dimension_isOk_iff : (∃ d, unitDimension name = .ok d) ↔ ∃ unit, lookup? name = some unit

theorem resolutionLaw (name : String) : ResolutionLaw name where
  listed unit h := ⟨splitName?_of_entry h, lookup?_of_entry h⟩
  unique _ _ _ _ _ _ h h' := h.unique h'
  read hnone p n unit h := by
    have hsplit : splitName? name = some ⟨p, n, unit⟩ :=
      (splitName?_of_not_entry hnone).trans (h.findSome?_eq fun _ => Iff.rfl)
    refine ⟨hsplit, ?_⟩
    rw [lookup?_of_not_entry hnone, hsplit]
    rfl
  unread hnone h := by
    have hsplit : splitName? name = none :=
      (splitName?_of_not_entry hnone).trans (findSome?_eq_none (fun _ => Iff.rfl) h)
    refine ⟨hsplit, ?_⟩
    rw [lookup?_of_not_entry hnone, hsplit]
    rfl
  unordered hnone ps hps := by
    rw [splitName?_of_not_entry hnone]
    by_cases h : ∃ p n unit, Reading name p n unit
    · obtain ⟨p, n, unit, h⟩ := h
      rw [h.findSome?_eq hps, h.findSome?_eq fun _ => Iff.rfl]
    · have h : ∀ p n unit, ¬ Reading name p n unit := fun p n unit hr => h ⟨p, n, unit, hr⟩
      rw [findSome?_eq_none hps h, findSome?_eq_none (fun _ => Iff.rfl) h]
  family unit _ := familyDimension?_name unit.family
  dimension := unitDimension_eq name
  dimension_isOk_iff := by
    constructor
    · rintro ⟨d, hd⟩
      obtain ⟨unit, hunit, -⟩ := unitDimension_eq_ok_iff.1 hd
      exact ⟨unit, hunit⟩
    · rintro ⟨unit, hunit⟩
      exact ⟨unit.family.dimension, unitDimension_eq_ok_iff.2 ⟨unit, hunit, rfl⟩⟩

end QuantityCalculus.Table
