import Mathlib.Data.List.Basic
import QuantityCalculus.CompoundUnit.Token
import QuantityCalculus.Table.Lookup

/-! The names of the table. A name that stands for an atomic unit, with or without a prefix, holds no
blank, no parenthesis and no operator, and does not begin like a number. So it can be told from all
that surrounds it in the text of a unit. -/

namespace QuantityCalculus.Table

/-- Whether a character has no meaning of its own in the text of a unit. -/
def isPlainChar (c : Char) : Bool :=
  Token.isNameChar c && Token.isInner c && c != '/' && c != '*'

/-- Whether a number can begin with a character. -/
def startsNumber (c : Char) : Bool := c.isDigit || c == '-' || c == '+' || c == '.'

/-- Whether a text holds plain characters only and does not begin like a number. -/
def isPlainName : List Char → Bool
  | [] => false
  | c :: cs => !startsNumber c && (c :: cs).all isPlainChar

theorem isPlainName_append {cs ds : List Char} (hc : isPlainName cs = true)
    (hd : isPlainName ds = true) : isPlainName (cs ++ ds) = true := by
  cases cs with
  | nil => cases hc
  | cons c cs =>
    cases ds with
    | nil => cases hd
    | cons d ds =>
      simp only [isPlainName, List.cons_append, List.all_cons, List.all_append, Bool.and_eq_true]
        at hc hd ⊢
      exact ⟨hc.1, hc.2.1, hc.2.2, hd.2⟩

theorem isPlainName_entries : entries.all (fun e => isPlainName e.1.toList) = true := by
  decide +kernel

theorem isPlainName_prefixes : SiPrefix.all.all (fun p => isPlainName p.text.toList) = true := by
  decide +kernel

theorem mem_entries_of_entry {name : String} {unit : AtomicUnit} (h : entry? name = some unit) :
    (name, unit) ∈ entries := by
  obtain ⟨before, behind, he, -⟩ := List.lookup_eq_some_iff.1 h
  rw [he]
  exact List.mem_append_right _ List.mem_cons_self

theorem isPlainName_of_entry {name : String} {unit : AtomicUnit} (h : entry? name = some unit) :
    isPlainName name.toList = true :=
  List.all_eq_true.1 isPlainName_entries _ (mem_entries_of_entry h)

/-- A split at a prefix takes the name apart. -/
theorem splitAt?_cases {name : String} {p : SiPrefix} {s : Split} (h : splitAt? name p = some s) :
    name.toList = p.text.toList ++ s.unitName.toList ∧ entry? s.unitName = some s.unit := by
  simp only [splitAt?, Option.bind_eq_bind, Option.bind_eq_some_iff, dropFront?_eq_some_iff] at h
  obtain ⟨rest, hr, unit, hu, h⟩ := h
  split at h
  · cases h
    exact ⟨by rw [hr, String.toList_ofList], hu⟩
  · cases h

/-- A prefix is only attached to a unit that takes one. -/
theorem splitAt?_attached {name : String} {p : SiPrefix} {s : Split} (h : splitAt? name p = some s) :
    s.attached = p ∧ s.unit.takesPrefixes = true := by
  simp only [splitAt?, Option.bind_eq_bind, Option.bind_eq_some_iff] at h
  obtain ⟨rest, -, unit, -, h⟩ := h
  split at h
  · rename_i hprefix
    cases h
    exact ⟨rfl, hprefix⟩
  · cases h

/-- A name stands for its entry, or for an entry that takes the prefix in front of its name. -/
theorem lookup?_cases {name : String} {unit : AtomicUnit} (h : lookup? name = some unit) :
    entry? name = some unit ∨ ∃ p ∈ SiPrefix.all, ∃ n base,
      name.toList = p.text.toList ++ n.toList ∧ entry? n = some base ∧
        base.takesPrefixes = true ∧ unit = { base with factor := base.factor * p.factor } := by
  unfold lookup? at h
  split at h
  · rename_i he
    cases h
    exact .inl he
  · rename_i he
    obtain ⟨s, hs, rfl⟩ := Option.map_eq_some_iff.1 h
    simp only [splitName?, he] at hs
    obtain ⟨p, hp, hs⟩ := List.exists_of_findSome?_eq_some hs
    obtain ⟨hname, hentry⟩ := splitAt?_cases hs
    obtain ⟨rfl, htakes⟩ := splitAt?_attached hs
    exact .inr ⟨_, hp, s.unitName, s.unit, hname, hentry, htakes, rfl⟩

/-- The names that stand for an atomic unit are plain. -/
theorem isPlainName_of_lookup {name : String} {unit : AtomicUnit} (h : lookup? name = some unit) :
    isPlainName name.toList = true := by
  rcases lookup?_cases h with he | ⟨p, hp, n, base, hname, he, -, -⟩
  · exact isPlainName_of_entry he
  · rw [hname]
    exact isPlainName_append (List.all_eq_true.1 isPlainName_prefixes p hp)
      (isPlainName_of_entry he)

theorem isPlainChar_of_lookup {name : String} {unit : AtomicUnit} (h : lookup? name = some unit) :
    ∀ c ∈ name.toList, isPlainChar c = true := by
  have hp := isPlainName_of_lookup h
  cases hn : name.toList with
  | nil => intro c hc; cases hc
  | cons a cs =>
    rw [hn, isPlainName, Bool.and_eq_true] at hp
    exact List.all_eq_true.1 hp.2

/-- The first character of a name. -/
theorem exists_cons_of_lookup {name : String} {unit : AtomicUnit} (h : lookup? name = some unit) :
    ∃ c cs, name.toList = c :: cs ∧ startsNumber c = false := by
  have hp := isPlainName_of_lookup h
  cases hn : name.toList with
  | nil =>
    rw [hn] at hp
    cases hp
  | cons c cs =>
    rw [hn, isPlainName, Bool.and_eq_true] at hp
    exact ⟨c, cs, rfl, by simpa using hp.1⟩

end QuantityCalculus.Table
