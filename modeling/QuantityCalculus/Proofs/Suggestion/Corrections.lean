import Mathlib.Data.List.Nodup
import Mathlib.Data.List.Sort
import QuantityCalculus.Proofs.Suggestion.EditDistance
import QuantityCalculus.Proofs.Suggestion.LowerForm
import QuantityCalculus.Proofs.Table.Names

/-! Suggestions are the best names and nothing else. The names of the table that are close to a text are
ranked by the number of edits and then by their letters. The names of the table are distinct, so the
ranking is strict, and there is only one list that holds the close names in this order. What is
suggested is the beginning of this list. -/

namespace QuantityCalculus.Suggestion

open Text

variable {q : List Char} {a b c : Candidate} {name : String} {s : String}

/-! ### The order of the candidates -/

/-- Fewer edits come first, and among as many the name that comes first. -/
def Candidate.Precedes (a b : Candidate) : Prop :=
  a.distance < b.distance ∨ a.distance = b.distance ∧ a.name < b.name

theorem le_iff : a.le b = true ↔
    a.distance < b.distance ∨ a.distance = b.distance ∧ a.name ≤ b.name := by
  simp [Candidate.le]

theorem le_trans (hab : a.le b = true) (hbc : b.le c = true) : a.le c = true := by
  rw [le_iff] at *
  rcases hab with h | ⟨h, hname⟩ <;> rcases hbc with h' | ⟨h', hname'⟩
  · exact .inl (h.trans h')
  · exact .inl (h' ▸ h)
  · exact .inl (h ▸ h')
  · exact .inr ⟨h.trans h', String.le_trans hname hname'⟩

theorem le_total (a b : Candidate) : (a.le b || b.le a) = true := by
  rw [Bool.or_eq_true, le_iff, le_iff]
  rcases Nat.lt_trichotomy a.distance b.distance with h | h | h
  · exact .inl (.inl h)
  · rcases String.le_total a.name b.name with hname | hname
    · exact .inl (.inr ⟨h, hname⟩)
    · exact .inr (.inr ⟨h.symm, hname⟩)
  · exact .inr (.inl h)

theorem precedes_of_le (h : a.le b = true) (hne : a ≠ b) : a.Precedes b := by
  rcases le_iff.1 h with h | ⟨h, hname⟩
  · exact .inl h
  · refine .inr ⟨h, String.not_le.1 fun hge => hne ?_⟩
    obtain ⟨distance, name⟩ := a
    obtain ⟨distance', name'⟩ := b
    cases h
    cases String.le_antisymm hname hge
    rfl

instance : Std.Asymm Candidate.Precedes where
  asymm a b := by
    rintro (h | ⟨h, hname⟩) (h' | ⟨h', hname'⟩)
    · omega
    · omega
    · omega
    · exact String.lt_asymm hname hname'

/-! ### Close names -/

/-- A text and a name, both in lower case, one of which occurs in the other or leads to it by at most two
edits. -/
def Close (q lower : List Char) : Prop :=
  q <:+: lower ∨ lower <:+: q ∨ editDistance q lower ≤ 2

/-- The close names of the table with their distances, each of them once and in order. -/
structure Ranking (q : List Char) (cs : List Candidate) : Prop where
  sorted : cs.Pairwise Candidate.Precedes
  mem_iff : ∀ c, c ∈ cs ↔ (∃ unit, Table.entry? c.name = some unit) ∧
    c.distance = editDistance q (lower c.name.toList) ∧ Close q (lower c.name.toList)

theorem candidate?_eq_some_iff : candidate? q name = some c ↔
    c = ⟨editDistance q (lower name.toList), name⟩ ∧ Close q (lower name.toList) := by
  have htest : (occursIn q (lower name.toList) || occursIn (lower name.toList) q ||
      decide (editDistance q (lower name.toList) ≤ maxDistance)) = true ↔
      Close q (lower name.toList) := by
    rw [Bool.or_eq_true, Bool.or_eq_true, decide_eq_true_iff, occursIn_iff, occursIn_iff, or_assoc]
    rfl
  rw [candidate?, Option.ite_none_right_eq_some, htest, Option.some.injEq, eq_comm, and_comm]

theorem candidate?_injective {name' : String} (h : candidate? q name = some c)
    (h' : candidate? q name' = some c) : name = name' := by
  obtain ⟨rfl, -⟩ := candidate?_eq_some_iff.1 h
  exact congrArg Candidate.name (candidate?_eq_some_iff.1 h').1

theorem mem_candidates_iff : c ∈ candidates q ↔ (∃ unit, Table.entry? c.name = some unit) ∧
    c.distance = editDistance q (lower c.name.toList) ∧ Close q (lower c.name.toList) := by
  rw [candidates, List.mem_mergeSort, List.mem_filterMap, ← Table.mem_names_iff]
  constructor
  · rintro ⟨name, hname, hc⟩
    obtain ⟨rfl, hclose⟩ := candidate?_eq_some_iff.1 hc
    exact ⟨hname, rfl, hclose⟩
  · rintro ⟨hname, hdistance, hclose⟩
    exact ⟨c.name, hname, candidate?_eq_some_iff.2 ⟨by rw [← hdistance], hclose⟩⟩

theorem nodup_candidates (q : List Char) : (candidates q).Nodup := by
  rw [candidates, (List.mergeSort_perm _ _).nodup_iff]
  exact Table.nodup_names.filterMap fun _ _ _ h h' => candidate?_injective h h'

theorem ranking_candidates (q : List Char) : Ranking q (candidates q) where
  sorted := by
    have hsorted : (candidates q).Pairwise fun a b => a.le b = true :=
      List.pairwise_mergeSort (fun a b c => @le_trans a b c) le_total _
    exact (hsorted.and (nodup_candidates q)).imp fun ⟨hle, hne⟩ => precedes_of_le hle hne
  mem_iff _ := mem_candidates_iff

/-- There is one ranking only. -/
theorem Ranking.unique {cs ds : List Candidate} (h : Ranking q cs) (h' : Ranking q ds) : cs = ds :=
  h.sorted.eq_of_mem_iff h'.sorted fun c => (h.mem_iff c).trans (h'.mem_iff c).symm

theorem Ranking.nodup_names {cs : List Candidate} (h : Ranking q cs) :
    (cs.map Candidate.name).Nodup := by
  have hnodup : cs.Nodup := h.sorted.imp ne_of_irrefl
  refine hnodup.map_on fun a ha b hb hname => ?_
  obtain ⟨distance, name⟩ := a
  obtain ⟨distance', name'⟩ := b
  cases hname
  cases ((h.mem_iff _).1 ha).2.1.trans ((h.mem_iff _).1 hb).2.1.symm
  rfl

/-- A name that is what is looked for comes first, up to other names with the same letters. -/
theorem Ranking.head_distance {cs : List Candidate} (h : Ranking q cs) (hc : c ∈ cs)
    (hzero : c.distance = 0) : ∃ first rest, cs = first :: rest ∧ first.distance = 0 := by
  cases cs with
  | nil => cases hc
  | cons first rest =>
    refine ⟨first, rest, rfl, ?_⟩
    rcases List.mem_cons.1 hc with rfl | hrest
    · exact hzero
    · rcases (List.pairwise_cons.1 h.sorted).1 c hrest with hlt | ⟨heq, -⟩ <;> omega

/-! ### Texts and their lower-case forms -/

/-- What is close does not depend on the form of a sigma. -/
theorem Ranking.congr {q' : List Char} {cs : List Candidate}
    (hq : ∀ name ∈ Table.names, List.Forall₂ (AlikeIn (lower name.toList)) q q')
    (h : Ranking q cs) : Ranking q' cs where
  sorted := h.sorted
  mem_iff c := by
    rw [h.mem_iff, ← Table.mem_names_iff]
    refine and_congr_right fun hname => ?_
    have halike := hq c.name hname
    rw [Close, Close, editDistance_congr halike, infix_left_congr halike,
      infix_right_congr halike]

theorem ranking_of_lowerForm (h : LowerForm (trim s.toList) q) :
    Ranking q (candidates (query s)) :=
  (ranking_candidates (query s)).congr fun _ hname => h.alike.imp fun _ _ => alikeIn_name hname

theorem corrections_eq (hq : query s ≠ []) (k : Nat) :
    corrections s k = ((candidates (query s)).take k).map Candidate.name :=
  if_neg fun h => hq (List.isEmpty_iff.1 h)

theorem corrections_eq_nil (hq : query s = []) (k : Nat) : corrections s k = [] :=
  if_pos (List.isEmpty_iff.2 hq)

theorem lowerChar_ne_nil (x : Char) : lowerChar x ≠ [] := by
  unfold lowerChar
  split
  · simp
  · split <;> simp

/-- The names of the table are not empty, not even in lower case. -/
theorem lower_name_ne_nil {unit : AtomicUnit} (h : Table.entry? name = some unit) :
    lower name.toList ≠ [] := by
  have hplain := Table.isPlainName_of_entry h
  cases hname : name.toList with
  | nil =>
    rw [hname] at hplain
    cases hplain
  | cons x xs =>
    rw [lower_cons]
    exact List.append_ne_nil_of_left_ne_nil (lowerChar_ne_nil x) _

/-! ### The law -/

/-- What is suggested for a text `s`, of which `q` is the lower-case form. -/
structure CorrectionLaw (s : String) (q : List Char) : Prop where
  blank : q = [] → ∀ k, corrections s k = []
  best : q ≠ [] → ∃ ranking, Ranking q ranking ∧
    ∀ k, corrections s k = (ranking.take k).map Candidate.name
  nodup : ∀ k, (corrections s k).Nodup
  extends_fewer : ∀ k l, k ≤ l → corrections s k <+: corrections s l
  found : ∀ name unit, Table.entry? name = some unit → q = lower name.toList → ∀ k, 1 ≤ k →
    ∃ first rest, corrections s k = first :: rest ∧ editDistance q (lower first.toList) = 0

theorem correctionLaw (h : LowerForm (trim s.toList) q) : CorrectionLaw s q := by
  have hranking := ranking_of_lowerForm h
  have hlength : (query s).length = q.length := h.alike.length_eq
  by_cases hblank : query s = []
  · have hq : q = [] := List.length_eq_zero_iff.1 (by rw [← hlength, hblank, List.length_nil])
    have hnone := corrections_eq_nil hblank
    constructor
    case blank => exact fun _ => hnone
    case best => exact fun hne => absurd hq hne
    case nodup => exact fun k => hnone k ▸ List.nodup_nil
    case extends_fewer => exact fun k l _ => by simp [hnone]
    case found => exact fun name unit hname heq => absurd (heq ▸ hq) (lower_name_ne_nil hname)
  · have hq : q ≠ [] := fun hq => hblank (List.length_eq_zero_iff.1 (by rw [hlength, hq]; rfl))
    have heq := corrections_eq hblank
    constructor
    case blank => exact fun hnil => absurd hnil hq
    case best => exact fun _ => ⟨_, hranking, heq⟩
    case nodup =>
      intro k
      rw [heq, List.map_take]
      exact hranking.nodup_names.sublist (List.take_sublist k _)
    case extends_fewer =>
      intro k l hkl
      rw [heq, heq]
      exact (List.take_prefix_take_left hkl).map _
    case found =>
      intro name unit hname hlower k hk
      have hmem : (⟨0, name⟩ : Candidate) ∈ candidates (query s) := by
        have hzero : editDistance q (lower name.toList) = 0 := by
          rw [editDistance_eq, EditDistance.distance_eq_zero_iff, hlower]
        have hinfix : q <:+: lower name.toList := ⟨[], [], by rw [hlower]; simp⟩
        exact (hranking.mem_iff _).2 ⟨⟨unit, hname⟩, hzero.symm, .inl hinfix⟩
      obtain ⟨first, rest, hcs, hfirst⟩ := hranking.head_distance hmem rfl
      obtain ⟨k, rfl⟩ := Nat.exists_eq_add_of_le' hk
      refine ⟨first.name, (rest.take k).map Candidate.name, ?_, ?_⟩
      · rw [heq, hcs]
        rfl
      · have hdistance := ((hranking.mem_iff first).1 (hcs ▸ List.mem_cons_self)).2.1
        rw [← hdistance, hfirst]

/-- A text with blanks around it that ends in a capital sigma. -/
theorem correctionLaw_sigma : LowerForm (trim " METRΣ ".toList) "metrς".toList ∧
    CorrectionLaw " METRΣ " "metrς".toList := by
  have htrim : trim " METRΣ ".toList = ['M', 'E', 'T', 'R', 'Σ'] := by decide +kernel
  have hform : LowerForm (trim " METRΣ ".toList) "metrς".toList := by
    rw [htrim]
    exact .letter 'M' (.letter 'E' (.letter 'T' (.letter 'R' (.finalSigma .nil))))
  exact ⟨hform, correctionLaw hform⟩

end QuantityCalculus.Suggestion
