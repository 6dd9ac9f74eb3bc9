import Mathlib.Data.List.Forall2
import QuantityCalculus.Proofs.Table.Distinct
import QuantityCalculus.Suggestion.Basic

/-! The letters of a text that matter when names are suggested for it. A text meets a name in three
ways: it may occur in the name, the name may occur in it, and there are edits between the two. All
of these compare its letters with letters of the name, so letters that stand in no name can be replaced
by one another. This covers the sigma, which has two lower-case forms, one of them at the end of a
word. -/

namespace QuantityCalculus

namespace Text

/-- The lower-case forms of a text. Each capital sigma takes one of the two forms of the letter. -/
inductive LowerForm : List Char → List Char → Prop
  | nil : LowerForm [] []
  | letter (c : Char) {cs ds : List Char} : LowerForm cs ds →
    LowerForm (c :: cs) (lowerChar c ++ ds)
  | finalSigma {cs ds : List Char} : LowerForm cs ds → LowerForm ('Σ' :: cs) ('ς' :: ds)

theorem lowerForm_lower (cs : List Char) : LowerForm cs (lower cs) := by
  induction cs with
  | nil => exact .nil
  | cons c cs ih => exact .letter c ih

/-- Letters that are the same or the two forms of the sigma. -/
def SigmaAlike (c d : Char) : Prop := c = d ∨ c = 'σ' ∧ d = 'ς'

theorem LowerForm.alike {cs ds : List Char} (h : LowerForm cs ds) :
    List.Forall₂ SigmaAlike (lower cs) ds := by
  induction h with
  | nil => exact .nil
  | letter c _ ih =>
    rw [lower_cons]
    exact List.rel_append (List.forall₂_same.2 fun _ _ => .inl rfl) ih
  | finalSigma _ ih =>
    have hsigma : lowerChar 'Σ' = ['σ'] := by decide +kernel
    rw [lower_cons, hsigma]
    exact .cons (.inr ⟨rfl, rfl⟩) ih

/-- The forms of the sigma: the capital, and the two that are small. -/
def sigmas : List Char := ['Σ', 'σ', 'ς']

/-- Only the run of the capital sigma leads to a small one. -/
theorem caseRuns_sigma : ∀ r ∈ caseRuns, ∀ n : Nat, n ∈ [0x3C2, 0x3C3] →
    r.covers (n - r.shift).toNat = true → (n - r.shift).toNat = 'Σ'.toNat := by
  decide +kernel

theorem toNat_ofNat_cases (n : Nat) : (Char.ofNat n).toNat = n ∨ (Char.ofNat n).toNat = 0 := by
  rw [Char.ofNat]
  by_cases h : n.isValidChar
  · rw [dif_pos h]
    exact .inl rfl
  · rw [dif_neg h]
    exact .inr rfl

/-- Only a sigma has a sigma as its lower-case form. -/
theorem mem_sigmas_of_mem_lowerChar {c d : Char} (h : d ∈ lowerChar c) (hd : d ∈ ['ς', 'σ']) :
    c ∈ sigmas := by
  have hnumber : d.toNat ∈ [0x3C2, 0x3C3] := List.mem_map_of_mem hd
  unfold lowerChar at h
  split at h
  · have hdotted : d ∉ ['ς', 'σ'] := by rcases List.mem_pair.1 h with rfl | rfl <;> decide
    exact absurd hd hdotted
  · split at h
    · rename_i r hr
      have hcovers := List.find?_some hr
      rw [List.mem_singleton] at h
      have hshift : (d.toNat : Int) - r.shift = c.toNat := by
        have hpos : 0 < d.toNat := by
          rcases List.mem_pair.1 hd with rfl | rfl <;> decide
        have hcases := toNat_ofNat_cases (c.toNat + r.shift).toNat
        rw [← h] at hcases
        omega
      have hcapital := caseRuns_sigma r (List.mem_of_find?_eq_some hr) d.toNat hnumber
      rw [hshift, Int.toNat_natCast] at hcapital
      rw [Char.toNat_inj.1 (hcapital hcovers)]
      exact List.mem_cons_self
    · rw [← List.mem_singleton.1 h]
      exact List.mem_cons_of_mem _ (by simpa [or_comm] using hd)

end Text

/-! ### Letters that a text is compared with -/

variable {c d : Char} {cs ds es : List Char}

/-- Letters that no letter of a text tells apart. -/
def AlikeIn (es : List Char) (c d : Char) : Prop := ∀ e ∈ es, c = e ↔ d = e

namespace EditDistance

theorem continueRow_congr (h : AlikeIn es c d) (diagonal left : Nat) (above : List Nat) :
    continueRow c diagonal left es above = continueRow d diagonal left es above := by
  induction es generalizing diagonal left above with
  | nil => rfl
  | cons e es ih =>
    obtain ⟨he, hes⟩ := List.forall_mem_cons.1 h
    cases above with
    | nil => rfl
    | cons up above => simp only [continueRow, he, ih hes]

theorem nextRow_congr (h : AlikeIn es c d) (row : List Nat) :
    nextRow c es row = nextRow d es row := by
  cases row with
  | nil => rfl
  | cons first above => rw [nextRow, nextRow, continueRow_congr h]

end EditDistance

theorem editDistance_congr (h : List.Forall₂ (AlikeIn es) cs ds) :
    editDistance cs es = editDistance ds es := by
  unfold editDistance EditDistance.lastRow
  congr 1
  generalize EditDistance.firstRow es = row
  induction h generalizing row with
  | nil => rfl
  | cons hc _ ih => rw [List.foldl_cons, List.foldl_cons, EditDistance.nextRow_congr hc, ih]

namespace Suggestion

theorem occursIn_iff {needle : List Char} : occursIn needle cs = true ↔ needle <:+: cs := by
  induction cs with
  | nil => simp [occursIn]
  | cons c cs ih =>
    rw [occursIn, Bool.or_eq_true, ih, List.isPrefixOf_iff_prefix, List.infix_cons_iff]

theorem prefix_left_congr {zs : List Char} (h : List.Forall₂ (AlikeIn es) cs ds) (hz : zs ⊆ es) :
    cs <+: zs ↔ ds <+: zs := by
  induction h generalizing zs with
  | nil => simp
  | cons hc _ ih =>
    cases zs with
    | nil => simp
    | cons z zs =>
      obtain ⟨hz, hzs⟩ := List.cons_subset.1 hz
      rw [List.cons_prefix_cons, List.cons_prefix_cons, hc z hz, ih hzs]

theorem prefix_right_congr {zs : List Char} (h : List.Forall₂ (AlikeIn es) cs ds) (hz : zs ⊆ es) :
    zs <+: cs ↔ zs <+: ds := by
  induction h generalizing zs with
  | nil => simp
  | cons hc _ ih =>
    cases zs with
    | nil => simp
    | cons z zs =>
      obtain ⟨hz, hzs⟩ := List.cons_subset.1 hz
      rw [List.cons_prefix_cons, List.cons_prefix_cons, eq_comm, hc z hz, eq_comm, ih hzs]

theorem infix_left_congr (h : List.Forall₂ (AlikeIn es) cs ds) : cs <:+: es ↔ ds <:+: es := by
  simp only [List.infix_iff_prefix_suffix]
  exact exists_congr fun zs => and_congr_left fun hz => prefix_left_congr h hz.subset

theorem infix_right_congr (h : List.Forall₂ (AlikeIn es) cs ds) : es <:+: cs ↔ es <:+: ds := by
  induction h with
  | nil => rfl
  | cons hc htail ih =>
    rw [List.infix_cons_iff, List.infix_cons_iff, ih,
      prefix_right_congr (.cons hc htail) (List.Subset.refl es)]

/-! ### Names without a sigma -/

theorem noSigma_entries :
    (Table.entries.all fun e => e.1.toList.all fun c => !Text.sigmas.contains c) = true := by
  decide +kernel

theorem sigma_notMem_entries {e : String × AtomicUnit} (he : e ∈ Table.entries)
    (hc : c ∈ e.1.toList) :
    c ∉ Text.sigmas := by
  have hnone := List.all_eq_true.1 (List.all_eq_true.1 noSigma_entries e he) c hc
  simpa using hnone

/-- The two small sigmas stand in no name, so no name tells them apart. -/
theorem alikeIn_name {name : String} (hn : name ∈ Table.names) (h : Text.SigmaAlike c d) :
    AlikeIn (Text.lower name.toList) c d := by
  rcases h with rfl | ⟨rfl, rfl⟩
  · exact fun e _ => Iff.rfl
  · rw [Table.names, List.mem_mergeSort, List.mem_map] at hn
    obtain ⟨entry, hentry, rfl⟩ := hn
    have hnone : ∀ e ∈ Text.lower entry.1.toList, e ∉ ['ς', 'σ'] := by
      intro e he hsigma
      obtain ⟨a, ha, hea⟩ := List.mem_flatMap.1 he
      exact sigma_notMem_entries hentry ha (Text.mem_sigmas_of_mem_lowerChar hea hsigma)
    intro e he
    have hsigma := hnone e he
    constructor <;> rintro rfl <;> exact absurd (by simp) hsigma

end Suggestion

end QuantityCalculus
