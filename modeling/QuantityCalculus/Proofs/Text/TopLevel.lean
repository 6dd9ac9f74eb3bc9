import QuantityCalculus.Proofs.Text.Blank
import QuantityCalculus.Proofs.Text.Nesting

/-! Pieces of texts. No separator is left in a piece, and cutting at two kinds of separators can be done
for one kind after the other. Blanks around a text do not change its trimmed pieces, and pieces between
blanks whose parentheses match in number are trimmed. -/

namespace QuantityCalculus.Text

variable {sep : Char → Bool} {d : ℤ} {c b : Char} {cs piece : List Char}

/-! ### Pieces of pieces -/

/-- No top-level separator is left in a piece. -/
theorem segmentsFrom_fst_cut (sep : Char → Bool) (d : ℤ) (cs : List Char) :
    segmentsFrom sep d (cut sep d cs).1 = [(cut sep d cs).1] := by
  induction cs generalizing d with
  | nil => rfl
  | cons c cs ih =>
    by_cases hs : separates sep d c = true
    · rw [cut_separator hs]
      rfl
    · have hs : separates sep d c = false := by simpa using hs
      rw [cut_other hs]
      show segmentsFrom sep d (c :: (cut sep (depthAfter d c) cs).1) = _
      rw [segmentsFrom_other hs, ih]
      rfl

theorem segments_of_mem_cut (h : piece ∈ (cut sep d cs).2) : segments sep piece = [piece] := by
  induction cs generalizing d with
  | nil => cases h
  | cons c cs ih =>
    by_cases hs : separates sep d c = true
    · rw [cut_separator hs, List.mem_cons] at h
      rcases h with rfl | h
      · exact segmentsFrom_fst_cut sep 0 cs
      · exact ih h
    · have hs : separates sep d c = false := by simpa using hs
      rw [cut_other hs] at h
      exact ih h

theorem segments_of_mem (h : piece ∈ segments sep cs) : segments sep piece = [piece] := by
  rcases List.mem_cons.1 h with rfl | h
  · exact segmentsFrom_fst_cut sep 0 cs
  · exact segments_of_mem_cut h

/-- A text without top-level separators is one piece. -/
theorem cut_fst_eq_self (h : (cut sep d cs).2 = []) : (cut sep d cs).1 = cs := by
  induction cs generalizing d with
  | nil => rfl
  | cons c cs ih =>
    by_cases hs : separates sep d c = true
    · rw [cut_separator hs] at h
      cases h
    · have hs : separates sep d c = false := by simpa using hs
      rw [cut_other hs] at h ⊢
      rw [ih h]

theorem splitTopLevel_of_not_hasTopLevel (h : hasTopLevel sep cs = false) (ht : trim cs = cs)
    (hne : cs ≠ []) : splitTopLevel sep cs = [cs] := by
  have hnil : (cut sep 0 cs).2 = [] := by simpa [hasTopLevel] using h
  rw [splitTopLevel, segments, hnil, cut_fst_eq_self hnil, List.map_singleton, ht]
  simp [hne]

/-- The trimmed pieces of a text are trimmed and not empty. -/
theorem mem_splitTopLevel (h : piece ∈ splitTopLevel sep cs) : trim piece = piece ∧ piece ≠ [] := by
  obtain ⟨hmem, hne⟩ := List.mem_filter.1 h
  obtain ⟨q, -, rfl⟩ := List.mem_map.1 hmem
  exact ⟨trim_trim q, by simpa using hne⟩

/-- Cutting at two kinds of separators is cutting the pieces of one kind at the other. -/
theorem segmentsFrom_or (p q : Char → Bool) (d : ℤ) (cs : List Char) :
    segmentsFrom (fun c => p c || q c) d cs =
      segmentsFrom q d (cut p d cs).1 ++ (cut p d cs).2.flatMap (segments q) := by
  induction cs generalizing d with
  | nil => rfl
  | cons c cs ih =>
    by_cases hp : separates p d c = true
    · obtain ⟨rfl, hparen, hc⟩ := separates_iff.1 hp
      rw [segmentsFrom_separator (separates_iff.2 ⟨rfl, hparen, by simp [hc]⟩), cut_separator hp, ih]
      rfl
    · have hp : separates p d c = false := by simpa using hp
      rw [cut_other hp]
      by_cases hq : separates q d c = true
      · obtain ⟨rfl, hparen, hc⟩ := separates_iff.1 hq
        rw [segmentsFrom_separator (separates_iff.2 ⟨rfl, hparen, by simp [hc]⟩),
          segmentsFrom_separator hq, ih, depthAfter_eq, nesting_singleton hparen]
        rfl
      · have hq : separates q d c = false := by simpa using hq
        have hpq : separates (fun c => p c || q c) d c = false := by
          simp only [separates, Bool.and_eq_false_iff, Bool.or_eq_false_iff] at hp hq ⊢
          tauto
        rw [segmentsFrom_other hpq, segmentsFrom_other hq, ih]
        rfl

theorem segments_or (p q : Char → Bool) (cs : List Char) :
    segments (fun c => p c || q c) cs = (segments p cs).flatMap (segments q) :=
  segmentsFrom_or p q 0 cs

/-! ### Blanks around a text -/

/-- Behind a top-level separator, cutting starts over. -/
theorem segmentsFrom_append_separator (h : separates sep (d + nesting cs) c = true)
    (ds : List Char) :
    segmentsFrom sep d (cs ++ c :: ds) = segmentsFrom sep d cs ++ segments sep ds := by
  induction cs generalizing d with
  | nil =>
    rw [nesting_nil, add_zero] at h
    exact segmentsFrom_separator h
  | cons a cs ih =>
    rw [add_nesting_cons] at h
    rw [List.cons_append]
    by_cases hs : separates sep d a = true
    · obtain ⟨rfl, hparen, -⟩ := separates_iff.1 hs
      rw [depthAfter_eq, nesting_singleton hparen, add_zero] at h
      rw [segmentsFrom_separator hs, segmentsFrom_separator hs, ih h]
      rfl
    · have hs : separates sep d a = false := by simpa using hs
      rw [segmentsFrom_other hs, segmentsFrom_other hs, ih h]
      rfl

/-- A top-level separator behind a text leaves an empty piece behind it. -/
theorem segmentsFrom_concat_separator (h : separates sep (d + nesting cs) c = true) :
    segmentsFrom sep d (cs ++ [c]) = segmentsFrom sep d cs ++ [[]] :=
  segmentsFrom_append_separator h []

/-- Any other character is added to the last piece. -/
theorem segmentsFrom_concat_other (h : separates sep (d + nesting cs) c = false) :
    ∃ init last, segmentsFrom sep d cs = init ++ [last] ∧
      segmentsFrom sep d (cs ++ [c]) = init ++ [last ++ [c]] := by
  induction cs generalizing d with
  | nil =>
    rw [nesting_nil, add_zero] at h
    refine ⟨[], [], rfl, ?_⟩
    rw [List.nil_append, segmentsFrom_other h]
    rfl
  | cons a cs ih =>
    rw [add_nesting_cons] at h
    rw [List.cons_append]
    by_cases hs : separates sep d a = true
    · obtain ⟨rfl, hparen, -⟩ := separates_iff.1 hs
      rw [depthAfter_eq, nesting_singleton hparen, add_zero] at h
      obtain ⟨init, last, hcs, hc⟩ := ih h
      refine ⟨[] :: init, last, ?_, ?_⟩
      · rw [segmentsFrom_separator hs, hcs]
        rfl
      · rw [segmentsFrom_separator hs, hc]
        rfl
    · have hs : separates sep d a = false := by simpa using hs
      obtain ⟨init, last, hcs, hc⟩ := ih h
      rw [segmentsFrom_other hs, segmentsFrom_other hs, hcs, hc]
      cases init with
      | nil => exact ⟨[], a :: last, rfl, rfl⟩
      | cons first init => exact ⟨(a :: first) :: init, last, rfl, rfl⟩

theorem map_trim_segments_cons (hb : isBlank b = true) (hs : sep b = false) (cs : List Char) :
    (segments sep (b :: cs)).map trim = (segments sep cs).map trim := by
  have hsep : separates sep 0 b = false := by simp [separates, hs]
  rw [segments_eq, segmentsFrom_other hsep, depthAfter_eq, nesting_singleton (ne_paren_of_isBlank hb)]
  show trim (b :: _) :: _ = _
  rw [trim_cons hb]
  rfl

theorem map_trim_segments_concat (hb : isBlank b = true)
    (hs : separates sep (nesting cs) b = false) :
    (segments sep (cs ++ [b])).map trim = (segments sep cs).map trim := by
  obtain ⟨init, last, hcs, hc⟩ := segmentsFrom_concat_other (d := 0) (by rwa [zero_add])
  rw [segments_eq, segments_eq, hcs, hc]
  simp only [List.map_append, List.map_cons, List.map_nil, trim_concat hb]

/-- If blanks do not separate, blanks around a text do not change its trimmed pieces. -/
theorem map_trim_segments_trim (hs : ∀ b, isBlank b = true → sep b = false) (cs : List Char) :
    (segments sep (trim cs)).map trim = (segments sep cs).map trim := by
  refine map_trim (f := fun cs => (segments sep cs).map trim) (fun b cs hb => ?_)
    (fun b cs hb => ?_) cs
  · exact map_trim_segments_cons hb (hs b hb) cs
  · exact map_trim_segments_concat hb (by simp [separates, hs b hb])

/-- Blanks around a text do not change its trimmed pieces other than the empty ones. -/
theorem splitTopLevel_trim (sep : Char → Bool) (cs : List Char) :
    splitTopLevel sep (trim cs) = splitTopLevel sep cs := by
  refine map_trim (f := splitTopLevel sep) (fun b cs hb => ?_) (fun b cs hb => ?_) cs
  · unfold splitTopLevel
    by_cases hs : sep b = true
    · rw [segments_eq, segmentsFrom_separator (separates_iff.2 ⟨rfl, ne_paren_of_isBlank hb, hs⟩)]
      rfl
    · rw [map_trim_segments_cons hb (by simpa using hs)]
  · unfold splitTopLevel
    by_cases hs : separates sep (nesting cs) b = true
    · rw [segments_eq, segmentsFrom_concat_separator (d := 0) (by rwa [zero_add])]
      simp [trim_nil, segments_eq]
    · rw [map_trim_segments_concat hb (by simpa using hs)]

/-! ### Blanks as separators -/

/-- A piece between blanks does not begin with a blank. -/
theorem not_isBlank_head (h : segments isBlank (b :: cs) = [b :: cs]) : isBlank b = false := by
  by_contra hb
  have hb : isBlank b = true := by simpa using hb
  rw [segments_eq, segmentsFrom_separator (separates_iff.2 ⟨rfl, ne_paren_of_isBlank hb, hb⟩)] at h
  exact absurd h (by simp)

/-- It does not end with one either, if its parentheses match in number. -/
theorem not_isBlank_last (h : segments isBlank (cs ++ [b]) = [cs ++ [b]]) (hn : nesting cs = 0) :
    isBlank b = false := by
  by_contra hb
  have hb : isBlank b = true := by simpa using hb
  have hsep := separates_iff.2 ⟨hn, ne_paren_of_isBlank hb, hb⟩
  rw [segments_eq, segmentsFrom_concat_separator (d := 0) (by rwa [zero_add])] at h
  have hlen := congrArg List.length h
  simp [segmentsFrom] at hlen

theorem trim_ne_nil (h : segments isBlank piece = [piece]) (hne : piece ≠ []) :
    trim piece ≠ [] := by
  intro ht
  cases piece with
  | nil => exact hne rfl
  | cons b cs =>
    have hb := trim_eq_nil_iff.1 ht b List.mem_cons_self
    rw [not_isBlank_head h] at hb
    cases hb

/-- The pieces between blanks are trimmed if their parentheses match in number. -/
theorem trim_piece (h : segments isBlank piece = [piece]) (hn : nesting piece = 0) :
    trim piece = piece := by
  apply trim_eq_self
  · rintro b cs rfl
    exact not_isBlank_head h
  · rintro b cs rfl
    by_contra hb
    have hb : isBlank b = true := by simpa using hb
    rw [nesting_append, nesting_singleton (ne_paren_of_isBlank hb), add_zero] at hn
    rw [not_isBlank_last h hn] at hb
    cases hb

/-- Only blank texts have no pieces between blanks. -/
theorem splitTopLevel_isBlank_eq_nil (h : splitTopLevel isBlank cs = []) : trim cs = [] := by
  induction cs with
  | nil => rfl
  | cons b cs ih =>
    by_cases hb : isBlank b = true
    · rw [← splitTopLevel_trim, trim_cons hb, splitTopLevel_trim] at h
      rw [trim_cons hb, ih h]
    · have hsep : separates isBlank 0 b = false := by simp [separates, hb]
      rw [splitTopLevel, segments_eq, segmentsFrom_other hsep, List.filter_eq_nil_iff] at h
      have hhead := h (trim (b :: (cut isBlank (depthAfter 0 b) cs).1)) List.mem_cons_self
      have hall : trim (b :: (cut isBlank (depthAfter 0 b) cs).1) = [] := by simpa using hhead
      exact absurd (trim_eq_nil_iff.1 hall b List.mem_cons_self) hb

end QuantityCalculus.Text
