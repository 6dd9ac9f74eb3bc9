import QuantityCalculus.Proofs.Text.TopLevel

/-! Closed texts. A text is closed for a kind of separators if its parentheses match in number and no
separator has nesting zero. Closed texts can be put behind each other, and a separator behind a closed
text ends its piece. -/

namespace QuantityCalculus.Text

variable {sep : Char → Bool} {d : ℤ} {c : Char} {cs ds : List Char}

/-- No separator of nesting zero, and as many parentheses opened as closed. -/
structure Closed (sep : Char → Bool) (cs : List Char) : Prop where
  whole : segments sep cs = [cs]
  nesting_eq_zero : nesting cs = 0

theorem segmentsFrom_cons_whole (h : segmentsFrom sep d (c :: cs) = [c :: cs]) :
    separates sep d c = false ∧ segmentsFrom sep (depthAfter d c) cs = [cs] := by
  by_cases hs : separates sep d c = true
  · rw [segmentsFrom_separator hs] at h
    cases h
  · have hs : separates sep d c = false := by simpa using hs
    rw [segmentsFrom_other hs] at h
    refine ⟨hs, ?_⟩
    obtain ⟨piece, pieces, hp⟩ := List.exists_cons_of_ne_nil
      (segmentsFrom_ne_nil (d := depthAfter d c))
    rw [hp] at h ⊢
    simpa using h

/-- A text without separators becomes the front of the first piece. -/
theorem segmentsFrom_append (h : segmentsFrom sep d cs = [cs]) (ds : List Char) :
    segmentsFrom sep d (cs ++ ds) =
      (segmentsFrom sep (d + nesting cs) ds).modifyHead fun piece => cs ++ piece := by
  induction cs generalizing d with
  | nil =>
    rw [nesting_nil, add_zero]
    rfl
  | cons c cs ih =>
    obtain ⟨hs, htail⟩ := segmentsFrom_cons_whole h
    rw [List.cons_append, segmentsFrom_other hs, ih htail, add_nesting_cons]
    rfl

theorem Closed.append (hc : Closed sep cs) (hd : Closed sep ds) : Closed sep (cs ++ ds) := by
  constructor
  · rw [segments_eq, segmentsFrom_append hc.whole, hc.nesting_eq_zero, add_zero, ← segments_eq,
      hd.whole]
    rfl
  · rw [nesting_append, hc.nesting_eq_zero, hd.nesting_eq_zero, add_zero]

/-- A separator ends the piece of a closed text. -/
theorem Closed.segments_append (hc : Closed sep cs) (hs : separates sep 0 c = true)
    (ds : List Char) : segments sep (cs ++ c :: ds) = cs :: segments sep ds := by
  have hsep : separates sep (0 + nesting cs) c = true := by rwa [hc.nesting_eq_zero, add_zero]
  rw [segments_eq, segmentsFrom_append_separator hsep, ← segments_eq, hc.whole]
  rfl

theorem Closed.splitTopLevel_append (hc : Closed sep cs) (hs : separates sep 0 c = true)
    (ds : List Char) :
    splitTopLevel sep (cs ++ c :: ds) = splitTopLevel sep cs ++ splitTopLevel sep ds := by
  unfold splitTopLevel
  rw [hc.segments_append hs, hc.whole, ← List.filter_append, ← List.map_append]
  rfl

theorem Closed.not_hasTopLevel (h : Closed sep cs) : hasTopLevel sep cs = false := by
  have := (List.cons.inj h.whole).2
  simp [hasTopLevel, this]

theorem Closed.splitTopLevel (h : Closed sep cs) (ht : trim cs ≠ []) :
    splitTopLevel sep cs = [trim cs] := by
  simp [Text.splitTopLevel, h.whole, ht]

/-! ### Texts that are closed -/

theorem segmentsFrom_of_forall (h : ∀ c ∈ cs, ∀ d, separates sep d c = false) (d : ℤ) :
    segmentsFrom sep d cs = [cs] := by
  induction cs generalizing d with
  | nil => rfl
  | cons c cs ih =>
    rw [segmentsFrom_other (h c List.mem_cons_self d), ih fun a ha => h a (List.mem_cons_of_mem c ha)]
    rfl

/-- A text with neither separators nor parentheses is closed. -/
theorem closed_of_forall (hs : ∀ c ∈ cs, sep c = false) (hp : ∀ c ∈ cs, c ≠ '(' ∧ c ≠ ')') :
    Closed sep cs :=
  ⟨segmentsFrom_of_forall (fun c hc d => by simp [separates, hs c hc]) 0, nesting_eq_zero hp⟩

/-- Nothing separates behind a parenthesis that is still open. -/
theorem segmentsFrom_one (h : ∀ c ∈ cs, c ≠ '(' ∧ c ≠ ')') :
    segmentsFrom sep 1 (cs ++ [')']) = [cs ++ [')']] := by
  induction cs with
  | nil => rfl
  | cons c cs ih =>
    have hc := h c List.mem_cons_self
    have hs : separates sep 1 c = false := by simp [separates]
    rw [List.cons_append, segmentsFrom_other hs, depthAfter_eq, nesting_singleton hc, add_zero,
      ih fun a ha => h a (List.mem_cons_of_mem c ha)]
    rfl

/-- A text in parentheses is closed. -/
theorem closed_paren (h : ∀ c ∈ cs, c ≠ '(' ∧ c ≠ ')') : Closed sep ('(' :: cs ++ [')']) := by
  have hs : separates sep 0 '(' = false := by simp [separates]
  constructor
  · rw [segments_eq, List.cons_append, segmentsFrom_other hs]
    show (segmentsFrom sep 1 (cs ++ [')'])).modifyHead _ = _
    rw [segmentsFrom_one h]
    rfl
  · rw [nesting_append, nesting_cons, nesting_eq_zero h]
    rfl

end QuantityCalculus.Text
