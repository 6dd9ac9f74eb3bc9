import Mathlib.Data.List.Induction
import QuantityCalculus.Proofs.Text.TopLevel

/-! Separators by position. A character is at top level if as many parentheses are opened as closed
before it and it is none itself; the pieces of a text are its stretches between the separators at top
level. Behind such a separator the nesting is zero again, so a text is cut there as at its beginning.
Hence the search finds the first separator, and the pieces have no separator left and lose no other
character. Trimming the pieces and dropping the blank ones loses blanks alone. -/

namespace QuantityCalculus.Text

variable {sep : Char → Bool} {d : ℤ} {c : Char} {cs ds piece : List Char} {i : ℕ}

/-- The character stands at a position outside parentheses, and is no parenthesis. -/
def AtTopLevel (cs : List Char) (i : ℕ) (c : Char) : Prop :=
  cs[i]? = some c ∧ nesting (cs.take i) = 0 ∧ c ≠ '(' ∧ c ≠ ')'

instance : Decidable (AtTopLevel cs i c) := inferInstanceAs (Decidable (_ ∧ _ ∧ _ ∧ _))

/-- A separator stands at top level at a position. -/
def SeparatorAt (sep : Char → Bool) (cs : List Char) (i : ℕ) : Prop :=
  ∃ c, AtTopLevel cs i c ∧ sep c = true

/-- The first top-level separator stands at a position. -/
structure FirstSeparatorAt (sep : Char → Bool) (cs : List Char) (i : ℕ) : Prop where
  separator : SeparatorAt sep cs i
  first : ∀ j < i, ¬SeparatorAt sep cs j

/-- A text without its top-level separators. -/
def withoutSeparators (sep : Char → Bool) (cs : List Char) : List Char :=
  (cs.zipIdx.filter fun (c, i) => decide ¬(AtTopLevel cs i c ∧ sep c = true)).map Prod.fst

/-- The stretches of a text between its top-level separators. -/
inductive Stretches (sep : Char → Bool) : List Char → List (List Char) → Prop
  | whole {cs : List Char} : (∀ i, ¬SeparatorAt sep cs i) → Stretches sep cs [cs]
  | behind {cs : List Char} {i : ℕ} {pieces : List (List Char)} : FirstSeparatorAt sep cs i →
      Stretches sep (cs.drop (i + 1)) pieces → Stretches sep cs (cs.take i :: pieces)

/-! ### Positions -/

theorem separatorAt_iff :
    SeparatorAt sep cs i ↔ ∃ c, cs[i]? = some c ∧ separates sep (nesting (cs.take i)) c = true := by
  simp only [SeparatorAt, AtTopLevel, separates_iff, and_assoc]

theorem SeparatorAt.lt_length (h : SeparatorAt sep cs i) : i < cs.length := by
  obtain ⟨c, ⟨hc, -⟩, -⟩ := h
  exact (List.getElem?_eq_some_iff.1 hc).1

theorem atTopLevel_append (hi : i < cs.length) (ds : List Char) :
    AtTopLevel (cs ++ ds) i c ↔ AtTopLevel cs i c := by
  rw [AtTopLevel, AtTopLevel, List.getElem?_append_left hi, List.take_append_of_le_length hi.le]

theorem separatorAt_append (hi : i < cs.length) (ds : List Char) :
    SeparatorAt sep (cs ++ ds) i ↔ SeparatorAt sep cs i := by
  simp only [SeparatorAt, atTopLevel_append hi]

theorem separatorAt_length (c : Char) (ds : List Char) :
    SeparatorAt sep (cs ++ c :: ds) cs.length ↔ separates sep (nesting cs) c = true := by
  simp [separatorAt_iff]

/-- A text in front that opens as many parentheses as it closes only shifts the positions. -/
theorem SeparatorAt.append_left (h : SeparatorAt sep cs i) (hn : nesting ds = 0) :
    SeparatorAt sep (ds ++ cs) (ds.length + i) := by
  obtain ⟨c, hc, hs⟩ := separatorAt_iff.1 h
  refine separatorAt_iff.2 ⟨c, ?_, ?_⟩
  · rw [List.getElem?_append_right (Nat.le_add_right _ _), Nat.add_sub_cancel_left, hc]
  · rw [List.take_length_add_append, nesting_append, hn, zero_add, hs]

theorem SeparatorAt.exists_append (h : SeparatorAt sep cs i) :
    ∃ c, cs = cs.take i ++ c :: cs.drop (i + 1) ∧
      separates sep (nesting (cs.take i)) c = true := by
  obtain ⟨c, hc, hs⟩ := separatorAt_iff.1 h
  obtain ⟨hi, rfl⟩ := List.getElem?_eq_some_iff.1 hc
  exact ⟨cs[i], by rw [← List.drop_eq_getElem_cons hi, List.take_append_drop], hs⟩

/-! ### The first separator -/

/-- A text is cut into itself, or at a separator behind its first piece. -/
theorem cut_cases (sep : Char → Bool) (d : ℤ) (cs : List Char) :
    cut sep d cs = (cs, []) ∨ ∃ front c rest, cs = front ++ c :: rest ∧
      separates sep (d + nesting front) c = true ∧ cut sep d cs = (front, segments sep rest) := by
  induction cs generalizing d with
  | nil => exact .inl rfl
  | cons c cs ih =>
    by_cases hs : separates sep d c = true
    · exact .inr ⟨[], c, cs, rfl, by rwa [nesting_nil, add_zero], cut_separator hs⟩
    · have hs : separates sep d c = false := by simpa using hs
      rw [cut_other hs]
      rcases ih (depthAfter d c) with h | ⟨front, b, rest, rfl, hb, h⟩
      · exact .inl (by rw [h])
      · exact .inr ⟨c :: front, b, rest, rfl, by rwa [add_nesting_cons], by rw [h]⟩

theorem cut_of_forall_not (h : ∀ i, ¬SeparatorAt sep cs i) : cut sep 0 cs = (cs, []) := by
  rcases cut_cases sep 0 cs with hcut | ⟨front, c, rest, rfl, hs, -⟩
  · exact hcut
  · rw [zero_add] at hs
    exact absurd ((separatorAt_length c rest).2 hs) (h front.length)

/-- A text is its only piece exactly if no separator is at top level. -/
theorem segments_eq_singleton_iff : segments sep cs = [cs] ↔ ∀ i, ¬SeparatorAt sep cs i := by
  constructor
  · intro h i hi
    obtain ⟨c, hcs, hs⟩ := hi.exists_append
    rw [hcs, segments_eq, segmentsFrom_append_separator (by rwa [zero_add])] at h
    have hlength := congrArg List.length h
    simp [segmentsFrom, segments] at hlength
  · intro h
    rw [segments, cut_of_forall_not h]

theorem firstSeparatorAt_length (h : segments sep cs = [cs])
    (hs : separates sep (nesting cs) c = true) (ds : List Char) :
    FirstSeparatorAt sep (cs ++ c :: ds) cs.length where
  separator := (separatorAt_length c ds).2 hs
  first j hj := by
    rw [separatorAt_append hj]
    exact segments_eq_singleton_iff.1 h j

theorem exists_firstSeparatorAt (sep : Char → Bool) (cs : List Char) :
    (∀ i, ¬SeparatorAt sep cs i) ∨ ∃ i, FirstSeparatorAt sep cs i := by
  rcases cut_cases sep 0 cs with hcut | ⟨front, c, rest, hcs, hs, hcut⟩
  · exact .inl (segments_eq_singleton_iff.1 (by rw [segments, hcut]))
  · have hfront := segmentsFrom_fst_cut sep 0 cs
    rw [hcut] at hfront
    rw [zero_add] at hs
    exact .inr ⟨front.length, hcs ▸ firstSeparatorAt_length hfront hs rest⟩

theorem FirstSeparatorAt.segments_take (h : FirstSeparatorAt sep cs i) :
    segments sep (cs.take i) = [cs.take i] := by
  refine segments_eq_singleton_iff.2 fun j hj => h.first j ?_ ?_
  · have := hj.lt_length
    rw [List.length_take] at this
    omega
  · rw [← List.take_append_drop i cs]
    exact (separatorAt_append hj.lt_length _).2 hj

/-- A text is cut at its first separator. -/
theorem FirstSeparatorAt.cut_eq (h : FirstSeparatorAt sep cs i) :
    cut sep 0 cs = (cs.take i, segments sep (cs.drop (i + 1))) := by
  obtain ⟨c, hcs, hs⟩ := h.separator.exists_append
  have hcut := segmentsFrom_append_separator (d := 0) (by rwa [zero_add]) (cs.drop (i + 1))
  rw [← hcs, ← segments_eq, ← segments_eq, h.segments_take] at hcut
  exact Prod.ext (List.cons.inj hcut).1 (List.cons.inj hcut).2

/-- The pieces of a text are its stretches between separators, and it has no others. -/
theorem stretches_iff {pieces : List (List Char)} :
    Stretches sep cs pieces ↔ pieces = segments sep cs := by
  constructor
  · intro h
    induction h with
    | whole h => exact (segments_eq_singleton_iff.2 h).symm
    | behind h _ ih => rw [segments, h.cut_eq, ih]
  · rintro rfl
    -- what lies behind the first separator is shorter
    induction hn : cs.length using Nat.strong_induction_on generalizing cs with
    | _ n ih =>
      rcases exists_firstSeparatorAt sep cs with h | ⟨i, h⟩
      · rw [segments_eq_singleton_iff.2 h]
        exact .whole h
      · rw [segments, h.cut_eq]
        have hi := h.separator.lt_length
        exact .behind h (ih _ (by rw [← hn, List.length_drop]; omega) rfl)

theorem findTopLevel_of_first (h : FirstSeparatorAt sep cs i) :
    findTopLevel sep cs = some (byteLength (cs.take i)) := by
  rw [findTopLevel, hasTopLevel, h.cut_eq]
  rfl

theorem findTopLevel_of_forall_not (h : ∀ i, ¬SeparatorAt sep cs i) :
    findTopLevel sep cs = none := by
  rw [findTopLevel, hasTopLevel, cut_of_forall_not h]
  rfl

/-- The search finds the first separator. -/
theorem findTopLevel_eq_some_iff {n : ℕ} : findTopLevel sep cs = some n ↔
    ∃ i, FirstSeparatorAt sep cs i ∧ n = byteLength (cs.take i) := by
  constructor
  · intro hn
    rcases exists_firstSeparatorAt sep cs with h | ⟨i, h⟩
    · rw [findTopLevel_of_forall_not h] at hn
      cases hn
    · rw [findTopLevel_of_first h] at hn
      exact ⟨i, h, (Option.some.inj hn).symm⟩
  · rintro ⟨i, h, rfl⟩
    exact findTopLevel_of_first h

theorem findTopLevel_eq_none_iff : findTopLevel sep cs = none ↔ ∀ i, ¬SeparatorAt sep cs i := by
  refine ⟨fun hn => ?_, findTopLevel_of_forall_not⟩
  rcases exists_firstSeparatorAt sep cs with h | ⟨i, h⟩
  · exact h
  · rw [findTopLevel_of_first h] at hn
    cases hn

/-! ### What is left between the separators -/

theorem withoutSeparators_concat (cs : List Char) (c : Char) :
    withoutSeparators sep (cs ++ [c]) =
      withoutSeparators sep cs ++ if separates sep (nesting cs) c then [] else [c] := by
  have hfront : ∀ a ∈ cs.zipIdx,
      decide (¬(AtTopLevel (cs ++ [c]) a.2 a.1 ∧ sep a.1 = true)) =
        decide (¬(AtTopLevel cs a.2 a.1 ∧ sep a.1 = true)) := by
    intro a ha
    rw [List.mem_zipIdx_iff_getElem?] at ha
    simp only [atTopLevel_append (List.getElem?_eq_some_iff.1 ha).1]
  have hlast : decide (¬(AtTopLevel (cs ++ [c]) cs.length c ∧ sep c = true)) =
      !separates sep (nesting cs) c := by
    rw [Bool.eq_iff_iff, Bool.not_eq_true', ← Bool.not_eq_true, decide_eq_true_iff, separates_iff]
    simp [AtTopLevel, and_assoc]
  unfold withoutSeparators
  rw [List.zipIdx_append, List.filter_append, List.map_append, List.filter_congr hfront]
  simp only [List.zipIdx_singleton, Nat.zero_add, List.filter_cons, List.filter_nil, hlast]
  cases separates sep (nesting cs) c <;> rfl

/-- Behind each other, the pieces are the text without its separators. -/
theorem flatten_segments (sep : Char → Bool) (cs : List Char) :
    (segments sep cs).flatten = withoutSeparators sep cs := by
  -- from the right, as the position of a character depends on the text before it alone
  induction cs using List.reverseRecOn with
  | nil => rfl
  | append_singleton cs c ih =>
    rw [withoutSeparators_concat, ← ih]
    by_cases hs : separates sep (nesting cs) c = true
    · rw [segments_eq, segmentsFrom_concat_separator (by rwa [zero_add]), if_pos hs]
      simp [segments_eq]
    · have hother : separates sep (0 + nesting cs) c = false := by simpa using hs
      obtain ⟨init, last, hcs, hc⟩ := segmentsFrom_concat_other hother
      rw [segments_eq, segments_eq, hcs, hc, if_neg hs]
      simp

theorem filter_trim (cs : List Char) :
    (trim cs).filter (fun c => !isBlank c) = cs.filter fun c => !isBlank c :=
  map_trim (f := fun cs => cs.filter fun c => !isBlank c) (fun b cs hb => by simp [hb])
    (fun b cs hb => by simp [hb]) cs

/-- Trimming pieces and dropping blank ones loses blanks alone. -/
theorem filter_flatten_splitTopLevel (sep : Char → Bool) (cs : List Char) :
    (splitTopLevel sep cs).flatten.filter (fun c => !isBlank c) =
      (withoutSeparators sep cs).filter fun c => !isBlank c := by
  rw [splitTopLevel, List.flatten_filter_not_isEmpty, ← flatten_segments, List.filter_flatten,
    List.filter_flatten, List.map_map]
  simp only [Function.comp_def, filter_trim]

/-! ### Trimmed pieces -/

/-- A text that neither begins nor ends with a blank. -/
def Trimmed (cs : List Char) : Prop :=
  (∀ b ∈ cs.head?, isBlank b = false) ∧ ∀ b ∈ cs.getLast?, isBlank b = false

theorem trimmed_trim (cs : List Char) : Trimmed (trim cs) := by
  constructor
  · intro b hb
    have hhead := List.head?_dropWhile_not isBlank cs
    obtain ⟨blanks, hblanks⟩ := List.rdropWhile_prefix isBlank (cs.dropWhile isBlank)
    rw [← trim_eq_rdropWhile] at hblanks
    rw [← hblanks, List.head?_append, Option.mem_def.1 hb] at hhead
    simpa using hhead
  · intro b hb
    rw [trim_eq_rdropWhile] at hb
    obtain ⟨hne, rfl⟩ := List.mem_getLast?_eq_getLast hb
    simpa using List.rdropWhile_last_not isBlank _ hne

/-- Trimming brings no separator to top level. -/
theorem exists_separatorAt_of_trim (h : SeparatorAt sep (trim cs) i) :
    ∃ j, SeparatorAt sep cs j := by
  obtain ⟨blanks, hblanks⟩ := List.rdropWhile_prefix isBlank (cs.dropWhile isBlank)
  have hn : nesting (cs.takeWhile isBlank) = 0 :=
    nesting_eq_zero fun b hb => ne_paren_of_isBlank (List.mem_takeWhile_imp hb)
  have hback : SeparatorAt sep (cs.dropWhile isBlank) i := by
    rw [← hblanks, ← trim_eq_rdropWhile]
    exact (separatorAt_append h.lt_length blanks).2 h
  have hcs := hback.append_left hn
  rw [List.takeWhile_append_dropWhile] at hcs
  exact ⟨_, hcs⟩

theorem not_separatorAt_of_mem_splitTopLevel (h : piece ∈ splitTopLevel sep cs) (i : ℕ) :
    ¬SeparatorAt sep piece i := by
  obtain ⟨q, hq, rfl⟩ := List.mem_map.1 (List.mem_filter.1 h).1
  intro hi
  obtain ⟨j, hj⟩ := exists_separatorAt_of_trim hi
  exact segments_eq_singleton_iff.1 (segments_of_mem hq) j hj

end QuantityCalculus.Text
