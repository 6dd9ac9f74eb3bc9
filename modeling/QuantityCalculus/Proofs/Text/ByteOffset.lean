import QuantityCalculus.Proofs.Text.Separators
import QuantityCalculus.Text.ByteOffset

/-! Byte offsets and depths in words. A search carries the offset along and stops at the first
separator, with the length in bytes of the text before it, so that both slices are between characters.
The searches that start over behind a separator begin at depth zero, which is the nesting there; the
depths that occur are therefore those of the whole text. The outcome is the exact one as long as words
hold them, which they do in every text of less than `2 ^ 31` bytes. -/

namespace QuantityCalculus.Text

variable {sep : Char → Bool} {d : ℤ} {c : Char} {cs ds front rest : List Char} {n : ℕ}

/-! ### Lengths in bytes -/

theorem byteLength_eq (cs : List Char) : byteLength cs = (String.ofList cs).utf8ByteSize := by
  induction cs with
  | nil => rfl
  | cons c cs ih =>
    rw [byteLength_cons, String.ofList_cons, String.utf8ByteSize_append,
      String.utf8ByteSize_singleton, ih]

theorem byteLength_append (cs ds : List Char) :
    byteLength (cs ++ ds) = byteLength cs + byteLength ds := by
  simp only [byteLength_eq, String.ofList_append, String.utf8ByteSize_append]

theorem length_le_byteLength (cs : List Char) : cs.length ≤ byteLength cs := by
  induction cs with
  | nil => exact Nat.zero_le _
  | cons c cs ih =>
    have hc := c.utf8Size_pos
    rw [byteLength_cons, List.length_cons]
    omega

theorem nesting_mem (cs : List Char) : -(cs.length : ℤ) ≤ nesting cs ∧ nesting cs ≤ cs.length := by
  have hopened : cs.count '(' ≤ cs.length := List.count_le_length
  have hclosed : cs.count ')' ≤ cs.length := List.count_le_length
  unfold nesting
  omega

namespace ByteOffset

/-! ### Depths in words -/

/-- A word holds the depth at each place of a text that begins at some depth. -/
def Counted (d : ℤ) (cs : List Char) : Prop := ∀ i, Holds (d + nesting (cs.take i))

theorem Counted.holds (h : Counted d cs) : Holds d := by
  have h0 := h 0
  rwa [List.take_zero, nesting_nil, add_zero] at h0

theorem counted_nil : Counted d [] ↔ Holds d := by
  simp [Counted]

theorem counted_cons : Counted d (c :: cs) ↔ Holds d ∧ Counted (depthAfter d c) cs := by
  constructor
  · intro h
    refine ⟨h.holds, fun i => ?_⟩
    have hi := h (i + 1)
    rwa [List.take_succ_cons, add_nesting_cons] at hi
  · rintro ⟨hd, h⟩ i
    cases i with
    | zero => rwa [List.take_zero, nesting_nil, add_zero]
    | succ i =>
      rw [List.take_succ_cons, add_nesting_cons]
      exact h i

theorem counted_append :
    Counted d (cs ++ ds) ↔ Counted d cs ∧ Counted (d + nesting cs) ds := by
  induction cs generalizing d with
  | nil =>
    rw [List.nil_append, nesting_nil, add_zero, counted_nil]
    exact ⟨fun h => ⟨h.holds, h⟩, And.right⟩
  | cons c cs ih => rw [List.cons_append, counted_cons, counted_cons, ih, add_nesting_cons, and_assoc]

/-- Behind a separator the depth is zero again. -/
theorem counted_separator (hs : separates sep (0 + nesting cs) c = true) :
    Counted 0 (cs ++ c :: ds) ↔ Counted 0 cs ∧ Counted 0 ds := by
  obtain ⟨hn, hparen, -⟩ := separates_iff.1 hs
  have hzero : Holds 0 := by decide
  rw [counted_append, hn, counted_cons, depthAfter_eq, nesting_singleton hparen, add_zero]
  simp only [hzero, true_and]

/-- Depths stay below the number of bytes. -/
theorem counted_of_short (h : byteLength cs < 0x80000000) : Counted 0 cs := by
  intro i
  have hnesting := nesting_mem (cs.take i)
  have htake := List.length_take_le' i cs
  have hlength := length_le_byteLength cs
  unfold Holds
  omega

/-! ### One search -/

/-- A character that does not separate only changes the depth. -/
theorem search_other (hs : separates sep d c = false) (hd : Holds d) (n : ℕ) (cs : List Char) :
    search sep d n (c :: cs) =
      (word? (depthAfter d c)).bind fun e => search sep e (n + c.utf8Size) cs := by
  unfold depthAfter
  split_ifs with hopen hclose
  · simp [search, hopen]
  · simp [search, hclose]
  · have hsep : (d == 0 && sep c) = false := by
      rw [Bool.eq_false_iff, ne_eq, separates_iff] at hs
      simpa [hopen, hclose] using hs
    simp [search, hopen, hclose, hsep, word?, hd]

theorem search_separator (hs : separates sep d c = true) (n : ℕ) (cs : List Char) :
    search sep d n (c :: cs) = some (some n) := by
  obtain ⟨rfl, ⟨hopen, hclose⟩, hc⟩ := separates_iff.1 hs
  simp [search, hopen, hclose, hc]

/-- A search has an outcome if words hold the depths up to the first separator, and yields the offset
of this separator. -/
theorem search_eq_some_iff (hd : Holds d) {r : Option ℕ} : search sep d n cs = some r ↔
    Counted d (cut sep d cs).1 ∧ r = if (cut sep d cs).2.isEmpty then none
      else some (n + byteLength (cut sep d cs).1) := by
  induction cs generalizing d n with
  | nil => simp [search, cut_nil, counted_nil, hd, eq_comm]
  | cons c cs ih =>
    by_cases hs : separates sep d c = true
    · rw [search_separator hs, cut_separator hs]
      simp [counted_nil, hd, byteLength, eq_comm]
    · have hs : separates sep d c = false := by simpa using hs
      rw [search_other hs hd, cut_other hs, counted_cons, byteLength_cons, ← Nat.add_assoc]
      by_cases hc : Holds (depthAfter d c)
      · rw [word?, if_pos hc, Option.bind_some, ih hc]
        simp only [hd, true_and]
      · rw [word?, if_neg hc, Option.bind_none]
        exact iff_of_false (Option.some_ne_none _).symm fun h => hc h.1.2.holds

/-- The search yields the offset of the first separator if words hold the depths up to there. -/
theorem findTopLevel_eq_some_iff {r : Option ℕ} : findTopLevel sep cs = some r ↔
    Counted 0 (cut sep 0 cs).1 ∧ r = Text.findTopLevel sep cs := by
  rw [findTopLevel, search_eq_some_iff (by decide), Text.findTopLevel, hasTopLevel, Nat.zero_add]
  cases (cut sep 0 cs).2 <;> rfl

theorem findTopLevel_eq_none (h : ¬Counted 0 (cut sep 0 cs).1) : findTopLevel sep cs = none :=
  Option.eq_none_iff_forall_ne_some.2 fun _ hr => h (findTopLevel_eq_some_iff.1 hr).1

/-- The depths up to the first separator. -/
theorem counted_fst_cut_iff : Counted 0 (cut sep 0 cs).1 ↔
    ∀ i, (∀ j < i, ¬SeparatorAt sep cs j) → Holds (nesting (cs.take i)) := by
  simp only [Counted, zero_add]
  rcases exists_firstSeparatorAt sep cs with h | ⟨k, h⟩
  · rw [cut_of_forall_not h]
    exact ⟨fun hc i _ => hc i, fun hc i => hc i fun j _ => h j⟩
  · rw [h.cut_eq]
    constructor
    · intro hc i hi
      have hle : i ≤ k := by
        by_contra hlt
        exact hi k (by omega) h.separator
      have hk := hc i
      rwa [List.take_take, min_eq_left hle] at hk
    · intro hc i
      rw [List.take_take]
      exact hc _ fun j hj => h.first j (lt_of_lt_of_le hj (min_le_right i k))

/-! ### All searches -/

theorem pieces_of_none (h : findTopLevel sep cs = none) : pieces sep cs = none := by
  rw [pieces, h]
  rfl

theorem pieces_of_some_none (h : findTopLevel sep cs = some none) : pieces sep cs = some [cs] := by
  rw [pieces, h]
  rfl

/-- Behind a separator that was found, the search starts over. -/
theorem pieces_of_some_some
    (h : findTopLevel sep (front ++ c :: rest) = some (some (byteLength front))) :
    pieces sep (front ++ c :: rest) = (pieces sep rest).map (List.cons front) := by
  have hbehind : slice? (byteLength front + firstWidth (c :: rest)) (front ++ c :: rest) =
      some (front ++ [c], rest) := by
    have hslice := slice?_append (front ++ [c]) rest
    rwa [List.append_assoc, byteLength_append] at hslice
  rw [pieces, h]
  simp only [Option.bind_eq_bind, Option.bind_some, slice?_append]
  split
  · rename_i hnone
    rw [hbehind] at hnone
    cases hnone
  · rename_i hsome
    rw [hbehind] at hsome
    cases hsome
    exact Option.map_eq_bind.symm

/-- The pieces are found if words hold all depths of the text. -/
theorem pieces_eq_some_iff {ps : List (List Char)} : pieces sep cs = some ps ↔
    Counted 0 cs ∧ ps = segments sep cs := by
  induction hn : cs.length using Nat.strong_induction_on generalizing cs ps with
  | _ n ih =>
    rcases cut_cases sep 0 cs with hcut | ⟨front, c, rest, rfl, hs, hcut⟩
    · rw [segments, hcut]
      by_cases hc : Counted 0 cs
      · have hfind : findTopLevel sep cs = some none := findTopLevel_eq_some_iff.2
          ⟨by rwa [hcut], by rw [Text.findTopLevel, hasTopLevel, hcut]; rfl⟩
        rw [pieces_of_some_none hfind, Option.some_inj, eq_comm]
        exact (and_iff_right hc).symm
      · rw [pieces_of_none (findTopLevel_eq_none (by rwa [hcut]))]
        exact iff_of_false (Option.some_ne_none _).symm fun h => hc h.1
    · rw [segments, hcut, counted_separator hs]
      by_cases hc : Counted 0 front
      · have hfind : findTopLevel sep (front ++ c :: rest) = some (some (byteLength front)) :=
          findTopLevel_eq_some_iff.2
            ⟨by rwa [hcut], by rw [Text.findTopLevel, hasTopLevel, hcut]; rfl⟩
        have hlength : rest.length < n := by
          rw [← hn, List.length_append, List.length_cons]
          omega
        rw [pieces_of_some_some hfind, Option.map_eq_some_iff]
        constructor
        · rintro ⟨others, hothers, rfl⟩
          obtain ⟨hrest, rfl⟩ := (ih _ hlength rfl).1 hothers
          exact ⟨⟨hc, hrest⟩, rfl⟩
        · rintro ⟨⟨-, hrest⟩, rfl⟩
          exact ⟨_, (ih _ hlength rfl).2 ⟨hrest, rfl⟩, rfl⟩
      · rw [pieces_of_none (findTopLevel_eq_none (by rwa [hcut]))]
        exact iff_of_false (Option.some_ne_none _).symm fun h => hc h.1.1

/-- Cutting by byte offsets gives the exact pieces, if words hold all depths of the text. -/
theorem splitTopLevel_eq_some_iff {ps : List (List Char)} : splitTopLevel sep cs = some ps ↔
    Counted 0 cs ∧ ps = Text.splitTopLevel sep cs := by
  rw [splitTopLevel, Option.map_eq_some_iff]
  constructor
  · rintro ⟨found, hfound, rfl⟩
    obtain ⟨hc, rfl⟩ := pieces_eq_some_iff.1 hfound
    exact ⟨hc, rfl⟩
  · rintro ⟨hc, rfl⟩
    exact ⟨_, pieces_eq_some_iff.2 ⟨hc, rfl⟩, rfl⟩

end ByteOffset

/-! ### The law -/

/-- What is known of a text that is cut outside parentheses. -/
structure TopLevelLaw (sep : Char → Bool) (s : String) : Prop where
  found : ∀ n, findTopLevel sep s.toList = some n ↔
    ∃ i, FirstSeparatorAt sep s.toList i ∧ n = (String.ofList (s.toList.take i)).utf8ByteSize
  not_found : findTopLevel sep s.toList = none ↔ ∀ i, ¬SeparatorAt sep s.toList i
  piece : ∀ piece ∈ splitTopLevel sep s.toList,
    piece ≠ [] ∧ Trimmed piece ∧ ∀ i, ¬SeparatorAt sep piece i
  content : (splitTopLevel sep s.toList).flatten.filter (fun c => !isBlank c) =
    (withoutSeparators sep s.toList).filter fun c => !isBlank c
  stretches : ∃ pieces, Stretches sep s.toList pieces ∧
    splitTopLevel sep s.toList = (pieces.map trim).filter fun piece => !piece.isEmpty
  foundByOffset : ∀ r, ByteOffset.findTopLevel sep s.toList = some r ↔
    (∀ i, (∀ j < i, ¬SeparatorAt sep s.toList j) → ByteOffset.Holds (nesting (s.toList.take i))) ∧
      r = findTopLevel sep s.toList
  splitByOffset : ∀ pieces, ByteOffset.splitTopLevel sep s.toList = some pieces ↔
    (∀ i, ByteOffset.Holds (nesting (s.toList.take i))) ∧ pieces = splitTopLevel sep s.toList
  depths : s.utf8ByteSize < 0x80000000 → ∀ i, ByteOffset.Holds (nesting (s.toList.take i))

/-- Cutting outside parentheses finds the first separator and every other one, loses nothing but
separators and blanks, and leaves no separator. Byte offsets and depths in words do it, for every text
whose depths are in range. -/
theorem topLevelLaw (sep : Char → Bool) (s : String) : TopLevelLaw sep s where
  found n := by
    simp only [findTopLevel_eq_some_iff, byteLength_eq]
  not_found := findTopLevel_eq_none_iff
  piece piece h := by
    obtain ⟨htrim, hne⟩ := mem_splitTopLevel h
    exact ⟨hne, htrim ▸ trimmed_trim piece, not_separatorAt_of_mem_splitTopLevel h⟩
  content := filter_flatten_splitTopLevel sep s.toList
  stretches := ⟨_, stretches_iff.2 rfl, rfl⟩
  foundByOffset r := by
    rw [ByteOffset.findTopLevel_eq_some_iff, ByteOffset.counted_fst_cut_iff]
  splitByOffset pieces := by
    simp only [ByteOffset.splitTopLevel_eq_some_iff, ByteOffset.Counted, zero_add]
  depths h i := by
    have hshort : byteLength s.toList < 0x80000000 := by
      rwa [byteLength_eq, String.ofList_toList]
    have hi := ByteOffset.counted_of_short hshort i
    rwa [zero_add] at hi

example : findTopLevel (· == '·') "µm·(a·b)·· s)·t".toList = some 3 ∧
    splitTopLevel (· == '·') "µm·(a·b)·· s)·t".toList =
      ["µm".toList, "(a·b)".toList, "s)·t".toList] := by
  decide +kernel

end QuantityCalculus.Text
