import Mathlib.Algebra.Order.Ring.Int
import QuantityCalculus.Text.TopLevel

/-! The nesting of parentheses. The nesting of a character is the number of parentheses opened less the
number closed before it, and the pieces of a text lie between the separators of nesting zero. Cutting
character by character, with the depth carried along, gives these pieces. -/

namespace QuantityCalculus.Text

variable {sep : Char → Bool} {d : ℤ} {c b : Char} {cs : List Char}

/-- Opening parentheses less closing ones. -/
def nesting (cs : List Char) : ℤ := cs.count '(' - cs.count ')'

/-- Every character with a mark at the separators of nesting zero. -/
def marks (sep : Char → Bool) (cs : List Char) : List (Char × Bool) :=
  cs.mapIdx fun i c => (c, decide (nesting (cs.take i) = 0) && sep c)

/-- The pieces of a text between the separators of nesting zero. -/
def pieces (sep : Char → Bool) (cs : List Char) : List (List Char) :=
  ((marks sep cs).splitOnP Prod.snd).map fun piece => piece.map Prod.fst

@[simp] theorem nesting_nil : nesting [] = 0 := rfl

theorem depthAfter_eq (d : ℤ) (c : Char) : depthAfter d c = d + nesting [c] := by
  unfold depthAfter
  split_ifs with h h'
  · subst h
    rfl
  · subst h'
    rfl
  · simp [nesting, h, h']

theorem nesting_append (cs ds : List Char) : nesting (cs ++ ds) = nesting cs + nesting ds := by
  simp only [nesting, List.count_append, Nat.cast_add]
  omega

theorem nesting_cons (c : Char) (cs : List Char) : nesting (c :: cs) = nesting [c] + nesting cs :=
  nesting_append [c] cs

theorem add_nesting_cons (d : ℤ) (c : Char) (cs : List Char) :
    d + nesting (c :: cs) = depthAfter d c + nesting cs := by
  rw [nesting_cons, depthAfter_eq, add_assoc]

theorem nesting_eq_zero (h : ∀ c ∈ cs, c ≠ '(' ∧ c ≠ ')') : nesting cs = 0 := by
  rw [nesting, List.count_eq_zero_of_not_mem fun hc => (h _ hc).1 rfl,
    List.count_eq_zero_of_not_mem fun hc => (h _ hc).2 rfl]
  rfl

theorem nesting_singleton (h : c ≠ '(' ∧ c ≠ ')') : nesting [c] = 0 :=
  nesting_eq_zero (by simpa using h)

theorem separates_iff : separates sep d c = true ↔ d = 0 ∧ (c ≠ '(' ∧ c ≠ ')') ∧ sep c = true := by
  simp [separates, and_assoc]

/-- Blanks are no parentheses. -/
theorem ne_paren_of_isBlank (hb : isBlank b = true) : b ≠ '(' ∧ b ≠ ')' := by
  constructor <;> rintro rfl <;> exact absurd hb (by decide)

/-! ### Cutting from a depth -/

/-- The pieces of a text that begins at some depth. -/
def segmentsFrom (sep : Char → Bool) (d : ℤ) (cs : List Char) : List (List Char) :=
  (cut sep d cs).1 :: (cut sep d cs).2

theorem segments_eq (sep : Char → Bool) (cs : List Char) :
    segments sep cs = segmentsFrom sep 0 cs := rfl

theorem segmentsFrom_ne_nil : segmentsFrom sep d cs ≠ [] := List.cons_ne_nil _ _

theorem segmentsFrom_separator (h : separates sep d c = true) :
    segmentsFrom sep d (c :: cs) = [] :: segmentsFrom sep 0 cs := by
  rw [segmentsFrom, cut_separator h]
  rfl

theorem segmentsFrom_other (h : separates sep d c = false) :
    segmentsFrom sep d (c :: cs) =
      (segmentsFrom sep (depthAfter d c) cs).modifyHead (List.cons c) := by
  rw [segmentsFrom, cut_other h]
  rfl

theorem marks_cons (sep : Char → Bool) (d : ℤ) (c : Char) (cs : List Char) :
    ((c :: cs).mapIdx fun i a => (a, decide (d + nesting ((c :: cs).take i) = 0) && sep a)) =
      (c, decide (d = 0) && sep c) ::
        cs.mapIdx fun i a => (a, decide (depthAfter d c + nesting (cs.take i) = 0) && sep a) := by
  rw [List.mapIdx_cons]
  simp only [List.take_zero, nesting_nil, add_zero, List.take_succ_cons, add_nesting_cons]

/-- Cutting character by character gives the pieces between the separators of nesting zero. -/
theorem pieces_eq_segments (ho : sep '(' = false) (hc : sep ')' = false) (cs : List Char) :
    pieces sep cs = segments sep cs := by
  suffices h : ∀ d : ℤ, ((cs.mapIdx fun i c => (c, decide (d + nesting (cs.take i) = 0) && sep c)).splitOnP
      Prod.snd).map (fun piece => piece.map Prod.fst) = segmentsFrom sep d cs by
    have h0 := h 0
    simp only [zero_add] at h0
    exact h0
  induction cs with
  | nil => intro d; rfl
  | cons c cs ih =>
    intro d
    have hsep : separates sep d c = (decide (d = 0) && sep c) := by
      rw [Bool.eq_iff_iff, separates_iff, Bool.and_eq_true, decide_eq_true_iff]
      constructor
      · rintro ⟨hd, -, hs⟩
        exact ⟨hd, hs⟩
      · rintro ⟨hd, hs⟩
        refine ⟨hd, ⟨?_, ?_⟩, hs⟩ <;> rintro rfl <;> simp_all
    rw [marks_cons, List.splitOnP_cons_eq_if_modifyHead]
    by_cases hs : separates sep d c = true
    · obtain ⟨rfl, hparen, -⟩ := separates_iff.1 hs
      rw [if_pos (hsep ▸ hs), List.map_cons, ih, segmentsFrom_separator hs, depthAfter_eq,
        nesting_singleton hparen]
      rfl
    · rw [if_neg (hsep ▸ hs), segmentsFrom_other (by simpa using hs), ← ih]
      cases List.splitOnP Prod.snd (cs.mapIdx fun i a =>
        (a, decide (depthAfter d c + nesting (cs.take i) = 0) && sep a)) <;> rfl

end QuantityCalculus.Text
