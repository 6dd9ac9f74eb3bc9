import Mathlib.Data.List.Basic
import Mathlib.Order.Bounds.Basic
import Mathlib.Order.MinMax

/-! Edits of a text. One edit inserts, deletes or replaces a character at any place. The least number of
edits between two texts satisfies a recursion on their first characters. It is not larger than the
value of the recursion, which says how to edit, and not smaller, because one edit changes the value by
one at most. Edits can be read backwards and from the right, so the value satisfies the recursion on
the last characters as well. -/

namespace QuantityCalculus.EditDistance

/-- One edit of a text. -/
inductive Edit : List Char → List Char → Prop
  | insert (before : List Char) (c : Char) (after : List Char) :
    Edit (before ++ after) (before ++ c :: after)
  | delete (before : List Char) (c : Char) (after : List Char) :
    Edit (before ++ c :: after) (before ++ after)
  | replace (before : List Char) (c d : Char) (after : List Char) :
    Edit (before ++ c :: after) (before ++ d :: after)

/-- A number of edits, one after the other. -/
inductive Edits : Nat → List Char → List Char → Prop
  | done (cs : List Char) : Edits 0 cs cs
  | next {n : Nat} {cs ds es : List Char} : Edit cs ds → Edits n ds es → Edits (n + 1) cs es

variable {cs ds es : List Char} {n m : Nat}

theorem Edit.symm (h : Edit cs ds) : Edit ds cs := by
  cases h with
  | insert before c after => exact .delete before c after
  | delete before c after => exact .insert before c after
  | replace before c d after => exact .replace before d c after

theorem Edit.cons (c : Char) (h : Edit cs ds) : Edit (c :: cs) (c :: ds) := by
  cases h with
  | insert before d after => exact .insert (c :: before) d after
  | delete before d after => exact .delete (c :: before) d after
  | replace before d e after => exact .replace (c :: before) d e after

theorem Edit.reverse (h : Edit cs ds) : Edit cs.reverse ds.reverse := by
  cases h with
  | insert before c after => simpa using Edit.insert after.reverse c before.reverse
  | delete before c after => simpa using Edit.delete after.reverse c before.reverse
  | replace before c d after => simpa using Edit.replace after.reverse c d before.reverse

theorem Edits.single (h : Edit cs ds) : Edits 1 cs ds := .next h (.done ds)

theorem Edits.trans (h : Edits n cs ds) (h' : Edits m ds es) : Edits (n + m) cs es := by
  induction h with
  | done cs => simpa using h'
  | next he _ ih =>
    rw [Nat.add_right_comm]
    exact .next he (ih h')

theorem Edits.symm (h : Edits n cs ds) : Edits n ds cs := by
  induction h with
  | done cs => exact .done cs
  | next he _ ih => exact ih.trans (.single he.symm)

theorem Edits.cons (c : Char) (h : Edits n cs ds) : Edits n (c :: cs) (c :: ds) := by
  induction h with
  | done cs => exact .done (c :: cs)
  | next he _ ih => exact .next (he.cons c) ih

theorem Edits.reverse (h : Edits n cs ds) : Edits n cs.reverse ds.reverse := by
  induction h with
  | done cs => exact .done cs.reverse
  | next he _ ih => exact .next he.reverse ih

theorem edits_zero_iff : Edits 0 cs ds ↔ cs = ds := by
  constructor
  · rintro ⟨⟩
    rfl
  · rintro rfl
    exact .done cs

/-! ### The recursion -/

/-- What it costs to put one character in the place of another. -/
def cost (c d : Char) : Nat := if c = d then 0 else 1

theorem cost_le (c d : Char) : cost c d ≤ 1 := by
  unfold cost
  split <;> simp

/-- The number of edits between two texts, from their first characters on. -/
def distance : List Char → List Char → Nat
  | [], ds => ds.length
  | cs, [] => cs.length
  | c :: cs, d :: ds =>
    min (min (distance cs (d :: ds) + 1) (distance (c :: cs) ds + 1)) (distance cs ds + cost c d)

@[simp] theorem distance_nil_left (ds : List Char) : distance [] ds = ds.length := by
  cases ds <;> simp [distance]

@[simp] theorem distance_nil_right (cs : List Char) : distance cs [] = cs.length := by
  cases cs <;> simp [distance]

theorem distance_cons_cons (c d : Char) (cs ds : List Char) :
    distance (c :: cs) (d :: ds) =
      min (min (distance cs (d :: ds) + 1) (distance (c :: cs) ds + 1))
        (distance cs ds + cost c d) := by
  rw [distance]

theorem edits_nil_left (ds : List Char) : Edits ds.length [] ds := by
  induction ds with
  | nil => exact .done []
  | cons d ds ih => exact .next (.insert [] d []) (ih.cons d)

theorem edits_nil_right (cs : List Char) : Edits cs.length cs [] := (edits_nil_left cs).symm

theorem Edits.replace (c d : Char) (h : Edits n cs ds) :
    Edits (n + cost c d) (c :: cs) (d :: ds) := by
  by_cases hcd : c = d
  · subst hcd
    simpa [cost] using h.cons c
  · simpa [cost, hcd] using (h.cons c).trans (.single (.replace [] c d ds))

/-- The recursion says how to edit. -/
theorem edits_distance (cs ds : List Char) : Edits (distance cs ds) cs ds := by
  fun_induction distance cs ds with
  | case1 ds => exact edits_nil_left ds
  | case2 cs _ => exact edits_nil_right cs
  | case3 c cs d ds hdelete hinsert hreplace =>
    rcases min_choice (min (distance cs (d :: ds) + 1) (distance (c :: cs) ds + 1))
      (distance cs ds + cost c d) with h | h <;> rw [h]
    · rcases min_choice (distance cs (d :: ds) + 1) (distance (c :: cs) ds + 1) with h | h <;> rw [h]
      · exact .next (.delete [] c cs) hdelete
      · exact hinsert.trans (.single (.insert [] d ds))
    · exact hreplace.replace c d

/-! ### One edit changes the distance by one at most -/

theorem distance_cons_right_le (d : Char) (cs ds : List Char) :
    distance cs (d :: ds) ≤ distance cs ds + 1 := by
  cases cs with
  | nil => simp
  | cons c cs =>
    rw [distance_cons_cons]
    omega

theorem distance_le_cons_left (c : Char) (cs ds : List Char) :
    distance cs ds ≤ distance (c :: cs) ds + 1 := by
  induction ds with
  | nil =>
    simp only [distance_nil_right, List.length_cons]
    omega
  | cons d ds ih =>
    have hd := distance_cons_right_le d cs ds
    rw [distance_cons_cons]
    omega

theorem distance_cons_left_le (c : Char) (cs ds : List Char) :
    distance (c :: cs) ds ≤ distance cs ds + 1 := by
  cases ds with
  | nil => simp
  | cons d ds =>
    rw [distance_cons_cons]
    omega

theorem distance_replace_le (c d : Char) (cs es : List Char) :
    distance (c :: cs) es ≤ distance (d :: cs) es + 1 := by
  induction es with
  | nil => simp
  | cons e es ih =>
    have hc := cost_le c e
    rw [distance_cons_cons, distance_cons_cons]
    omega

/-- What holds of an edit holds of the same edit behind a further character. -/
theorem distance_cons_le (c : Char) (h : ∀ es, distance cs es ≤ distance ds es + 1)
    (es : List Char) : distance (c :: cs) es ≤ distance (c :: ds) es + 1 := by
  induction es with
  | nil => simpa using h []
  | cons e es ih =>
    have hdelete := h (e :: es)
    have hreplace := h es
    rw [distance_cons_cons, distance_cons_cons]
    omega

theorem distance_append_le (before : List Char) (h : ∀ es, distance cs es ≤ distance ds es + 1)
    (es : List Char) : distance (before ++ cs) es ≤ distance (before ++ ds) es + 1 := by
  induction before generalizing es with
  | nil => exact h es
  | cons c before ih => exact distance_cons_le c ih es

theorem Edit.distance_le (h : Edit cs ds) (es : List Char) :
    distance cs es ≤ distance ds es + 1 := by
  cases h with
  | insert before c after => exact distance_append_le before (distance_le_cons_left c after) es
  | delete before c after => exact distance_append_le before (distance_cons_left_le c after) es
  | replace before c d after => exact distance_append_le before (distance_replace_le c d after) es

theorem distance_self (cs : List Char) : distance cs cs = 0 := by
  induction cs with
  | nil => simp
  | cons c cs ih => simp [distance_cons_cons, ih, cost]

/-- No fewer edits lead from one text to the other. -/
theorem Edits.distance_le (h : Edits n cs ds) : distance cs ds ≤ n := by
  induction h with
  | done cs => rw [distance_self]
  | next he _ ih => exact (he.distance_le _).trans (Nat.add_le_add_right ih 1)

theorem distance_isLeast (cs ds : List Char) : IsLeast {n | Edits n cs ds} (distance cs ds) :=
  ⟨edits_distance cs ds, fun _ h => h.distance_le⟩

/-! ### What follows for all texts -/

theorem distance_symm (cs ds : List Char) : distance ds cs = distance cs ds :=
  le_antisymm (edits_distance cs ds).symm.distance_le (edits_distance ds cs).symm.distance_le

theorem distance_triangle (cs ds es : List Char) :
    distance cs es ≤ distance cs ds + distance ds es :=
  ((edits_distance cs ds).trans (edits_distance ds es)).distance_le

theorem distance_eq_zero_iff : distance cs ds = 0 ↔ cs = ds := by
  constructor
  · intro h
    exact edits_zero_iff.1 (h ▸ edits_distance cs ds)
  · rintro rfl
    exact distance_self cs

theorem distance_reverse (cs ds : List Char) :
    distance cs.reverse ds.reverse = distance cs ds := by
  refine le_antisymm (edits_distance cs ds).reverse.distance_le ?_
  simpa using (edits_distance cs.reverse ds.reverse).reverse.distance_le

/-- The recursion on the last characters. -/
theorem distance_concat_concat (cs ds : List Char) (c d : Char) :
    distance (cs ++ [c]) (ds ++ [d]) =
      min (min (distance cs (ds ++ [d]) + 1) (distance (cs ++ [c]) ds + 1))
        (distance cs ds + cost c d) := by
  have h := distance_cons_cons c d cs.reverse ds.reverse
  simpa only [← List.reverse_concat, distance_reverse] using h

end QuantityCalculus.EditDistance
