import Mathlib.Data.List.DropRight
import QuantityCalculus.Text.Blank

/-! Trimming. A blank in front of a text or behind it does not change the trimmed text, and any other
function that ignores such blanks is the same for a text and its trimmed form. -/

namespace QuantityCalculus.Text

variable {b : Char}

theorem trim_eq_rdropWhile (cs : List Char) :
    trim cs = (cs.dropWhile isBlank).rdropWhile isBlank := rfl

theorem trim_eq_nil_iff {cs : List Char} : trim cs = [] ↔ ∀ c ∈ cs, isBlank c = true := by
  rw [trim_eq_rdropWhile, List.rdropWhile_eq_nil_iff]
  constructor
  · intro h c hc
    rw [← List.takeWhile_append_dropWhile (p := isBlank) (l := cs), List.mem_append] at hc
    exact hc.elim List.mem_takeWhile_imp (h c)
  · intro h c hc
    exact h c (List.dropWhile_suffix isBlank |>.subset hc)

/-- A function that ignores blanks on both sides does not see whether a text is trimmed. -/
theorem map_trim {α : Type} {f : List Char → α}
    (front : ∀ b cs, isBlank b = true → f (b :: cs) = f cs)
    (back : ∀ b cs, isBlank b = true → f (cs ++ [b]) = f cs) (cs : List Char) :
    f (trim cs) = f cs := by
  have hback : ∀ ds, f (ds.rdropWhile isBlank) = f ds := by
    intro ds
    induction ds using List.reverseRecOn with
    | nil => rfl
    | append_singleton ds b ih =>
      by_cases hb : isBlank b = true
      · rw [List.rdropWhile_concat_pos _ _ _ hb, ih, back b ds hb]
      · rw [List.rdropWhile_concat_neg _ _ _ hb]
  rw [trim_eq_rdropWhile, hback]
  induction cs with
  | nil => rfl
  | cons b cs ih =>
    by_cases hb : isBlank b = true
    · rw [List.dropWhile_cons_of_pos hb, ih, front b cs hb]
    · rw [List.dropWhile_cons_of_neg hb]

theorem trim_cons (hb : isBlank b = true) (cs : List Char) : trim (b :: cs) = trim cs := by
  rw [trim_eq_rdropWhile, List.dropWhile_cons_of_pos hb, trim_eq_rdropWhile]

theorem trim_concat (hb : isBlank b = true) (cs : List Char) : trim (cs ++ [b]) = trim cs := by
  induction cs with
  | nil =>
    rw [List.nil_append, trim_cons hb]
  | cons c cs ih =>
    by_cases hc : isBlank c = true
    · rw [List.cons_append, trim_cons hc, trim_cons hc, ih]
    · rw [trim_eq_rdropWhile, trim_eq_rdropWhile, List.cons_append, List.dropWhile_cons_of_neg hc,
        List.dropWhile_cons_of_neg hc, ← List.cons_append, List.rdropWhile_concat_pos _ _ _ hb]

theorem trim_trim (cs : List Char) : trim (trim cs) = trim cs :=
  map_trim (fun _ cs hb => trim_cons hb cs) (fun _ cs hb => trim_concat hb cs) cs

/-- A text that neither begins nor ends with a blank is trimmed. -/
theorem trim_eq_self {cs : List Char} (front : ∀ b ds, cs = b :: ds → isBlank b = false)
    (back : ∀ b ds, cs = ds ++ [b] → isBlank b = false) : trim cs = cs := by
  have hd : cs.dropWhile isBlank = cs := by
    cases cs with
    | nil => rfl
    | cons b ds => exact List.dropWhile_cons_of_neg (by simp [front b ds rfl])
  rw [trim_eq_rdropWhile, hd]
  induction cs using List.reverseRecOn with
  | nil => rfl
  | append_singleton ds b _ => exact List.rdropWhile_concat_neg _ _ _ (by simp [back b ds rfl])

theorem trim_eq_self_of_forall {cs : List Char} (h : ∀ c ∈ cs, isBlank c = false) :
    trim cs = cs := by
  apply trim_eq_self
  · rintro b ds rfl
    exact h b List.mem_cons_self
  · rintro b ds rfl
    exact h b (List.mem_append_right ds List.mem_cons_self)

end QuantityCalculus.Text
