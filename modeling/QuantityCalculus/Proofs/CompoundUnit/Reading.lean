import QuantityCalculus.Proofs.CompoundUnit.TokenContent

/-! What reading a text evaluates. The text of a unit is cut into operands, words and tokens. A word
and an operand have the sum of the contents of their parts, and operands behind each other the first
content less that of the rest. Reading a text succeeds exactly if every token is one and every content
formed on the way is representable, and then gives a unit with the content of the whole. -/

namespace QuantityCalculus.CompoundUnit

open Text

/-- The content of a word, given by its tokens. -/
def wordContent (ts : List (List Char)) : Content := (ts.map tokenContent).sum

/-- The content of an operand, given by the tokens of its words. -/
def operandContent (ws : List (List (List Char))) : Content := (ws.map wordContent).sum

/-- The content of operands behind each other: the first one less that of the rest. -/
def quotientContent : List (List (List (List Char))) → Content
  | [] => 0
  | ws :: os => operandContent ws - quotientContent os

/-- The contents formed in a word are representable. -/
def WordFits (ts : List (List Char)) : Prop :=
  (∀ t ∈ ts, ∀ i, Representable (tokenContent t i)) ∧ SumsFit (ts.map tokenContent)

/-- The contents formed in an operand are representable. -/
def OperandFits (ws : List (List (List Char))) : Prop :=
  (∀ ts ∈ ws, WordFits ts) ∧ SumsFit (ws.map wordContent)

/-- The contents formed in operands behind each other are representable. -/
def NoOverflow (os : List (List (List (List Char)))) : Prop :=
  (∀ ws ∈ os, OperandFits ws) ∧ ∀ qs, qs <:+ os → ∀ i, Representable (quotientContent qs i)

/-- Every operand has a word, and all tokens are tokens. -/
def Grammatical (os : List (List (List (List Char)))) : Prop :=
  ∀ ws ∈ os, ws ≠ [] ∧ ∀ ts ∈ ws, ∀ t ∈ ts, IsToken t

theorem SumsFit.representable_sum {cs : List Content} (h : SumsFit cs) :
    ∀ i, Representable (cs.sum i) :=
  h cs (List.prefix_refl cs)

theorem parseWord_reads {w : List Char} (ht : trim w = w) (hne : w ≠ []) :
    Reads (parseWord w)
      ((∀ t ∈ splitTopLevel isBlank w, IsToken t) ∧ WordFits (splitTopLevel isBlank w))
      (wordContent (splitTopLevel isBlank w)) := by
  have hacc : ((∀ t ∈ splitTopLevel isBlank w, IsToken t ∧ ∀ i, Representable (tokenContent t i)) ∧
      SumsFit ((splitTopLevel isBlank w).map tokenContent)) ↔
      (∀ t ∈ splitTopLevel isBlank w, IsToken t) ∧ WordFits (splitTopLevel isBlank w) := by
    rw [WordFits, ← and_assoc, forall₂_and]
  unfold parseWord
  split_ifs with hb
  · exact (parseProduct_reads fun t _ => parseToken_reads t).congr hacc rfl
  · have hs := splitTopLevel_of_not_hasTopLevel (by simpa using hb) ht hne
    rw [hs] at hacc ⊢
    exact (reads_singleton (parseToken_reads w) And.right).congr hacc rfl

/-- The tokens of the words of an operand. -/
def words (o : List Char) : List (List (List Char)) :=
  (splitTopLevel isStar o).map (splitTopLevel isBlank)

theorem words_trim (o : List Char) : words (trim o) = words o := by
  rw [words, splitTopLevel_trim, words]

theorem parseOperand_reads {o : List Char} (ht : trim o = o) (hne : o ≠ []) :
    Reads (parseOperand o)
      (words o ≠ [] ∧ (∀ ts ∈ words o, ∀ t ∈ ts, IsToken t) ∧ OperandFits (words o))
      (operandContent (words o)) := by
  have hacc : ((∀ w ∈ splitTopLevel isStar o, (∀ t ∈ splitTopLevel isBlank w, IsToken t) ∧
        WordFits (splitTopLevel isBlank w)) ∧
      SumsFit ((splitTopLevel isStar o).map fun w => wordContent (splitTopLevel isBlank w))) ↔
      (∀ ts ∈ words o, ∀ t ∈ ts, IsToken t) ∧ OperandFits (words o) := by
    simp only [words, OperandFits, List.forall_mem_map, List.map_map]
    rw [forall₂_and, and_assoc]
    rfl
  have hsum : ((splitTopLevel isStar o).map fun w => wordContent (splitTopLevel isBlank w)).sum =
      operandContent (words o) := by
    rw [operandContent, words, List.map_map]
    rfl
  have hword : ∀ w ∈ splitTopLevel isStar o, Reads (parseWord w)
      ((∀ t ∈ splitTopLevel isBlank w, IsToken t) ∧ WordFits (splitTopLevel isBlank w))
      (wordContent (splitTopLevel isBlank w)) := by
    intro w hw
    obtain ⟨hwt, hwn⟩ := mem_splitTopLevel hw
    exact parseWord_reads hwt hwn
  unfold parseOperand
  split_ifs with hstar
  · split
    · rename_i hnil
      apply reads_error
      rintro ⟨hw, -⟩
      exact hw (by rw [words, hnil, List.map_nil])
    · rename_i hcons
      refine (parseProduct_reads hword).congr (hacc.trans ?_) hsum
      have : words o ≠ [] := by simpa [words] using hcons
      simp [this]
  · have hs := splitTopLevel_of_not_hasTopLevel (by simpa using hstar) ht hne
    have hw := hword o (by rw [hs]; exact List.mem_singleton_self o)
    have hnil : words o ≠ [] := by simp [words, hs]
    rw [hs] at hacc hsum
    refine (reads_singleton hw fun h => h.2.2.representable_sum).congr (hacc.trans ?_) hsum
    simp [hnil]

/-! ### Quotients -/

/-- The words of the operands of a text. -/
def operandWords (cs : List Char) : List (List (List (List Char))) :=
  (segments isSlash cs).map words

theorem operandWords_trim (cs : List Char) :
    (segments isSlash (trim cs)).map words = operandWords cs := by
  have hs : ∀ b, isBlank b = true → isSlash b = false := by
    intro b hb
    by_contra h
    have h : b = '/' := by simpa [isSlash] using h
    subst h
    exact absurd hb (by decide)
  have hw : words = words ∘ trim := by
    funext o
    exact (words_trim o).symm
  rw [operandWords, hw, ← List.map_map, ← List.map_map, map_trim_segments_trim hs]

theorem trim_ne_nil_of_words {o : List Char} (h : words o ≠ []) : trim o ≠ [] := by
  intro ht
  rw [← words_trim, ht] at h
  exact h rfl

theorem trim_intercalate_ne_nil {o : List Char} {os : List (List Char)} (h : trim o ≠ []) :
    trim (['/'].intercalate (o :: os)) ≠ [] := by
  intro hnil
  rw [trim_eq_nil_iff] at hnil
  refine h (trim_eq_nil_iff.2 fun c hc => hnil c ?_)
  cases os with
  | nil => simpa using hc
  | cons p os =>
    rw [List.intercalate_cons_cons]
    exact List.mem_append_left _ (List.mem_append_left _ hc)

theorem forall_suffix_cons {α : Type} {a : α} {as : List α} {P : List α → Prop} :
    (∀ bs, bs <:+ a :: as → P bs) ↔ P (a :: as) ∧ ∀ bs, bs <:+ as → P bs := by
  constructor
  · intro h
    exact ⟨h _ (List.suffix_refl _), fun bs hbs => h bs (hbs.trans (List.suffix_cons a as))⟩
  · rintro ⟨ha, h⟩ bs hbs
    rcases List.suffix_cons_iff.1 hbs with rfl | hbs
    · exact ha
    · exact h bs hbs

theorem accepted_nil : Grammatical [] ∧ NoOverflow [] := by
  refine ⟨by simp [Grammatical], by simp, fun qs hqs => ?_⟩
  rw [List.suffix_nil.1 hqs]
  exact fun _ => representable_zero

theorem accepted_cons {ws : List (List (List Char))} {os : List (List (List (List Char)))} :
    (ws ≠ [] ∧ (∀ ts ∈ ws, ∀ t ∈ ts, IsToken t) ∧ OperandFits ws) ∧
        (Grammatical os ∧ NoOverflow os) ∧
        (∀ i, Representable ((operandContent ws - quotientContent os) i)) ↔
      Grammatical (ws :: os) ∧ NoOverflow (ws :: os) := by
  rw [Grammatical, Grammatical, NoOverflow, NoOverflow, forall_suffix_cons, List.forall_mem_cons,
    List.forall_mem_cons, quotientContent]
  tauto

theorem parseQuotient_reads {os : List (List Char)} (hne : os ≠ []) :
    Reads (parseQuotient os) (Grammatical (os.map words) ∧ NoOverflow (os.map words))
      (quotientContent (os.map words)) := by
  induction os with
  | nil => exact absurd rfl hne
  | cons o os ih =>
    -- Blank operands have no words, so both refusals are of texts that are not grammatical.
    have hblank : Grammatical ((o :: os).map words) → trim o ≠ [] := fun h =>
      trim_ne_nil_of_words (h (words o) List.mem_cons_self).1
    have hoperand : trim o ≠ [] → Reads (parseOperand (trim o))
        (words o ≠ [] ∧ (∀ ts ∈ words o, ∀ t ∈ ts, IsToken t) ∧ OperandFits (words o))
        (operandContent (words o)) := by
      intro h
      have := parseOperand_reads (trim_trim o) h
      rwa [words_trim] at this
    cases os with
    | nil =>
      simp only [parseQuotient]
      split_ifs with ho
      · exact reads_error _ _ fun h => hblank h.1 (List.isEmpty_iff.1 ho)
      · refine (hoperand (by simpa using ho)).congr ?_ (sub_zero _).symm
        refine Iff.trans ?_ accepted_cons
        constructor
        · rintro ⟨hw, ht, hf⟩
          refine ⟨⟨hw, ht, hf⟩, accepted_nil, ?_⟩
          show ∀ i, Representable ((operandContent (words o) - 0) i)
          rw [sub_zero]
          exact hf.2.representable_sum
        · exact And.left
    | cons p os =>
      simp only [parseQuotient]
      split_ifs with ho
      · apply reads_error
        rintro ⟨hg, -⟩
        have hp := trim_ne_nil_of_words (hg (words p) (by simp)).1
        simp [hblank hg, trim_intercalate_ne_nil hp] at ho
      · have ho : trim o ≠ [] := by
          intro h
          simp [h] at ho
        exact ((hoperand ho).divide (ih (List.cons_ne_nil p os))).congr accepted_cons rfl

theorem parseExpression_reads (cs : List Char) :
    Reads (parseExpression cs) (Grammatical (operandWords cs) ∧ NoOverflow (operandWords cs))
      (quotientContent (operandWords cs)) := by
  have hne : segments isSlash (trim cs) ≠ [] := segmentsFrom_ne_nil
  rw [← operandWords_trim]
  exact parseQuotient_reads hne

/-- Reading a text without a scale keeps what the text stands for. -/
theorem parse_reads (s : String) :
    Reads (parse s) (Grammatical (operandWords s.toList) ∧ NoOverflow (operandWords s.toList))
      (quotientContent (operandWords s.toList)) := by
  have hone : ((1.0 : Float) == 1.0) = true := by decide +kernel
  rw [parse, parseScaled]
  simp only [hone, if_true]
  have hname : ∀ u, WellFormed u → u.content = quotientContent (operandWords s.toList) →
      Reads (.ok { u with name := trimmed s }) True (quotientContent (operandWords s.toList)) :=
    fun _ hu hc => reads_ok trivial (hu.rename _) hc
  exact ((parseExpression_reads s.toList).bind hname).congr (and_iff_left trivial) rfl

end QuantityCalculus.CompoundUnit
