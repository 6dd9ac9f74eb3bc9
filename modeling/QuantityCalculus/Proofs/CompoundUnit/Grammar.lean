import Mathlib.Algebra.BigOperators.Ring.List
import QuantityCalculus.Proofs.CompoundUnit.Reading

/-! The grammar of units. A text is cut at its slashes of nesting zero into operands and at its stars
and blanks of nesting zero into tokens. It is a unit exactly if no operand is blank, every operand has
a token, all tokens are numerals or known names with optional powers, and no exponent overflows on the
way. The power of a name is then the sum of its powers in the operands with alternating signs. -/

namespace QuantityCalculus.CompoundUnit

open Text

variable {o w t : List Char}

/-- Whether a character separates tokens. -/
def isGap (c : Char) : Bool := isStar c || isBlank c

/-- The pieces between slashes. -/
def operands (cs : List Char) : List (List Char) := pieces isSlash cs

/-- The pieces between stars that are not blank. -/
def factors (o : List Char) : List (List Char) :=
  (pieces isStar o).filter fun w => !(trim w).isEmpty

/-- The pieces between stars and blanks that are not empty. -/
def tokens (o : List Char) : List (List Char) :=
  (pieces isGap o).filter fun t => !t.isEmpty

/-- The tokens of the factors of the operands of a text. -/
def operandTokens (cs : List Char) : List (List (List (List Char))) :=
  (operands cs).map fun o => (factors o).map tokens

theorem operands_eq (cs : List Char) : operands cs = segments isSlash cs :=
  pieces_eq_segments rfl rfl cs

theorem factors_eq (o : List Char) :
    factors o = (segments isStar o).filter fun w => !(trim w).isEmpty := by
  rw [factors, pieces_eq_segments rfl rfl]

theorem tokens_eq (o : List Char) :
    tokens o = ((segments isStar o).flatMap (segments isBlank)).filter fun t => !t.isEmpty := by
  rw [tokens, pieces_eq_segments (by decide) (by decide)]
  exact congrArg _ (segments_or isStar isBlank o)

/-- A token holds no blank of nesting zero. -/
theorem segments_of_mem_tokens (h : t ∈ tokens o) : segments isBlank t = [t] ∧ t ≠ [] := by
  rw [tokens_eq, List.mem_filter, List.mem_flatMap] at h
  obtain ⟨⟨w, -, ht⟩, hne⟩ := h
  exact ⟨segments_of_mem ht, by simpa using hne⟩

/-! ### Trimmed pieces -/

theorem map_trim_filter {ps : List (List Char)} (h : ∀ p ∈ ps, p ≠ [] → trim p ≠ []) :
    (ps.map trim).filter (fun p => !p.isEmpty) = (ps.filter fun p => !p.isEmpty).map trim := by
  rw [List.filter_map]
  refine congrArg _ (List.filter_congr fun p hp => ?_)
  cases p with
  | nil => rfl
  | cons c cs =>
    have := h _ hp (List.cons_ne_nil c cs)
    simpa using this

theorem splitTopLevel_isStar (o : List Char) : splitTopLevel isStar o = (factors o).map trim := by
  rw [splitTopLevel, factors_eq, List.filter_map]
  rfl

/-- The tokens of a text without stars are its pieces between blanks. -/
theorem splitTopLevel_isBlank (h : segments isStar w = [w]) :
    splitTopLevel isBlank w = (tokens w).map trim := by
  rw [splitTopLevel, tokens_eq, h, List.flatMap_singleton]
  exact map_trim_filter fun p hp hne => trim_ne_nil (segments_of_mem hp) hne

theorem segments_of_mem_factors (h : w ∈ factors o) : segments isStar w = [w] ∧ trim w ≠ [] := by
  rw [factors_eq, List.mem_filter] at h
  exact ⟨segments_of_mem h.1, by simpa using h.2⟩

theorem words_eq (o : List Char) :
    words o = (factors o).map fun w => (tokens w).map trim := by
  rw [words, splitTopLevel_isStar, List.map_map]
  apply List.map_congr_left
  intro w hw
  show splitTopLevel isBlank (trim w) = _
  rw [splitTopLevel_trim, splitTopLevel_isBlank (segments_of_mem_factors hw).1]

theorem tokens_ne_nil (h : segments isStar w = [w]) (hw : trim w ≠ []) : tokens w ≠ [] := by
  intro hnil
  refine hw (splitTopLevel_isBlank_eq_nil ?_)
  rw [splitTopLevel_isBlank h, hnil, List.map_nil]

theorem tokens_of_blank (h : segments isStar w = [w]) (hw : trim w = []) : tokens w = [] := by
  have hsplit := splitTopLevel_isBlank h
  rw [← splitTopLevel_trim, hw] at hsplit
  exact List.map_eq_nil_iff.1 hsplit.symm

theorem flatMap_filter {α β : Type} {p : α → Bool} {f : α → List β} {as : List α}
    (h : ∀ a ∈ as, p a = false → f a = []) : (as.filter p).flatMap f = as.flatMap f := by
  induction as with
  | nil => rfl
  | cons a as ih =>
    have ih := ih fun b hb => h b (List.mem_cons_of_mem a hb)
    by_cases hp : p a = true
    · rw [List.filter_cons_of_pos hp, List.flatMap_cons, List.flatMap_cons, ih]
    · rw [List.filter_cons_of_neg hp, List.flatMap_cons, ih, h a List.mem_cons_self (by simpa using hp),
        List.nil_append]

/-- The tokens of an operand are those of its factors. -/
theorem tokens_eq_flatMap (o : List Char) : tokens o = (factors o).flatMap tokens := by
  have hpiece : ∀ w ∈ segments isStar o,
      (segments isBlank w).filter (fun t => !t.isEmpty) = tokens w := by
    intro w hw
    rw [tokens_eq, segments_of_mem hw, List.flatMap_singleton]
  rw [tokens_eq, List.filter_flatMap, List.flatMap_congr hpiece, factors_eq, flatMap_filter]
  intro w hw hblank
  exact tokens_of_blank (segments_of_mem hw) (by simpa using hblank)

theorem forall_mem_tokens {P : List Char → Prop} :
    (∀ t ∈ tokens o, P t) ↔ ∀ w ∈ factors o, ∀ t ∈ tokens w, P t := by
  rw [tokens_eq_flatMap]
  simp only [List.mem_flatMap, forall_exists_index, and_imp]
  exact ⟨fun h w hw t ht => h t w hw ht, fun h t w hw ht => h w hw t ht⟩

theorem tokens_eq_nil_iff : tokens o = [] ↔ factors o = [] := by
  rw [tokens_eq_flatMap, List.flatMap_eq_nil_iff]
  constructor
  · intro h
    rw [List.eq_nil_iff_forall_not_mem]
    intro w hw
    obtain ⟨hs, hne⟩ := segments_of_mem_factors hw
    exact tokens_ne_nil hs hne (h w hw)
  · intro h
    simp [h]

/-! ### Tokens are trimmed -/

theorem nesting_trim (cs : List Char) : nesting (trim cs) = nesting cs := by
  refine map_trim (fun b cs hb => ?_) (fun b cs hb => ?_) cs
  · rw [nesting_cons, nesting_singleton (ne_paren_of_isBlank hb), zero_add]
  · rw [nesting_append, nesting_singleton (ne_paren_of_isBlank hb), add_zero]

theorem nesting_name {name : String} {unit : AtomicUnit} (h : Table.lookup? name = some unit) :
    nesting name.toList = 0 := by
  apply nesting_eq_zero
  intro c hc
  have := Table.isPlainChar_of_lookup h c hc
  simp only [Table.isPlainChar, Token.isInner, Bool.and_eq_true, bne_iff_ne] at this
  exact this.1.1.2

theorem IsToken.nesting_eq_zero (h : IsToken t) : nesting t = 0 := by
  cases hx : Token.numeral? t with
  | some x => exact Token.nesting_numeral? hx
  | none =>
    obtain ⟨name, x?, unit, ha, hu⟩ := h.exists_lookup hx
    have hn := nesting_name hu
    rw [String.toList_ofList] at hn
    exact Token.nesting_atom? ha hn

theorem isToken_trim_iff (h : segments isBlank t = [t]) : IsToken (trim t) ↔ IsToken t := by
  constructor
  · intro ht
    have hn := ht.nesting_eq_zero
    rw [nesting_trim] at hn
    rwa [trim_piece h hn] at ht
  · intro ht
    rwa [trim_piece h ht.nesting_eq_zero]

theorem map_trim_tokens (h : ∀ t ∈ tokens w, IsToken t) : (tokens w).map trim = tokens w := by
  have htrim : ∀ t ∈ tokens w, trim t = t := fun t ht =>
    trim_piece (segments_of_mem_tokens ht).1 (h t ht).nesting_eq_zero
  rw [List.map_congr_left htrim, List.map_id']

/-! ### The grammar -/

/-- Reading a text finds tokens in all of its words exactly if cutting it does. -/
theorem grammatical_iff (cs : List Char) :
    Grammatical (operandWords cs) ↔
      ∀ o ∈ operands cs, trim o ≠ [] ∧ tokens o ≠ [] ∧ ∀ t ∈ tokens o, IsToken t := by
  rw [operandWords, ← operands_eq, Grammatical, List.forall_mem_map]
  apply forall₂_congr
  intro o _
  rw [words_eq, List.forall_mem_map, forall_mem_tokens, Ne, List.map_eq_nil_iff,
    ← tokens_eq_nil_iff]
  have htokens : (∀ w ∈ factors o, ∀ t ∈ (tokens w).map trim, IsToken t) ↔
      ∀ w ∈ factors o, ∀ t ∈ tokens w, IsToken t := by
    apply forall₂_congr
    intro w _
    rw [List.forall_mem_map]
    exact forall₂_congr fun t ht => isToken_trim_iff (segments_of_mem_tokens ht).1
  rw [htokens]
  constructor
  · rintro ⟨hne, ht⟩
    refine ⟨trim_ne_nil_of_words ?_, hne, ht⟩
    rwa [words_eq, Ne, List.map_eq_nil_iff, ← tokens_eq_nil_iff]
  · exact And.right

/-- The tokens that are read are those that are cut. -/
theorem operandWords_eq {cs : List Char} (h : ∀ o ∈ operands cs, ∀ t ∈ tokens o, IsToken t) :
    operandWords cs = operandTokens cs := by
  rw [operandWords, ← operands_eq, operandTokens]
  apply List.map_congr_left
  intro o ho
  rw [words_eq]
  exact List.map_congr_left fun w hw => map_trim_tokens (forall_mem_tokens.1 (h o ho) w hw)

/-! ### The power of a name -/

section Power

variable {n : String}

theorem sum_apply_inl (cs : List Content) (n : String) :
    cs.sum (.inl n) = (cs.map fun c => c (.inl n)).sum := by
  induction cs with
  | nil => rfl
  | cons c cs ih =>
    rw [List.sum_cons, List.map_cons, List.sum_cons, ← ih]
    rfl

theorem wordContent_inl (hn : n ≠ dimensionlessName) (ts : List (List Char)) :
    wordContent ts (.inl n) = (ts.map fun t => tokenPower t n).sum := by
  rw [wordContent, sum_apply_inl, List.map_map]
  refine congrArg _ (List.map_congr_left fun t _ => ?_)
  exact if_neg hn

/-- The power of a name in an operand is the sum of its powers in the tokens. -/
theorem operandContent_inl (hn : n ≠ dimensionlessName) (o : List Char) :
    operandContent ((factors o).map tokens) (.inl n) =
      ((tokens o).map fun t => tokenPower t n).sum := by
  rw [operandContent, sum_apply_inl, tokens_eq_flatMap]
  induction factors o with
  | nil => rfl
  | cons w ws ih =>
    rw [List.map_cons, List.map_cons, List.map_cons, List.sum_cons, List.flatMap_cons,
      List.map_append, List.sum_append, ih, wordContent_inl hn]

/-- Each slash turns the signs behind it around. -/
theorem quotientContent_inl (os : List (List (List (List Char)))) :
    quotientContent os (.inl n) =
      (os.map fun ws => operandContent ws (.inl n)).alternatingSum := by
  induction os with
  | nil => rfl
  | cons ws os ih =>
    rw [List.map_cons, List.alternatingSum_cons, ← ih]
    rfl

end Power

theorem parse_grammar (s : String) :
    ((∃ u, parse s = .ok u) ↔
      (∀ o ∈ operands s.toList, trim o ≠ [] ∧ tokens o ≠ [] ∧ ∀ t ∈ tokens o, IsToken t) ∧
        NoOverflow (operandTokens s.toList)) ∧
      ∀ u, parse s = .ok u → ∀ n, n ≠ dimensionlessName → (u.powerOf n).val =
        ((operands s.toList).map fun o =>
          ((tokens o).map fun t => tokenPower t n).sum).alternatingSum := by
  have hreads := parse_reads s
  have heq : Grammatical (operandWords s.toList) → operandWords s.toList = operandTokens s.toList :=
    fun h => operandWords_eq fun o ho => ((grammatical_iff s.toList).1 h o ho).2.2
  constructor
  · rw [hreads.isOk_iff, ← grammatical_iff]
    apply and_congr_right
    intro h
    rw [heq h]
  · intro u hu n hn
    have hg : Grammatical (operandWords s.toList) := (hreads.isOk_iff.1 ⟨u, hu⟩).1
    have hc := congrFun (hreads.content_eq u hu) (.inl n)
    rw [heq hg, quotientContent_inl, operandTokens, List.map_map] at hc
    refine hc.trans (congrArg _ (List.map_congr_left fun o _ => ?_))
    exact operandContent_inl hn o

theorem parse_grammar_slashes : ∃ u, parse "J*2/s/kg m^(1/2)" = .ok u ∧
    (u.powerOf "s").val = -1 ∧ (u.powerOf "kg").val = 1 ∧ (u.powerOf "m").val = 1 / 2 := by
  have hrun : ((parse "J*2/s/kg m^(1/2)").map fun _ => ()).toOption = some () := by decide +kernel
  obtain ⟨u, hu, -, -⟩ := exists_reachable hrun
  have hpower := (parse_grammar "J*2/s/kg m^(1/2)").2 u hu
  refine ⟨u, hu, (hpower "s" (by decide)).trans ?_, (hpower "kg" (by decide)).trans ?_,
    (hpower "m" (by decide)).trans ?_⟩
  · decide +kernel
  · decide +kernel
  · decide +kernel

end QuantityCalculus.CompoundUnit
