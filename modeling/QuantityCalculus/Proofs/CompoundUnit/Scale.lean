import QuantityCalculus.Proofs.Binary64.Within
import QuantityCalculus.Proofs.CompoundUnit.Grammar

/-! The scale of a unit that is read. Every numeral is checked, but not their products and quotients:
the scale of a text is formed token by token and word by word in the order of the text, and operand
by operand from its end. It can be divided by exactly if every number formed on the way can, which
is so as long as the numerals are not far from one. -/

namespace QuantityCalculus.CompoundUnit

open Binary64 Text

/-! ### Scales of texts -/

/-- The scale of a token: a numeral is its own scale, and a name has none. -/
def tokenScale (t : List Char) : Float := (Token.numeral? t).getD 1.0

/-- The scale of a word, given by its tokens. -/
def wordScale (ts : List (List Char)) : Float := product (ts.map tokenScale)

/-- The scale of an operand, given by the tokens of its words. -/
def operandScale (ws : List (List (List Char))) : Float := product (ws.map wordScale)

/-- The scale of operands behind each other: the first one divided by that of the rest. -/
def quotientScale : List (List (List (List Char))) → Float
  | [] => 1.0
  | ws :: os => operandScale ws / quotientScale os

/-- The numerals among the tokens of some operands, in order. -/
def numerals (os : List (List (List (List Char)))) : List Float :=
  os.flatten.flatten.filterMap Token.numeral?

/-- A text that is read has a scale, and its numerals were checked. -/
def HasScale (r : Except Error CompoundUnit) (x : Float) (checked : Prop) : Prop :=
  ∀ u, r = .ok u → u.scale = x ∧ checked

theorem hasScale_error (e : Error) (x : Float) (checked : Prop) : HasScale (.error e) x checked := by
  intro u hu
  cases hu

theorem hasScale_parseToken (t : List Char) :
    HasScale (parseToken t) (tokenScale t) (∀ x ∈ Token.numeral? t, Usable x) := by
  unfold parseToken tokenScale
  cases hx : Token.numeral? t with
  | some x =>
    dsimp only
    split_ifs with h
    · exact hasScale_error _ _ _
    · intro u hu
      cases hu
      refine ⟨rfl, ?_⟩
      rintro _ ⟨⟩
      simpa [Usable] using h
  | none =>
    dsimp only
    split
    · exact hasScale_error _ _ _
    · rename_i name x? ha
      split_ifs
      · intro u hu
        cases hu
        exact ⟨rfl, by simp⟩
      · intro u hu
        simp only [bind_eq_ok_iff] at hu
        obtain ⟨unit, -, d, -, hu⟩ := hu
        cases hu
        exact ⟨rfl, by simp⟩

section Product

variable {parse : List Char → Except Error CompoundUnit} {f : List Char → Float}
  {checked : List Char → Prop} {pieces : List (List Char)}

theorem hasScale_foldlM (h : ∀ p ∈ pieces, HasScale (parse p) (f p) (checked p))
    (u : CompoundUnit) :
    HasScale (pieces.foldlM (fun acc piece => do
        liftExponent .badExponent (acc.multiply (← parse piece))) u)
      ((pieces.map f).foldl (· * ·) u.scale) (∀ p ∈ pieces, checked p) := by
  induction pieces generalizing u with
  | nil =>
    intro v hv
    cases hv
    exact ⟨rfl, by simp⟩
  | cons p pieces ih =>
    intro v hv
    simp only [List.foldlM_cons, bind_eq_ok_iff, liftExponent_eq_ok_iff] at hv
    obtain ⟨w, ⟨t, ht, hw⟩, hv⟩ := hv
    obtain ⟨hscale, hp⟩ := h p List.mem_cons_self t ht
    obtain ⟨rs, d, -, -, rfl⟩ := multiply_eq_ok_iff.1 hw
    obtain ⟨hall, hps⟩ := ih (fun q hq => h q (List.mem_cons_of_mem p hq)) _ v hv
    refine ⟨?_, List.forall_mem_cons.2 ⟨hp, hps⟩⟩
    rw [hall, List.map_cons, List.foldl_cons, ← hscale]
    rfl

theorem hasScale_parseProduct (h : ∀ p ∈ pieces, HasScale (parse p) (f p) (checked p)) :
    HasScale (parseProduct parse pieces) (product (pieces.map f)) (∀ p ∈ pieces, checked p) :=
  hasScale_foldlM h dimensionless

/-- A product of one piece has the scale of the piece. -/
theorem hasScale_singleton {p : List Char} (h : HasScale (parse p) (f p) (checked p)) :
    HasScale (parse p) (product ([p].map f)) (∀ q ∈ [p], checked q) := by
  intro u hu
  obtain ⟨hscale, hp⟩ := h u hu
  refine ⟨?_, by simpa using hp⟩
  show u.scale = 1.0 * f p
  rw [hscale, Binary64.one_mul]

end Product

/-- The numerals of a word can be divided by. -/
def Checked (ts : List (List Char)) : Prop := ∀ t ∈ ts, ∀ x ∈ Token.numeral? t, Usable x

theorem hasScale_parseWord {w : List Char} (ht : trim w = w) (hne : w ≠ []) :
    HasScale (parseWord w) (wordScale (splitTopLevel isBlank w))
      (Checked (splitTopLevel isBlank w)) := by
  unfold parseWord
  split_ifs with hb
  · exact hasScale_parseProduct fun t _ => hasScale_parseToken t
  · rw [splitTopLevel_of_not_hasTopLevel (by simpa using hb) ht hne]
    exact hasScale_singleton (hasScale_parseToken w)

theorem hasScale_parseOperand {o : List Char} (ht : trim o = o) (hne : o ≠ []) :
    HasScale (parseOperand o) (operandScale (words o)) (∀ ts ∈ words o, Checked ts) := by
  have hword : ∀ w ∈ splitTopLevel isStar o, HasScale (parseWord w)
      (wordScale (splitTopLevel isBlank w)) (Checked (splitTopLevel isBlank w)) := by
    intro w hw
    obtain ⟨hwt, hwn⟩ := mem_splitTopLevel hw
    exact hasScale_parseWord hwt hwn
  rw [operandScale, words, List.map_map, List.forall_mem_map]
  unfold parseOperand
  split_ifs with hstar
  · split
    · exact hasScale_error _ _ _
    · exact hasScale_parseProduct hword
  · rw [splitTopLevel_of_not_hasTopLevel (by simpa using hstar) ht hne] at hword ⊢
    exact hasScale_singleton (hword o (List.mem_singleton_self o))

theorem hasScale_parseQuotient (os : List (List Char)) :
    HasScale (parseQuotient os) (quotientScale (os.map words))
      (∀ o ∈ os, ∀ ts ∈ words o, Checked ts) := by
  have hoperand : ∀ o, ¬ (trim o).isEmpty = true →
      HasScale (parseOperand (trim o)) (operandScale (words o)) (∀ ts ∈ words o, Checked ts) := by
    intro o ho
    have := hasScale_parseOperand (trim_trim o) (by simpa using ho)
    rwa [words_trim] at this
  induction os with
  | nil => exact hasScale_error _ _ _
  | cons o os ih =>
    cases os with
    | nil =>
      simp only [parseQuotient]
      split_ifs with ho
      · exact hasScale_error _ _ _
      · intro u hu
        obtain ⟨hscale, hc⟩ := hoperand o ho u hu
        refine ⟨?_, by simpa using hc⟩
        show u.scale = operandScale (words o) / 1.0
        rw [hscale, Binary64.div_one]
    | cons p os =>
      simp only [parseQuotient]
      split_ifs with ho
      · exact hasScale_error _ _ _
      · intro u hu
        simp only [bind_eq_ok_iff, liftExponent_eq_ok_iff] at hu
        obtain ⟨v, hv, w, hw, hu⟩ := hu
        have ho : ¬ (trim o).isEmpty = true := fun h => ho (by rw [h, Bool.true_or])
        obtain ⟨hscale, hc⟩ := hoperand o ho v hv
        obtain ⟨hrest, hcs⟩ := ih w hw
        obtain ⟨rs, d, -, -, rfl⟩ := divide_eq_ok_iff.1 hu
        refine ⟨?_, List.forall_mem_cons.2 ⟨hc, hcs⟩⟩
        show v.scale / w.scale = operandScale (words o) / quotientScale ((p :: os).map words)
        rw [hscale, hrest]

theorem hasScale_parse (s : String) :
    HasScale (parse s) (quotientScale (operandWords s.toList))
      (∀ ws ∈ operandWords s.toList, ∀ ts ∈ ws, Checked ts) := by
  intro u hu
  have hone : ((1.0 : Float) == 1.0) = true := by decide +kernel
  rw [parse, parseScaled] at hu
  obtain ⟨v, hv, hu⟩ := bind_eq_ok_iff.1 hu
  rw [if_pos hone] at hu
  cases hu
  rw [← operandWords_trim, List.forall_mem_map]
  exact hasScale_parseQuotient _ v hv

/-! ### Numbers formed on the way -/

/-- Every number formed while a text is read can be divided by. -/
structure InRange (os : List (List (List (List Char)))) : Prop where
  words : ∀ ws ∈ os, ∀ ts ∈ ws, ∀ ps, ps <+: ts → Usable (wordScale ps)
  operands : ∀ ws ∈ os, ∀ ps, ps <+: ws → Usable (operandScale ps)
  quotients : ∀ qs, qs <:+ os → Usable (quotientScale qs)

theorem usable_product_map {α : Type} {f : α → Float} {as bs : List α}
    (h : Usable (product (as.map f))) (hb : bs <+: as) : Usable (product (bs.map f)) :=
  usable_product_iff.1 h _ (hb.map f)

/-- Nothing that is lost on the way is found again. -/
theorem usable_quotientScale_iff {os : List (List (List (List Char)))} :
    Usable (quotientScale os) ↔ InRange os := by
  constructor
  · intro h
    have hall : ∀ qs, qs <:+ os → Usable (quotientScale qs) := by
      rintro qs ⟨ps, rfl⟩
      induction ps with
      | nil => exact h
      | cons p ps ih => exact ih (usable_of_div h).2
    have hoperand : ∀ ws ∈ os, Usable (operandScale ws) := by
      intro ws hws
      obtain ⟨ps, qs, rfl⟩ := List.append_of_mem hws
      exact (usable_of_div (hall (ws :: qs) (List.suffix_append _ _))).1
    refine ⟨fun ws hws ts hts ps hps => ?_, fun ws hws ps hps => ?_, hall⟩
    · have hword := usable_of_mem_product (hoperand ws hws) (wordScale ts) (List.mem_map_of_mem hts)
      exact usable_product_map hword hps
    · exact usable_product_map (hoperand ws hws) hps
  · exact fun h => h.quotients os (List.suffix_refl os)

/-! ### Numerals that are not far from one -/

section Bound

variable {b : Float → ℕ}

/-- The places of a token: those of its numeral. -/
def tokenPlaces (b : Float → ℕ) (t : List Char) : ℕ := ((Token.numeral? t).map b).getD 0

/-- The places of the numerals of some operands. -/
def places (b : Float → ℕ) (os : List (List (List (List Char)))) : ℕ :=
  (os.map fun ws => (ws.map fun ts => (ts.map (tokenPlaces b)).sum).sum).sum

theorem sum_map_filterMap (b : Float → ℕ) (ts : List (List Char)) :
    ((ts.filterMap Token.numeral?).map b).sum = (ts.map (tokenPlaces b)).sum := by
  induction ts with
  | nil => rfl
  | cons t ts ih =>
    rw [List.map_cons, List.sum_cons, ← ih, tokenPlaces]
    cases h : Token.numeral? t <;> simp [h]

theorem places_eq (b : Float → ℕ) (os : List (List (List (List Char)))) :
    ((numerals os).map b).sum = places b os := by
  rw [numerals, sum_map_filterMap, places]
  simp [List.map_flatten, List.sum_flatten, Function.comp_def]

theorem forall_mem_numerals {P : Float → Prop} {os : List (List (List (List Char)))} :
    (∀ x ∈ numerals os, P x) ↔ ∀ ws ∈ os, ∀ ts ∈ ws, ∀ t ∈ ts, ∀ x ∈ Token.numeral? t, P x := by
  simp only [numerals, List.mem_filterMap, List.mem_flatten, Option.mem_def]
  grind

theorem within_tokenScale {t : List Char} (h : ∀ x ∈ Token.numeral? t, Within (b x) x) :
    Within (tokenPlaces b t) (tokenScale t) := by
  unfold tokenPlaces tokenScale
  cases hx : Token.numeral? t with
  | none => exact within_one
  | some x => exact h x hx

/-- The places of numerals add up along a text. -/
theorem within_quotientScale {os : List (List (List (List Char)))}
    (h : ∀ x ∈ numerals os, Within (b x) x) (hsum : places b os ≤ 1023) :
    Within (places b os) (quotientScale os) := by
  rw [forall_mem_numerals] at h
  induction os with
  | nil => exact within_one
  | cons ws os ih =>
    obtain ⟨hws, hos⟩ := List.forall_mem_cons.1 h
    rw [places, List.map_cons, List.sum_cons] at hsum ⊢
    refine Within.div ?_ (ih hos (by unfold places; omega)) hsum
    have hsum : (ws.map fun ts => (ts.map (tokenPlaces b)).sum).sum ≤ 1023 := by omega
    refine within_product (fun ts hts => ?_) hsum
    refine within_product (fun t ht => within_tokenScale (hws ts hts t ht)) ?_
    exact (List.single_le_sum (fun _ _ => Nat.zero_le _) _ (List.mem_map_of_mem hts)).trans hsum

end Bound

/-- What the scale of a text that is read is, and when it can be divided by. -/
structure ScaleLaw (s : String) (u : CompoundUnit) : Prop where
  checked : ∀ x ∈ numerals (operandTokens s.toList), Usable x
  scale_eq : u.scale = quotientScale (operandTokens s.toList)
  usable_iff : Usable u.scale ↔ InRange (operandTokens s.toList)
  usable_of_within : ∀ b : Float → ℕ,
    (∀ x ∈ numerals (operandTokens s.toList), Within (b x) x) →
    ((numerals (operandTokens s.toList)).map b).sum ≤ 1023 → Usable u.scale

theorem scaleLaw {s : String} {u : CompoundUnit} (h : parse s = .ok u) : ScaleLaw s u := by
  have hg : Grammatical (operandWords s.toList) := ((parse_reads s).isOk_iff.1 ⟨u, h⟩).1
  have heq : operandWords s.toList = operandTokens s.toList :=
    operandWords_eq fun o ho => ((grammatical_iff s.toList).1 hg o ho).2.2
  obtain ⟨hscale, hc⟩ := hasScale_parse s u h
  rw [heq] at hscale hc
  refine ⟨forall_mem_numerals.2 hc, hscale, ?_, fun b hb hsum => ?_⟩
  · rw [hscale, usable_quotientScale_iff]
  · rw [hscale]
    exact (within_quotientScale hb (places_eq b _ ▸ hsum)).usable

/-- Numerals of at most twelve places in each of three operands. -/
theorem scaleLaw_chain : ∃ u, parse "2.5 * 1e3 foot/ 4 8/0.5" = .ok u ∧
    ScaleLaw "2.5 * 1e3 foot/ 4 8/0.5" u ∧ Usable u.scale := by
  have hrun : ((parse "2.5 * 1e3 foot/ 4 8/0.5").map fun _ => ()).toOption = some () := by
    decide +kernel
  obtain ⟨u, hu, -, -⟩ := exists_reachable hrun
  have hnumerals : numerals (operandTokens "2.5 * 1e3 foot/ 4 8/0.5".toList) =
      [2.5, 1e3, 4.0, 8.0, 0.5] := by
    decide +kernel
  have hwithin : ∀ x ∈ [2.5, 1e3, 4.0, 8.0, 0.5],
      (2 : ℚ) ^ (-(12 : ℕ) : ℤ) ≤ |toRat x| ∧ |toRat x| ≤ 2 ^ ((12 : ℕ) : ℤ) := by
    decide +kernel
  refine ⟨u, hu, scaleLaw hu, (scaleLaw hu).usable_of_within (fun _ => 12) ?_ ?_⟩
  · rw [hnumerals]
    exact fun x hx => ⟨(hwithin x hx).1, (hwithin x hx).2⟩
  · rw [hnumerals]
    decide

/-- Two numerals that can be divided by, with a product that cannot. -/
theorem not_usable_product : ∃ u, parse "1e200 * 1e200" = .ok u ∧ u.scale.isFinite = false ∧
    ∃ v, parse "1e-200 * 1e-200" = .ok v ∧ (v.scale == 0.0) = true := by
  have hrun : ((parse "1e200 * 1e200").map fun u => u.scale.isFinite).toOption = some false := by
    decide +kernel
  obtain ⟨u, hu, -, hinf⟩ := exists_reachable hrun
  have hrun : ((parse "1e-200 * 1e-200").map fun v => v.scale == 0.0).toOption = some true := by
    decide +kernel
  obtain ⟨v, hv, -, hzero⟩ := exists_reachable hrun
  exact ⟨u, hu, hinf, v, hv, hzero⟩

end QuantityCalculus.CompoundUnit
