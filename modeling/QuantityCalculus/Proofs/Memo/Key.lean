import QuantityCalculus.Memo
import QuantityCalculus.Proofs.CompoundUnit.RoundTrip
import QuantityCalculus.Proofs.Decimal.FloatText

/-! Keys of a memo. The text of a scale has no colon, so the last colon of a key ends the text of the
unit, even if that has colons of its own. Two readings with the same key have the same scale and,
apart from blanks around them, the same text, and so the same outcome. -/

namespace QuantityCalculus.Memo

open Text Decimal

variable {s t : String} {x y : Float}

theorem colon_notMem_floatChars (x : Float) : ':' ∉ floatChars x :=
  fun h => absurd (isFloatChar_of_mem _ h) (by decide)

/-- What is in front of the last colon, and what is behind it. -/
theorem append_colon_inj {as bs cs ds : List Char} (hb : ':' ∉ bs) (hd : ':' ∉ ds)
    (h : as ++ ':' :: bs = cs ++ ':' :: ds) : as = cs ∧ bs = ds := by
  have hends : ∀ {es fs gs : List Char}, ':' ∉ fs → ':' :: fs = es ++ ':' :: gs → es = [] := by
    intro es fs gs hf he
    cases es with
    | nil => rfl
    | cons e es =>
      rw [List.cons_append, List.cons.injEq] at he
      exact absurd (he.2 ▸ List.mem_append_right es List.mem_cons_self) hf
  rcases List.append_eq_append_iff.1 h with ⟨es, rfl, he⟩ | ⟨es, rfl, he⟩
  · obtain rfl := hends hb he
    exact ⟨(List.append_nil as).symm, (List.cons.inj he).2⟩
  · obtain rfl := hends hd he
    exact ⟨List.append_nil cs, (List.cons.inj he).2.symm⟩

theorem toList_key (s : String) (x : Float) :
    (key s x).toList = trim s.toList ++ ':' :: floatChars x := by
  rw [key, String.toList_append, String.toList_append, trimmed, floatText, String.toList_ofList,
    String.toList_ofList]
  simp

theorem key_inj (h : key s x = key t y) : trim s.toList = trim t.toList ∧ x = y := by
  have h := congrArg String.toList h
  rw [toList_key, toList_key] at h
  obtain ⟨hs, hx⟩ := append_colon_inj (colon_notMem_floatChars x) (colon_notMem_floatChars y) h
  exact ⟨hs, floatChars_injective hx⟩

/-- Blanks around a text make no difference. -/
theorem parseScaled_eq_of_trim_eq (h : trim s.toList = trim t.toList) (x : Float) :
    CompoundUnit.parseScaled s x = CompoundUnit.parseScaled t x := by
  have hexpression : CompoundUnit.parseExpression s.toList =
      CompoundUnit.parseExpression t.toList := by
    rw [← CompoundUnit.parseExpression_trim, h, CompoundUnit.parseExpression_trim]
  rw [CompoundUnit.parseScaled, CompoundUnit.parseScaled, hexpression, trimmed, trimmed, h]

/-- The key of a reading determines its outcome. -/
theorem parseScaled_eq_of_key_eq (h : key s x = key t y) :
    CompoundUnit.parseScaled s x = CompoundUnit.parseScaled t y := by
  obtain ⟨hs, rfl⟩ := key_inj h
  exact parseScaled_eq_of_trim_eq hs x

end QuantityCalculus.Memo
