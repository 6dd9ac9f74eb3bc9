import QuantityCalculus.Proofs.CompoundUnit.Signs

/-! Quotients read back. A text with one slash is read as the unit in front of the slash divided by the
one behind it. Dividing by the opposites of powers puts these powers behind the others. -/

namespace QuantityCalculus.CompoundUnit

open Powers Text

variable {cs num den : List Char} {x : Float} {ps qs : Powers}

/-! ### Cutting at the slash -/

theorem isSlash_of_isBlank (b : Char) (h : isBlank b = true) : isSlash b = false := by
  by_contra hs
  rw [Bool.not_eq_false, isSlash, beq_iff_eq] at hs
  rw [hs] at h
  cases h

theorem map_trim_slashes (cs : List Char) :
    (segments isSlash (trim cs)).map trim = (segments isSlash cs).map trim :=
  map_trim_segments_trim isSlash_of_isBlank cs

theorem parseExpression_operand (h : Closed isSlash cs) (hne : trim cs ≠ []) :
    parseExpression cs = parseOperand (trim cs) := by
  have hmap := map_trim_slashes cs
  rw [h.whole, List.map_singleton] at hmap
  obtain ⟨p, hp, ht⟩ := List.map_eq_singleton_iff.1 hmap
  have hempty : (trim cs).isEmpty = false := by simpa using hne
  rw [parseExpression, hp, parseQuotient, ht, hempty]
  rfl

theorem parseExpression_quotient (hn : Closed isSlash num) (hd : Closed isSlash den)
    (hne : trim num ≠ []) (hde : trim den ≠ []) :
    parseExpression (num ++ ' ' :: '/' :: ' ' :: den) =
      parseOperand (trim num) >>= fun u => parseOperand (trim den) >>= fun v =>
        liftExponent .badExponent (u.divide v) := by
  have hblank : Closed isSlash [' '] := closed_blank rfl
  have hcut : segments isSlash (num ++ ' ' :: '/' :: ' ' :: den) = [num ++ [' '], ' ' :: den] := by
    have happ : num ++ ' ' :: '/' :: ' ' :: den = (num ++ [' ']) ++ '/' :: ([' '] ++ den) := by simp
    rw [happ, (hn.append hblank).segments_append rfl, (hblank.append hd).whole]
    rfl
  have hmap := map_trim_slashes (num ++ ' ' :: '/' :: ' ' :: den)
  rw [hcut, List.map_cons, List.map_singleton, trim_concat rfl, trim_cons rfl] at hmap
  obtain ⟨p, qs, hp, htp, hqs⟩ := List.map_eq_cons_iff.1 hmap
  obtain ⟨q, rfl, htq⟩ := List.map_eq_singleton_iff.1 hqs
  have hfirst : (trim num).isEmpty = false := by simpa using hne
  have hlast : (trim den).isEmpty = false := by simpa using hde
  rw [parseExpression, hp]
  simp only [parseQuotient, List.intercalate_singleton, htp, htq, hfirst, hlast]
  rfl

/-! ### Dividing -/

/-- Dividing by the opposites of further names puts these names behind the others. -/
theorem divide_build {d e : Dimension} (hp : ∀ q ∈ ps, q.2 ≠ 0) (hq : ∀ q ∈ qs, q.2 ≠ 0)
    (hr : ∀ q ∈ qs, Representable q.2.val) (hn : (names (ps ++ qs)).Nodup) (hd : Measures ps d)
    (he : Measures (qs.map opposite) e)
    (hs : ∀ b, Representable (weigh (Table.exponentOf b) qs))
    (hfit : ∀ b, Representable (weigh (Table.exponentOf b) (ps ++ qs))) :
    ∃ g, (build ps x d).divide (build (qs.map opposite) 1.0 e) = .ok (build (ps ++ qs) x g) ∧
      Measures (ps ++ qs) g := by
  have hval : ∀ b, (e.get b).val = -weigh (Table.exponentOf b) qs := fun b =>
    (he b).trans (weigh_map_opposite _ hr)
  have hsum : ∀ b, (d.get b).val - (e.get b).val = weigh (Table.exponentOf b) (ps ++ qs) := by
    intro b
    rw [hd b, hval b, sub_neg_eq_add, weigh_append]
  have hsub := Dimension.sub_yields d fun b => (hval b).symm ▸ (hs b).neg
  obtain ⟨g, hg⟩ := hsub.isOk_iff.2 fun b => (hsum b).symm ▸ hfit b
  have hopposite : ∀ r ∈ qs.map opposite, r.2 ≠ 0 :=
    List.forall_mem_map.2 fun q hmem => opposite_ne_zero (hr q hmem) (hq q hmem)
  refine ⟨g, divide_eq_ok_iff.2 ⟨ps ++ qs, g, ?_, hg, ?_⟩, fun b => ?_⟩
  · show mergeAllNeg ps.dropZeros (dropZeros (qs.map opposite)) = _
    rw [dropZeros_eq_self hp, dropZeros_eq_self hopposite]
    exact mergeAllNeg_opposite hr hn
  · show _ = build (ps ++ qs) (x / 1.0) g
    rw [Binary64.div_one]
  · rw [← hsum b]
    exact ((hsub g).1 hg b).2

end QuantityCalculus.CompoundUnit
