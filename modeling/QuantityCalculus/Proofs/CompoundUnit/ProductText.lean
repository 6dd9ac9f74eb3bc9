import QuantityCalculus.Proofs.Binary64.One
import QuantityCalculus.Proofs.CompoundUnit.FactorText

/-! Products read back. The text of a product is cut into the texts of its factors. Reading it
multiplies the factors from the left, and since their names are distinct this puts the components
behind each other, as long as every dimension on the way is representable. -/

namespace QuantityCalculus.CompoundUnit

open Powers Text Decimal

variable {t : List Char} {ts : List (List Char)}

/-! ### Cutting a product -/

theorem product_cons_cons (t s : List Char) (ts : List (List Char)) :
    product (t :: s :: ts) = (t ++ [' ']) ++ '*' :: ' ' :: product (s :: ts) := by
  simp [product, List.intercalate_cons_cons]

theorem product_singleton (t : List Char) : product [t] = t :=
  List.intercalate_singleton

theorem closed_blank {sep : Char → Bool} (h : sep ' ' = false) : Closed sep [' '] :=
  closed_of_forall (by simpa using h) (by simp)

theorem separates_isStar : separates isStar 0 '*' = true := by decide

theorem splitTopLevel_product (h : ∀ t ∈ ts, IsFactor t) (hne : ts ≠ []) :
    splitTopLevel isStar (product ts) = ts := by
  induction ts with
  | nil => exact absurd rfl hne
  | cons t ts ih =>
    have ht := h t List.mem_cons_self
    have hc := ht.closed isStar separator_isStar
    cases ts with
    | nil =>
      rw [product_singleton, hc.splitTopLevel (ht.trim_eq.symm ▸ ht.nonempty), ht.trim_eq]
    | cons s ts =>
      have hsplit := ih (fun t ht => h t (List.mem_cons_of_mem _ ht)) (List.cons_ne_nil s ts)
      have htrim : trim (t ++ [' ']) = t := by
        rw [trim_concat rfl, ht.trim_eq]
      have hfirst : splitTopLevel isStar (t ++ [' ']) = [t] := by
        rw [(hc.append (closed_blank rfl)).splitTopLevel (htrim.symm ▸ ht.nonempty), htrim]
      have hrest : splitTopLevel isStar (' ' :: product (s :: ts)) = s :: ts := by
        rw [← splitTopLevel_trim, trim_cons rfl, splitTopLevel_trim, hsplit]
      rw [product_cons_cons, (hc.append (closed_blank rfl)).splitTopLevel_append separates_isStar,
        hfirst, hrest]
      rfl

theorem closed_product (h : ∀ t ∈ ts, IsFactor t) : Closed isSlash (product ts) := by
  induction ts with
  | nil => exact closed_of_forall (by simp [product]) (by simp [product])
  | cons t ts ih =>
    have hc := (h t List.mem_cons_self).closed isSlash separator_isSlash
    have hrest := ih fun t ht => h t (List.mem_cons_of_mem _ ht)
    cases ts with
    | nil => rwa [product_singleton]
    | cons s ts =>
      have hstar : Closed isSlash ['*', ' '] := by
        refine closed_of_forall ?_ ?_ <;> simp [isSlash]
      rw [product_cons_cons]
      exact (hc.append (closed_blank rfl)).append (hstar.append hrest)

theorem trim_product_ne_nil (h : ∀ t ∈ ts, IsFactor t) (hne : ts ≠ []) :
    trim (product ts) ≠ [] := by
  intro hnil
  apply hne
  rw [← splitTopLevel_product h hne, ← splitTopLevel_trim, hnil]
  rfl

/-! ### Reading a product -/

theorem parseWord_of_isFactor (h : IsFactor t) : parseWord t = parseToken t := by
  rw [parseWord, if_neg]
  simp [(h.closed isBlank separator_isBlank).not_hasTopLevel]

theorem parseProduct_congr {f g : List Char → Except Error CompoundUnit}
    (h : ∀ t ∈ ts, f t = g t) : parseProduct f ts = parseProduct g ts := by
  unfold parseProduct
  generalize dimensionless = u
  induction ts generalizing u with
  | nil => rfl
  | cons t ts ih =>
    rw [List.foldlM_cons, List.foldlM_cons, h t List.mem_cons_self]
    congr 1
    funext v
    exact ih (fun s hs => h s (List.mem_cons_of_mem t hs)) v

/-- A single factor is read as it stands, and several ones are multiplied. -/
theorem parseOperand_product (h : ∀ t ∈ ts, IsFactor t) (hne : ts ≠ []) :
    (∃ t, ts = [t] ∧ parseOperand (trim (product ts)) = parseToken t) ∨
      parseOperand (trim (product ts)) = parseProduct parseToken ts := by
  have hsplit : splitTopLevel isStar (trim (product ts)) = ts := by
    rw [splitTopLevel_trim, splitTopLevel_product h hne]
  by_cases hstar : hasTopLevel isStar (trim (product ts)) = true
  · right
    rw [parseOperand, if_pos hstar, hsplit,
      ← parseProduct_congr fun t ht => parseWord_of_isFactor (h t ht)]
    split
    · exact absurd rfl hne
    · rfl
  · left
    rw [splitTopLevel_of_not_hasTopLevel (by simpa using hstar) (trim_trim _)
      (trim_product_ne_nil h hne)] at hsplit
    have hfactor : ∀ t ∈ [trim (product ts)], IsFactor t := fun t ht => h t (hsplit ▸ ht)
    refine ⟨trim (product ts), hsplit.symm, ?_⟩
    rw [parseOperand, if_neg hstar]
    exact parseWord_of_isFactor (hfactor _ (List.mem_singleton_self _))

/-! ### Multiplying factors -/

section Factors

variable {ps qs : Powers} {x : Float} {d e : Dimension}

/-- Multiplying by one further name puts it behind the others. -/
theorem multiply_build {q : String × Exponent} (hp : ∀ r ∈ ps, r.2 ≠ 0) (hq : q.2 ≠ 0)
    (hn : q.1 ∉ names ps) (hd : Measures ps d) (he : Measures [q] e)
    (hfit : ∀ b, Representable (weigh (Table.exponentOf b) (ps ++ [q]))) :
    ∃ g, (build ps x d).multiply (build [q] 1.0 e) = .ok (build (ps ++ [q]) x g) ∧
      Measures (ps ++ [q]) g := by
  have hsum : ∀ b, (d.get b).val + (e.get b).val = weigh (Table.exponentOf b) (ps ++ [q]) := by
    intro b
    rw [hd b, he b, weigh_append]
  obtain ⟨g, hg⟩ := (Dimension.add_yields d e).isOk_iff.2 fun b => (hsum b).symm ▸ hfit b
  refine ⟨g, ?_, fun b => ?_⟩
  · have hmerge : mergeAll (build ps x d).components (build [q] 1.0 e).components =
        .ok (ps ++ [q]) := by
      show mergeAll ps.dropZeros (dropZeros [q]) = _
      rw [dropZeros_eq_self hp, dropZeros_eq_self (by simpa using hq)]
      show (Powers.merge ps q.1 q.2 >>= fun acc => pure acc) = _
      rw [merge_of_notMem hn]
      rfl
    refine multiply_eq_ok_iff.2 ⟨ps ++ [q], g, hmerge, hg, ?_⟩
    show _ = build (ps ++ [q]) (x * 1.0) g
    rw [Binary64.mul_one]
  · rw [← hsum b]
    exact (Dimension.add_eq_ok_iff.1 hg b).2

theorem foldlM_factors (text : String × Exponent → List Char)
    (hd : Measures ps d) (hn : (names (ps ++ qs)).Nodup) (hz : ∀ q ∈ ps ++ qs, q.2 ≠ 0)
    (hparse : ∀ q ∈ qs, ∃ e, parseToken (text q) = .ok (build [q] 1.0 e) ∧ Measures [q] e)
    (hfit : ∀ rs, rs <+: qs → ∀ b, Representable (weigh (Table.exponentOf b) (ps ++ rs))) :
    ∃ e, (qs.map text).foldlM (fun acc piece => do
        liftExponent Error.badExponent (acc.multiply (← parseToken piece))) (build ps x d) =
      .ok (build (ps ++ qs) x e) ∧ Measures (ps ++ qs) e := by
  induction qs generalizing ps d with
  | nil =>
    rw [List.append_nil]
    exact ⟨d, rfl, hd⟩
  | cons q qs ih =>
    have happ : ps ++ q :: qs = ps ++ [q] ++ qs := by simp
    obtain ⟨e, hq, he⟩ := hparse q List.mem_cons_self
    have hname := notMem_names_of_nodup hn
    obtain ⟨g, hg, hm⟩ := multiply_build (fun r hr => hz r (List.mem_append_left _ hr))
      (hz q (by simp)) hname hd he (hfit [q] (by simp))
    rw [happ] at hn hz ⊢
    obtain ⟨f, hf, hmf⟩ := ih hm hn hz (fun r hr => hparse r (List.mem_cons_of_mem q hr))
      fun rs hrs b => by
        have := hfit (q :: rs) ((List.prefix_cons_inj q).2 hrs) b
        simpa using this
    refine ⟨f, ?_, hmf⟩
    rw [List.map_cons, List.foldlM_cons, hq]
    show (liftExponent Error.badExponent ((build ps x d).multiply (build [q] 1.0 e)) >>= _) = _
    rw [hg]
    exact hf

end Factors

end QuantityCalculus.CompoundUnit
