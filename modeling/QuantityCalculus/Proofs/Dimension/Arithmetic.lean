import QuantityCalculus.Proofs.Exponent.Arithmetic

/-! Arithmetic of dimensions is that of vectors of seven rational numbers. A checked operation has the
exact exponents if all of them are representable and is refused otherwise; the asserted operation
has the same outcome, with a fault in place of a refusal. No operation leads to an exponent that
cannot be negated, so that differences are exact and negations never fault. That sums can be undone,
that a scaling is undone by the reciprocal and that it distributes over sums are then facts about
rational numbers. -/

namespace QuantityCalculus.Dimension

variable {ε : Type} {d e g : Dimension} {x y : Exponent}

/-! ### Exact outcomes -/

/-- The outcome of an operation with exact results `f`: the exponents with the parts of these in
lowest terms if all of them are small enough, and otherwise a refusal of one as too large. -/
structure Exact (r : Except ExponentError Dimension) (f : BaseQuantity → ℚ) : Prop where
  ok : (∀ b, Representable (f b)) →
    ∃ g, r = .ok g ∧ ∀ b, (g.get b).num = (f b).num ∧ (g.get b).den = (f b).den
  overflow : (∃ b, ¬ Representable (f b)) → ∃ n d, r = .error (.overflow n d)

/-- A vector is refused because one of its exponents is. -/
theorem exists_error_of_tryOfFn {f : BaseQuantity → Except ε Exponent} {a : ε}
    (h : tryOfFn f = .error a) : ∃ b, f b = .error a := by
  by_contra hne
  push Not at hne
  have hok : ∀ (b : BaseQuantity) {k : Exponent → Except ε Dimension},
      (f b >>= k) = .error a → ∃ x, k x = .error a := by
    intro b k hk
    cases hb : f b with
    | error a' =>
      rw [hb] at hk
      cases hk
      exact absurd hb (hne b)
    | ok x =>
      rw [hb] at hk
      exact ⟨x, hk⟩
  obtain ⟨_, h⟩ := hok .length h
  obtain ⟨_, h⟩ := hok .mass h
  obtain ⟨_, h⟩ := hok .time h
  obtain ⟨_, h⟩ := hok .current h
  obtain ⟨_, h⟩ := hok .temperature h
  obtain ⟨_, h⟩ := hok .amount h
  obtain ⟨_, h⟩ := hok .luminosity h
  cases h

theorem exact_tryOfFn {r : BaseQuantity → Except ExponentError Exponent} {f : BaseQuantity → ℚ}
    (h : ∀ b, Exponent.Exact (r b) (f b)) : Exact (tryOfFn r) f where
  ok hf := by
    choose z hz hparts using fun b => (h b).ok (hf b)
    refine ⟨ofFn z, tryOfFn_eq_ok_iff.2 fun b => ?_, fun b => ?_⟩
    · rw [get_ofFn, hz]
    · rw [get_ofFn]
      exact hparts b
  overflow := by
    rintro ⟨b, hb⟩
    obtain ⟨n, d, hrefused⟩ := (h b).overflow hb
    cases hr : tryOfFn r with
    | ok g =>
      rw [tryOfFn_eq_ok_iff.1 hr b] at hrefused
      cases hrefused
    | error a =>
      obtain ⟨c, hc⟩ := exists_error_of_tryOfFn hr
      by_cases hf : Representable (f c)
      · obtain ⟨z, hz, -⟩ := (h c).ok hf
        rw [hz] at hc
        cases hc
      · obtain ⟨n, d, hrefused⟩ := (h c).overflow hf
        rw [hc] at hrefused
        cases hrefused
        exact ⟨n, d, rfl⟩

/-! ### Asserted operations -/

/-- The same outcome, with a fault in place of a refusal. -/
def asserted {α : Type} (r : Except ExponentError α) : Except Fault α := r.mapError .refused

theorem asserted_eq_ok_iff {α : Type} {r : Except ExponentError α} {a : α} :
    asserted r = .ok a ↔ r = .ok a := by
  cases r <;> simp [asserted, Except.mapError]

theorem asserted_bind {α β : Type} (r : Except ExponentError α) (f : α → Except ExponentError β) :
    asserted (r >>= f) = asserted r >>= fun a => asserted (f a) := by
  cases r <;> rfl

theorem asserted_reduce (n d : ℤ) :
    Exponent.Asserted.reduce n d = asserted (Exponent.reduce n d) := by
  unfold Exponent.Asserted.reduce
  cases Exponent.reduce n d <;> rfl

theorem asserted_exponent_sub (x y : Exponent) :
    Exponent.Asserted.sub x y = asserted (x.sub y) := by
  rw [Exponent.sub, asserted_bind, Exponent.neg, ← asserted_reduce]
  exact congrArg _ (funext fun z => asserted_reduce _ _)

theorem asserted_tryOfFn (f : BaseQuantity → Except ExponentError Exponent) :
    asserted (tryOfFn f) = tryOfFn fun b => asserted (f b) := by
  simp only [tryOfFn, asserted_bind]
  rfl

theorem asserted_add (d e : Dimension) : Asserted.add d e = asserted (d.add e) := by
  rw [add, asserted_tryOfFn]
  exact congrArg tryOfFn (funext fun b => asserted_reduce _ _)

theorem asserted_sub (d e : Dimension) : Asserted.sub d e = asserted (d.sub e) := by
  rw [sub, asserted_tryOfFn]
  exact congrArg tryOfFn (funext fun b => asserted_exponent_sub _ _)

theorem asserted_scale (d : Dimension) (x : Exponent) :
    Asserted.scale d x = asserted (d.scale x) := by
  rw [scale, asserted_tryOfFn]
  exact congrArg tryOfFn (funext fun b => asserted_reduce _ _)

/-! ### What operations lead to -/

/-- Dimensions that finitely many operations lead to, checked or asserted. -/
inductive Reachable : Dimension → Prop
  | dimensionless : Reachable dimensionless
  | of (b : BaseQuantity) : Reachable (of b)
  | ofIntegers (f : BaseQuantity → Int8) : Reachable (ofIntegers f)
  | add {d e g : Dimension} : Reachable d → Reachable e → d.add e = .ok g → Reachable g
  | sub {d e g : Dimension} : Reachable d → Reachable e → d.sub e = .ok g → Reachable g
  | scale {d g : Dimension} {x : Exponent} : Reachable d → d.scale x = .ok g → Reachable g
  | assertedAdd {d e g : Dimension} : Reachable d → Reachable e → Asserted.add d e = .ok g →
    Reachable g
  | assertedSub {d e g : Dimension} : Reachable d → Reachable e → Asserted.sub d e = .ok g →
    Reachable g
  | assertedScale {d g : Dimension} {x : Exponent} : Reachable d → Asserted.scale d x = .ok g →
    Reachable g
  | assertedNeg {d g : Dimension} : Reachable d → Asserted.neg d = .ok g → Reachable g

/-- All exponents can be negated. -/
def Negatable (d : Dimension) : Prop := ∀ b, Representable (d.get b).val

theorem Exact.negatable {f : BaseQuantity → ℚ} (h : Exact (.ok g) f) : Negatable g := by
  intro b
  have hf : ∀ c, Representable (f c) := by
    intro c
    by_contra hc
    obtain ⟨n, d, hrefused⟩ := h.overflow ⟨c, hc⟩
    cases hrefused
  obtain ⟨g', hg, hparts⟩ := h.ok hf
  cases hg
  exact Rat.ext (hparts b).1 (hparts b).2 ▸ hf b

theorem Negatable.num_ne (h : d.Negatable) (b : BaseQuantity) : (d.get b).num ≠ -2 ^ 63 :=
  (Exponent.representable_iff _).1 (h b)

theorem add_exact (d e : Dimension) :
    Exact (d.add e) fun b => (d.get b).val + (e.get b).val :=
  exact_tryOfFn fun _ => Exponent.add_exact _ _

theorem sub_exact (d : Dimension) (he : e.Negatable) :
    Exact (d.sub e) fun b => (d.get b).val - (e.get b).val :=
  exact_tryOfFn fun b => Exponent.sub_exact _ (he.num_ne b)

theorem scale_exact (d : Dimension) (x : Exponent) :
    Exact (d.scale x) fun b => (d.get b).val * x.val :=
  exact_tryOfFn fun _ => Exponent.mul_exact _ _

/-- An exponent of eight bits is far from the smallest numerator. -/
theorem representable_ofInt8 (n : Int8) : Representable (Exponent.ofInt64 n.toInt64).val := by
  have hlow := n.le_toInt
  have hhigh := n.toInt_lt
  have hnum : (Exponent.ofInt64 n.toInt64).num = n.toInt := Int8.toInt_toInt64 n
  rw [Exponent.representable_iff, hnum]
  omega

theorem Reachable.negatable (h : d.Reachable) : d.Negatable := by
  induction h with
  | dimensionless =>
    intro b
    rw [get_dimensionless]
    exact representable_zero
  | of c =>
    intro b
    rw [Dimension.of, get_ofFn]
    split_ifs
    · exact representable_one
    · exact representable_zero
  | ofIntegers f =>
    intro b
    rw [Dimension.ofIntegers, get_ofFn]
    exact representable_ofInt8 (f b)
  | add _ _ h => exact (h ▸ add_exact _ _ : Exact (.ok _) _).negatable
  | sub _ _ h _ he => exact (h ▸ sub_exact _ he : Exact (.ok _) _).negatable
  | scale _ h => exact (h ▸ scale_exact _ _ : Exact (.ok _) _).negatable
  | assertedAdd _ _ h =>
    have h := asserted_eq_ok_iff.1 (asserted_add _ _ ▸ h)
    exact (h ▸ add_exact _ _ : Exact (.ok _) _).negatable
  | assertedSub _ _ h _ he =>
    have h := asserted_eq_ok_iff.1 (asserted_sub _ _ ▸ h)
    exact (h ▸ sub_exact _ he : Exact (.ok _) _).negatable
  | assertedScale _ h | assertedNeg _ h =>
    have h := asserted_eq_ok_iff.1 ((asserted_scale _ _).symm.trans h)
    exact (h ▸ scale_exact _ _ : Exact (.ok _) _).negatable

/-- A negation never faults. -/
theorem Negatable.exists_neg (h : d.Negatable) :
    ∃ g, Asserted.neg d = .ok g ∧ ∀ b, (g.get b).val = -(d.get b).val := by
  have hneg : ∀ b, (d.get b).val * Exponent.negOne.val = -(d.get b).val := fun b => mul_neg_one _
  obtain ⟨g, hg⟩ := (scale_yields d Exponent.negOne).isOk_iff.2 fun b => by
    rw [hneg]
    exact (h b).neg
  refine ⟨g, ?_, fun b => ?_⟩
  · rw [Asserted.neg, asserted_scale, asserted_eq_ok_iff, hg]
  · rw [(scale_eq_ok_iff.1 hg b).2, hneg]

/-! ### Laws of vectors -/

/-- A sum is undone by a difference and a scaling by that with the reciprocal, and a scaling
distributes over a sum, wherever what is scaled and added can be formed. -/
structure VectorLaws (add sub : Dimension → Dimension → Except ε Dimension)
    (scale : Dimension → Exponent → Except ε Dimension) (d e : Dimension) (x : Exponent) :
    Prop where
  add_sub : ∀ s, add d e = .ok s → sub s e = .ok d
  scale_reciprocal : ∀ g y, scale d x = .ok g → Exponent.Asserted.div 1 x = .ok y →
    scale g y = .ok d
  scale_add : ∀ s g k, add d e = .ok s → scale d x = .ok g → scale e x = .ok k →
    ∀ t, scale s x = .ok t ↔ add g k = .ok t

theorem vectorLaws (hd : d.Negatable) (he : e.Negatable) (x : Exponent) :
    VectorLaws add sub scale d e x where
  add_sub s hs := by
    refine (sub_eq_ok_iff he).2 fun b => ?_
    rw [((add_eq_ok_iff.1 hs) b).2, add_sub_cancel_right]
    exact ⟨hd b, rfl⟩
  scale_reciprocal g y hg hy := by
    obtain ⟨hne, -, hval⟩ := Exponent.asserted_div_eq_ok_iff.1 hy
    refine scale_eq_ok_iff.2 fun b => ?_
    have hback : (g.get b).val * y.val = (d.get b).val := by
      rw [(scale_eq_ok_iff.1 hg b).2, hval, Exponent.one_val, one_div, mul_inv_cancel_right₀ hne]
    rw [hback]
    exact ⟨hd b, rfl⟩
  scale_add s g k hs hg hk t := by
    rw [scale_eq_ok_iff, add_eq_ok_iff]
    refine forall_congr' fun b => ?_
    rw [(add_eq_ok_iff.1 hs b).2, (scale_eq_ok_iff.1 hg b).2, (scale_eq_ok_iff.1 hk b).2, add_mul]

theorem asserted_vectorLaws (hd : d.Negatable) (he : e.Negatable) (x : Exponent) :
    VectorLaws Asserted.add Asserted.sub Asserted.scale d e x := by
  have h := vectorLaws hd he x
  constructor <;> simp only [asserted_add, asserted_sub, asserted_scale, asserted_eq_ok_iff]
  · exact h.add_sub
  · exact h.scale_reciprocal
  · exact h.scale_add

/-- What holds of two dimensions that were reached, and of any exponent. -/
structure ArithmeticLaw (d e : Dimension) (x : Exponent) : Prop where
  lowestTerms : ∀ b, 0 < (d.get b).den ∧ (d.get b).num.natAbs.Coprime (d.get b).den ∧
    (d.get b).num ≠ -2 ^ 63
  add : Exact (d.add e) fun b => (d.get b).val + (e.get b).val
  sub : Exact (d.sub e) fun b => (d.get b).val - (e.get b).val
  scale : Exact (d.scale x) fun b => (d.get b).val * x.val
  asserted_add : Asserted.add d e = asserted (d.add e)
  asserted_sub : Asserted.sub d e = asserted (d.sub e)
  asserted_scale : Asserted.scale d x = asserted (d.scale x)
  asserted_neg : ∃ g, Asserted.neg d = .ok g ∧ ∀ b, (g.get b).val = -(d.get b).val
  laws : VectorLaws Dimension.add Dimension.sub Dimension.scale d e x
  asserted_laws : VectorLaws Asserted.add Asserted.sub Asserted.scale d e x

theorem Reachable.arithmeticLaw (hd : d.Reachable) (he : e.Reachable) (x : Exponent) :
    ArithmeticLaw d e x where
  lowestTerms b := ⟨(d.get b).den_pos, (d.get b).val.reduced, hd.negatable.num_ne b⟩
  add := add_exact d e
  sub := sub_exact d he.negatable
  scale := scale_exact d x
  asserted_add := Dimension.asserted_add d e
  asserted_sub := Dimension.asserted_sub d e
  asserted_scale := Dimension.asserted_scale d x
  asserted_neg := hd.negatable.exists_neg
  laws := vectorLaws hd.negatable he.negatable x
  asserted_laws := asserted_vectorLaws hd.negatable he.negatable x

/-- The root of a length, and a mass over a time, by checked and by asserted operations. -/
theorem arithmeticLaw_root : ∃ d e : Dimension, d.Reachable ∧ e.Reachable ∧
    (d.get .length).val = 1 / 2 ∧ (e.get .time).val = -1 ∧ ArithmeticLaw d e .half := by
  have hrun : (((of .length).scale .half).map fun d => (d.get .length).val).toOption =
      some (1 / 2) := by
    decide +kernel
  obtain ⟨d, hd, hlength⟩ := map_eq_ok_iff.1 (toOption_eq_some_iff.1 hrun)
  have hrun : ((Asserted.sub (of .mass) (of .time)).map fun e => (e.get .time).val).toOption =
      some (-1) := by
    decide +kernel
  obtain ⟨e, he, htime⟩ := map_eq_ok_iff.1 (toOption_eq_some_iff.1 hrun)
  have hd := (Reachable.of .length).scale hd
  have he := (Reachable.of .mass).assertedSub (Reachable.of .time) he
  exact ⟨d, e, hd, he, hlength, htime, hd.arithmeticLaw he .half⟩

end QuantityCalculus.Dimension
