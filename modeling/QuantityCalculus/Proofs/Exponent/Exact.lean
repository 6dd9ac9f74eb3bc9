import Mathlib.Data.Rat.Lemmas
import Mathlib.Tactic.Ring
import QuantityCalculus.Dimension.Asserted

/-! Checked arithmetic is exact. A checked operation on exponents has one rational result; it
succeeds exactly if that rational is representable, and then yields it. The same holds of
dimensions, one base quantity at a time. Exponents that are representable can be negated, so a
difference is exact for them as well. -/

namespace QuantityCalculus

theorem bind_eq_ok_iff {ε α β : Type} {r : Except ε α} {f : α → Except ε β} {b : β} :
    (r >>= f) = .ok b ↔ ∃ a, r = .ok a ∧ f a = .ok b := by
  cases r <;> simp [bind, Except.bind]

theorem map_eq_ok_iff {ε α β : Type} {r : Except ε α} {f : α → β} {b : β} :
    r.map f = .ok b ↔ ∃ a, r = .ok a ∧ f a = b := by
  cases r <;> simp [Except.map]

theorem toOption_eq_some_iff {ε α : Type} {r : Except ε α} {a : α} :
    r.toOption = some a ↔ r = .ok a := by
  cases r <;> simp [Except.toOption]

theorem representable_zero : Representable 0 := by decide

theorem representable_one : Representable 1 := by decide

theorem representable_neg_iff {q : ℚ} : Representable (-q) ↔ Representable q := by
  simp only [Representable, Rat.neg_num, Rat.neg_den, Int.natAbs_neg]

theorem Representable.neg {q : ℚ} (h : Representable q) : Representable (-q) :=
  representable_neg_iff.2 h

/-- Only the smallest 64-bit numerator fits without being representable. -/
theorem representable_iff_of_fits {q : ℚ} (h : Fits q) : Representable q ↔ q.num ≠ -2 ^ 63 := by
  obtain ⟨hl, hu, hd⟩ := h
  constructor
  · rintro ⟨hn, -⟩ he
    omega
  · intro hn
    exact ⟨by omega, hd⟩

namespace Exponent

variable {ε : Type}

/-- The outcome of a checked operation whose exact result is `q`. -/
def Yields (r : Except ε Exponent) (q : ℚ) : Prop :=
  ∀ z, r = .ok z ↔ Representable q ∧ z.val = q

theorem Yields.isOk_iff {r : Except ε Exponent} {q : ℚ} (h : Yields r q) :
    (∃ z, r = .ok z) ↔ Representable q := by
  constructor
  · rintro ⟨z, hz⟩
    exact ((h z).1 hz).1
  · intro hq
    exact ⟨⟨q, hq.fits⟩, (h _).2 ⟨hq, rfl⟩⟩

theorem add_yields (x y : Exponent) : Yields (x.add y) (x.val + y.val) :=
  fun _ => add_eq_ok_iff

theorem mul_yields (x y : Exponent) : Yields (x.mul y) (x.val * y.val) :=
  fun _ => mul_eq_ok_iff

/-- The negation of a representable exponent. -/
theorem exists_neg {x : Exponent} (h : Representable x.val) : ∃ y, x.neg = .ok y ∧ y.val = -x.val :=
  ⟨⟨-x.val, h.neg.fits⟩, neg_eq_ok_iff.2 ⟨h.neg, rfl⟩, rfl⟩

theorem sub_yields (x : Exponent) {y : Exponent} (h : Representable y.val) :
    Yields (x.sub y) (x.val - y.val) := by
  intro z
  obtain ⟨w, hw, hv⟩ := exists_neg h
  have hs : x.sub y = x.add w := by simp only [sub, hw, bind, Except.bind]
  rw [hs, add_eq_ok_iff, hv, ← sub_eq_add_neg]

/-- The asserted negation agrees with the checked one. -/
theorem asserted_neg_eq_ok_iff {x y : Exponent} : Asserted.neg x = .ok y ↔ x.neg = .ok y := by
  simp only [Asserted.neg, Asserted.reduce, neg]
  split <;> simp_all

end Exponent

namespace Dimension

variable {ε : Type}

/-- The outcome of a checked operation whose exact results are `f`. -/
def Yields (r : Except ε Dimension) (f : BaseQuantity → ℚ) : Prop :=
  ∀ d, r = .ok d ↔ ∀ b, Representable (f b) ∧ (d.get b).val = f b

theorem Yields.isOk_iff {r : Except ε Dimension} {f : BaseQuantity → ℚ} (h : Yields r f) :
    (∃ d, r = .ok d) ↔ ∀ b, Representable (f b) := by
  constructor
  · rintro ⟨d, hd⟩ b
    exact ((h d).1 hd b).1
  · intro hf
    refine ⟨ofFn fun b => ⟨f b, (hf b).fits⟩, (h _).2 fun b => ⟨hf b, ?_⟩⟩
    rw [get_ofFn]

theorem tryOfFn_yields {g : BaseQuantity → Except ε Exponent} {f : BaseQuantity → ℚ}
    (h : ∀ b, Exponent.Yields (g b) (f b)) : Yields (tryOfFn g) f := by
  intro d
  rw [tryOfFn_eq_ok_iff]
  exact forall_congr' fun b => h b (d.get b)

theorem add_yields (d e : Dimension) :
    Yields (d.add e) fun b => (d.get b).val + (e.get b).val :=
  tryOfFn_yields fun _ => Exponent.add_yields _ _

theorem sub_yields (d : Dimension) {e : Dimension} (h : ∀ b, Representable (e.get b).val) :
    Yields (d.sub e) fun b => (d.get b).val - (e.get b).val :=
  tryOfFn_yields fun b => Exponent.sub_yields _ (h b)

theorem scale_yields (d : Dimension) (x : Exponent) :
    Yields (d.scale x) fun b => (d.get b).val * x.val :=
  tryOfFn_yields fun _ => Exponent.mul_yields _ _

theorem add_eq_ok_iff {d e g : Dimension} : d.add e = .ok g ↔
    ∀ b, Representable ((d.get b).val + (e.get b).val) ∧
      (g.get b).val = (d.get b).val + (e.get b).val :=
  add_yields d e g

theorem sub_eq_ok_iff {d e g : Dimension} (h : ∀ b, Representable (e.get b).val) :
    d.sub e = .ok g ↔ ∀ b, Representable ((d.get b).val - (e.get b).val) ∧
      (g.get b).val = (d.get b).val - (e.get b).val :=
  sub_yields d h g

theorem scale_eq_ok_iff {d e : Dimension} {x : Exponent} : d.scale x = .ok e ↔
    ∀ b, Representable ((d.get b).val * x.val) ∧ (e.get b).val = (d.get b).val * x.val :=
  scale_yields d x e

@[simp] theorem get_dimensionless (b : BaseQuantity) : dimensionless.get b = 0 :=
  get_ofFn _ b

theorem isDimensionless_iff {d : Dimension} : d.isDimensionless = true ↔ ∀ b, (d.get b).val = 0 := by
  simp only [isDimensionless, List.all_eq_true, beq_iff_eq]
  constructor
  · intro h b
    rw [h b (BaseQuantity.mem_all b)]
    rfl
  · intro h b _
    exact Exponent.ext (h b)

end Dimension

end QuantityCalculus
