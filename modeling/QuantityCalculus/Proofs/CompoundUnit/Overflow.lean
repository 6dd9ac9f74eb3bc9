import QuantityCalculus.Proofs.CompoundUnit.MergeAll
import QuantityCalculus.CompoundUnit.Basic

/-! Why the algebra of units fails. A product, a quotient or a power of units can fail in one way only:
an exponent of a name or of a base quantity is too large. Each step of the computation has this
property, and computing one after the other keeps it. -/

namespace QuantityCalculus

/-- A computation whose failures all have a cause of one kind. -/
def FailsOnly {ε α : Type} (cause : ε → Prop) (r : Except ε α) : Prop :=
  ∀ e, r = .error e → cause e

section Causes

variable {ε α β : Type} {cause : ε → Prop} {r : Except ε α}

theorem failsOnly_ok (a : α) : FailsOnly cause (.ok a : Except ε α) := fun _ h => by cases h

theorem FailsOnly.bind {f : α → Except ε β} (h : FailsOnly cause r)
    (hf : ∀ a, r = .ok a → FailsOnly cause (f a)) : FailsOnly cause (r >>= f) := by
  cases r with
  | error e => exact fun e' he => by cases he; exact h e rfl
  | ok a => exact hf a rfl

theorem failsOnly_foldlM {step : β → α → Except ε β} {as : List α}
    (h : ∀ a ∈ as, ∀ b, FailsOnly cause (step b a)) (b : β) :
    FailsOnly cause (as.foldlM step b) := by
  induction as generalizing b with
  | nil => exact failsOnly_ok b
  | cons a as ih =>
    obtain ⟨ha, has⟩ := List.forall_mem_cons.1 h
    rw [List.foldlM_cons]
    exact (ha b).bind fun c _ => ih has c

end Causes

/-- A computation that can fail only because an exponent is too large. -/
def FailsByOverflow {α : Type} (r : Except ExponentError α) : Prop :=
  ∀ e, r = .error e → ∃ n d, e = .overflow n d

section Computations

variable {α β : Type} {r : Except ExponentError α}

theorem failsByOverflow_ok (a : α) : FailsByOverflow (.ok a) := failsOnly_ok a

theorem FailsByOverflow.bind {f : α → Except ExponentError β} (h : FailsByOverflow r)
    (hf : ∀ a, FailsByOverflow (f a)) : FailsByOverflow (r >>= f) :=
  FailsOnly.bind h fun a _ => hf a

theorem FailsByOverflow.map {f : α → β} (h : FailsByOverflow r) : FailsByOverflow (r.map f) := by
  cases r with
  | error e => exact fun e' he => by cases he; exact h e rfl
  | ok a => exact failsByOverflow_ok (f a)

theorem failsByOverflow_foldlM {step : β → α → Except ExponentError β}
    (h : ∀ b a, FailsByOverflow (step b a)) (as : List α) (b : β) :
    FailsByOverflow (as.foldlM step b) :=
  failsOnly_foldlM (fun a _ b => h b a) b

/-- An exponent that is too large while a unit is built. -/
def IsOverflow (e : Error) : Prop := ∃ n d, e = .badExponent (.overflow n d)

theorem FailsByOverflow.lift (h : FailsByOverflow r) :
    FailsOnly IsOverflow (liftExponent .badExponent r) := by
  intro e he
  cases r with
  | error c =>
    cases he
    obtain ⟨n, d, rfl⟩ := h c rfl
    exact ⟨n, d, rfl⟩
  | ok a => cases he

end Computations

namespace Exponent

theorem reduce_failsByOverflow (n d : ℤ) : FailsByOverflow (reduce n d) := by
  intro e he
  unfold reduce at he
  split at he
  · cases he
  · cases he
    exact ⟨n, d, rfl⟩

theorem neg_failsByOverflow (x : Exponent) : FailsByOverflow x.neg := reduce_failsByOverflow _ _

theorem add_failsByOverflow (x y : Exponent) : FailsByOverflow (x.add y) :=
  reduce_failsByOverflow _ _

theorem mul_failsByOverflow (x y : Exponent) : FailsByOverflow (x.mul y) :=
  reduce_failsByOverflow _ _

theorem sub_failsByOverflow (x y : Exponent) : FailsByOverflow (x.sub y) :=
  (neg_failsByOverflow y).bind (add_failsByOverflow x)

end Exponent

namespace Powers

theorem merge_failsByOverflow (ps : Powers) (name : String) (x : Exponent) :
    FailsByOverflow (ps.merge name x) := by
  induction ps with
  | nil => exact failsByOverflow_ok _
  | cons q ps ih =>
    unfold merge
    split
    · exact (Exponent.add_failsByOverflow _ _).bind fun _ => failsByOverflow_ok _
    · exact ih.bind fun _ => failsByOverflow_ok _

theorem mergeAll_failsByOverflow (ps qs : Powers) : FailsByOverflow (ps.mergeAll qs) :=
  failsByOverflow_foldlM (fun _ _ => merge_failsByOverflow _ _ _) qs ps

theorem mergeAllNeg_failsByOverflow (ps qs : Powers) : FailsByOverflow (ps.mergeAllNeg qs) :=
  failsByOverflow_foldlM (fun _ _ => (Exponent.neg_failsByOverflow _).bind fun _ =>
    merge_failsByOverflow _ _ _) qs ps

theorem scale_failsByOverflow (ps : Powers) (x : Exponent) : FailsByOverflow (ps.scale x) := by
  induction ps with
  | nil => exact failsByOverflow_ok _
  | cons q ps ih =>
    rw [scale_cons]
    exact (Exponent.mul_failsByOverflow _ _).bind fun _ => ih.map

end Powers

namespace Dimension

theorem tryOfFn_failsByOverflow {f : BaseQuantity → Except ExponentError Exponent}
    (h : ∀ b, FailsByOverflow (f b)) : FailsByOverflow (tryOfFn f) :=
  (h .length).bind fun _ => (h .mass).bind fun _ => (h .time).bind fun _ =>
    (h .current).bind fun _ => (h .temperature).bind fun _ => (h .amount).bind fun _ =>
      (h .luminosity).bind fun _ => failsByOverflow_ok _

theorem add_failsByOverflow (d e : Dimension) : FailsByOverflow (d.add e) :=
  tryOfFn_failsByOverflow fun _ => Exponent.add_failsByOverflow _ _

theorem sub_failsByOverflow (d e : Dimension) : FailsByOverflow (d.sub e) :=
  tryOfFn_failsByOverflow fun _ => Exponent.sub_failsByOverflow _ _

theorem scale_failsByOverflow (d : Dimension) (x : Exponent) : FailsByOverflow (d.scale x) :=
  tryOfFn_failsByOverflow fun _ => Exponent.mul_failsByOverflow _ _

end Dimension

namespace CompoundUnit

theorem multiply_failsByOverflow (u v : CompoundUnit) : FailsByOverflow (u.multiply v) :=
  (Powers.mergeAll_failsByOverflow _ _).bind fun _ =>
    (Dimension.add_failsByOverflow _ _).bind fun _ => failsByOverflow_ok _

theorem divide_failsByOverflow (u v : CompoundUnit) : FailsByOverflow (u.divide v) :=
  (Powers.mergeAllNeg_failsByOverflow _ _).bind fun _ =>
    (Dimension.sub_failsByOverflow _ _).bind fun _ => failsByOverflow_ok _

theorem power_failsByOverflow (u : CompoundUnit) (x : Exponent) : FailsByOverflow (u.power x) :=
  (Powers.scale_failsByOverflow _ _).bind fun _ =>
    (Dimension.scale_failsByOverflow _ _).bind fun _ => failsByOverflow_ok _

end CompoundUnit

end QuantityCalculus
