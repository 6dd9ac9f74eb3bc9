import QuantityCalculus.Error
import QuantityCalculus.Magnitude.Numeric

/-! Shapes of magnitudes. Two magnitudes clash if they are rows of different lengths; nothing else keeps
them from being combined, and what they combine to has the shape of a row among them, if there is
one. -/

namespace QuantityCalculus

section Lift

variable {α β : Type} {r : Except ShapeError α}

theorem liftShape_eq_ok_iff {a : α} : liftShape r = .ok a ↔ r = .ok a := by
  cases r <;> simp [liftShape]

theorem liftShape_map (r : Except ShapeError α) (f : α → β) :
    liftShape (r >>= fun a => pure (f a)) = liftShape r >>= fun a => pure (f a) := by
  cases r <;> rfl

end Lift

namespace Magnitude

variable {α β γ : Type} {m : Magnitude α} {n : Magnitude β}

theorem map_map (f : α → β) (g : β → γ) (m : Magnitude α) :
    (m.map f).map g = m.map fun v => g (f v) := by
  cases m with
  | scalar v => rfl
  | row vs => exact congrArg row List.map_map

theorem map_id (m : Magnitude α) : m.map id = m := by
  cases m with
  | scalar v => rfl
  | row vs => exact congrArg row (List.map_id vs)

theorem forall_mem_toList_map {p : β → Prop} {f : α → β} :
    (∀ b ∈ (m.map f).toList, p b) ↔ ∀ a ∈ m.toList, p (f a) := by
  cases m with
  | scalar x => simp [map, toList]
  | row xs => simp [map, toList]

theorem zipWith_scalar (f : α → β → γ) (m : Magnitude α) (y : β) :
    m.zipWith f (scalar y) = .ok (m.map fun x => f x y) := by
  cases m <;> rfl

theorem scalar_zipWith (f : α → β → γ) (x : α) (n : Magnitude β) :
    (scalar x).zipWith f n = .ok (n.map (f x)) := by
  cases n <;> rfl

/-- Both are rows, of different lengths. -/
def Clash (m : Magnitude α) (n : Magnitude β) : Prop :=
  ∃ k l, m.shape = some k ∧ n.shape = some l ∧ k ≠ l

theorem zipWith_of_clash (h : Clash m n) (f : α → β → γ) : ∃ e, m.zipWith f n = .error e := by
  obtain ⟨k, l, hk, hl, hne⟩ := h
  cases hz : m.zipWith f n with
  | error e => exact ⟨e, rfl⟩
  | ok r => exact absurd ((zipWith_isOk_iff f m n).1 ⟨r, hz⟩ k l hk hl) hne

theorem zipWith_of_not_clash (h : ¬ Clash m n) (f : α → β → γ) :
    ∃ r, m.zipWith f n = .ok r ∧ r.shape = commonShape m.shape n.shape := by
  obtain ⟨r, hr⟩ := (zipWith_isOk_iff f m n).2 fun k l hk hl =>
    Classical.byContradiction fun hne => h ⟨k, l, hk, hl, hne⟩
  exact ⟨r, hr, shape_zipWith hr⟩

/-- A clash is one of shapes. -/
theorem clash_congr {α' β' : Type} {m' : Magnitude α'} {n' : Magnitude β'}
    (hm : m'.shape = m.shape) (hn : n'.shape = n.shape) : Clash m' n' ↔ Clash m n := by
  rw [Clash, Clash, hm, hn]

theorem not_clash_of_zipWith {f : α → β → γ} {r : Magnitude γ} (h : m.zipWith f n = .ok r) :
    ¬ Clash m n := by
  intro hc
  obtain ⟨e, he⟩ := zipWith_of_clash hc f
  rw [h] at he
  cases he

theorem not_clash_of_shape_eq (h : m.shape = n.shape) : ¬ Clash m n := by
  rintro ⟨k, l, hk, hl, hne⟩
  rw [h, hl] at hk
  exact hne (Option.some.inj hk).symm

theorem not_clash_of_scalar (h : m.shape = none) : ¬ Clash m n := by
  rintro ⟨k, l, hk, -, -⟩
  rw [h] at hk
  cases hk

@[simp] theorem shape_abs (m : Magnitude Float) : m.abs.shape = m.shape := shape_map _ m

@[simp] theorem commonShape_self (shape : Option Nat) : commonShape shape shape = shape := by
  cases shape <;> rfl

/-- A single value takes the other shape, and a row keeps its own. -/
theorem eq_none_or_eq_commonShape (k l : Option Nat) : k = none ∨ k = commonShape k l := by
  cases k with
  | none => exact .inl rfl
  | some k => exact .inr rfl

end Magnitude

end QuantityCalculus
