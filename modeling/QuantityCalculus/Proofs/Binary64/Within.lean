import QuantityCalculus.Binary64.Basic
import QuantityCalculus.Proofs.Binary64.Special

/-! Products, quotients and powers of numbers that are not far from one. Rounding crosses no power of
two, so the places that numbers are away from one add up, until there are no powers of two left. A
product can be divided by only if every product before it can. -/

namespace QuantityCalculus.Binary64

variable {x y : Float} {j k : ℕ}

/-- A number of at most `k` binary places on either side of one. -/
structure Within (k : ℕ) (x : Float) : Prop where
  ge : (2 : ℚ) ^ (-k : ℤ) ≤ |toRat x|
  le : |toRat x| ≤ 2 ^ (k : ℤ)

instance (k : ℕ) (x : Float) : Decidable (Within k x) :=
  decidable_of_iff ((2 : ℚ) ^ (-k : ℤ) ≤ |toRat x| ∧ |toRat x| ≤ 2 ^ (k : ℤ))
    ⟨fun ⟨hge, hle⟩ => ⟨hge, hle⟩, fun ⟨hge, hle⟩ => ⟨hge, hle⟩⟩

theorem Within.usable (h : Within k x) : Usable x := by
  have hpos : (0 : ℚ) < 2 ^ (-k : ℤ) := by positivity
  exact usable_iff.2 (abs_pos.1 (hpos.trans_le h.ge))

theorem Within.mono (h : Within j x) (hjk : j ≤ k) : Within k x where
  ge := (zpow_le_zpow_right₀ one_le_two (by omega)).trans h.ge
  le := h.le.trans (zpow_le_zpow_right₀ one_le_two (by omega))

theorem within_one : Within 0 1.0 := by
  constructor <;> rw [toRat_one] <;> norm_num

/-- A rational within `k` places of one is rounded to such a number. -/
theorem Rounds.within {v : ℚ} (h : Rounds x v) (hk : k ≤ 1023) (hge : (2 : ℚ) ^ (-k : ℤ) ≤ |v|)
    (hle : |v| ≤ 2 ^ (k : ℤ)) : Within k x := by
  obtain ⟨hfinite, hle⟩ := h.le_two_pow (by omega) (by omega) hle
  exact ⟨h.two_pow_le hfinite (by omega) hge, hle⟩

theorem Within.mul (hx : Within j x) (hy : Within k y) (h : j + k ≤ 1023) :
    Within (j + k) (x * y) := by
  refine (rounds_mul hx.usable.1 hy.usable.1).within h ?_ ?_
  · rw [abs_mul, Nat.cast_add, neg_add, zpow_add₀ two_ne_zero]
    exact mul_le_mul hx.ge hy.ge (by positivity) (by positivity)
  · rw [abs_mul, Nat.cast_add, zpow_add₀ two_ne_zero]
    exact mul_le_mul hx.le hy.le (by positivity) (by positivity)

theorem Within.div (hx : Within j x) (hy : Within k y) (h : j + k ≤ 1023) :
    Within (j + k) (x / y) := by
  have hne := usable_iff.1 hy.usable
  have hpos := abs_pos.2 hne
  refine (rounds_div hx.usable.1 hy.usable.1 hne).within h ?_ ?_
  · rw [abs_div, Nat.cast_add, neg_add, zpow_add₀ two_ne_zero, zpow_neg _ (k : ℤ), ← div_eq_mul_inv]
    exact div_le_div₀ (by positivity) hx.ge hpos hy.le
  · rw [abs_div, Nat.cast_add, zpow_add₀ two_ne_zero, ← neg_neg (k : ℤ), zpow_neg _ (-k : ℤ),
      ← div_eq_mul_inv]
    refine div_le_div₀ (by positivity) hx.le (by positivity) hy.ge

/-- The product of numbers, from the left. -/
def product (xs : List Float) : Float := xs.foldl (· * ·) 1.0

/-- A product that can be divided by is one of such numbers, and so is every product before it. -/
theorem usable_foldl_iff {a : Float} {xs : List Float} : Usable (xs.foldl (· * ·) a) ↔
    ∀ ys, ys <+: xs → Usable (ys.foldl (· * ·) a) := by
  constructor
  · rintro h ys ⟨zs, rfl⟩
    rw [List.foldl_append] at h
    induction zs using List.reverseRecOn with
    | nil => exact h
    | append_singleton zs z ih =>
      rw [List.foldl_append] at h
      exact ih (usable_of_mul h).1
  · exact fun h => h xs (List.prefix_refl xs)

theorem usable_product_iff {xs : List Float} :
    Usable (product xs) ↔ ∀ ys, ys <+: xs → Usable (product ys) := usable_foldl_iff

theorem usable_of_mem_product {xs : List Float} (h : Usable (product xs)) : ∀ x ∈ xs, Usable x := by
  intro x hx
  obtain ⟨ys, zs, rfl⟩ := List.append_of_mem hx
  have h := usable_product_iff.1 h (ys ++ [x]) ⟨zs, by simp⟩
  rw [product, List.foldl_append] at h
  exact (usable_of_mul h).2

theorem within_foldl {α : Type} {f : α → Float} {b : α → ℕ} {as : List α} (hx : Within k x)
    (h : ∀ a ∈ as, Within (b a) (f a)) (hsum : k + (as.map b).sum ≤ 1023) :
    Within (k + (as.map b).sum) ((as.map f).foldl (· * ·) x) := by
  induction as generalizing k x with
  | nil => exact hx
  | cons a as ih =>
    rw [List.map_cons, List.sum_cons, ← add_assoc] at hsum ⊢
    have hmul := hx.mul (h a List.mem_cons_self) (by omega)
    exact ih hmul (fun a' ha' => h a' (List.mem_cons_of_mem a ha')) hsum

theorem within_product {α : Type} {f : α → Float} {b : α → ℕ} {as : List α}
    (h : ∀ a ∈ as, Within (b a) (f a)) (hsum : (as.map b).sum ≤ 1023) :
    Within (as.map b).sum (product (as.map f)) := by
  have hall := within_foldl within_one h (by omega)
  rwa [zero_add] at hall

/-! ### Powers -/

/-- The squares that are formed on the way to a power are no further away than the power. -/
theorem Within.squareMultiply {acc : Float} {bits n : ℕ} (hacc : Within j acc) (hx : Within k x)
    (h : j + k * n ≤ 1023) : Within (j + k * n) (squareMultiply bits acc x n) := by
  induction bits generalizing acc x j k n with
  | zero => exact hacc.mono (by omega)
  | succ bits ih =>
    have hn : k * n = k * (n % 2) + (k + k) * (n / 2) := by
      conv_lhs => rw [← Nat.mod_add_div n 2]
      ring
    have hnext : Within (j + k * (n % 2)) (if n % 2 = 1 then acc * x else acc) := by
      split
      · rename_i hodd
        rw [hodd, mul_one] at hn ⊢
        exact hacc.mul hx (by omega)
      · exact hacc.mono (by omega)
    rw [Binary64.squareMultiply]
    rw [hn, ← add_assoc] at h ⊢
    split
    · exact hnext.mono (by omega)
    · rename_i hhalf
      have hle : (k + k) * 1 ≤ (k + k) * (n / 2) :=
        Nat.mul_le_mul_left _ (Nat.one_le_iff_ne_zero.2 hhalf)
      exact ih hnext (hx.mul hx (by omega)) h

theorem Within.powInt {n : ℤ} (hx : Within k x) (h : k * n.natAbs ≤ 1023) :
    Within (k * n.natAbs) (powInt x n) := by
  have hpow : Within (0 + k * n.natAbs) (powNat x n.natAbs) :=
    within_one.squareMultiply hx (by omega)
  rw [zero_add] at hpow
  rw [Binary64.powInt]
  split
  · have hinv := within_one.div hpow (by omega)
    rwa [zero_add] at hinv
  · exact hpow

end QuantityCalculus.Binary64
