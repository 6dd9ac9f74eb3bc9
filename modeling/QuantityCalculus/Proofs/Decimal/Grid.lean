import QuantityCalculus.Proofs.Decimal.Shortest

/-! The search for the shortest decimal. A grid has a hit if any of its points rounds to the number, since a
neighbour of the number lies between it and that point. So the search never looks at a grid finer than
one that is known to have a hit. A grid finer than the interval is wide always has one, and seventeen
digits are enough for that; a grid coarser than this has one at most, and so a decimal whose digits
make less than `2 ^ 52` is the one that is found. -/

namespace QuantityCalculus.Decimal.Neighbourhood

variable {v : Neighbourhood} {k : ℤ} {c n : ℕ} {r r' : ℚ} {d : Scientific}

/-- The number itself. -/
def value (v : Neighbourhood) : ℚ := v.significand * 2 ^ v.exponent

/-! ### The interval -/

theorem lower_lt_value (v : Neighbourhood) : v.lower < v.value := by
  refine mul_lt_mul_of_pos_right ?_ (by positivity)
  split_ifs <;> linarith

theorem value_lt_upper (v : Neighbourhood) : v.value < v.upper :=
  mul_lt_mul_of_pos_right (by linarith) (by positivity)

theorem upper_sub_lower_le (v : Neighbourhood) : v.upper - v.lower ≤ 2 ^ v.exponent := by
  have hpos : (0 : ℚ) < 2 ^ v.exponent := by positivity
  unfold upper lower
  split_ifs <;> linarith

/-- What lies between the number and a rational that rounds to it rounds to it as well. -/
theorem Contains.of_le_value (h : v.Contains r) (hle : r ≤ r') (hvalue : r' ≤ v.value) :
    v.Contains r' where
  lower_le := h.lower_le.trans hle
  le_upper := hvalue.trans v.value_lt_upper.le
  strict hodd := ⟨(h.strict hodd).1.trans_le hle, hvalue.trans_lt v.value_lt_upper⟩

theorem Contains.of_value_le (h : v.Contains r) (hvalue : v.value ≤ r') (hle : r' ≤ r) :
    v.Contains r' where
  lower_le := v.lower_lt_value.le.trans hvalue
  le_upper := hle.trans h.le_upper
  strict hodd := ⟨v.lower_lt_value.trans_le hvalue, hle.trans_lt (h.strict hodd).2⟩

theorem contains_of_lt (hl : v.lower < r) (hu : r < v.upper) : v.Contains r :=
  ⟨hl.le, hu.le, fun _ => ⟨hl, hu⟩⟩

/-! ### Neighbours on a grid -/

theorem below_le (v : Neighbourhood) (k : ℤ) : (v.below k : ℚ) * 10 ^ k ≤ v.value := by
  have hle : v.below k * v.spacing k ≤ 4 * v.significand * v.quarter k := Nat.div_mul_le_self _ _
  have hle : ((v.below k * v.spacing k : ℕ) : ℚ) ≤ (4 * v.significand * v.quarter k : ℕ) := by
    exact_mod_cast hle
  rw [cast_point, Nat.cast_mul, cast_quarter] at hle
  push_cast at hle
  refine le_of_mul_le_mul_right ?_ (v.weight_pos k)
  rw [value]
  linarith

theorem spacing_pos (v : Neighbourhood) (k : ℤ) : 0 < v.spacing k := by
  unfold spacing
  have h2 : 0 < Nat.pow 2 (-v.exponent).toNat := Nat.pow_pos (by decide)
  have h10 : 0 < Nat.pow 10 k.toNat := Nat.pow_pos (by decide)
  positivity

theorem lt_below_succ (v : Neighbourhood) (k : ℤ) : v.value < (v.below k + 1 : ℕ) * 10 ^ k := by
  have hlt : 4 * v.significand * v.quarter k < (v.below k + 1) * v.spacing k :=
    Nat.lt_mul_of_div_lt (Nat.lt_succ_self _) (v.spacing_pos k)
  have hlt : ((4 * v.significand * v.quarter k : ℕ) : ℚ) <
      ((v.below k + 1) * v.spacing k : ℕ) := by
    exact_mod_cast hlt
  rw [cast_point, Nat.cast_mul, cast_quarter] at hlt
  push_cast at hlt
  refine lt_of_mul_lt_mul_right ?_ (v.weight_pos k).le
  rw [value]
  push_cast
  linarith

/-- A grid with a point that rounds to the number has a hit. -/
theorem exists_onGrid (hv : 0 < v.significand) (h : v.Contains (c * 10 ^ k)) :
    ∃ c', v.onGrid k = some c' := by
  have hpos : (0 : ℚ) < 10 ^ k := by positivity
  have hhit : v.covers k (v.below k) = true ∨ v.covers k (v.below k + 1) = true := by
    rw [covers_iff hv, covers_iff hv]
    rcases Nat.lt_or_ge (v.below k) c with hlt | hge
    · have hc : ((v.below k + 1 : ℕ) : ℚ) ≤ c := by exact_mod_cast hlt
      exact .inr (h.of_value_le (v.lt_below_succ k).le (mul_le_mul_of_nonneg_right hc hpos.le))
    · have hc : (c : ℚ) ≤ v.below k := by exact_mod_cast hge
      exact .inl (h.of_le_value (mul_le_mul_of_nonneg_right hc hpos.le) (v.below_le k))
  unfold onGrid
  dsimp only
  split
  · split_ifs <;> exact ⟨_, rfl⟩
  · exact ⟨_, rfl⟩
  · exact ⟨_, rfl⟩
  · rename_i hfirst hsecond
    rw [hfirst, hsecond] at hhit
    rcases hhit with h | h <;> cases h

/-- A grid finer than the interval is wide has a point in it. -/
theorem exists_contains_of_lt (h : 10 ^ k < v.upper - v.lower) :
    ∃ c : ℕ, v.Contains (c * 10 ^ k) := by
  have hle := v.below_le k
  have hlt := v.lt_below_succ k
  rcases lt_or_ge v.lower (v.below k * 10 ^ k) with hl | hl
  · exact ⟨v.below k, contains_of_lt hl (hle.trans_lt v.value_lt_upper)⟩
  · refine ⟨v.below k + 1, contains_of_lt (v.lower_lt_value.trans hlt) ?_⟩
    push_cast
    linarith

/-! ### The leading place -/

theorem digitCount_le_iff {m k : ℕ} (hk : 0 < k) : digitCount m ≤ k ↔ m < 10 ^ k :=
  Nat.length_toDigits_le_iff (by decide) hk

theorem lt_ten_pow_digitCount (m : ℕ) : m < 10 ^ digitCount m :=
  (digitCount_le_iff Nat.length_toDigits_pos).1 le_rfl

theorem ten_pow_digitCount_le {m : ℕ} (hm : 0 < m) : 10 ^ (digitCount m - 1) ≤ m := by
  rcases Nat.eq_zero_or_pos (digitCount m - 1) with h | h
  · rw [h, pow_zero]
    exact hm
  · by_contra hlt
    have := (digitCount_le_iff (m := m) h).2 (by omega)
    omega

/-- The digits of a whole quotient say between which powers of ten the quotient lies. -/
theorem digitCount_div {m p : ℕ} (hp : 0 < p) (h : p ≤ m) :
    10 ^ (digitCount (m / p) - 1) * p ≤ m ∧ m < 10 ^ digitCount (m / p) * p :=
  ⟨(Nat.mul_le_mul_right p (ten_pow_digitCount_le (Nat.div_pos h hp))).trans
    (Nat.div_mul_le_self m p), Nat.lt_mul_of_div_lt (lt_ten_pow_digitCount _) hp⟩

/-- The number of decimal places to which a number is scaled up to be above one. -/
def SufficientPlaces (n : ℕ) : Prop := ∀ m ≤ 1074, 2 ^ m ≤ 10 ^ n

theorem sufficientPlaces : SufficientPlaces (54 * 6) := by
  intro m hm
  calc 2 ^ m ≤ 2 ^ (179 * 6) := Nat.pow_le_pow_right (by decide) hm
    _ = (2 ^ 179) ^ 6 := pow_mul 2 179 6
    _ ≤ (10 ^ 54) ^ 6 := Nat.pow_le_pow_left (by norm_num) 6
    _ = 10 ^ (54 * 6) := (pow_mul 10 54 6).symm

/-- The significand scaled to a whole number. -/
def scaled (v : Neighbourhood) (n : ℕ) : ℕ :=
  v.significand * Nat.pow 2 v.exponent.toNat * Nat.pow 10 n

theorem cast_scaled (v : Neighbourhood) (n : ℕ) :
    (v.scaled n : ℚ) = v.value * 10 ^ n * Nat.pow 2 (-v.exponent).toNat := by
  rw [scaled, value, Nat.pow_eq, Nat.pow_eq, Nat.pow_eq]
  push_cast
  rw [pow_toNat two_ne_zero]
  ring

theorem pow_le_scaled (hv : 0 < v.significand) (he : -1074 ≤ v.exponent)
    (hn : SufficientPlaces n) : Nat.pow 2 (-v.exponent).toNat ≤ v.scaled n :=
  (hn _ (by omega)).trans
    (Nat.le_mul_of_pos_left _ (Nat.mul_pos hv (Nat.pow_pos (by decide))))

theorem leadingPlace_eq (v : Neighbourhood) : ∃ n, SufficientPlaces n ∧
    v.leadingPlace = digitCount (v.scaled n / Nat.pow 2 (-v.exponent).toNat) - (n + 1) := by
  refine ⟨324, sufficientPlaces, ?_⟩
  unfold leadingPlace scaled
  generalize Nat.pow 10 = f
  rfl

/-- The leading place says between which powers of ten the number lies. -/
theorem leadingPlace_spec (hv : 0 < v.significand) (he : -1074 ≤ v.exponent) :
    10 ^ v.leadingPlace ≤ v.value ∧ v.value < 10 ^ (v.leadingPlace + 1) := by
  obtain ⟨n, hn, hplace⟩ := v.leadingPlace_eq
  have hscaled := v.cast_scaled n
  have hle := pow_le_scaled hv he hn
  have hp : 0 < Nat.pow 2 (-v.exponent).toNat := Nat.pow_pos (by decide)
  generalize Nat.pow 2 (-v.exponent).toNat = p at *
  have hpos : (0 : ℚ) < p := by exact_mod_cast hp
  obtain ⟨hlower, hupper⟩ := digitCount_div hp hle
  have hcount : 0 < digitCount (v.scaled n / p) := Nat.length_toDigits_pos
  rw [hplace]
  generalize digitCount (v.scaled n / p) = d at *
  have hten : (10 : ℚ) ≠ 0 := by norm_num
  have hscale : (0 : ℚ) < 10 ^ n := by positivity
  constructor
  · have hlower : (10 : ℚ) ^ (d - 1) * p ≤ v.value * 10 ^ n * p := by
      rw [← hscaled]
      exact_mod_cast hlower
    have hexp : (10 : ℚ) ^ (d - 1) = 10 ^ ((d : ℤ) - (n + 1)) * 10 ^ n := by
      rw [← zpow_natCast, ← zpow_natCast, ← zpow_add₀ hten]
      congr 1
      omega
    rw [hexp] at hlower
    exact le_of_mul_le_mul_right (le_of_mul_le_mul_right hlower hpos) hscale
  · have hupper : v.value * 10 ^ n * p < (10 : ℚ) ^ d * p := by
      rw [← hscaled]
      exact_mod_cast hupper
    have hexp : (10 : ℚ) ^ d = 10 ^ ((d : ℤ) - (n + 1) + 1) * 10 ^ n := by
      rw [← zpow_natCast, ← zpow_natCast, ← zpow_add₀ hten]
      congr 1
      omega
    rw [hexp] at hupper
    exact lt_of_mul_lt_mul_right (lt_of_mul_lt_mul_right hupper hpos.le) hscale.le

/-! ### The search -/

/-- A hit with some number of digits ends the search with this number of digits at the latest. -/
theorem withDigits_shortest (h1 : 1 ≤ n) (h17 : n ≤ 17) (h : v.withDigits n = some d) :
    ∃ j, 1 ≤ j ∧ j ≤ n ∧ v.withDigits j = some v.shortest := by
  have hmem : n ∈ List.range' 1 17 := List.mem_range'_1.2 ⟨h1, by omega⟩
  cases hfind : (List.range' 1 17).findSome? v.withDigits with
  | none =>
    rw [List.findSome?_eq_none_iff] at hfind
    rw [hfind n hmem] at h
    cases h
  | some s =>
    have hshortest : v.shortest = s := by rw [shortest, hfind]; rfl
    obtain ⟨l, j, l', hl, hj, hnone⟩ := List.findSome?_eq_some_iff.1 hfind
    have hsorted := List.pairwise_lt_range' (s := 1) (n := 17) 1
    rw [hl] at hmem hsorted
    have hj1 : j ∈ List.range' 1 17 := by
      rw [hl]
      exact List.mem_append_right l List.mem_cons_self
    refine ⟨j, (List.mem_range'_1.1 hj1).1, ?_, hshortest ▸ hj⟩
    rcases List.mem_append.1 hmem with hn | hn
    · rw [hnone n hn] at h
      cases h
    · rcases List.mem_cons.1 hn with rfl | hn
      · exact le_rfl
      · exact ((List.pairwise_cons.1 (List.pairwise_append.1 hsorted).2.1).1 n hn).le

/-- A decimal that is found lies on its grid. -/
theorem withDigits_cases (h : v.withDigits n = some d) :
    v.leadingPlace + 1 - n ≤ d.exponent ∧
      ∃ c : ℕ, d.value = c * 10 ^ (v.leadingPlace + 1 - n) := by
  obtain ⟨c, hc, h⟩ := Option.map_eq_some_iff.1 h
  split_ifs at h with hpow
  · cases h
    refine ⟨by dsimp only; omega, c, ?_⟩
    rw [hpow, Scientific.value, Nat.pow_eq, zpow_add₀ (by norm_num : (10 : ℚ) ≠ 0), zpow_natCast]
    push_cast
    ring
  · cases h
    exact ⟨le_rfl, c, rfl⟩

/-- The search never looks at a grid finer than one with a point that rounds to the number. -/
theorem exists_shortest (hv : 0 < v.significand) (hk : k ≤ v.leadingPlace)
    (hk' : v.leadingPlace - 16 ≤ k) (h : v.Contains (c * 10 ^ k)) :
    k ≤ v.shortest.exponent ∧
      ∃ (j : ℤ) (c' : ℕ), k ≤ j ∧ v.shortest.value = c' * 10 ^ j := by
  obtain ⟨n, hn⟩ : ∃ n : ℕ, v.leadingPlace + 1 - n = k :=
    ⟨(v.leadingPlace + 1 - k).toNat, by omega⟩
  obtain ⟨c₀, hc₀⟩ := exists_onGrid hv h
  obtain ⟨d, hd⟩ : ∃ d, v.withDigits n = some d := by
    rw [withDigits, hn, hc₀]
    exact ⟨_, rfl⟩
  obtain ⟨j, -, hjn, hj⟩ := withDigits_shortest (by omega) (by omega) hd
  obtain ⟨hexp, c', hc'⟩ := withDigits_cases hj
  exact ⟨by omega, _, c', by omega, hc'⟩

/-! ### Numbers with all of their digits -/

theorem value_pos (hv : 0 < v.significand) : 0 < v.value := by
  have hv : (0 : ℚ) < v.significand := by exact_mod_cast hv
  unfold value
  positivity

theorem two_pow_le_value (hv : 2 ^ 52 ≤ v.significand) :
    2 ^ 52 * 2 ^ v.exponent ≤ v.value :=
  mul_le_mul_of_nonneg_right (by exact_mod_cast hv) (by positivity)

/-- What rounds to the number is close to it. -/
theorem Contains.near (h : v.Contains r) (hv : 2 ^ 52 ≤ v.significand) :
    |r - v.value| ≤ v.value / 2 ^ 53 := by
  have hle := two_pow_le_value hv
  have hl := h.lower_le
  have hu := h.le_upper
  have hpos : (0 : ℚ) < 2 ^ v.exponent := by positivity
  unfold lower at hl
  unfold upper at hu
  unfold value at hle ⊢
  rw [abs_le]
  constructor
  · split_ifs at hl <;> linarith
  · linarith

/-- The grid of seventeen digits is finer than the interval is wide. -/
theorem ten_pow_lt_width (hc : v.Canonical) (hv : 2 ^ 52 ≤ v.significand) :
    10 ^ (v.leadingPlace - 16) < v.upper - v.lower := by
  have hplace := (leadingPlace_spec (by omega) hc.exponent_ge).1
  have hpos : (0 : ℚ) < 2 ^ v.exponent := by positivity
  have hten : (10 : ℚ) ^ (v.leadingPlace - 16) = 10 ^ v.leadingPlace / 10 ^ 16 := by
    rw [zpow_sub₀ (by norm_num)]
    rfl
  have hlt : (v.significand : ℚ) < 2 ^ 53 := by exact_mod_cast hc.significand_lt
  rw [hten, div_lt_iff₀ (by norm_num)]
  unfold value at hplace
  unfold upper lower
  split_ifs with hn
  · have hm : (v.significand : ℚ) = 2 ^ 52 := by exact_mod_cast (hc.narrowBelow_iff.1 hn).1
    rw [hm] at hplace ⊢
    linarith
  · have := mul_lt_mul_of_pos_right hlt hpos
    linarith

/-- Seventeen digits are enough. -/
theorem leadingPlace_le_exponent (hc : v.Canonical) (hv : 2 ^ 52 ≤ v.significand) :
    v.leadingPlace - 16 ≤ v.shortest.exponent := by
  obtain ⟨c, h⟩ := exists_contains_of_lt (ten_pow_lt_width hc hv)
  exact (exists_shortest (by omega) (by omega) le_rfl h).1

/-- A grid coarser than the interval is wide has one point in it at most. -/
theorem eq_of_contains_grid {a b : ℕ} (hk : 2 ^ v.exponent < (10 : ℚ) ^ k)
    (ha : v.Contains (a * 10 ^ k)) (hb : v.Contains (b * 10 ^ k)) : a = b := by
  have hwidth := v.upper_sub_lower_le
  have hle : ∀ {a b : ℕ}, v.Contains (a * 10 ^ k) → v.Contains (b * 10 ^ k) → a ≤ b := by
    intro a b ha hb
    by_contra hlt
    have hlt : (b : ℚ) + 1 ≤ a := by exact_mod_cast not_le.1 hlt
    have hpos : (0 : ℚ) < 10 ^ k := by positivity
    have := mul_le_mul_of_nonneg_right hlt hpos.le
    linarith [ha.le_upper, hb.lower_le]
  exact le_antisymm (hle ha hb) (hle hb ha)

theorem exists_finer {j : ℤ} (c : ℕ) (h : k ≤ j) : ∃ c' : ℕ, (c : ℚ) * 10 ^ j = c' * 10 ^ k := by
  obtain ⟨n, rfl⟩ := Int.le.dest h
  refine ⟨c * 10 ^ n, ?_⟩
  rw [zpow_add₀ (by norm_num), zpow_natCast]
  push_cast
  ring

/-- A decimal whose digits make less than `2 ^ 52` is the shortest one of the number it rounds to. -/
theorem shortest_value_eq (hc : v.Canonical) (hv : 2 ^ 52 ≤ v.significand) (hn : n < 2 ^ 52)
    (h : v.Contains (n * 10 ^ k)) : v.shortest.value = n * 10 ^ k := by
  have hpos : (0 : ℚ) < 10 ^ k := by positivity
  have hvalue := value_pos (v := v) (by omega)
  have hdigits := two_pow_le_value hv
  have hn : (n : ℚ) + 1 ≤ 2 ^ 52 := by exact_mod_cast hn
  have hn := mul_le_mul_of_nonneg_right hn hpos.le
  have hnear := (abs_le.1 (h.near hv)).1
  have hlt : v.value < 2 ^ 52 * 10 ^ k := by linarith
  obtain ⟨hplace, hplace'⟩ := leadingPlace_spec (v := v) (by omega) hc.exponent_ge
  have hfine : v.leadingPlace - 16 ≤ k := by
    by_contra hcoarse
    have hpow : (10 : ℚ) ^ (k + 16) ≤ 10 ^ v.leadingPlace :=
      zpow_le_zpow_right₀ (by norm_num) (by omega)
    have hexp : (10 : ℚ) ^ (k + 16) = 10 ^ k * 10 ^ 16 := zpow_add₀ (by norm_num) k 16
    rw [hexp] at hpow
    linarith
  -- the coarser grid of the decimal and of the leading place
  obtain ⟨g, hgk, hg, hg', hwidth⟩ : ∃ g ≤ k, g ≤ v.leadingPlace ∧ v.leadingPlace - 16 ≤ g ∧
      (2 : ℚ) ^ v.exponent < 10 ^ g := by
    rcases le_or_gt k v.leadingPlace with hle | hgt
    · exact ⟨k, le_rfl, hle, hfine, by linarith⟩
    · refine ⟨v.leadingPlace, hgt.le, le_rfl, by omega, ?_⟩
      rw [zpow_add_one₀ (by norm_num)] at hplace'
      linarith
  obtain ⟨a, ha⟩ := exists_finer n hgk
  rw [ha] at h ⊢
  obtain ⟨-, j, c, hj, hshortest⟩ := exists_shortest (by omega) hg hg' h
  obtain ⟨b, hb⟩ := exists_finer c hj
  have hcontains := contains_shortest (v := v) (by omega)
  rw [hshortest, hb] at hcontains ⊢
  rw [eq_of_contains_grid hwidth hcontains h]

end QuantityCalculus.Decimal.Neighbourhood
