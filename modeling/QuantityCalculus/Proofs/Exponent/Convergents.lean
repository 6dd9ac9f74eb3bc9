import QuantityCalculus.Exponent.Approximation
import QuantityCalculus.Proofs.Binary64.Floor
import QuantityCalculus.Proofs.Exponent.Arithmetic

/-! The convergents of a float. Two convergents in a row have the determinant `± 1`, so each of them is
in lowest terms, and both lie between the integral part of the float and the whole number above it.
All terms but the first are positive, because a remainder that is inverted is at most one; and it is
not so small that its inverse would leave the whole numbers that floats can hold. So the convergent
that passes the test is the exponent that is read, with no common divisor to be taken out. -/

namespace QuantityCalculus.Exponent

open Binary64

namespace Expansion

variable {x : Float} {e e' : Expansion} {n terms : ℕ} {a h k : ℤ}

/-- The remainder inverted, so that the next term can be taken. -/
def invert (e : Expansion) : Expansion := { e with remainder := 1.0 / e.remainder }

/-- The expansions that the search looks at, by the number of terms that it has taken. -/
inductive Tried (x : Float) (e : Expansion) : ℕ → Expansion → Prop
  | first : Tried x e 1 e.advance
  | next {n : ℕ} {e' : Expansion} : Tried x e n e' → e'.currentDen ≤ maxDenominator →
    e'.accepts x = false → (e'.remainder == 0.0) = false → Tried x e (n + 1) e'.invert.advance

/-- An expansion among the first ones tried whose convergent is taken for the float. -/
structure Accepted (x : Float) (e : Expansion) (terms : ℕ) (e' : Expansion) : Prop where
  tried : ∃ n ≤ terms, Tried x e n e'
  den_le : e'.currentDen ≤ maxDenominator
  accepts : e'.accepts x = true

/-- The first expansion is passed. -/
theorem Tried.cons (hden : e.advance.currentDen ≤ maxDenominator)
    (htest : e.advance.accepts x = false) (hne : (e.advance.remainder == 0.0) = false)
    (h : Tried x e.advance.invert n e') : Tried x e (n + 1) e' := by
  induction h with
  | first => exact .next .first hden htest hne
  | next _ hden' htest' hne' ih => exact .next ih hden' htest' hne'

/-- What is tried is the first expansion, or tried after it. -/
theorem Tried.uncons (h : Tried x e n e') : (n = 1 ∧ e' = e.advance) ∨
    ∃ m, n = m + 1 ∧ e.advance.currentDen ≤ maxDenominator ∧ e.advance.accepts x = false ∧
      (e.advance.remainder == 0.0) = false ∧ Tried x e.advance.invert m e' := by
  induction h with
  | first => exact .inl ⟨rfl, rfl⟩
  | next _ hden htest hne ih =>
    obtain ⟨rfl, rfl⟩ | ⟨m, rfl, hden', htest', hne', ht⟩ := ih
    · exact .inr ⟨1, rfl, hden, htest, hne, .first⟩
    · exact .inr ⟨m + 1, rfl, hden', htest', hne', .next ht hden htest hne⟩

/-- The search finds the expansion that is accepted. -/
theorem search_eq_some_iff : search x terms e = some (h, k) ↔
    ∃ e', Accepted x e terms e' ∧ h = e'.currentNum ∧ k = e'.currentDen := by
  induction terms generalizing e with
  | zero =>
    refine ⟨(nomatch ·), ?_⟩
    rintro ⟨e', ⟨⟨n, hn, ht⟩, -, -⟩, -, -⟩
    obtain ⟨rfl, -⟩ | ⟨m, rfl, -⟩ := ht.uncons <;> omega
  | succ terms ih =>
    rw [search]
    split_ifs with hlarge htest hzero
    · -- the denominator is too large
      refine ⟨(nomatch ·), ?_⟩
      rintro ⟨e', ⟨⟨n, -, ht⟩, hden, -⟩, -, -⟩
      obtain ⟨-, rfl⟩ | ⟨m, -, hden', -⟩ := ht.uncons <;> omega
    · -- the convergent is accepted
      rw [Option.some_inj, Prod.mk.injEq]
      constructor
      · rintro ⟨rfl, rfl⟩
        exact ⟨_, ⟨⟨1, by omega, .first⟩, not_lt.1 hlarge, htest⟩, rfl, rfl⟩
      · rintro ⟨e', ⟨⟨n, -, ht⟩, -, -⟩, rfl, rfl⟩
        obtain ⟨-, rfl⟩ | ⟨m, -, -, htest', -⟩ := ht.uncons
        · exact ⟨rfl, rfl⟩
        · rw [htest] at htest'
          cases htest'
    · -- the expansion ends
      refine ⟨(nomatch ·), ?_⟩
      rintro ⟨e', ⟨⟨n, -, ht⟩, -, haccepts⟩, -, -⟩
      obtain ⟨-, rfl⟩ | ⟨m, -, -, -, hne, -⟩ := ht.uncons
      · exact absurd haccepts htest
      · rw [hzero] at hne
        cases hne
    · show search x terms e.advance.invert = some (h, k) ↔ _
      rw [ih]
      have hden := not_lt.1 hlarge
      have htest := Bool.eq_false_iff.2 htest
      have hne := Bool.eq_false_iff.2 hzero
      constructor
      · rintro ⟨e', ⟨⟨n, hn, ht⟩, hden', haccepts⟩, rfl, rfl⟩
        exact ⟨e', ⟨⟨n + 1, by omega, ht.cons hden htest hne⟩, hden', haccepts⟩, rfl, rfl⟩
      · rintro ⟨e', ⟨⟨n, hn, ht⟩, hden', haccepts⟩, rfl, rfl⟩
        obtain ⟨-, rfl⟩ | ⟨m, rfl, -, -, -, ht⟩ := ht.uncons
        · rw [htest] at haccepts
          cases haccepts
        · exact ⟨e', ⟨⟨m, by omega, ht⟩, hden', haccepts⟩, rfl, rfl⟩

/-! ### Convergents as integers -/

/-- The last two convergents of an expansion with the first term `a`. -/
structure Convergents (a : ℤ) (e : Expansion) : Prop where
  det : (e.currentNum * e.previousDen - e.previousNum * e.currentDen).natAbs = 1
  den_pos : 1 ≤ e.currentDen
  previousDen_nonneg : 0 ≤ e.previousDen
  previousDen_le : e.previousDen ≤ e.currentDen
  ge : a * e.currentDen ≤ e.currentNum
  le : e.currentNum ≤ (a + 1) * e.currentDen
  /-- There is a convergent before the last one, or the last one is the first term. -/
  previous : (a * e.previousDen ≤ e.previousNum ∧ e.previousNum ≤ (a + 1) * e.previousDen) ∨
    e.previousNum = 1 ∧ e.previousDen = 0 ∧ e.currentNum = a ∧ e.currentDen = 1

theorem convergents_start (x : Float) : Convergents (floor x) (start x).advance := by
  have hnum : (start x).advance.currentNum = floor x := by
    show floor x * 1 + 0 = _
    ring
  have hden : (start x).advance.currentDen = 1 := by
    show floor x * 0 + 1 = _
    ring
  have hnum' : (start x).advance.previousNum = 1 := rfl
  have hden' : (start x).advance.previousDen = 0 := rfl
  constructor <;> simp only [hnum, hden, hnum', hden']
  · rw [mul_zero]
    rfl
  · exact le_rfl
  · exact le_rfl
  · exact zero_le_one
  · omega
  · omega
  · exact .inr ⟨trivial, trivial, trivial, trivial⟩

/-- A positive term keeps what the convergents satisfy. -/
theorem Convergents.advance (h : Convergents a e) (hterm : 1 ≤ e.term) :
    Convergents a e.advance := by
  have hpos := h.den_pos
  have hnonneg := h.previousDen_nonneg
  constructor
  · show (((e.term * e.currentNum + e.previousNum) * e.currentDen -
      e.currentNum * (e.term * e.currentDen + e.previousDen)).natAbs = 1)
    rw [← h.det, ← Int.natAbs_neg]
    congr 1
    ring
  · show 1 ≤ e.term * e.currentDen + e.previousDen
    nlinarith
  · exact hpos.trans' zero_le_one
  · show e.currentDen ≤ e.term * e.currentDen + e.previousDen
    nlinarith
  · show a * (e.term * e.currentDen + e.previousDen) ≤ e.term * e.currentNum + e.previousNum
    have hge := mul_le_mul_of_nonneg_left h.ge (hterm.trans' zero_le_one)
    obtain ⟨hprev, -⟩ | ⟨hnum, hden, -, -⟩ := h.previous
    · linarith
    · rw [hnum, hden]
      linarith
  · show e.term * e.currentNum + e.previousNum ≤ (a + 1) * (e.term * e.currentDen + e.previousDen)
    obtain ⟨-, hprev⟩ | ⟨hnum, hden, hcur, hone⟩ := h.previous
    · have hle := mul_le_mul_of_nonneg_left h.le (hterm.trans' zero_le_one)
      linarith
    · rw [hnum, hden, hcur, hone]
      linarith
  · exact .inl ⟨h.ge, h.le⟩

/-- A convergent is in lowest terms. -/
theorem Convergents.coprime (h : Convergents a e) :
    e.currentNum.natAbs.Coprime e.currentDen.natAbs := by
  rw [← Int.isCoprime_iff_nat_coprime]
  rcases Int.natAbs_eq_iff.1 h.det with hdet | hdet
  · exact ⟨e.previousDen, -e.previousNum, by push_cast at hdet; linarith⟩
  · exact ⟨-e.previousDen, e.previousNum, by push_cast at hdet; linarith⟩

/-! ### The test -/

/-- How far a convergent may be from a float. -/
def reach (x : Float) : Float := tolerance * if x.abs < 1.0 then 1.0 else x.abs

theorem accepts_eq (e : Expansion) (x : Float) : e.accepts x =
    decide ((x - Float.ofInt e.currentNum / Float.ofInt e.currentDen).abs ≤ reach x) := rfl

theorem tolerance_mem : tolerance.isFinite = true ∧ 1 / 2 ^ 40 ≤ toRat tolerance ∧
    toRat tolerance ≤ (1 + 1 / 2 ^ 52) / 10 ^ 12 := by
  decide +kernel

/-- The reach is relative to the float, unless that is less than one. -/
theorem reach_mem (hx : x.isFinite = true) (hle : |toRat x| ≤ 2 ^ 40) :
    (reach x).isFinite = true ∧ 1 / 2 ^ 40 ≤ toRat (reach x) ∧
      toRat (reach x) ≤ (1 + 1 / 2 ^ 50) / 10 ^ 12 * max 1 |toRat x| := by
  obtain ⟨hfinite, hbound⟩ : (if x.abs < 1.0 then 1.0 else x.abs).isFinite = true ∧
      toRat (if x.abs < 1.0 then 1.0 else x.abs) = max 1 |toRat x| := by
    have habs : x.abs.isFinite = true := (isFinite_abs x).trans hx
    have hlt : x.abs < 1.0 ↔ |toRat x| < 1 := by
      rw [lt_iff habs usable_one.1, toRat_abs, toRat_one]
    split_ifs with h
    · exact ⟨usable_one.1, by rw [toRat_one, max_eq_left (hlt.1 h).le]⟩
    · exact ⟨habs, by rw [toRat_abs, max_eq_right (not_lt.1 (mt hlt.2 h))]⟩
  obtain ⟨htol, htol₁, htol₂⟩ := tolerance_mem
  have hrounds := rounds_mul htol hfinite
  rw [hbound] at hrounds
  have hone : 1 ≤ max 1 |toRat x| := le_max_left _ _
  have hmax : max 1 |toRat x| ≤ 2 ^ 40 := max_le (by norm_num) hle
  change Rounds (reach x) _ at hrounds
  generalize max 1 |toRat x| = b at *
  have hexact : 1 / 2 ^ 40 ≤ toRat tolerance * b :=
    htol₁.trans (le_mul_of_one_le_right (by linarith) hone)
  have habove : toRat tolerance * b ≤ (1 + 1 / 2 ^ 52) / 10 ^ 12 * b :=
    mul_le_mul_of_nonneg_right htol₂ (by linarith)
  have habs : |toRat tolerance * b| = toRat tolerance * b := abs_of_nonneg (by linarith)
  have hpow : (2 : ℚ) ^ (-40 : ℤ) = 1 / 2 ^ 40 := by norm_num
  have hfinite := (hrounds.le_two_pow (k := 1) (by decide) (by decide)
    (by rw [habs, zpow_one]; linarith)).1
  have hlower := hrounds.two_pow_le (k := -40) hfinite (by decide) (by rwa [habs, hpow])
  have hupper := hrounds.near_toRat hfinite |>.abs_le
  have hnonneg := hrounds.nonneg hfinite (by linarith)
  have htiny := tiny_le
  rw [abs_of_nonneg hnonneg] at hlower hupper
  rw [hpow] at hlower
  rw [habs] at hupper
  refine ⟨hfinite, hlower, ?_⟩
  linarith

/-! ### Remainders -/

/-- The next term can be taken: the remainder is at least one, and of such a size that its integral
part is among the floats. -/
structure Ready (e : Expansion) : Prop where
  isFinite : e.remainder.isFinite = true
  one_le : 1 ≤ toRat e.remainder
  le : toRat e.remainder ≤ 2 ^ 52

theorem Ready.rounds_fract (h : Ready e) :
    Rounds e.advance.remainder (Int.fract (toRat e.remainder)) :=
  Binary64.rounds_fract h.isFinite (by rw [abs_of_nonneg (zero_le_one.trans h.one_le)]; exact h.le)

theorem Ready.one_le_term (h : Ready e) : 1 ≤ e.term := by
  rw [term, floor_eq h.isFinite, Int.le_floor]
  exact_mod_cast h.one_le

/-- A remainder that is not too small can be inverted. -/
theorem ready_invert {k : ℕ} (hk : k ≤ 52) (hge : (2 : ℚ) ^ (-k : ℤ) ≤ toRat e.remainder)
    (hle : toRat e.remainder ≤ 1) : Ready e.invert := by
  obtain ⟨hfinite, hone, hupper⟩ := inverse_mem (by omega) hge hle
  exact ⟨hfinite, hone, hupper.trans (pow_le_pow_right₀ one_le_two hk)⟩

theorem Ready.invert_advance (h : Ready e) (hne : (e.advance.remainder == 0.0) = false) :
    Ready e.advance.invert := by
  have hrounds := h.rounds_fract
  obtain ⟨hfinite, hnonneg, hle⟩ := hrounds.mem_unit (Int.fract_nonneg _) (Int.fract_lt_one _).le
  rcases fract_ge h.one_le with hzero | hge
  · rw [hzero] at hrounds
    exact absurd (hrounds.toRat_eq_zero hfinite) (usable_iff.1 ⟨hfinite, hne⟩)
  · have hlower := hrounds.two_pow_le hfinite (by decide) (hge.trans (le_abs_self _))
    rw [abs_of_nonneg hnonneg] at hlower
    exact ready_invert le_rfl hlower hle

/-- The float itself, once its integral part has been tried in vain. -/
theorem ready_start (hx : x.isFinite = true) (hle : |toRat x| ≤ 2 ^ 40)
    (htest : (start x).advance.accepts x = false) : Ready (start x).advance.invert := by
  have hrounds := Binary64.rounds_fract hx (hle.trans (by norm_num))
  obtain ⟨hfinite, hnonneg, hone⟩ := hrounds.mem_unit (Int.fract_nonneg _) (Int.fract_lt_one _).le
  obtain ⟨hreach, hge, -⟩ := reach_mem hx hle
  -- what is tested is the remainder itself
  have hdistance : x - Float.ofInt (start x).advance.currentNum /
      Float.ofInt (start x).advance.currentDen = x - Float.ofInt (floor x) := by
    show x - Float.ofInt (floor x * 1 + 0) / Float.ofInt (floor x * 0 + 1) = _
    have hunit : Float.ofInt 1 = 1.0 := by decide +kernel
    rw [mul_one, add_zero, mul_zero, zero_add, hunit, Binary64.div_one]
  rw [accepts_eq, hdistance, decide_eq_false_iff_not, le_iff ((isFinite_abs _).trans hfinite) hreach,
    toRat_abs, abs_of_nonneg hnonneg, not_le] at htest
  have hpow : (2 : ℚ) ^ (-(40 : ℕ) : ℤ) = 1 / 2 ^ 40 := by norm_num
  refine ready_invert (k := 40) (by decide) ?_ hone
  rw [hpow]
  exact hge.trans htest.le

/-- What holds of every expansion that is tried: its convergents, and that its remainder can be
inverted if the search goes on. -/
theorem Tried.convergents (hx : x.isFinite = true) (hle : |toRat x| ≤ 2 ^ 40)
    (h : Tried x (start x) n e) : Convergents (floor x) e ∧
      (e.accepts x = false → (e.remainder == 0.0) = false → Ready e.invert) := by
  induction h with
  | first => exact ⟨convergents_start x, fun htest _ => ready_start hx hle htest⟩
  | @next n e _ _ htest hne ih =>
    obtain ⟨hconvergents, hready⟩ := ih
    have hready := hready htest hne
    have hinvert : Convergents (floor x) e.invert := ⟨hconvergents.det, hconvergents.den_pos,
      hconvergents.previousDen_nonneg, hconvergents.previousDen_le, hconvergents.ge, hconvergents.le,
      hconvergents.previous⟩
    exact ⟨hinvert.advance hready.one_le_term, fun _ => hready.invert_advance⟩

/-! ### Words -/

/-- The next convergent is formed in wide words. -/
structure InWords (e : Expansion) : Prop where
  term : Wide.Holds e.term
  num : Wide.Holds (e.term * e.currentNum) ∧ Wide.Holds (e.term * e.currentNum + e.previousNum)
  den : Wide.Holds (e.term * e.currentDen) ∧ Wide.Holds (e.term * e.currentDen + e.previousDen)

theorem inWords_of_le {b : ℕ} (hb : b ≤ 2 ^ 58) (hterm : e.term.natAbs ≤ 2 ^ 52)
    (hnum : e.currentNum.natAbs ≤ b) (hnum' : e.previousNum.natAbs ≤ b)
    (hden : e.currentDen.natAbs ≤ b) (hden' : e.previousDen.natAbs ≤ b) : InWords e := by
  have hproduct : ∀ {n m : ℤ}, n.natAbs ≤ b → m.natAbs ≤ b → Wide.Holds (e.term * n) ∧
      Wide.Holds (e.term * n + m) := by
    intro n m hn hm
    have hle : (e.term * n).natAbs ≤ 2 ^ 52 * 2 ^ 58 := by
      rw [Int.natAbs_mul]
      exact Nat.mul_le_mul hterm (hn.trans hb)
    constructor <;> constructor <;> omega
  exact ⟨⟨by omega, by omega⟩, hproduct hnum hnum', hproduct hden hden'⟩

/-- A convergent of a float is no larger than its denominator allows. -/
theorem Convergents.natAbs_le {b : ℕ} (h : Convergents a e) (ha : a.natAbs ≤ b)
    (hden : e.currentDen ≤ maxDenominator) :
    e.currentNum.natAbs ≤ (b + 1) * maxDenominator ∧
      e.previousNum.natAbs ≤ (b + 1) * maxDenominator := by
  have hbetween : ∀ {n d : ℤ}, 0 ≤ d → d ≤ maxDenominator → a * d ≤ n → n ≤ (a + 1) * d →
      n.natAbs ≤ (b + 1) * maxDenominator := by
    intro n d hd hd' hge hle
    have hlow : -(b + 1 : ℤ) * d ≤ a * d := mul_le_mul_of_nonneg_right (by omega) hd
    have hhigh : (a + 1) * d ≤ (b + 1 : ℤ) * d := mul_le_mul_of_nonneg_right (by omega) hd
    have hmax : (b + 1 : ℤ) * d ≤ (b + 1) * maxDenominator :=
      mul_le_mul_of_nonneg_left hd' (by omega)
    have habs : |n| ≤ (b + 1 : ℤ) * maxDenominator := abs_le.2 ⟨by linarith, by linarith⟩
    rw [Int.abs_eq_natAbs] at habs
    exact_mod_cast habs
  refine ⟨hbetween (h.den_pos.trans' zero_le_one) hden h.ge h.le, ?_⟩
  obtain ⟨hge, hle⟩ | ⟨hnum, -⟩ := h.previous
  · exact hbetween h.previousDen_nonneg (h.previousDen_le.trans hden) hge hle
  · rw [hnum]
    exact one_le_mul_of_one_le_of_one_le (by omega) (by decide)

theorem natAbs_floor_le (hx : x.isFinite = true) {k : ℕ} (hle : |toRat x| ≤ 2 ^ k) :
    (floor x).natAbs ≤ 2 ^ k := by
  obtain ⟨hlow, hhigh⟩ := abs_le.1 hle
  have hge : -2 ^ k ≤ floor x := by
    rw [floor_eq hx, Int.le_floor]
    push_cast
    exact hlow
  have hle : floor x ≤ 2 ^ k := by
    rw [floor_eq hx]
    exact_mod_cast (Int.floor_le _).trans hhigh
  have hcast : ((2 ^ k : ℕ) : ℤ) = 2 ^ k := by push_cast; rfl
  omega

end Expansion

/-! ### The exponent that is read -/

variable {x : Float} {f : Exponent} {h k : ℤ}

/-- A fraction in lowest terms is left as it is. -/
theorem reduce_eq_ok_iff_of_coprime (hk : 1 ≤ k) (hcoprime : h.natAbs.Coprime k.natAbs)
    (hh : h.natAbs < 2 ^ 63) (hk' : k < 2 ^ 63) :
    reduce h k = .ok f ↔ f.num = h ∧ (f.den : ℤ) = k := by
  have hpos : 0 < k := hk
  have hnum : (Rat.divInt h k).num = h := by
    rw [Rat.divInt_eq_div]
    exact Rat.num_div_eq_of_coprime hpos hcoprime
  have hden : ((Rat.divInt h k).den : ℤ) = k := by
    rw [Rat.divInt_eq_div]
    exact Rat.den_div_eq_of_coprime hpos hcoprime
  have hrepresentable : Representable (Rat.divInt h k) := by
    refine ⟨?_, ?_⟩ <;> omega
  rw [reduce_eq_ok_iff, and_iff_right hrepresentable]
  constructor
  · intro hf
    rw [num, den, hf]
    exact ⟨hnum, hden⟩
  · rintro ⟨hn, hd⟩
    refine Rat.ext (hn.trans hnum.symm) ?_
    have : ((f.val.den : ℕ) : ℤ) = (Rat.divInt h k).den := hd.trans hden.symm
    exact_mod_cast this

/-- A float that is expanded. -/
def Expanded (x : Float) : Prop := x.isFinite = true ∧ ¬ x.abs > 1e12

theorem toRat_limit : (1e12 : Float).isFinite = true ∧ toRat 1e12 = 10 ^ 12 := by
  decide +kernel

theorem expanded_iff : Expanded x ↔ x.isFinite = true ∧ |toRat x| ≤ 10 ^ 12 := by
  refine and_congr_right fun hx => ?_
  have hle : x.abs > 1e12 ↔ 10 ^ 12 < |toRat x| := by
    rw [gt_iff_lt, lt_iff toRat_limit.1 ((isFinite_abs x).trans hx), toRat_limit.2, toRat_abs]
  rw [hle, not_lt]

theorem Expanded.le (h : Expanded x) : |toRat x| ≤ 2 ^ 40 :=
  (expanded_iff.1 h).2.trans (by norm_num)

theorem convergent?_eq_some_iff : convergent? x = some (h, k) ↔
    Expanded x ∧ Expansion.search x 64 (.start x) = some (h, k) := by
  have hcondition : (!x.isFinite || decide (x.abs > 1e12)) = true ↔ ¬ Expanded x := by
    rw [Expanded, Bool.or_eq_true, Bool.not_eq_true', decide_eq_true_iff]
    cases x.isFinite <;> simp
  rw [convergent?]
  split_ifs with hx
  · simp [hcondition.1 hx]
  · rw [and_iff_right (not_not.1 (mt hcondition.2 hx))]

theorem ofFloat_eq_ok_iff : ofFloat x = .ok f ↔
    ∃ h k, convergent? x = some (h, k) ∧ reduce h k = .ok f := by
  rw [ofFloat]
  cases convergent? x with
  | none => simp
  | some p => simp [Prod.ext_iff]

/-- What is read off a float: the first convergent that passes the test, with the numerator and the
denominator that were tested, which are in lowest terms. Wide words hold all that the search forms. -/
structure ConvergentLaw (x : Float) (f : Exponent) : Prop where
  reads : ofFloat x = .ok f ↔ Expanded x ∧ ∃ e, Expansion.Accepted x (.start x) 64 e ∧
    f.num = e.currentNum ∧ (f.den : ℤ) = e.currentDen
  mem : ofFloat x = .ok f → f.num.natAbs.Coprime f.den ∧ 1 ≤ f.den ∧ f.den ≤ maxDenominator
  lowestTerms : Expanded x → ∀ n e, Expansion.Tried x (.start x) n e →
    1 ≤ e.currentDen ∧ e.currentNum.natAbs.Coprime e.currentDen.natAbs
  words : Expanded x → Expansion.InWords (.start x) ∧ ∀ n e, Expansion.Tried x (.start x) n e →
    e.currentDen ≤ maxDenominator → e.accepts x = false → (e.remainder == 0.0) = false →
      e.invert.InWords

theorem ofFloat_reads : ofFloat x = .ok f ↔ Expanded x ∧
    ∃ e, Expansion.Accepted x (.start x) 64 e ∧ f.num = e.currentNum ∧ (f.den : ℤ) = e.currentDen := by
  rw [ofFloat_eq_ok_iff]
  simp only [convergent?_eq_some_iff, Expansion.search_eq_some_iff]
  have hreduce : Expanded x → ∀ e, Expansion.Accepted x (.start x) 64 e →
      (reduce e.currentNum e.currentDen = .ok f ↔
        f.num = e.currentNum ∧ (f.den : ℤ) = e.currentDen) := by
    rintro hx e ⟨⟨n, -, ht⟩, hden, -⟩
    obtain ⟨hconvergents, -⟩ := ht.convergents hx.1 hx.le
    obtain ⟨hnum, -⟩ := hconvergents.natAbs_le (Expansion.natAbs_floor_le hx.1 hx.le) hden
    have hnum := hnum.trans (by decide : (2 ^ 40 + 1) * maxDenominator ≤ 2 ^ 58)
    have hden : e.currentDen ≤ 100000 := hden
    exact reduce_eq_ok_iff_of_coprime hconvergents.den_pos hconvergents.coprime (by omega) (by omega)
  constructor
  · rintro ⟨_, _, ⟨hx, e, he, rfl, rfl⟩, hf⟩
    exact ⟨hx, e, he, (hreduce hx e he).1 hf⟩
  · rintro ⟨hx, e, he, hf⟩
    exact ⟨_, _, ⟨hx, e, he, rfl, rfl⟩, (hreduce hx e he).2 hf⟩

theorem convergentLaw (x : Float) (f : Exponent) : ConvergentLaw x f where
  reads := ofFloat_reads
  mem hf := by
    obtain ⟨-, e, he, -, hden⟩ := ofFloat_reads.1 hf
    have hle := he.den_le
    exact ⟨f.val.reduced, f.den_pos, by omega⟩
  lowestTerms hx n e ht := by
    obtain ⟨hconvergents, -⟩ := ht.convergents hx.1 hx.le
    exact ⟨hconvergents.den_pos, hconvergents.coprime⟩
  words hx := by
    have hfloor := Expansion.natAbs_floor_le hx.1 hx.le
    refine ⟨Expansion.inWords_of_le (b := 1) (by decide) ?_ le_rfl zero_le_one zero_le_one le_rfl, ?_⟩
    · exact hfloor.trans (by decide)
    · intro n e ht hden htest hne
      obtain ⟨hconvergents, hready⟩ := ht.convergents hx.1 hx.le
      obtain ⟨hnum, hnum'⟩ := hconvergents.natAbs_le hfloor hden
      have hpos := hconvergents.den_pos
      have hnonneg := hconvergents.previousDen_nonneg
      have hle := hconvergents.previousDen_le
      have hden : e.currentDen ≤ 100000 := hden
      have hready := hready htest hne
      have hterm := Expansion.natAbs_floor_le hready.isFinite (k := 52)
        (by rw [abs_of_nonneg (zero_le_one.trans hready.one_le)]; exact hready.le)
      have hwide : (2 ^ 40 + 1) * maxDenominator ≤ 2 ^ 58 := by decide
      refine Expansion.inWords_of_le hwide hterm hnum hnum' ?_ ?_
      · show e.currentDen.natAbs ≤ (2 ^ 40 + 1) * 100000
        omega
      · show e.previousDen.natAbs ≤ (2 ^ 40 + 1) * 100000
        omega

end QuantityCalculus.Exponent
