import Mathlib.Algebra.Order.Ring.Unbundled.Rat
import Mathlib.Data.Int.GCD
import QuantityCalculus.Exponent.Wide
import QuantityCalculus.Proofs.Exponent.Exact

/-! Wide words suffice. Euclid's algorithm stays within words that hold its arguments, and so does
bringing a fraction to lowest terms, which gives the numerator and the denominator of the rational
number that the fraction stands for. The products and sums of the parts of exponents fit wide words,
so computing in words always has an outcome, and it is the exact one. -/

namespace QuantityCalculus

/-- The parts of an exponent, in words. -/
def Exponent.fraction (x : Exponent) : Wide.Fraction := ⟨x.num, x.den⟩

namespace Wide

open Exponent (fraction)

variable {p q n d : ℤ}

theorem word?_eq_some (h : Holds n) : word? n = some n := if_pos h

theorem holds_of_natAbs_lt (h : n.natAbs < 2 ^ 127) : Holds n := by
  unfold Holds
  omega

/-- A computation goes on with a number that fits. -/
theorem word?_bind {α : Type} (h : n.natAbs < 2 ^ 127) (f : ℤ → Option α) :
    (word? n >>= f) = f n := by
  rw [word?_eq_some (holds_of_natAbs_lt h)]
  rfl

theorem div?_eq_some (hp : p.natAbs < 2 ^ 127) (hq : q ≠ 0) : div? p q = some (p.tdiv q) := by
  rw [div?, if_neg hq]
  exact word?_eq_some (holds_of_natAbs_lt ((Int.natAbs_tdiv_le_natAbs p q).trans_lt hp))

theorem rem?_eq_some (hp : p.natAbs < 2 ^ 127) (hq : q ≠ 0) : rem? p q = some (p.tmod q) := by
  rw [rem?, div?_eq_some hp hq]
  rfl

/-! ### Euclid's algorithm -/

/-- The algorithm finds the greatest common divisor of two natural numbers. -/
theorem euclid_eq (a b : ℕ) (ha : a < 2 ^ 127) (hb : b < 2 ^ 127) :
    euclid a b = some (Nat.gcd a b : ℤ) := by
  induction b using Nat.strong_induction_on generalizing a with
  | _ b ih =>
    rw [euclid]
    split
    · rename_i h0
      rw [Int.natCast_eq_zero.1 h0, Nat.gcd_zero_right]
    · rename_i h0
      have hpos : 0 < b := by omega
      have hrem : rem? a b = some ((a % b : ℕ) : ℤ) := by
        rw [rem?_eq_some (by rwa [Int.natAbs_natCast]) h0]
        rfl
      have hlt : a % b < b := Nat.mod_lt a hpos
      rw [hrem]
      dsimp only
      rw [ih (a % b) hlt b hb (hlt.trans hb), Nat.gcd_comm, ← Nat.gcd_rec, Nat.gcd_comm]

theorem gcd_eq (hp : p.natAbs < 2 ^ 127) (hq : q.natAbs < 2 ^ 127) (h0 : q ≠ 0) :
    gcd p q = some (Int.gcd p q : ℤ) := by
  have hne : ((Nat.gcd p.natAbs q.natAbs : ℕ) : ℤ) ≠ 0 := by
    rw [Ne, Int.natCast_eq_zero, Nat.gcd_eq_zero_iff]
    omega
  rw [gcd, word?_bind (by rwa [Int.natAbs_natCast]), word?_bind (by rwa [Int.natAbs_natCast]),
    euclid_eq _ _ hp hq]
  exact congrArg some (if_neg hne)

/-! ### Lowest terms -/

/-- A fraction is refused exactly if its rational number is not representable. -/
theorem narrow_eq (n d : ℤ) (q : ℚ) : narrow n d q.num q.den =
    if Representable q then .ok ⟨q.num, q.den⟩ else .error (.overflow n d) := by
  by_cases h : Representable q
  · have ⟨hn, hd⟩ := h
    have hmin : q.num ≠ -0x8000000000000000 := by omega
    have hnum : HoldsNarrow q.num := ⟨by omega, by omega⟩
    have hden : HoldsNarrow q.den := ⟨by omega, by omega⟩
    rw [narrow, if_neg hmin, if_pos ⟨hnum, hden⟩, if_pos h]
  · rw [if_neg h]
    unfold narrow
    split_ifs with hmin hwords
    · rfl
    · obtain ⟨⟨hl, hu⟩, -, hd⟩ := hwords
      exact absurd ⟨by omega, by omega⟩ h
    · rfl

theorem reduce_map (n d : ℤ) : (Exponent.reduce n d).map fraction =
    if Representable (Rat.divInt n d) then .ok ⟨(Rat.divInt n d).num, (Rat.divInt n d).den⟩
    else .error (.overflow n d) := by
  unfold Exponent.reduce
  split <;> rfl

/-- The parts of a fraction, divided by their greatest common divisor, are those of its rational
number up to a common sign. -/
theorem tdiv_gcd (hd : d ≠ 0) :
    n.tdiv (Int.gcd n d) = d.sign * (Rat.divInt n d).num ∧
      d.tdiv (Int.gcd n d) = d.sign * (Rat.divInt n d).den := by
  have hsign : d.sign * d.sign = 1 := by
    rcases hd.lt_or_gt with h | h
    · rw [Int.sign_eq_neg_one_of_neg h]; rfl
    · rw [Int.sign_eq_one_of_pos h]; rfl
  rw [Rat.num_divInt, Rat.den_divInt, if_neg hd, Int.gcd_comm d n,
    Int.tdiv_eq_ediv_of_dvd (Int.gcd_dvd_left n d), Int.tdiv_eq_ediv_of_dvd (Int.gcd_dvd_right n d)]
  constructor
  · rw [Int.mul_ediv_assoc _ (Int.gcd_dvd_left n d), ← mul_assoc, hsign, one_mul]
  · rw [Int.natCast_ediv, ← Int.mul_ediv_assoc _ (Int.dvd_natAbs.2 (Int.gcd_dvd_right n d)),
      Int.sign_mul_natAbs]

/-- Words that hold the parts of a fraction suffice to bring it to lowest terms. -/
theorem reduce_eq (hn : n.natAbs < 2 ^ 127) (hd : d.natAbs < 2 ^ 127) (h0 : d ≠ 0) :
    reduce n d = some ((Exponent.reduce n d).map fraction) := by
  have hg : (Int.gcd n d : ℤ) ≠ 0 := by
    rw [Ne, Int.natCast_eq_zero, Int.gcd_eq_zero_iff]
    exact fun h => h0 h.2
  obtain ⟨hnum, hden⟩ := tdiv_gcd (n := n) h0
  have hnum_le := Int.natAbs_tdiv_le_natAbs n (Int.gcd n d)
  have hden_le := Int.natAbs_tdiv_le_natAbs d (Int.gcd n d)
  have hpos := (Rat.divInt n d).den_pos
  rw [reduce_map, ← narrow_eq, reduce, gcd_eq hn hd h0]
  simp only [Option.bind_eq_bind, Option.bind_some, div?_eq_some hn hg, div?_eq_some hd hg]
  rcases h0.lt_or_gt with hneg | hpos'
  · rw [Int.sign_eq_neg_one_of_neg hneg] at hnum hden
    have hwords : word? (-n.tdiv (Int.gcd n d)) = some (Rat.divInt n d).num ∧
        word? (-d.tdiv (Int.gcd n d)) = some ((Rat.divInt n d).den : ℤ) := by
      rw [word?_eq_some (holds_of_natAbs_lt (by omega)),
        word?_eq_some (holds_of_natAbs_lt (by omega)), hnum, hden]
      constructor <;> congr 1 <;> ring
    rw [if_pos (by omega), hwords.1, hwords.2]
    rfl
  · rw [Int.sign_eq_one_of_pos hpos', one_mul] at hnum hden
    rw [if_neg (by omega), hnum, hden]
    rfl

example : (reduce 6 (-4)).map Except.toOption = some (some ⟨-3, 2⟩) := by decide +kernel

/-! ### Operations -/

section Operations

variable (x y : Exponent)

theorem natAbs_num_le : x.num.natAbs ≤ 2 ^ 63 := by
  have ⟨hl, hu, _⟩ := x.fits
  unfold Exponent.num
  omega

theorem den_le : (x.den : ℤ).natAbs ≤ 2 ^ 63 - 1 := by
  have ⟨_, _, hd⟩ := x.fits
  unfold Exponent.den
  omega

theorem natAbs_mul_le {a b : ℤ} {m n : ℕ} (ha : a.natAbs ≤ m) (hb : b.natAbs ≤ n) :
    (a * b).natAbs ≤ m * n := by
  rw [Int.natAbs_mul]
  exact Nat.mul_le_mul ha hb

theorem fraction_add : x.fraction.add y.fraction = some ((x.add y).map fraction) := by
  have ha := natAbs_mul_le (natAbs_num_le x) (den_le y)
  have hb := natAbs_mul_le (natAbs_num_le y) (den_le x)
  have hd := natAbs_mul_le (den_le x) (den_le y)
  have hs := Int.natAbs_add_le (x.num * y.den) (y.num * x.den)
  have h0 := mul_ne_zero x.den_ne_zero y.den_ne_zero
  dsimp only [Fraction.add, fraction]
  rw [word?_bind (by omega), word?_bind (by omega), word?_bind (by omega), word?_bind (by omega),
    reduce_eq (by omega) (by omega) h0]
  rfl

theorem fraction_mul : x.fraction.mul y.fraction = some ((x.mul y).map fraction) := by
  have hn := natAbs_mul_le (natAbs_num_le x) (natAbs_num_le y)
  have hd := natAbs_mul_le (den_le x) (den_le y)
  have h0 := mul_ne_zero x.den_ne_zero y.den_ne_zero
  dsimp only [Fraction.mul, fraction]
  rw [word?_bind (by omega), word?_bind (by omega), reduce_eq (by omega) (by omega) h0]
  rfl

theorem fraction_neg : x.fraction.neg = some (x.neg.map fraction) := by
  have hn := natAbs_num_le x
  have hd := den_le x
  dsimp only [Fraction.neg, fraction]
  rw [word?_bind (by omega), reduce_eq (by omega) (by omega) x.den_ne_zero]
  rfl

theorem fraction_sub : x.fraction.sub y.fraction = some ((x.sub y).map fraction) := by
  unfold Fraction.sub Exponent.sub
  rw [fraction_neg]
  cases y.neg with
  | error e => rfl
  | ok z => exact fraction_add x z

theorem fraction_div (hy : y ≠ 0) : x.fraction.div y.fraction =
    some ((Exponent.reduce (Exponent.quotientParts x y).1
      (Exponent.quotientParts x y).2).map fraction) := by
  have hn := natAbs_mul_le (natAbs_num_le x) (den_le y)
  have hd := natAbs_mul_le (den_le x) (natAbs_num_le y)
  have hy : y.num ≠ 0 := fun h => hy (Exponent.ext (Rat.num_eq_zero.1 h))
  have h0 := mul_ne_zero x.den_ne_zero hy
  dsimp only [Fraction.div, fraction]
  rw [word?_bind (by omega), word?_bind (by omega), reduce_eq (by omega) (by omega) h0]
  rfl

theorem fraction_cmp : x.fraction.cmp y.fraction = some (x.cmp y) := by
  have ha := natAbs_mul_le (natAbs_num_le x) (den_le y)
  have hb := natAbs_mul_le (natAbs_num_le y) (den_le x)
  dsimp only [Fraction.cmp, fraction]
  rw [word?_bind (by omega), word?_bind (by omega)]
  rfl

end Operations

end Wide

end QuantityCalculus
