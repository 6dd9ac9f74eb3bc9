import QuantityCalculus.Proofs.Exponent.Convergents

/-! Exponents written as floats and read again. The expansion of the float of a fraction `n / d` follows
Euclid's algorithm on `n` and `d`: the fraction is a combination of the last two convergents with
coefficients `p` and `q`, and the remainder is near `p / q`. The error is the one of the float,
carried along by the determinant of the convergents, and too small for a term to be larger than that
of the algorithm; a term can be too small by one at the very end, where the next one makes up for it.
So the fraction itself is tried if no convergent before it is accepted. One that is accepted before
is close to the fraction, but for the reach of large floats it need not be the fraction. -/

namespace QuantityCalculus.Exponent

open Binary64

namespace Expansion

variable {x : Float} {e : Expansion} {n d p q : ℤ} {t : ℚ} {terms : ℕ}

/-- The denominator of the fraction that an expansion stands for, in units of the one that the
remainder leaves. -/
def weight (e : Expansion) : ℚ := e.currentDen * toRat e.remainder + e.previousDen

/-- The fraction `n / d` is still to come: it is the combination of the last two convergents with the
coefficients `p` and `q`, whose quotient the remainder approximates. -/
structure Tracks (n d : ℤ) (t : ℚ) (p q : ℤ) (e : Expansion) : Prop where
  num : n = p * e.currentNum + q * e.previousNum
  den : d = p * e.currentDen + q * e.previousDen
  pos : 1 ≤ q
  le : q ≤ d
  den_nonneg : 0 ≤ e.currentDen
  den_le : e.currentDen ≤ d
  previousDen_nonneg : 0 ≤ e.previousDen
  near : |(p : ℚ) - q * toRat e.remainder| ≤ t * e.weight

/-- The coefficient left over by a term. -/
def leftover (p q : ℤ) (e : Expansion) : ℤ := p - e.term * q

theorem mul_fract_eq (hfinite : e.remainder.isFinite = true) (p q : ℤ) :
    q * Int.fract (toRat e.remainder) = leftover p q e - (p - q * toRat e.remainder) := by
  rw [leftover, term, floor_eq hfinite, Int.fract]
  push_cast
  ring

/-- The weight in terms of the convergents that the next term leads to. -/
theorem weight_eq (hfinite : e.remainder.isFinite = true) :
    e.weight = e.advance.currentDen + e.currentDen * Int.fract (toRat e.remainder) := by
  have hden : (e.advance.currentDen : ℚ) = ⌊toRat e.remainder⌋ * e.currentDen + e.previousDen := by
    rw [← floor_eq hfinite]
    show ((e.term * e.currentDen + e.previousDen : ℤ) : ℚ) = _
    push_cast
    rfl
  rw [weight, hden, Int.fract]
  ring

/-- The error of a coefficient, carried from one term to the next by the fractional part `θ`. -/
theorem abs_error_le {q l r k m w θ η : ℚ} (hθ : 0 < θ) (hinverse : |r * θ - 1| ≤ 1 / 2 ^ 51)
    (hfract : q * θ = l - η) (hnear : |η| ≤ t * w) (hweight : w = k + m * θ) (hl : 0 ≤ l)
    (hl' : l ≤ 100000) (hk : 1 ≤ k) (hm : 0 ≤ m) (ht : 0 ≤ t) (ht' : t ≤ 1 / 2 ^ 25) :
    |q - l * r| ≤ (t + 1 / 2 ^ 33) * (k * r + m) := by
  have hm := mul_nonneg hm hθ.le
  have herror : |q - l * r| * θ ≤ l * (1 / 2 ^ 51) + t * w := by
    have hsplit : (q - l * r) * θ = -(l * (r * θ - 1)) - η := by linear_combination hfract
    rw [← abs_of_pos hθ, ← abs_mul, hsplit]
    refine (abs_sub _ _).trans (add_le_add ?_ hnear)
    rw [abs_neg, abs_mul, abs_of_nonneg hl]
    exact mul_le_mul_of_nonneg_left hinverse hl
  have hlower : (t + 1 / 2 ^ 33) * (w - k * (1 / 2 ^ 51)) ≤ (t + 1 / 2 ^ 33) * (k * r + m) * θ := by
    have hinverse := mul_le_mul_of_nonneg_left (abs_le.1 hinverse).1 (zero_le_one.trans hk)
    rw [mul_assoc]
    exact mul_le_mul_of_nonneg_left (by linarith) (by linarith)
  have hsmall : t * (k * (1 / 2 ^ 51)) ≤ 1 / 2 ^ 25 * (k * (1 / 2 ^ 51)) :=
    mul_le_mul_of_nonneg_right ht' (by linarith)
  have hscaled : |q - l * r| * θ ≤ (t + 1 / 2 ^ 33) * (k * r + m) * θ := by
    linarith
  exact le_of_mul_le_mul_right hscaled hθ

section Step

variable (h : Tracks n d t p q e) (hd : d ≤ maxDenominator) (ht : t ≤ 1 / 2 ^ 25)
  (hweight : 0 ≤ e.weight)

include h hd ht hweight

/-- The remainder is off by little in units of the quotient. -/
theorem Tracks.remainder_near : |(p : ℚ) - q * toRat e.remainder| ≤ 1 / 300 := by
  have hd : (d : ℚ) ≤ 100000 := by exact_mod_cast hd
  have hk : (0 : ℚ) ≤ e.currentDen := by exact_mod_cast h.den_nonneg
  have hk' : (e.currentDen : ℚ) ≤ 100000 := le_trans (by exact_mod_cast h.den_le) hd
  have hq : (1 : ℚ) ≤ q := by exact_mod_cast h.pos
  have hden : (d : ℚ) = p * e.currentDen + q * e.previousDen := by exact_mod_cast h.den
  have hnear := h.near
  have hbound : t * e.weight ≤ 1 / 2 ^ 25 * e.weight := mul_le_mul_of_nonneg_right ht hweight
  have hweighted : q * e.weight = d - (p - q * toRat e.remainder) * e.currentDen := by
    rw [weight, hden]
    ring
  have hge : e.weight ≤ q * e.weight := le_mul_of_one_le_left hweight hq
  have herror : -(p - q * toRat e.remainder) * e.currentDen ≤ 1 / 2 ^ 25 * e.weight * 100000 := by
    refine mul_le_mul (((neg_le_abs _).trans hnear).trans hbound) hk' hk (by positivity)
  linarith

variable (hfinite : e.remainder.isFinite = true)

include hfinite

/-- A term is that of Euclid's algorithm, or one less if nothing would be left over. -/
theorem Tracks.leftover_mem : 0 ≤ leftover p q e ∧ leftover p q e ≤ q := by
  have hq : (0 : ℚ) < q := by exact_mod_cast h.pos
  have heq := mul_fract_eq hfinite p q
  obtain ⟨hlow, hhigh⟩ := abs_le.1 (h.remainder_near hd ht hweight)
  have hnonneg := mul_nonneg hq.le (Int.fract_nonneg (toRat e.remainder))
  have hlt := mul_lt_mul_of_pos_left (Int.fract_lt_one (toRat e.remainder)) hq
  have hge : ((-1 : ℤ) : ℚ) < leftover p q e := by push_cast; linarith
  have hle : ((leftover p q e : ℤ) : ℚ) < ((q + 1 : ℤ) : ℚ) := by push_cast; linarith
  have hge := Int.cast_lt.1 hge
  have hle := Int.cast_lt.1 hle
  omega

/-- Where something is left over, the remainder can be inverted. -/
theorem Tracks.fract_ge (hpos : 1 ≤ leftover p q e) :
    (2 : ℚ) ^ (-(17 : ℕ) : ℤ) ≤ Int.fract (toRat e.remainder) := by
  have hq : (0 : ℚ) < q := by exact_mod_cast h.pos
  have hq' : (q : ℚ) ≤ 100000 := by exact_mod_cast h.le.trans hd
  have heq := mul_fract_eq hfinite p q
  obtain ⟨-, hhigh⟩ := abs_le.1 (h.remainder_near hd ht hweight)
  have hpos : (1 : ℚ) ≤ leftover p q e := by exact_mod_cast hpos
  have hfract := Int.fract_nonneg (toRat e.remainder)
  have hscaled := mul_le_mul_of_nonneg_right hq' hfract
  norm_num
  linarith

/-- What is left over stays as near to the new remainder, for two more roundings. -/
theorem Tracks.invert_advance (ht' : 0 ≤ t) (hle : |toRat e.remainder| ≤ 2 ^ 52)
    (hone : 1 ≤ e.advance.currentDen) (hpos : 1 ≤ leftover p q e) :
    Tracks n d (t + 1 / 2 ^ 33) q (leftover p q e) e.advance.invert := by
  have hleftover := h.leftover_mem hd ht hweight hfinite
  have hge := h.fract_ge hd ht hweight hfinite hpos
  have hd' := h.den_nonneg
  have hden : d = q * e.advance.currentDen + leftover p q e * e.currentDen := by
    rw [h.den, leftover]
    show _ = q * (e.term * e.currentDen + e.previousDen) + _
    ring
  refine ⟨?_, hden, hpos, hleftover.2.trans h.le, hone.trans' zero_le_one, ?_, hd', ?_⟩
  · rw [h.num, leftover]
    show _ = q * (e.term * e.currentNum + e.previousNum) + (p - e.term * q) * e.currentNum
    ring
  · have hfirst := mul_le_mul_of_nonneg_right h.pos (hone.trans' zero_le_one)
    have hsecond := mul_nonneg hleftover.1 hd'
    show e.advance.currentDen ≤ d
    linarith
  · -- the error in units of the fractional part
    have hinverse := (Binary64.rounds_fract hfinite hle).inverse_near (by decide) hge
      (Int.fract_lt_one _).le
    have hθ : 0 < Int.fract (toRat e.remainder) := lt_of_lt_of_le (by positivity) hge
    have hfract := mul_fract_eq hfinite p q
    have hweight' := weight_eq hfinite
    have hq : ((leftover p q e : ℤ) : ℚ) ≤ 100000 := by
      exact_mod_cast (hleftover.2.trans h.le).trans hd
    have hpos : (0 : ℚ) ≤ leftover p q e := by exact_mod_cast hleftover.1
    have hk : (0 : ℚ) ≤ e.currentDen := by exact_mod_cast hd'
    have hone : (1 : ℚ) ≤ e.advance.currentDen := by exact_mod_cast hone
    exact abs_error_le hθ hinverse hfract h.near hweight' hpos hq hone hk ht' ht

end Step

/-! ### The search -/

/-- The float of a fraction in lowest terms, with a denominator that is tried. -/
structure FloatOf (n d : ℤ) (x : Float) : Prop where
  coprime : n.natAbs.Coprime d.natAbs
  den_le : d ≤ maxDenominator
  eq : x = Float.ofInt n / Float.ofInt d
  isFinite : x.isFinite = true
  le : |toRat x| ≤ 2 ^ 40

/-- A float is no distance from itself. -/
theorem FloatOf.accepts (hx : FloatOf n d x) (hnum : e.currentNum = n) (hden : e.currentDen = d) :
    e.accepts x = true := by
  have hrounds := rounds_sub hx.isFinite hx.isFinite
  rw [sub_self] at hrounds
  have hzero : |(0 : ℚ)| ≤ 2 ^ (0 : ℤ) := by norm_num
  have hfinite := (hrounds.le_two_pow (by decide) (by decide) hzero).1
  obtain ⟨hreach, hge, -⟩ := reach_mem hx.isFinite hx.le
  rw [accepts_eq, hnum, hden, ← hx.eq, decide_eq_true_iff,
    le_iff ((isFinite_abs _).trans hfinite) hreach, toRat_abs, hrounds.toRat_eq_zero hfinite,
    abs_zero]
  exact hge.trans' (by norm_num)

/-- Where nothing is left over, the convergent is the fraction itself. -/
theorem Tracks.eq_of_leftover (hx : FloatOf n d x) (h : Tracks n d t p q e)
    (hzero : leftover p q e = 0) : e.advance.currentNum = n ∧ e.advance.currentDen = d := by
  have hp : p = e.term * q := sub_eq_zero.1 hzero
  have hnum : n = q * e.advance.currentNum := by
    rw [h.num, hp]
    show _ = q * (e.term * e.currentNum + e.previousNum)
    ring
  have hden : d = q * e.advance.currentDen := by
    rw [h.den, hp]
    show _ = q * (e.term * e.currentDen + e.previousDen)
    ring
  have hunit : q.natAbs ∣ 1 := by
    rw [← hx.coprime]
    exact Nat.dvd_gcd (Int.natAbs_dvd_natAbs.2 ⟨_, hnum⟩) (Int.natAbs_dvd_natAbs.2 ⟨_, hden⟩)
  have hpos := h.pos
  have hone : q = 1 := by
    have := Nat.dvd_one.1 hunit
    omega
  rw [hnum, hden, hone, one_mul, one_mul]
  exact ⟨rfl, rfl⟩

/-- A fraction is found that is no longer than `n / d`. -/
def Found (x : Float) (d : ℤ) (e : Expansion) (terms : ℕ) : Prop :=
  ∃ e', Accepted x e terms e' ∧ e'.currentDen ≤ d

/-- One term: what is tried is accepted, or the expansion goes on and still tracks the fraction. -/
theorem Tracks.found_succ (hx : FloatOf n d x) (h : Tracks n d t p q e) (ht : t ≤ 1 / 2 ^ 25)
    (ht' : 0 ≤ t) (hweight : 0 ≤ e.weight) (hfinite : e.remainder.isFinite = true)
    (hle : |toRat e.remainder| ≤ 2 ^ 52) (hone : 1 ≤ e.advance.currentDen)
    (hrest : 1 ≤ leftover p q e → Ready e.advance.invert →
      Tracks n d (t + 1 / 2 ^ 33) q (leftover p q e) e.advance.invert →
        Found x d e.advance.invert terms) : Found x d e (terms + 1) := by
  have hleftover := h.leftover_mem hx.den_le ht hweight hfinite
  have haccepted : e.advance.currentDen ≤ d → e.advance.accepts x = true → Found x d e (terms + 1) :=
    fun hden htest => ⟨_, ⟨⟨1, by omega, .first⟩, hden.trans hx.den_le, htest⟩, hden⟩
  rcases hleftover.1.eq_or_lt with hzero | hpos
  · obtain ⟨hnum, hden⟩ := h.eq_of_leftover hx hzero.symm
    exact haccepted hden.le (hx.accepts hnum hden)
  · have hnext := h.invert_advance hx.den_le ht hweight hfinite ht' hle hone hpos
    have hden : e.advance.currentDen ≤ d := hnext.den_le
    cases htest : e.advance.accepts x with
    | true => exact haccepted hden htest
    | false =>
      have hrounds : Rounds e.advance.remainder _ := Binary64.rounds_fract hfinite hle
      have hge := h.fract_ge hx.den_le ht hweight hfinite hpos
      obtain ⟨hfinite', hnonneg, hupper⟩ :=
        hrounds.mem_unit (Int.fract_nonneg _) (Int.fract_lt_one _).le
      have hlower := hrounds.two_pow_le hfinite' (by decide) (hge.trans (le_abs_self _))
      rw [abs_of_nonneg hnonneg] at hlower
      have hne : toRat e.advance.remainder ≠ 0 := (lt_of_lt_of_le (by positivity) hlower).ne'
      obtain ⟨e', ⟨⟨n, hn, htried⟩, hmax, haccepts⟩, hle'⟩ :=
        hrest hpos (ready_invert (by decide) hlower hupper) hnext
      exact ⟨e', ⟨⟨n + 1, by omega, htried.cons (hden.trans hx.den_le) htest (usable_iff.2 hne).2⟩,
        hmax, haccepts⟩, hle'⟩

theorem Ready.weight_nonneg (hready : Ready e) (hden : 0 ≤ e.currentDen)
    (hden' : 0 ≤ e.previousDen) : 0 ≤ e.weight := by
  have hden : (0 : ℚ) ≤ e.currentDen := by exact_mod_cast hden
  have hden' : (0 : ℚ) ≤ e.previousDen := by exact_mod_cast hden'
  exact add_nonneg (mul_nonneg hden (zero_le_one.trans hready.one_le)) hden'

theorem Ready.abs_le (hready : Ready e) : |toRat e.remainder| ≤ 2 ^ 52 := by
  rw [abs_of_nonneg (zero_le_one.trans hready.one_le)]
  exact hready.le

/-- Every term after the first halves the product of the coefficients. -/
theorem Tracks.product_halves (h : Tracks n d t p q e) (hd : d ≤ maxDenominator)
    (ht : t ≤ 1 / 2 ^ 25) (hready : Ready e) : 1 ≤ p * q ∧ 2 * (q * leftover p q e) ≤ p * q := by
  have hpos := h.pos
  have hweight := hready.weight_nonneg h.den_nonneg h.previousDen_nonneg
  have hleftover := h.leftover_mem hd ht hweight hready.isFinite
  have hp : p = leftover p q e + e.term * q := by
    rw [leftover]
    ring
  have hq : q ≤ e.term * q := le_mul_of_one_le_left (hpos.trans' zero_le_one) hready.one_le_term
  constructor
  · exact one_le_mul_of_one_le_of_one_le (by omega) hpos
  · rw [mul_left_comm, mul_comm p]
    exact mul_le_mul_of_nonneg_left (by omega) (hpos.trans' zero_le_one)

/-- The fraction, or one before it, is found before the product of the coefficients is used up. -/
theorem Tracks.found (hx : FloatOf n d x) (h : Tracks n d t p q e) (hready : Ready e)
    (hden : 1 ≤ e.currentDen) (hproduct : p * q < 2 ^ terms) (ht' : 0 ≤ t)
    (ht : t + terms / 2 ^ 33 ≤ 1 / 2 ^ 25) : Found x d e terms := by
  induction terms generalizing t p q e with
  | zero =>
    have hge := (h.product_halves hx.den_le (by simpa using ht) hready).1
    rw [pow_zero] at hproduct
    omega
  | succ terms ih =>
    rw [Nat.cast_succ] at ht
    have hterms : (0 : ℚ) ≤ terms / 2 ^ 33 := by positivity
    have ht₁ : t ≤ 1 / 2 ^ 25 := by linarith
    have hone : 1 ≤ e.advance.currentDen := by
      have hterm := hready.one_le_term
      have hprev := h.previousDen_nonneg
      show 1 ≤ e.term * e.currentDen + e.previousDen
      nlinarith
    have hhalf := (h.product_halves hx.den_le ht₁ hready).2
    rw [pow_succ] at hproduct
    refine h.found_succ hx ht₁ ht' (hready.weight_nonneg h.den_nonneg h.previousDen_nonneg)
      hready.isFinite hready.abs_le hone fun _ hready' hnext => ?_
    exact ih hnext hready' hone (by omega) (by positivity) (by linarith)

/-- From the float itself. -/
theorem found_start (hx : FloatOf n d x) (hd : 1 ≤ d)
    (hnear : |(n : ℚ) - d * toRat x| ≤ 1 / 2 ^ 26) : Found x d (start x) 64 := by
  have hmax : d ≤ 100000 := hx.den_le
  have hweight : (start x).weight = 1 := by
    show ((0 : ℤ) : ℚ) * toRat x + ((1 : ℤ) : ℚ) = 1
    norm_num
  have htracks : Tracks n d (1 / 2 ^ 26) n d (start x) := by
    refine ⟨?_, ?_, hd, le_rfl, le_rfl, hd.trans' zero_le_one, zero_le_one, ?_⟩
    · show n = n * 1 + d * 0
      ring
    · show d = n * 0 + d * 1
      ring
    · rwa [hweight, mul_one]
  have hone : (start x).advance.currentDen = 1 := by
    show floor x * 0 + 1 = 1
    ring
  have hweight' : 0 ≤ (start x).weight := by rw [hweight]; exact zero_le_one
  have hsize : |toRat x| ≤ 2 ^ 52 := hx.le.trans (by norm_num)
  refine htracks.found_succ hx (by norm_num) (by norm_num) hweight' hx.isFinite hsize hone.ge
    fun _ hready hnext => ?_
  have hleftover := htracks.leftover_mem hx.den_le (by norm_num) hweight' hx.isFinite
  refine hnext.found hx hready hone.ge ?_ (by norm_num) (by norm_num)
  have hproduct : d * leftover n d (start x) ≤ 100000 * 100000 :=
    mul_le_mul hmax (hleftover.2.trans hmax) hleftover.1 (by norm_num)
  omega

/-! ### What is accepted -/

/-- A convergent that is accepted is hardly farther from the float than the tolerance, relative to the
float unless that is less than one. -/
theorem Accepted.near (hx : x.isFinite = true) (hle : |toRat x| ≤ 2 ^ 40) {e' : Expansion}
    (h : Accepted x e terms e') (hconvergents : Convergents (floor x) e')
    (hnum : e'.currentNum.natAbs < 2 ^ 53) :
    |toRat x - e'.currentNum / e'.currentDen| ≤ (1 + 1 / 2000) / 10 ^ 12 * max 1 |toRat x| := by
  have hden : (1 : ℚ) ≤ e'.currentDen := by exact_mod_cast hconvergents.den_pos
  have hmax : e'.currentDen ≤ 100000 := h.den_le
  have hpos := hconvergents.den_pos
  obtain ⟨hnfinite, hn⟩ := toRat_ofInt hnum
  obtain ⟨hdfinite, hd⟩ := toRat_ofInt (n := e'.currentDen) (by omega)
  have hquotient := rounds_div hnfinite hdfinite (by rw [hd]; linarith)
  rw [hn, hd] at hquotient
  -- the convergent lies between the same whole numbers as the float
  have hbetween : |(e'.currentNum : ℚ) / e'.currentDen| ≤ |toRat x| + 1 := by
    have hge : (floor x : ℚ) * e'.currentDen ≤ e'.currentNum := by exact_mod_cast hconvergents.ge
    have hle : (e'.currentNum : ℚ) ≤ (floor x + 1) * e'.currentDen := by
      exact_mod_cast hconvergents.le
    rw [← le_div_iff₀ (by linarith)] at hge
    rw [← div_le_iff₀ (by linarith)] at hle
    rw [floor_eq hx] at hge hle
    have hfloor := Int.floor_le (toRat x)
    have hlt := Int.lt_floor_add_one (toRat x)
    have habs := neg_abs_le (toRat x)
    have habs' := le_abs_self (toRat x)
    rw [abs_le]
    constructor <;> linarith
  have htest := h.accepts
  rw [accepts_eq, decide_eq_true_iff] at htest
  obtain ⟨hreach, -, hreach'⟩ := reach_mem hx hle
  have hone : 1 ≤ max 1 |toRat x| := le_max_left _ _
  have hfar : |toRat x| ≤ max 1 |toRat x| := le_max_right _ _
  generalize max 1 |toRat x| = b at *
  generalize Float.ofInt e'.currentNum / Float.ofInt e'.currentDen = z at *
  generalize (e'.currentNum : ℚ) / e'.currentDen = c at *
  have hfinite := (hquotient.le_two_pow (k := 41) (by decide) (by decide) (by norm_num; linarith)).1
  have hz : |toRat z - c| ≤ 1 / 2 ^ 53 * |c| + tiny := hquotient.near_toRat hfinite
  have htiny := tiny_le
  have hdistance : |toRat x - toRat z| ≤ 2 ^ 43 := by
    have htriangle := abs_sub (toRat x) (toRat z)
    have hz := (hquotient.near_toRat hfinite).abs_le
    linarith
  have hsub := (rounds_sub hx hfinite).le_two_pow (k := 43) (by decide) (by decide) hdistance |>.1
  rw [le_iff ((isFinite_abs _).trans hsub) hreach, toRat_abs] at htest
  have hge := (near_sub hx hfinite hsub).abs_ge
  have htriangle := abs_sub_le (toRat x) (toRat z) c
  linarith

end Expansion

/-! ### Exponents as floats -/

variable {f g : Exponent}

/-- Two fractions differ by a part of their denominators. -/
theorem one_le_abs_sub_mul {v w : ℚ} (h : v ≠ w) : 1 ≤ |v - w| * (v.den * w.den) := by
  have hv : (v.den : ℚ) ≠ 0 := by exact_mod_cast v.den_nz
  have hw : (w.den : ℚ) ≠ 0 := by exact_mod_cast w.den_nz
  have hcross : (v - w) * (v.den * w.den) = ((v.num * w.den - w.num * v.den : ℤ) : ℚ) := by
    nth_rewrite 1 [← Rat.num_div_den v, ← Rat.num_div_den w]
    push_cast
    field_simp
  have hne : v.num * w.den - w.num * v.den ≠ 0 := by
    intro hzero
    rw [hzero, Int.cast_zero] at hcross
    rcases mul_eq_zero.1 hcross with hsub | hprod
    · exact h (sub_eq_zero.1 hsub)
    · exact mul_ne_zero hv hw hprod
  have habs : |v - w| * (v.den * w.den) = |(v - w) * (v.den * w.den)| := by
    rw [abs_mul, abs_of_pos (a := (v.den * w.den : ℚ)) (by positivity)]
  rw [habs, hcross]
  exact_mod_cast Int.one_le_abs hne

/-- Two fractions with one denominator differ by a part of it. -/
theorem one_le_abs_sub_mul_of_den_eq {v w : ℚ} (h : v ≠ w) (hden : v.den = w.den) :
    1 ≤ |v - w| * v.den := by
  have hv : (v.den : ℚ) ≠ 0 := by exact_mod_cast v.den_nz
  have hne : v.num - w.num ≠ 0 := fun hzero => h (Rat.ext (sub_eq_zero.1 hzero) hden)
  have hnum : (v - w) * v.den = ((v.num - w.num : ℤ) : ℚ) := by
    rw [sub_mul, Rat.mul_den_eq_num, hden, Rat.mul_den_eq_num]
    push_cast
    rfl
  rw [← abs_of_nonneg (a := (v.den : ℚ)) (by positivity), ← abs_mul, hnum]
  exact_mod_cast Int.one_le_abs hne

/-- The float of an exponent of moderate size is rounded once. -/
theorem near_toFloat (hden : f.den ≤ maxDenominator) (hval : |f.val| ≤ 1000) :
    f.toFloat.isFinite = true ∧ |toRat f.toFloat - f.val| ≤ 1 / 2 ^ 53 * |f.val| := by
  have hden : f.den ≤ 100000 := hden
  have hd : (f.den : ℚ) ≤ 100000 := by exact_mod_cast hden
  have hpos : (0 : ℚ) < f.den := by exact_mod_cast f.den_pos
  have habs : |(f.num : ℚ)| = |f.val| * f.den := by
    rw [val_eq_div, abs_div, abs_of_pos hpos, div_mul_cancel₀ _ hpos.ne']
  have hnum : f.num.natAbs < 2 ^ 53 := by
    have hle : |(f.num : ℚ)| ≤ 1000 * 100000 :=
      habs.trans_le (mul_le_mul hval hd hpos.le (by norm_num))
    have hle : |f.num| ≤ 1000 * 100000 := by exact_mod_cast hle
    rw [Int.abs_eq_natAbs] at hle
    omega
  obtain ⟨hnfinite, hn⟩ := toRat_ofInt hnum
  obtain ⟨hdfinite, hd'⟩ := toRat_ofNat (n := f.den) (by omega)
  have hrounds := rounds_div hnfinite hdfinite (by rw [hd']; exact hpos.ne')
  rw [hn, hd', ← val_eq_div] at hrounds
  change Rounds f.toFloat f.val at hrounds
  have hfinite := (hrounds.le_two_pow (k := 10) (by decide) (by decide)
    (hval.trans (by norm_num))).1
  refine ⟨hfinite, ?_⟩
  by_cases hzero : f.val = 0
  · rw [hzero] at hrounds ⊢
    rw [hrounds.toRat_eq_zero hfinite]
    norm_num
  · have hone : (1 : ℚ) ≤ |(f.num : ℚ)| := by
      exact_mod_cast Int.one_le_abs (mt Rat.num_eq_zero.1 hzero)
    have hlarge : (2 : ℚ) ^ (-1022 : ℤ) ≤ |f.val| := by
      have hsmall := normal_le
      have hle : |f.val| * f.den ≤ |f.val| * 100000 :=
        mul_le_mul_of_nonneg_left hd (abs_nonneg _)
      linarith
    have hnear : |toRat f.toFloat - f.val| ≤ 1 / 2 ^ 53 * |f.val| + 0 :=
      hrounds.near_of_le hfinite hlarge
    rwa [add_zero] at hnear

/-- The tolerance in terms of the fraction and not of its float. -/
theorem abs_sub_val_le {x v w : ℚ} (hnear : |x - v| ≤ 1 / 2 ^ 53 * |v|)
    (hread : |x - w| ≤ (1 + 1 / 2000) / 10 ^ 12 * max 1 |x|) :
    |w - v| ≤ (1 + 1 / 1000) / 10 ^ 12 * max 1 |v| := by
  have hone : 1 ≤ max 1 |v| := le_max_left _ _
  have hle : |v| ≤ max 1 |v| := le_max_right _ _
  have habs := abs_sub_abs_le_abs_sub x v
  have hmax : max 1 |x| ≤ (1 + 1 / 2 ^ 53) * max 1 |v| := max_le (by linarith) (by linarith)
  have htriangle := abs_sub_le w x v
  rw [abs_sub_comm w x] at htriangle
  generalize max 1 |v| = b at *
  linarith

/-- The float is a small part of the denominator away from the fraction. -/
theorem abs_num_sub_le (hden : f.den ≤ maxDenominator) (hval : |f.val| ≤ 1000) :
    |(f.num : ℚ) - (f.den : ℤ) * toRat f.toFloat| ≤ 1 / 2 ^ 26 := by
  have hpos : (0 : ℚ) < f.den := by exact_mod_cast f.den_pos
  have hd : (f.den : ℚ) ≤ 100000 := by exact_mod_cast hden
  have hsplit : (f.num : ℚ) - (f.den : ℤ) * toRat f.toFloat =
      f.den * -(toRat f.toFloat - f.val) := by
    have hnum : (f.num : ℚ) = f.val * f.den := (Rat.mul_den_eq_num f.val).symm
    rw [hnum]
    push_cast
    ring
  have hnear := (near_toFloat hden hval).2
  rw [hsplit, abs_mul, abs_neg, abs_of_pos hpos]
  have hle : (f.den : ℚ) * |toRat f.toFloat - f.val| ≤ 100000 * (1 / 2 ^ 53 * 1000) :=
    mul_le_mul hd (hnear.trans (by linarith)) (abs_nonneg _) (by norm_num)
  exact hle.trans (by norm_num)

/-- A fraction is read that is no longer than `f` and within the tolerance. -/
theorem exists_reads (hden : f.den ≤ maxDenominator) (hval : |f.val| ≤ 1000) :
    ∃ g, ofFloat f.toFloat = .ok g ∧ g.den ≤ f.den ∧
      |g.val - f.val| ≤ (1 + 1 / 1000) / 10 ^ 12 * max 1 |f.val| := by
  obtain ⟨hfinite, hnear⟩ := near_toFloat hden hval
  have htriangle := abs_sub_abs_le_abs_sub (toRat f.toFloat) f.val
  have hsize : |toRat f.toFloat| ≤ 2 ^ 10 := by linarith
  have hexpanded : Expanded f.toFloat := expanded_iff.2 ⟨hfinite, hsize.trans (by norm_num)⟩
  have hx : Expansion.FloatOf f.num f.den f.toFloat :=
    ⟨f.val.reduced, by exact_mod_cast hden, rfl, hfinite, hexpanded.le⟩
  obtain ⟨e, haccepted, hle⟩ :=
    Expansion.found_start hx (by exact_mod_cast f.den_pos) (abs_num_sub_le hden hval)
  -- the convergent that is found is in lowest terms, and no larger than the float allows
  obtain ⟨n, -, htried⟩ := haccepted.tried
  obtain ⟨hconvergents, -⟩ := htried.convergents hfinite hexpanded.le
  have hpos := hconvergents.den_pos
  have hmax : e.currentDen ≤ 100000 := haccepted.den_le
  have hnum : e.currentNum.natAbs ≤ 2 ^ 52 :=
    (hconvergents.natAbs_le (Expansion.natAbs_floor_le hfinite hsize) haccepted.den_le).1.trans
      (by decide)
  obtain ⟨g, hg⟩ := exists_of_coprime (n := e.currentNum) (d := e.currentDen)
    ⟨by omega, by omega⟩ ⟨by omega, by omega⟩ hpos hconvergents.coprime
  obtain ⟨hgnum, hgden⟩ : g.num = e.currentNum ∧ (g.den : ℤ) = e.currentDen :=
    Wide.Fraction.mk.inj hg
  refine ⟨g, ofFloat_reads.2 ⟨hexpanded, e, haccepted, hgnum, hgden⟩, by omega, ?_⟩
  have hread := haccepted.near hfinite hexpanded.le hconvergents (by omega)
  have hgval : g.val = e.currentNum / e.currentDen := by
    rw [val_eq_div, hgnum, ← hgden]
    push_cast
    rfl
  rw [← hgval] at hread
  exact abs_sub_val_le hnear hread

/-- What is read off the float of `f`. -/
structure ReadBackLaw (f : Exponent) : Prop where
  /-- A fraction is always found. It is `f` or a shorter one within the tolerance. -/
  reads : ∃ g, ofFloat f.toFloat = .ok g ∧ (g = f ∨ g.den < f.den) ∧
    |g.val - f.val| ≤ (1 + 1 / 1000) / 10 ^ 12 * max 1 |f.val|
  /-- It is `f` where the tolerance separates fractions with the denominator of `f`. -/
  eq_of_separated : (f.den : ℚ) ^ 2 * max 1 |f.val| ≤ 999 * 10 ^ 9 → ofFloat f.toFloat = .ok f
  /-- So it is where the tolerance separates all fractions with denominators that are tried. -/
  eq_of_le : |f.val| ≤ 999 / 10 → ofFloat f.toFloat = .ok f

theorem readBackLaw (hden : f.den ≤ maxDenominator) (hval : |f.val| ≤ 1000) : ReadBackLaw f := by
  obtain ⟨g, hg, hle, hnear⟩ := exists_reads hden hval
  have hpos : (0 : ℚ) < f.den := by exact_mod_cast f.den_pos
  have hden' : f.den ≤ 100000 := hden
  have hmax : (f.den : ℚ) ≤ 100000 := by exact_mod_cast hden'
  have hgle : (g.den : ℚ) ≤ f.den := by exact_mod_cast hle
  have hgpos : (0 : ℚ) < g.den := by exact_mod_cast g.den_pos
  have hone : 1 ≤ max 1 |f.val| := le_max_left _ _
  have hlarge : max 1 |f.val| ≤ 1000 := max_le (by norm_num) hval
  have hshorter : g = f ∨ g.den < f.den := by
    by_contra! h
    -- two fractions with the denominator of `f` are too far apart
    have hsame : g.val.den = f.val.den := hle.antisymm h.2
    have hapart := one_le_abs_sub_mul_of_den_eq (fun heq => h.1 (ext heq)) hsame
    rw [hsame] at hapart
    have hbound := mul_le_mul_of_nonneg_right hnear hpos.le
    have hscaled : max 1 |f.val| * f.den ≤ 1000 * 100000 :=
      mul_le_mul hlarge hmax hpos.le (by norm_num)
    change 1 ≤ |g.val - f.val| * f.den at hapart
    linarith
  have hseparated : (f.den : ℚ) ^ 2 * max 1 |f.val| ≤ 999 * 10 ^ 9 → ofFloat f.toFloat = .ok f := by
    intro h
    suffices hgf : g = f by rw [hg, hgf]
    by_contra hgf
    have hapart := one_le_abs_sub_mul fun heq => hgf (ext heq)
    change 1 ≤ |g.val - f.val| * (g.den * f.den) at hapart
    have hdens : (g.den * f.den : ℚ) ≤ f.den ^ 2 := by
      rw [sq]
      exact mul_le_mul_of_nonneg_right hgle hpos.le
    have hbound := mul_le_mul hnear hdens (by positivity) (by positivity)
    linarith
  refine ⟨⟨g, hg, hshorter, hnear⟩, hseparated, fun h => hseparated ?_⟩
  have hsquare : (f.den : ℚ) ^ 2 ≤ 100000 ^ 2 := pow_le_pow_left₀ hpos.le hmax 2
  have hsize : max 1 |f.val| ≤ 999 / 10 := max_le (by norm_num) h
  exact (mul_le_mul hsquare hsize (by positivity) (by positivity)).trans (by norm_num)

/-- A fraction near the largest size, with a denominator of five digits. -/
theorem readBackLaw_negative : ∃ f : Exponent, f.text = "-9999999/10007" ∧ f.den ≤ maxDenominator ∧
    |f.val| ≤ 1000 ∧ ReadBackLaw f ∧ ofFloat f.toFloat = .ok f :=
  have hden : (Exponent.mk (-9999999 / 10007) (by decide +kernel)).den ≤ maxDenominator := by
    decide +kernel
  have hval : |(-9999999 / 10007 : ℚ)| ≤ 1000 := by decide +kernel
  have hlaw := readBackLaw hden hval
  ⟨_, by decide +kernel, hden, hval, hlaw, hlaw.eq_of_separated (by decide +kernel)⟩

/-- With the largest denominator the tolerance reaches an earlier convergent, which is read although
the fraction itself is nearer than `10⁻¹²` to its float, and the convergent is not. -/
theorem reads_earlier_convergent : ∃ f g : Exponent, f.text = "31415927/100000" ∧
    g.text = "10724455/34137" ∧ f.den ≤ maxDenominator ∧ |f.val| ≤ 1000 ∧
    ofFloat f.toFloat = .ok g ∧ ofFloat f.toFloat ≠ .ok f ∧
    |toRat f.toFloat - f.val| < 1 / 10 ^ 12 ∧ 2 / 10 ^ 10 < |toRat f.toFloat - g.val| := by
  have hreads : ofFloat (Exponent.mk (31415927 / 100000) (by decide +kernel)).toFloat =
      .ok ⟨10724455 / 34137, by decide +kernel⟩ :=
    ofFloat_eq_ok_iff.2 ⟨10724455, 34137, by decide +kernel,
      reduce_eq_ok_iff.2 ⟨by decide +kernel, by decide +kernel⟩⟩
  refine ⟨_, _, by decide +kernel, by decide +kernel, by decide +kernel, by decide +kernel, hreads,
    ?_, by decide +kernel, by decide +kernel⟩
  rw [hreads]
  intro h
  exact absurd (congrArg val (Except.ok.inj h)) (by decide +kernel)

end QuantityCalculus.Exponent
