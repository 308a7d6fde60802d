import Mathlib.Analysis.Real.Pi.Bounds
import Mathlib.Analysis.SpecialFunctions.Trigonometric.Bounds
import PiWxRx.General.Quadrature

/-!
# Enclosures of cosines of rational angles

The cosine of `z / q` of a full turn in integers: multiples of `1 / scale` with a radius. The angle
is reduced to one turn and halved `j` times, where the Taylor polynomial of degree two is close
(`encloses_halvedTurn`); each doubling takes the middle by `2 * cos ^ 2 - 1` and widens the radius
(`Encloses.doubled`). `encloses_cosTurn` is the result, and `encloses_response` carries it to the
response of a filter.
-/

namespace Quadrature

open Finset

/-- The integer `mid` is within `radius` of `scale` times `x`. -/
def Encloses (scale mid radius : ℤ) (x : ℝ) : Prop := |scale * x - mid| ≤ radius

/-- Bounds of a multiple of the enclosed number. -/
theorem Encloses.bounds {scale mid radius : ℤ} {v : ℝ} (h : Encloses scale mid radius v)
    (hscale : 0 < scale) {lo hi c : ℤ} (hc : 0 ≤ c) (hlo : lo * scale ≤ c * (mid - radius))
    (hhi : c * (mid + radius) ≤ hi * scale) : lo ≤ c * v ∧ c * v ≤ hi := by
  have hs : (0 : ℝ) < scale := by exact_mod_cast hscale
  have hc' : (0 : ℝ) ≤ c := by exact_mod_cast hc
  have hlo' : (lo : ℝ) * scale ≤ c * (mid - radius) := by exact_mod_cast hlo
  have hhi' : c * ((mid : ℝ) + radius) ≤ hi * scale := by exact_mod_cast hhi
  unfold Encloses at h
  rw [abs_le] at h
  constructor
  · refine le_of_mul_le_mul_right (hlo'.trans ?_) hs
    calc (c : ℝ) * (mid - radius) ≤ c * (scale * v) := by gcongr; linarith [h.1]
      _ = c * v * scale := by ring
  · refine le_of_mul_le_mul_right (le_trans ?_ hhi') hs
    calc (c : ℝ) * v * scale = c * (scale * v) := by ring
      _ ≤ c * (mid + radius) := by gcongr; linarith [h.2]

/-! ## Doubling the angle -/

/-- The middle for the cosine of the double angle. -/
def doubledMid (scale mid : ℤ) : ℤ := 2 * mid ^ 2 / scale - scale

/-- The radius for the cosine of the double angle. -/
def doubledRadius (scale radius : ℤ) : ℤ := 4 * radius + 2 * radius ^ 2 / scale + 2

/-- An integer quotient is the real one, rounded down. -/
theorem cast_ediv_bounds {b : ℤ} (hb : 0 < b) (a : ℤ) :
    ((a / b : ℤ) : ℝ) ≤ a / b ∧ (a / b : ℝ) < (a / b : ℤ) + 1 := by
  have hb' : (0 : ℝ) < b := by exact_mod_cast hb
  rw [le_div_iff₀ hb', div_lt_iff₀ hb']
  constructor
  · exact_mod_cast Int.ediv_mul_le a hb.ne'
  · exact_mod_cast Int.lt_ediv_add_one_mul_self a hb

theorem Encloses.doubled {scale mid radius : ℤ} (hscale : 0 < scale) {x : ℝ} (hx : |x| ≤ 1)
    (h : Encloses scale mid radius x) :
    Encloses scale (doubledMid scale mid) (doubledRadius scale radius) (2 * x ^ 2 - 1) := by
  have hs : (0 : ℝ) < scale := by exact_mod_cast hscale
  have hmid := cast_ediv_bounds hscale (2 * mid ^ 2)
  have hrad := cast_ediv_bounds hscale (2 * radius ^ 2)
  push_cast at hmid hrad
  -- the square of the middle against the square of the value
  have hsum : |scale * x + mid| ≤ 2 * scale + radius := by
    have hvalue : |(scale : ℝ) * x| ≤ scale := by
      rw [abs_mul, abs_of_pos hs]
      exact mul_le_of_le_one_right hs.le hx
    calc |(scale : ℝ) * x + mid| = |2 * (scale * x) - (scale * x - mid)| := by ring_nf
      _ ≤ |2 * (scale * x)| + |scale * x - mid| := abs_sub _ _
      _ ≤ 2 * scale + radius := by
        rw [abs_mul, abs_two]
        exact add_le_add (by linarith) h
  have hradius : (0 : ℝ) ≤ radius := (abs_nonneg _).trans h
  have hproduct : 2 * scale * x ^ 2 - 2 * (mid : ℝ) ^ 2 / scale =
      2 / scale * ((scale * x - mid) * (scale * x + mid)) := by
    field_simp
    ring
  have hsquare : |2 * scale * x ^ 2 - 2 * (mid : ℝ) ^ 2 / scale| ≤
      4 * radius + 2 * (radius : ℝ) ^ 2 / scale := by
    rw [hproduct, abs_mul, abs_mul, abs_of_pos (div_pos two_pos hs)]
    calc 2 / (scale : ℝ) * (|scale * x - mid| * |scale * x + mid|)
        ≤ 2 / scale * (radius * (2 * scale + radius)) := by
          gcongr
          exact h
      _ = 4 * radius + 2 * (radius : ℝ) ^ 2 / scale := by
          field_simp
          ring
  unfold Encloses doubledMid doubledRadius
  push_cast
  rw [abs_le] at hsquare ⊢
  constructor <;> linarith [hmid.1, hmid.2, hrad.1, hrad.2, hsquare.1, hsquare.2]

/-! ## The angle halved -/

/-- Twice the square of `π`, `10 ^ 40` times, from its first twenty decimals. -/
def twoPiSquared : ℤ := 2 * 314159265358979323846 ^ 2

/-- The middle for the cosine of `p / q` of a turn, halved `j` times. -/
def halvedTurnMid (scale : ℤ) (j p q : ℕ) : ℤ :=
  scale - scale * twoPiSquared * p ^ 2 / (10 ^ 40 * q ^ 2 * 4 ^ j)

/-- The condition under which the Taylor polynomial is within the scale. -/
structure FineEnough (scale : ℤ) (j : ℕ) : Prop where
  pos : 0 < scale
  le_pow : 2048 * scale ≤ 16 ^ j
  le_digits : scale ≤ 10 ^ 18

/-- The square of `π` from its decimals. -/
theorem two_mul_pi_sq_bounds :
    (twoPiSquared : ℝ) / 10 ^ 40 ≤ 2 * Real.pi ^ 2 ∧
      2 * Real.pi ^ 2 ≤ (twoPiSquared : ℝ) / 10 ^ 40 + 1 / 10 ^ 18 := by
  have hlower := Real.pi_gt_d20
  have hupper := Real.pi_lt_d20
  unfold twoPiSquared
  norm_num at hlower hupper ⊢
  constructor <;> nlinarith

/-- The angle of a halved turn, its square and its fourth power. -/
theorem halvedTurn_bounds {scale : ℤ} {j : ℕ} (hfine : FineEnough scale j) {t : ℝ} (ht₀ : 0 ≤ t)
    (ht₁ : t ≤ 1) :
    (2 * Real.pi * t / 2 ^ j) ^ 2 = 2 * (2 * Real.pi ^ 2 * t ^ 2 / 4 ^ j) ∧
      |2 * Real.pi * t / 2 ^ j| ≤ 1 ∧ scale * |2 * Real.pi * t / 2 ^ j| ^ 4 ≤ 1 := by
  obtain ⟨hpos, hpow, -⟩ := hfine
  have hs : (1 : ℝ) ≤ scale := by exact_mod_cast hpos
  have hfour : (0 : ℝ) < 4 ^ j := by positivity
  have hsq : (4 : ℝ) ^ j = (2 ^ j) ^ 2 := by
    rw [← pow_mul, mul_comm, pow_mul]
    norm_num
  have hsixteen : 2048 * (scale : ℝ) ≤ (4 ^ j) ^ 2 := by
    rw [← pow_mul, mul_comm j, pow_mul, show (4 : ℝ) ^ 2 = 16 by norm_num]
    exact_mod_cast hpow
  have hsquare : (2 * Real.pi * t / 2 ^ j) ^ 2 = 2 * (2 * Real.pi ^ 2 * t ^ 2 / 4 ^ j) := by
    rw [hsq]
    field_simp
  -- `2 * pi ^ 2 < 20`, with some room
  have hle : (2 * Real.pi * t / 2 ^ j) ^ 2 ≤ 40 / 4 ^ j := by
    have hpi : Real.pi ^ 2 ≤ 10 := by nlinarith [Real.pi_lt_d2, Real.pi_pos]
    have ht : t ^ 2 ≤ 1 := pow_le_one₀ ht₀ ht₁
    rw [hsquare, ← mul_div_assoc]
    gcongr
    nlinarith [sq_nonneg t]
  refine ⟨hsquare, ?_, ?_⟩
  · have hone : (40 : ℝ) / 4 ^ j ≤ 1 := by
      rw [div_le_one hfour]
      nlinarith
    exact (sq_le_one_iff_abs_le_one _).mp (hle.trans hone)
  · calc (scale : ℝ) * |2 * Real.pi * t / 2 ^ j| ^ 4
        = scale * ((2 * Real.pi * t / 2 ^ j) ^ 2) ^ 2 := by
          rw [← sq_abs (2 * Real.pi * t / 2 ^ j)]
          ring
      _ ≤ (scale : ℝ) * (40 / 4 ^ j) ^ 2 := by gcongr
      _ = 1600 * (scale : ℝ) / (4 ^ j) ^ 2 := by ring
      _ ≤ 1 := by
        rw [div_le_one (by positivity)]
        linarith

/-- The Taylor polynomial of degree two, in integers. -/
theorem encloses_halvedTurn {scale : ℤ} {j : ℕ} (hfine : FineEnough scale j) {p q : ℕ} (hq : 0 < q)
    (hpq : p ≤ q) :
    Encloses scale (halvedTurnMid scale j p q) 3 (Real.cos (2 * Real.pi * (p / q) / 2 ^ j)) := by
  have hs : (0 : ℝ) < scale := by exact_mod_cast hfine.pos
  have hdigits : (scale : ℝ) ≤ 10 ^ 18 := by exact_mod_cast hfine.le_digits
  have hq' : (0 : ℝ) < q := by exact_mod_cast hq
  have ht₁ : (p / q : ℝ) ≤ 1 := by
    rw [div_le_one hq']
    exact_mod_cast hpq
  obtain ⟨hsquare, hone, hfourth⟩ := halvedTurn_bounds hfine (by positivity : 0 ≤ (p / q : ℝ)) ht₁
  set y : ℝ := 2 * Real.pi * (p / q) / 2 ^ j
  set u : ℝ := (p / q : ℝ) ^ 2 / 4 ^ j with hu
  have hu₀ : 0 ≤ u := by positivity
  have hu₁ : u ≤ 1 := by
    refine div_le_one_of_le₀ ((pow_le_one₀ (by positivity) ht₁).trans ?_) (by positivity)
    exact one_le_pow₀ (by norm_num)
  -- the polynomial
  have htaylor : |scale * Real.cos y - (scale - scale * (2 * Real.pi ^ 2 * u))| ≤ 1 := by
    have hpoly : 1 - y ^ 2 / 2 = 1 - 2 * Real.pi ^ 2 * u := by
      rw [hsquare, hu]
      ring
    have hbound := Real.cos_bound hone
    rw [hpoly] at hbound
    have hfactor : scale * Real.cos y - (scale - scale * (2 * Real.pi ^ 2 * u)) =
        scale * (Real.cos y - (1 - 2 * Real.pi ^ 2 * u)) := by ring
    rw [hfactor, abs_mul, abs_of_pos hs]
    calc (scale : ℝ) * |Real.cos y - (1 - 2 * Real.pi ^ 2 * u)|
        ≤ scale * (|y| ^ 4 * (5 / 96)) := by gcongr
      _ ≤ 1 := by linarith [hfourth]
  -- the decimals of `π`
  have hdecimals : |scale * (2 * Real.pi ^ 2 * u) - scale * ((twoPiSquared : ℝ) / 10 ^ 40 * u)| ≤
      1 := by
    obtain ⟨hlower, hupper⟩ := two_mul_pi_sq_bounds
    rw [← mul_sub, ← sub_mul, abs_of_nonneg (by
      have := sub_nonneg.mpr hlower
      positivity)]
    calc (scale : ℝ) * ((2 * Real.pi ^ 2 - (twoPiSquared : ℝ) / 10 ^ 40) * u)
        ≤ 10 ^ 18 * (1 / 10 ^ 18 * 1) := by
          gcongr
          linarith
      _ = 1 := by norm_num
  -- the integer quotient
  have hden : 0 < (10 : ℤ) ^ 40 * q ^ 2 * 4 ^ j := by positivity
  have hfloor := cast_ediv_bounds hden (scale * twoPiSquared * p ^ 2)
  have hquotient : ((scale * twoPiSquared * p ^ 2 : ℤ) : ℝ) / ((10 ^ 40 * q ^ 2 * 4 ^ j : ℤ) : ℝ) =
      scale * ((twoPiSquared : ℝ) / 10 ^ 40 * u) := by
    rw [hu]
    push_cast
    field_simp
    norm_num
  rw [hquotient] at hfloor
  unfold Encloses halvedTurnMid
  push_cast at hfloor ⊢
  rw [abs_le] at htaylor hdecimals ⊢
  constructor <;>
    linarith [htaylor.1, htaylor.2, hdecimals.1, hdecimals.2, hfloor.1, hfloor.2]

/-! ## The cosine of a rational part of a turn -/

/-- The middle after the angle of the halved turn has been doubled `i` times. -/
def turnMid (scale : ℤ) (j p q : ℕ) : ℕ → ℤ
  | 0 => halvedTurnMid scale j p q
  | i + 1 => doubledMid scale (turnMid scale j p q i)

/-- The radius after `i` doublings. -/
def turnRadius (scale : ℤ) : ℕ → ℤ
  | 0 => 3
  | i + 1 => doubledRadius scale (turnRadius scale i)

theorem encloses_turnMid {scale : ℤ} {j : ℕ} (hfine : FineEnough scale j) {p q : ℕ} (hq : 0 < q)
    (hpq : p ≤ q) (i : ℕ) :
    Encloses scale (turnMid scale j p q i) (turnRadius scale i)
      (Real.cos (2 ^ i * (2 * Real.pi * (p / q) / 2 ^ j))) := by
  induction i with
  | zero =>
    rw [pow_zero, one_mul]
    exact encloses_halvedTurn hfine hq hpq
  | succ i ih =>
    rw [pow_succ', mul_assoc, Real.cos_two_mul]
    exact ih.doubled hfine.pos (Real.abs_cos_le_one _)

/-- The middle for the cosine of `z / q` of a turn. -/
def cosTurn (scale : ℤ) (j : ℕ) (z : ℤ) (q : ℕ) : ℤ := turnMid scale j (z % q).toNat q j

theorem encloses_cosTurn {scale : ℤ} {j : ℕ} (hfine : FineEnough scale j) {q : ℕ} (hq : 0 < q)
    (z : ℤ) :
    Encloses scale (cosTurn scale j z q) (turnRadius scale j)
      (Real.cos (2 * Real.pi * (z / q))) := by
  have hq' : (0 : ℤ) < q := by exact_mod_cast hq
  have hrest : 0 ≤ z % q := Int.emod_nonneg z hq'.ne'
  have hlt : (z % q).toNat < q := by
    have := Int.emod_lt_of_pos z hq'
    omega
  have hangle : 2 * Real.pi * (z / q : ℝ) =
      2 ^ j * (2 * Real.pi * (((z % q).toNat : ℕ) / q) / 2 ^ j) + (z / q : ℤ) * (2 * Real.pi) := by
    have hcast : (((z % q).toNat : ℕ) : ℝ) = ((z % q : ℤ) : ℝ) := by
      exact_mod_cast congrArg (Int.cast (R := ℝ)) (Int.toNat_of_nonneg hrest)
    have hsplit : (z : ℝ) = (z % q : ℤ) + q * (z / q : ℤ) := by
      exact_mod_cast (Int.emod_add_mul_ediv z q).symm
    have hne : (q : ℝ) ≠ 0 := by exact_mod_cast hq.ne'
    rw [hcast]
    field_simp
    linarith
  rw [hangle, Real.cos_add_int_mul_two_pi]
  exact encloses_turnMid hfine hq hlt.le j

/-! ## The response of a filter -/

/-- The middle for the response of a filter of integer taps at `z / q` of a turn per sample. -/
def responseMid (taps : ℕ → ℤ) (m : ℕ) (scale : ℤ) (j : ℕ) (z : ℤ) (q : ℕ) : ℤ :=
  ∑ k ∈ range (2 * m + 1), taps k * cosTurn scale j ((m - k) * z) q

theorem encloses_response {scale : ℤ} {j : ℕ} (hfine : FineEnough scale j) {q : ℕ} (hq : 0 < q)
    (taps : ℕ → ℤ) (m : ℕ) (z : ℤ) :
    Encloses scale (responseMid taps m scale j z q)
      ((∑ k ∈ range (2 * m + 1), |taps k|) * turnRadius scale j)
      (response (fun k => taps k) m (2 * Real.pi * (z / q))) := by
  unfold Encloses response responseMid
  push_cast
  rw [mul_sum, ← sum_sub_distrib, sum_mul]
  refine (abs_sum_le_sum_abs _ _).trans (sum_le_sum fun k _ => ?_)
  have hcos := encloses_cosTurn hfine hq ((m - k) * z)
  unfold Encloses at hcos
  rw [show ((m : ℝ) - k) * (2 * Real.pi * (z / q)) =
      2 * Real.pi * ((((m : ℤ) - k) * z : ℤ) / q) by push_cast; ring]
  set c : ℝ := Real.cos (2 * Real.pi * ((((m : ℤ) - k) * z : ℤ) / q))
  set mid : ℝ := (cosTurn scale j ((m - k) * z) q : ℝ)
  rw [show scale * (taps k * c) - taps k * mid = taps k * (scale * c - mid) by ring, abs_mul]
  gcongr

end Quadrature
