import Mathlib.Analysis.Complex.Basic
import Mathlib.Analysis.Complex.Trigonometric
import Mathlib.Algebra.BigOperators.Intervals

/-!
# Quadrature demodulation of a tone

A tone `A * cos (ω * t + φ)` is mixed with an oscillator of angle `w` per sample, the in-phase and
the quadrature product as one complex number, filtered by an odd number of symmetric taps and
compared with the filter output of `d` samples before.

* The filter turns every phasor by its group delay and scales it by `response` (`sum_phasor`).
* The filter output is a phasor of the difference and one of the sum of the angles
  (`filteredTone_eq`), so the cross product of two filter outputs is the sine of `d` difference
  angles up to what the filter leaves of the sum (`abs_cross_filteredTone_le`).
* `abs_cross_sub_le` is the stability of the cross product under errors of its factors.
-/

namespace Quadrature

open Finset Complex

/-- The point of the unit circle at an angle. -/
noncomputable def phasor (θ : ℝ) : ℂ := exp (θ * I)

@[simp]
theorem phasor_re (θ : ℝ) : (phasor θ).re = Real.cos θ := exp_ofReal_mul_I_re θ

@[simp]
theorem phasor_im (θ : ℝ) : (phasor θ).im = Real.sin θ := exp_ofReal_mul_I_im θ

@[simp]
theorem norm_phasor (θ : ℝ) : ‖phasor θ‖ = 1 := norm_exp_ofReal_mul_I θ

theorem phasor_add (θ η : ℝ) : phasor (θ + η) = phasor θ * phasor η := by
  rw [phasor, phasor, phasor, ← exp_add]
  push_cast
  ring_nf

theorem conj_phasor (θ : ℝ) : starRingEnd ℂ (phasor θ) = phasor (-θ) := by
  apply Complex.ext <;> simp

/-- The product of a phasor and the conjugate of another is the phasor of the difference. -/
theorem conj_phasor_mul (θ η : ℝ) : starRingEnd ℂ (phasor θ) * phasor η = phasor (η - θ) := by
  apply Complex.ext <;>
    simp only [mul_re, mul_im, conj_re, conj_im, phasor_re, phasor_im, Real.cos_sub, Real.sin_sub]
      <;> ring

/-! ## Symmetric filters -/

variable {h : ℕ → ℝ} {m : ℕ}

/-- The response of a symmetric filter of `2 * m + 1` taps at `α` per sample. -/
noncomputable def response (h : ℕ → ℝ) (m : ℕ) (α : ℝ) : ℝ :=
  ∑ k ∈ range (2 * m + 1), h k * Real.cos ((m - k : ℝ) * α)

/-- The taps are symmetric about tap `m`. -/
def Symmetric (h : ℕ → ℝ) (m : ℕ) : Prop := ∀ k ≤ 2 * m, h (2 * m - k) = h k

/-- The odd part of the response of a symmetric filter vanishes. -/
theorem sum_sin_eq_zero (hsymm : Symmetric h m) (α : ℝ) :
    ∑ k ∈ range (2 * m + 1), h k * Real.sin ((m - k : ℝ) * α) = 0 := by
  have hflip : ∑ k ∈ range (2 * m + 1), h k * Real.sin ((m - k : ℝ) * α) =
      -∑ k ∈ range (2 * m + 1), h k * Real.sin ((m - k : ℝ) * α) := by
    conv_lhs => rw [← sum_range_reflect]
    rw [← sum_neg_distrib]
    refine sum_congr rfl fun k hk => ?_
    have hle : k ≤ 2 * m := Nat.lt_succ_iff.mp (mem_range.mp hk)
    have hindex : 2 * m + 1 - 1 - k = 2 * m - k := by omega
    have hangle : ((m : ℝ) - ((2 * m - k : ℕ) : ℝ)) * α = -(((m : ℝ) - k) * α) := by
      rw [Nat.cast_sub hle]
      push_cast
      ring
    rw [hindex, hsymm k hle, hangle, Real.sin_neg, mul_neg]
  linarith

/-- A symmetric filter delays a phasor by half its length and scales it by the response. -/
theorem sum_phasor (hsymm : Symmetric h m) (θ α : ℝ) :
    ∑ k ∈ range (2 * m + 1), (h k : ℂ) * phasor (θ - k * α) =
      response h m α * phasor (θ - m * α) := by
  have hterm : ∀ k ∈ range (2 * m + 1), (h k : ℂ) * phasor (θ - k * α) =
      (h k : ℂ) * phasor ((m - k : ℝ) * α) * phasor (θ - m * α) := by
    intro k _
    rw [mul_assoc, ← phasor_add]
    congr 2
    ring
  rw [sum_congr rfl hterm, ← sum_mul]
  congr 1
  apply Complex.ext
  · rw [re_sum, ofReal_re, response]
    exact sum_congr rfl fun k _ => by rw [re_ofReal_mul, phasor_re]
  · rw [im_sum, ofReal_im, ← sum_sin_eq_zero hsymm α]
    exact sum_congr rfl fun k _ => by rw [im_ofReal_mul, phasor_im]

/-! ## The tone -/

/-- The filter output for a tone at time `t`, in-phase and quadrature channel as one number. -/
noncomputable def filteredTone (h : ℕ → ℝ) (m : ℕ) (A ω φ w t : ℝ) : ℂ :=
  ∑ k ∈ range (2 * m + 1),
    (h k : ℂ) * ((A * Real.cos (ω * (t - k) + φ) : ℝ) * phasor (w * (t - k)))

/-- Mixing gives the sum and the difference of the angles. -/
theorem cos_mul_phasor (θ η : ℝ) :
    (Real.cos θ : ℂ) * phasor η = (phasor (η + θ) + phasor (η - θ)) / 2 := by
  apply Complex.ext
  · rw [re_ofReal_mul, div_ofNat_re, add_re, phasor_re, phasor_re, phasor_re, Real.cos_add,
      Real.cos_sub]
    ring
  · rw [im_ofReal_mul, div_ofNat_im, add_im, phasor_im, phasor_im, phasor_im, Real.sin_add,
      Real.sin_sub]
    ring

theorem filteredTone_eq (hsymm : Symmetric h m) (A ω φ w t : ℝ) :
    filteredTone h m A ω φ w t =
      (A / 2 : ℝ) * (response h m (w + ω) * phasor ((w + ω) * (t - m) + φ) +
        response h m (w - ω) * phasor ((w - ω) * (t - m) - φ)) := by
  have hterm : ∀ k ∈ range (2 * m + 1),
      (h k : ℂ) * ((A * Real.cos (ω * (t - k) + φ) : ℝ) * phasor (w * (t - k))) =
        (A / 2 : ℝ) * ((h k : ℂ) * phasor ((w + ω) * t + φ - k * (w + ω))) +
          (A / 2 : ℝ) * ((h k : ℂ) * phasor ((w - ω) * t - φ - k * (w - ω))) := by
    intro k _
    have hmix := cos_mul_phasor (ω * (t - k) + φ) (w * (t - k))
    rw [ofReal_mul, mul_assoc, hmix]
    rw [show w * (t - k) + (ω * (t - k) + φ) = (w + ω) * t + φ - k * (w + ω) by ring,
      show w * (t - k) - (ω * (t - k) + φ) = (w - ω) * t - φ - k * (w - ω) by ring]
    push_cast
    ring
  rw [filteredTone, sum_congr rfl hterm, sum_add_distrib, ← mul_sum, ← mul_sum,
    sum_phasor hsymm, sum_phasor hsymm, ← mul_add]
  rw [show (w + ω) * t + φ - m * (w + ω) = (w + ω) * (t - m) + φ by ring,
    show (w - ω) * t - φ - m * (w - ω) = (w - ω) * (t - m) - φ by ring]

theorem norm_filteredTone_le (hsymm : Symmetric h m) {A : ℝ} (hA : 0 ≤ A) (ω φ w t : ℝ) :
    ‖filteredTone h m A ω φ w t‖ ≤ A / 2 * (|response h m (w + ω)| + |response h m (w - ω)|) := by
  rw [filteredTone_eq hsymm, norm_mul, norm_real, Real.norm_of_nonneg (by positivity)]
  refine mul_le_mul_of_nonneg_left ((norm_add_le _ _).trans (le_of_eq ?_)) (by positivity)
  rw [norm_mul, norm_mul, norm_phasor, norm_phasor, norm_real, norm_real, mul_one, mul_one,
    Real.norm_eq_abs, Real.norm_eq_abs]

/-! ## The cross product -/

/-- The cross product of two complex numbers. -/
def cross (y z : ℂ) : ℝ := (starRingEnd ℂ y * z).im

theorem cross_eq (y z : ℂ) : cross y z = y.re * z.im - y.im * z.re := by
  rw [cross, mul_im, conj_re, conj_im]
  ring

theorem abs_cross_le (y z : ℂ) : |cross y z| ≤ ‖y‖ * ‖z‖ := by
  refine (abs_im_le_norm _).trans (le_of_eq ?_)
  rw [norm_mul, norm_conj]

theorem cross_add_left (x y z : ℂ) : cross (x + y) z = cross x z + cross y z := by
  simp only [cross, map_add, add_mul, add_im]

theorem cross_add_right (x y z : ℂ) : cross x (y + z) = cross x y + cross x z := by
  simp only [cross, mul_add, add_im]

theorem cross_phasor (a b θ η : ℝ) :
    cross (a * phasor θ) (b * phasor η) = a * b * Real.sin (η - θ) := by
  rw [cross, map_mul, conj_ofReal, mul_mul_mul_comm, conj_phasor_mul, ← ofReal_mul, im_ofReal_mul,
    phasor_im]

/-- A common rotation of the factors does not matter. -/
theorem cross_phasor_mul (θ : ℝ) (y z : ℂ) : cross (phasor θ * y) (phasor θ * z) = cross y z := by
  have hone : starRingEnd ℂ (phasor θ) * phasor θ = 1 := by
    rw [conj_phasor_mul, sub_self, phasor, ofReal_zero, zero_mul, exp_zero]
  rw [cross, cross, map_mul, mul_mul_mul_comm, hone, one_mul]

theorem cross_ofReal_mul (a : ℝ) (y z : ℂ) : cross (a * y) (a * z) = a ^ 2 * cross y z := by
  simp only [cross_eq, re_ofReal_mul, im_ofReal_mul]
  ring

/-- Errors of the factors of a cross product. -/
theorem abs_cross_sub_le {y y' z z' : ℂ} {R ε : ℝ} (hz : ‖z‖ ≤ R) (hz' : ‖z'‖ ≤ R)
    (hy : ‖y - z‖ ≤ ε) (hy' : ‖y' - z'‖ ≤ ε) :
    |cross y' y - cross z' z| ≤ 2 * R * ε + ε ^ 2 := by
  have hsplit : cross y' y - cross z' z =
      cross z' (y - z) + cross (y' - z') z + cross (y' - z') (y - z) := by
    simp only [cross_eq, sub_re, sub_im]
    ring
  have hR : 0 ≤ R := (norm_nonneg z).trans hz
  have hε : 0 ≤ ε := (norm_nonneg _).trans hy
  have hfirst : |cross z' (y - z)| ≤ R * ε :=
    (abs_cross_le _ _).trans (mul_le_mul hz' hy (norm_nonneg _) hR)
  have hsecond : |cross (y' - z') z| ≤ ε * R :=
    (abs_cross_le _ _).trans (mul_le_mul hy' hz (norm_nonneg _) hε)
  have hthird : |cross (y' - z') (y - z)| ≤ ε * ε :=
    (abs_cross_le _ _).trans (mul_le_mul hy' hy (norm_nonneg _) hε)
  rw [hsplit]
  calc |cross z' (y - z) + cross (y' - z') z + cross (y' - z') (y - z)|
      ≤ |cross z' (y - z)| + |cross (y' - z') z| + |cross (y' - z') (y - z)| := abs_add_three _ _ _
    _ ≤ R * ε + ε * R + ε * ε := add_le_add (add_le_add hfirst hsecond) hthird
    _ = 2 * R * ε + ε ^ 2 := by ring

/-- The cross product of the filter outputs of `d` samples apart, up to what the filter leaves of
the sum of the angles. -/
theorem abs_cross_filteredTone_le (hsymm : Symmetric h m) (A ω φ w t d : ℝ) :
    |cross (filteredTone h m A ω φ w (t - d)) (filteredTone h m A ω φ w t) -
        (A / 2) ^ 2 * (response h m (w - ω) ^ 2 * Real.sin (d * (w - ω)))| ≤
      (A / 2) ^ 2 * (2 * |response h m (w - ω)| * |response h m (w + ω)| +
        response h m (w + ω) ^ 2) := by
  rw [filteredTone_eq hsymm, filteredTone_eq hsymm]
  set S := response h m (w + ω)
  set D := response h m (w - ω)
  rw [cross_ofReal_mul, ← mul_sub, abs_mul, abs_of_nonneg (sq_nonneg (A / 2))]
  refine mul_le_mul_of_nonneg_left ?_ (sq_nonneg (A / 2))
  rw [cross_add_left, cross_add_right, cross_add_right, cross_phasor, cross_phasor, cross_phasor,
    cross_phasor]
  rw [show (w - ω) * (t - m) - φ - ((w - ω) * (t - d - m) - φ) = d * (w - ω) by ring]
  set s₁ := Real.sin ((w + ω) * (t - m) + φ - ((w + ω) * (t - d - m) + φ))
  set s₂ := Real.sin ((w - ω) * (t - m) - φ - ((w + ω) * (t - d - m) + φ))
  set s₃ := Real.sin ((w + ω) * (t - m) + φ - ((w - ω) * (t - d - m) - φ))
  have hbound : ∀ a b s : ℝ, |s| ≤ 1 → |a * b * s| ≤ |a| * |b| := by
    intro a b s hs
    rw [abs_mul, abs_mul]
    exact mul_le_of_le_one_right (by positivity) hs
  have h₁ := hbound S S s₁ (Real.abs_sin_le_one _)
  have h₂ := hbound S D s₂ (Real.abs_sin_le_one _)
  have h₃ := hbound D S s₃ (Real.abs_sin_le_one _)
  calc |S * S * s₁ + S * D * s₂ + (D * S * s₃ + D * D * Real.sin (d * (w - ω))) -
        D ^ 2 * Real.sin (d * (w - ω))|
      = |S * S * s₁ + S * D * s₂ + D * S * s₃| := by ring_nf
    _ ≤ |S * S * s₁| + |S * D * s₂| + |D * S * s₃| := abs_add_three _ _ _
    _ ≤ |S| * |S| + |S| * |D| + |D| * |S| := add_le_add (add_le_add h₁ h₂) h₃
    _ = 2 * |D| * |S| + S ^ 2 := by rw [← sq_abs S]; ring

end Quadrature
