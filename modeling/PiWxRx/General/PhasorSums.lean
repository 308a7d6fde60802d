import Mathlib.NumberTheory.Zsqrtd.GaussianInt
import PiWxRx.General.CosineEnclosure

/-!
# Sums of phasors in Gaussian integers

`Near` encloses a complex number by a Gaussian integer, the centre of a disc, as `Encloses` does a
real number by an integer. Sums, products and conjugates of enclosed numbers are enclosed by those
of the centres; `near_phasorMid` starts with the phasor of a rational part of a turn.

A sum of phasors over any segment of a list of taps is the difference of two running sums
(`getD_runningSums`, `near_segment`), so one pass over the taps serves every segment.
-/

namespace Quadrature

open Finset Complex

/-- The Gaussian integer `mid` is within `radius` of `scale` times `z`. -/
def Near (scale : ℤ) (mid : GaussianInt) (radius : ℝ) (z : ℂ) : Prop :=
  ‖(scale : ℂ) * z - mid‖ ≤ radius

variable {scale : ℤ} {mid : GaussianInt} {radius : ℝ} {z : ℂ}

theorem near_zero (scale : ℤ) : Near scale 0 0 0 := by
  simp [Near]

/-- The scale itself is one. -/
theorem near_one (scale : ℤ) : Near scale scale 0 1 := by
  simp [Near]

theorem Near.radius_nonneg (h : Near scale mid radius z) : 0 ≤ radius := (norm_nonneg _).trans h

theorem Near.mono (h : Near scale mid radius z) {r : ℝ} (hr : radius ≤ r) : Near scale mid r z :=
  le_trans h hr

theorem Near.add {mid' : GaussianInt} {radius' : ℝ} {z' : ℂ} (h : Near scale mid radius z)
    (h' : Near scale mid' radius' z') : Near scale (mid + mid') (radius + radius') (z + z') := by
  have hsplit : (scale : ℂ) * (z + z') - ((mid + mid' : GaussianInt) : ℂ) =
      (scale * z - mid) + (scale * z' - mid') := by
    rw [GaussianInt.toComplex_add]
    ring
  rw [Near, hsplit]
  exact (norm_add_le _ _).trans (add_le_add h h')

theorem Near.intCast_mul (h : Near scale mid radius z) (c : ℤ) :
    Near scale (c * mid) (|c| * radius) (c * z) := by
  have hfactor : (scale : ℂ) * (c * z) - ((c * mid : GaussianInt) : ℂ) =
      (c : ℝ) * (scale * z - mid) := by
    rw [GaussianInt.toComplex_mul, map_intCast]
    push_cast
    ring
  rw [Near, hfactor, norm_mul, norm_real, Real.norm_eq_abs, Int.cast_abs]
  exact mul_le_mul_of_nonneg_left h (abs_nonneg _)

theorem Near.conj (h : Near scale mid radius z) :
    Near scale (star mid) radius (starRingEnd ℂ z) := by
  have hconj : (scale : ℂ) * starRingEnd ℂ z - ((star mid : GaussianInt) : ℂ) =
      starRingEnd ℂ (scale * z - mid) := by
    rw [GaussianInt.toComplex_star, map_sub, map_mul, map_intCast]
  rw [Near, hconj, norm_conj]
  exact h

/-- The scales of a product multiply. -/
theorem Near.mul {scale' : ℤ} {mid' : GaussianInt} {radius' : ℝ} {z' : ℂ}
    (h : Near scale mid radius z) (h' : Near scale' mid' radius' z') {b b' : ℝ} (hz : ‖z‖ ≤ b)
    (hz' : ‖z'‖ ≤ b') :
    Near (scale * scale') (mid * mid')
      (radius * (|scale'| * b') + (|scale| * b + radius) * radius') (z * z') := by
  have hsplit : ((scale * scale' : ℤ) : ℂ) * (z * z') - ((mid * mid' : GaussianInt) : ℂ) =
      (scale * z - mid) * (scale' * z') + mid * (scale' * z' - mid') := by
    rw [GaussianInt.toComplex_mul]
    push_cast
    ring
  have hscaled : ∀ (s : ℤ) (w : ℂ) (c : ℝ), ‖w‖ ≤ c → ‖(s : ℂ) * w‖ ≤ |s| * c := by
    intro s w c hw
    rw [norm_mul, norm_intCast]
    gcongr
    exact le_of_eq (Int.cast_abs).symm
  have hmid : ‖(mid : ℂ)‖ ≤ |scale| * b + radius := by
    have hsub : (mid : ℂ) = scale * z - (scale * z - mid) := by ring
    rw [hsub]
    exact (norm_sub_le _ _).trans (add_le_add (hscaled _ _ _ hz) h)
  rw [Near, hsplit]
  refine (norm_add_le _ _).trans (add_le_add ?_ ?_)
  · rw [norm_mul]
    exact mul_le_mul h (hscaled _ _ _ hz') (norm_nonneg _) h.radius_nonneg
  · rw [norm_mul]
    exact mul_le_mul hmid h' (norm_nonneg _) ((norm_nonneg _).trans hmid)

theorem near_sum {ι : Type*} {s : Finset ι} {mids : ι → GaussianInt} {radii : ι → ℝ} {zs : ι → ℂ}
    (h : ∀ i ∈ s, Near scale (mids i) (radii i) (zs i)) :
    Near scale (∑ i ∈ s, mids i) (∑ i ∈ s, radii i) (∑ i ∈ s, zs i) := by
  have hsplit : (scale : ℂ) * ∑ i ∈ s, zs i - ((∑ i ∈ s, mids i : GaussianInt) : ℂ) =
      ∑ i ∈ s, (scale * zs i - mids i) := by
    rw [map_sum, mul_sum, sum_sub_distrib]
  rw [Near, hsplit]
  exact (norm_sum_le _ _).trans (sum_le_sum h)

/-- A bound of the centre bounds the number. -/
theorem Near.norm_le (h : Near scale mid radius z) (hscale : 0 < scale) {b : ℤ} (hb : 0 ≤ b)
    (hmid : mid.norm ≤ (b * scale) ^ 2) : ‖z‖ ≤ b + radius / scale := by
  have hs : (0 : ℝ) < scale := by exact_mod_cast hscale
  have hb' : (0 : ℝ) ≤ b := by exact_mod_cast hb
  have hcentre : ‖(mid : ℂ)‖ ≤ b * scale := by
    rw [← abs_of_nonneg (mul_nonneg hb' hs.le), ← abs_norm, ← sq_le_sq, ← normSq_eq_norm_sq,
      ← GaussianInt.intCast_real_norm]
    exact_mod_cast hmid
  have hsplit : (scale : ℂ) * z = (scale * z - mid) + mid := by ring
  have hscaled : ‖(scale : ℂ) * z‖ = scale * ‖z‖ := by
    rw [norm_mul, norm_intCast, abs_of_pos hs]
  have htotal : scale * ‖z‖ ≤ radius + b * scale := by
    rw [← hscaled, hsplit]
    exact (norm_add_le _ _).trans (add_le_add h hcentre)
  rw [add_div' _ _ _ hs.ne', le_div_iff₀ hs]
  linarith

/-- The centre divided by the scale. -/
theorem Near.norm_div_sub_le (h : Near scale mid radius z) (hscale : 0 < scale) :
    ‖((scale : ℝ)⁻¹ : ℂ) * mid - z‖ ≤ radius / scale := by
  have hs : (0 : ℝ) < scale := by exact_mod_cast hscale
  have hne : (scale : ℂ) ≠ 0 := by exact_mod_cast hs.ne'
  have hfactor : ((scale : ℝ)⁻¹ : ℂ) * mid - z = -((scale : ℝ)⁻¹ : ℂ) * (scale * z - mid) := by
    rw [ofReal_intCast, neg_mul, mul_sub, inv_mul_cancel_left₀ hne]
    ring
  rw [hfactor, norm_mul, norm_neg, ← ofReal_inv, norm_real, Real.norm_of_nonneg (by positivity),
    inv_mul_eq_div]
  gcongr
  exact h

/-- The cross product of the centres. -/
theorem Near.abs_cross_sub_le (hscale : 0 < scale) (h : Near scale mid scale z)
    {mid' : GaussianInt} {z' : ℂ} (h' : Near scale mid' scale z') {b : ℝ} (hz : ‖z‖ ≤ b)
    (hz' : ‖z'‖ ≤ b) :
    |((mid'.re * mid.im - mid'.im * mid.re : ℤ) : ℝ) / scale ^ 2 - cross z' z| ≤ 2 * b + 1 := by
  have hs : (0 : ℝ) < scale := by exact_mod_cast hscale
  have hmid := h.norm_div_sub_le hscale
  have hmid' := h'.norm_div_sub_le hscale
  rw [div_self hs.ne'] at hmid hmid'
  have hclose := Quadrature.abs_cross_sub_le hz hz' hmid hmid'
  rw [← ofReal_inv, cross_ofReal_mul, cross_eq, inv_pow, inv_mul_eq_div, mul_one, one_pow] at hclose
  push_cast
  rw [GaussianInt.intCast_re, GaussianInt.intCast_re, GaussianInt.intCast_im,
    GaussianInt.intCast_im]
  exact hclose

/-! ## Phasors of rational angles -/

/-- The centre for the phasor of `z / q` of a turn. -/
def phasorMid (scale : ℤ) (j : ℕ) (z : ℤ) (q : ℕ) : GaussianInt :=
  ⟨cosTurn scale j z q, cosTurn scale j (4 * z - q) (4 * q)⟩

theorem near_phasorMid {scale : ℤ} {j : ℕ} (hfine : FineEnough scale j) {q : ℕ} (hq : 0 < q)
    (z : ℤ) :
    Near scale (phasorMid scale j z q) (2 * turnRadius scale j)
      (phasor (2 * Real.pi * (z / q))) := by
  have hcos := encloses_cosTurn hfine hq z
  have hsin := encloses_cosTurn hfine (q := 4 * q) (by omega) (4 * z - q)
  have hquarter : 2 * Real.pi * (((4 * z - q : ℤ) : ℝ) / ((4 * q : ℕ) : ℝ)) =
      2 * Real.pi * (z / q) - Real.pi / 2 := by
    have hne : (q : ℝ) ≠ 0 := by exact_mod_cast hq.ne'
    push_cast
    field_simp
    ring
  rw [hquarter, Real.cos_sub_pi_div_two] at hsin
  unfold Encloses at hcos hsin
  rw [Near]
  refine (norm_le_abs_re_add_abs_im _).trans ((add_le_add ?_ ?_).trans (two_mul _).symm.le)
  · simpa [phasorMid] using hcos
  · simpa [phasorMid] using hsin

/-! ## Running sums -/

/-- The sums of the first values of a function, from `k` on. -/
def runningSums {α : Type*} [Add α] (f : ℕ → α) : (n k : ℕ) → (total : α) → List α
  | 0, _, total => [total]
  | n + 1, k, total => total :: runningSums f n (k + 1) (total + f k)

theorem getD_runningSums {α : Type*} [AddCommMonoid α] (f : ℕ → α) {n i : ℕ} (hi : i ≤ n) (k : ℕ)
    (total : α) :
    (runningSums f n k total).getD i 0 = total + ∑ j ∈ range i, f (k + j) := by
  induction n generalizing i k total with
  | zero =>
    obtain rfl : i = 0 := by omega
    simp [runningSums]
  | succ n ih =>
    cases i with
    | zero => simp [runningSums]
    | succ i =>
      rw [runningSums, List.getD_cons_succ, ih (by omega), sum_range_succ', add_assoc,
        add_comm (f k)]
      congr 2
      exact sum_congr rfl fun j _ => by rw [Nat.add_right_comm, Nat.add_assoc]

/-- The segments between increasing cuts make up the whole. -/
theorem sum_sum_Ico {α : Type*} [AddCommMonoid α] (f : ℕ → α) {cut : ℕ → ℕ} (hmono : Monotone cut)
    (hzero : cut 0 = 0) (n : ℕ) :
    ∑ b ∈ range n, ∑ k ∈ Ico (cut b) (cut (b + 1)), f k = ∑ k ∈ range (cut n), f k := by
  induction n with
  | zero => rw [hzero, sum_range_zero, sum_range_zero]
  | succ n ih =>
    rw [sum_range_succ, ih, range_eq_Ico, range_eq_Ico,
      sum_Ico_consecutive f (Nat.zero_le _) (hmono (Nat.le_succ n))]

/-- A segment of a sum of products with integer taps. -/
theorem near_segment (taps : ℕ → ℤ) {mids : ℕ → GaussianInt} {zs : ℕ → ℂ}
    (h : ∀ k, Near scale (mids k) radius (zs k)) {n lo hi : ℕ} (hlo : lo ≤ hi) (hhi : hi ≤ n) :
    Near scale
      ((runningSums (fun k => (taps k : GaussianInt) * mids k) n 0 0).getD hi 0 -
        (runningSums (fun k => (taps k : GaussianInt) * mids k) n 0 0).getD lo 0)
      ((∑ k ∈ Ico lo hi, |taps k|) * radius) (∑ k ∈ Ico lo hi, taps k * zs k) := by
  rw [getD_runningSums _ hhi, getD_runningSums _ (hlo.trans hhi)]
  simp only [zero_add]
  rw [← sum_Ico_eq_sub _ hlo]
  push_cast
  rw [sum_mul]
  have hterm : ∀ k ∈ Ico lo hi,
      Near scale ((taps k : GaussianInt) * mids k) (((|taps k| : ℤ) : ℝ) * radius)
        (taps k * zs k) := fun k _ => (h k).intCast_mul (taps k)
  simpa using near_sum hterm

end Quadrature
