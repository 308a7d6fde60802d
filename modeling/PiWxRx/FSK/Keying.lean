import PiWxRx.FSK.Tones

/-!
# Keyed tones

The transmitter sends a bit in `576` twenty-fifths of a sample, and a mark makes four and a space
three whole cycles in that time. So the phase of either tone at `g` twenty-fifths after the start of
the transmission is a multiple of `g`, in parts of `1 / 18432` of a turn, and every bit begins with
the same phase.

The filter output is the sum of two sidebands of the oscillator (`filtered_signal`). Up to a common
rotation each depends only on the place within the bit and on the tones of this bit and the ones
before it (`sideband_eq`), so the discriminator output of a transmission is found among finitely
many windows (`cross_sideband_eq`).
-/

namespace PiWxRx

open CArith Quadrature Finset Complex

/-! ## Phases in parts of a turn -/

theorem partAngle_add (y z : ℤ) : partAngle (y + z) = partAngle y + partAngle z := by
  unfold partAngle
  push_cast
  ring

theorem partAngle_neg (z : ℤ) : partAngle (-z) = -partAngle z := by
  unfold partAngle
  push_cast
  ring

theorem oscAngle_eq : oscAngle = partAngle 2799 := rfl

theorem phasor_add_int_mul (θ : ℝ) (z : ℤ) : phasor (θ + z * (2 * Real.pi)) = phasor θ := by
  apply Complex.ext <;> simp

/-- Whole turns do not matter. -/
theorem phasor_partAngle_congr {y z : ℤ} (h : y % 18432 = z % 18432) :
    phasor (partAngle y) = phasor (partAngle z) := by
  obtain ⟨c, rfl⟩ : ∃ c, y = z + 18432 * c := ⟨(y - z) / 18432, by omega⟩
  have hangle : partAngle (z + 18432 * c) = partAngle z + c * (2 * Real.pi) := by
    rw [partAngle_add]
    unfold partAngle
    push_cast
    ring
  rw [hangle, phasor_add_int_mul]

/-! ## The signal -/

/-- What is sent in each bit time, a tone or nothing. -/
abbrev Keying := ℤ → Option Tone

/-- The parts of a turn in a twenty-fifth of a sample. -/
def Tone.units : Tone → ℤ
  | .mark => 128
  | .space => 96

theorem Tone.turns_eq (tone : Tone) : tone.turns = 25 * tone.units := by
  cases tone <;> rfl

/-- The signal `g` twenty-fifths of a sample after the transmission has started. -/
noncomputable def Keying.signal (sent : Keying) (amp φ : ℝ) (g : ℤ) : ℝ :=
  (sent (g / 576)).elim 0 fun tone => amp * Real.cos (partAngle (tone.units * g) + φ)

/-- The two sidebands of the oscillator. -/
inductive Sideband where
  | lower
  | upper
  deriving DecidableEq

/-- Whether the phase of the tone is added or taken off. -/
def Sideband.sign : Sideband → ℤ
  | .lower => -1
  | .upper => 1

/-- The angle of a tone in a sideband, per sample. -/
def Sideband.offset : Sideband → Tone → ℤ
  | .lower => Tone.difference
  | .upper => Tone.sum

theorem Sideband.offset_eq (band : Sideband) (tone : Tone) :
    band.offset tone = 2799 + band.sign * (25 * tone.units) := by
  cases band <;> cases tone <;> rfl

/-- What the filter makes of a sideband, with the phase of the oscillator taken off. -/
noncomputable def Keying.sideband (sent : Keying) (band : Sideband) (g : ℤ) : ℂ :=
  ∑ k ∈ range 45, (firTaps k : ℂ) * (sent ((g - 25 * k) / 576)).elim 0 fun tone =>
    phasor (partAngle (band.sign * tone.units * (g - 25 * k) - 2799 * k))

/-- The filter output is the sum of the sidebands. -/
theorem filtered_signal (sent : Keying) (amp φ : ℝ) (g : ℤ) {n : ℕ} (hn : 44 ≤ n) :
    ∑ k ∈ range 45, (firGain k : ℂ) *
        (sent.signal amp φ (g - 25 * k) * phasor (oscAngle * (n - k : ℕ))) =
      (amp / 131072 : ℝ) * (phasor (oscAngle * n + φ) * sent.sideband .upper g +
        phasor (oscAngle * n - φ) * sent.sideband .lower g) := by
  unfold Keying.sideband
  rw [mul_add, ← mul_assoc, ← mul_assoc, mul_sum, mul_sum, ← sum_add_distrib]
  refine sum_congr rfl fun k hk => ?_
  have hk' : k ≤ n := (Nat.lt_succ_iff.mp (mem_range.mp hk)).trans hn
  rw [Keying.signal]
  cases sent ((g - 25 * k) / 576) with
  | none => simp
  | some tone =>
    set θ : ℝ := partAngle (tone.units * (g - 25 * k)) with hθ
    -- the phase of tap `k` in a sideband, and the mixer delayed as much
    have hband : ∀ band : Sideband,
        phasor (partAngle (band.sign * tone.units * (g - 25 * k) - 2799 * k)) =
          phasor (band.sign * θ - oscAngle * k) := by
      intro band
      congr 1
      rw [oscAngle_eq, hθ]
      unfold partAngle
      push_cast
      ring
    have hupper : phasor (oscAngle * n + φ) * phasor (Sideband.upper.sign * θ - oscAngle * k) =
        phasor (oscAngle * (n - k) + (θ + φ)) := by
      rw [← phasor_add, Sideband.sign]
      congr 1
      push_cast
      ring
    have hlower : phasor (oscAngle * n - φ) * phasor (Sideband.lower.sign * θ - oscAngle * k) =
        phasor (oscAngle * (n - k) - (θ + φ)) := by
      rw [← phasor_add, Sideband.sign]
      congr 1
      push_cast
      ring
    -- the product of the tone and the mixer is the sum of the two
    have hmix := cos_mul_phasor (θ + φ) (oscAngle * (n - k))
    simp only [Option.elim_some, hband]
    rw [mul_assoc, mul_assoc, mul_left_comm (phasor _), mul_left_comm (phasor _), hupper, hlower,
      Nat.cast_sub hk', ofReal_mul, mul_assoc, hmix, firGain]
    push_cast
    ring

/-- In the 57 samples up to sample `n` the transmission that starts `s` twenty-fifths of a sample
after sample zero is heard, each sample with an error of at most `err`. -/
def Keying.Heard (sent : Keying) (x : ℕ → RtlSample) (amp φ err : ℝ) (s : ℤ) (n : ℕ) : Prop :=
  ∀ m ≤ n, n < m + 57 → |((x m).toInt : ℝ) - sent.signal amp φ (25 * m - s)| ≤ err

/-- The filter output pair is the lower sideband, up to the upper one and the errors. -/
theorem norm_filtered_sub_lower_le {oscLut : Vector OscValue lutSize} (hcos : CosineTable oscLut)
    {sent : Keying} {x : ℕ → RtlSample} {amp φ err : ℝ} (hamp : 0 ≤ amp) {s : ℤ} {n : ℕ}
    (hn : 44 ≤ n) (hheard : ∀ m ≤ n, n < m + 45 →
      |((x m).toInt : ℝ) - sent.signal amp φ (25 * m - s)| ≤ err) :
    ‖paired (filtered oscLut x) n - (amp / 131072 : ℝ) *
        (phasor (oscAngle * n - φ) * sent.sideband .lower (25 * n - s))‖ ≤
      amp / 131072 * ‖sent.sideband .upper (25 * n - s)‖ + (46718 / 65536 * (err + 6) + 3 / 2) := by
  have hfiltered :=
    norm_filtered_sub_le hcos (w := fun m => sent.signal amp φ (25 * m - s)) hn hheard
  -- the sample at tap `k`, on the clock of twenty-fifths
  have hindex : ∀ k ∈ range 45, (firGain k : ℂ) *
      ((sent.signal amp φ (25 * (n - k : ℕ) - s) : ℝ) * phasor (oscAngle * (n - k : ℕ))) =
        (firGain k : ℂ) * ((sent.signal amp φ (25 * n - s - 25 * k) : ℝ) *
          phasor (oscAngle * (n - k : ℕ))) := by
    intro k hk
    have hk' : k ≤ n := (Nat.lt_succ_iff.mp (mem_range.mp hk)).trans hn
    rw [show 25 * ((n - k : ℕ) : ℤ) - s = 25 * n - s - 25 * k by omega]
  rw [sum_congr rfl hindex, filtered_signal sent amp φ _ hn, mul_add] at hfiltered
  have hupper : ‖((amp / 131072 : ℝ) : ℂ) *
      (phasor (oscAngle * n + φ) * sent.sideband .upper (25 * n - s))‖ =
        amp / 131072 * ‖sent.sideband .upper (25 * n - s)‖ := by
    rw [norm_mul, norm_mul, norm_phasor, one_mul, norm_real, Real.norm_of_nonneg (by positivity)]
  -- the upper sideband counts as an error here
  have hsplit : paired (filtered oscLut x) n - (amp / 131072 : ℝ) *
      (phasor (oscAngle * n - φ) * sent.sideband .lower (25 * n - s)) =
        (amp / 131072 : ℝ) * (phasor (oscAngle * n + φ) * sent.sideband .upper (25 * n - s)) +
          (paired (filtered oscLut x) n - ((amp / 131072 : ℝ) *
            (phasor (oscAngle * n + φ) * sent.sideband .upper (25 * n - s)) + (amp / 131072 : ℝ) *
              (phasor (oscAngle * n - φ) * sent.sideband .lower (25 * n - s)))) := by
    ring
  rw [hsplit]
  exact (norm_add_le _ _).trans (add_le_add hupper.le hfiltered)

/-- The discriminator takes the cross product of the lower sideband with itself of twelve samples
before. -/
theorem abs_cross_filtered_sub_le {oscLut : Vector OscValue lutSize} (hcos : CosineTable oscLut)
    {sent : Keying} {x : ℕ → RtlSample} {amp φ err : ℝ} (hamp : 0 ≤ amp) {s : ℤ} {n : ℕ}
    (hn : 56 ≤ n) (hheard : sent.Heard x amp φ err s n) {g : ℤ} (hg : 25 * n - s = g)
    {lower upper : ℝ} (hlower : ‖sent.sideband .lower g‖ ≤ lower)
    (hlower' : ‖sent.sideband .lower (g - 300)‖ ≤ lower) (hupper : ‖sent.sideband .upper g‖ ≤ upper)
    (hupper' : ‖sent.sideband .upper (g - 300)‖ ≤ upper) :
    |cross (paired (filtered oscLut x) (n - 12)) (paired (filtered oscLut x) n) -
        (amp / 131072) ^ 2 * cross (phasor (-(oscAngle * 12)) * sent.sideband .lower (g - 300))
          (sent.sideband .lower g)| ≤
      2 * (amp / 131072 * lower) *
          (amp / 131072 * upper + (46718 / 65536 * (err + 6) + 3 / 2)) +
        (amp / 131072 * upper + (46718 / 65536 * (err + 6) + 3 / 2)) ^ 2 := by
  have hscale : 0 ≤ amp / 131072 := by positivity
  have hnow := norm_filtered_sub_lower_le hcos hamp (by omega) fun m hm hlt =>
    hheard m hm (by omega)
  have hthen := norm_filtered_sub_lower_le hcos (n := n - 12) hamp (by omega) fun m hm hlt =>
    hheard m (by omega) (by omega)
  rw [show 25 * ((n - 12 : ℕ) : ℤ) - s = g - 300 by omega, Nat.cast_sub (by omega)] at hthen
  rw [hg] at hnow
  -- twelve samples turn the mixer by a fixed angle
  have hback : phasor (oscAngle * (n - (12 : ℕ)) - φ) * sent.sideband .lower (g - 300) =
      phasor (oscAngle * n - φ) *
        (phasor (-(oscAngle * 12)) * sent.sideband .lower (g - 300)) := by
    rw [← mul_assoc, ← phasor_add]
    congr 2
    push_cast
    ring
  rw [hback] at hthen
  have hsize : ∀ (θ : ℝ) (z : ℂ), ‖z‖ ≤ lower →
      ‖((amp / 131072 : ℝ) : ℂ) * (phasor θ * z)‖ ≤ amp / 131072 * lower := by
    intro θ z hz
    rw [norm_mul, norm_mul, norm_phasor, one_mul, norm_real, Real.norm_of_nonneg hscale]
    gcongr
  have hback' : ‖phasor (-(oscAngle * 12)) * sent.sideband .lower (g - 300)‖ ≤ lower := by
    rwa [norm_mul, norm_phasor, one_mul]
  have hclose := abs_cross_sub_le (hsize (oscAngle * n - φ) _ hlower)
    (hsize (oscAngle * n - φ) _ hback')
    (hnow.trans (add_le_add_left (mul_le_mul_of_nonneg_left hupper hscale) _))
    (hthen.trans (add_le_add_left (mul_le_mul_of_nonneg_left hupper' hscale) _))
  rwa [cross_ofReal_mul, cross_phasor_mul] at hclose

/-! ## Windows -/

/-- The parts of a turn by which a mark is ahead of a space. -/
def Tone.excess : Tone → ℤ
  | .mark => 32
  | .space => 0

theorem Tone.units_eq (tone : Tone) : tone.units = 96 + tone.excess := by
  cases tone <;> rfl

/-- Over a bit that comes to whole turns. -/
theorem Tone.excess_mul (tone : Tone) : ∃ c, tone.excess * 576 = 18432 * c := by
  cases tone with
  | mark => exact ⟨1, rfl⟩
  | space => exact ⟨0, rfl⟩

/-- A sideband `u` twenty-fifths into a bit and `d` samples back, where `t` gives the tones of this
bit and of the ones before it. -/
noncomputable def Sideband.window (band : Sideband) (d u : ℕ) (t : ℕ → Option Tone) : ℂ :=
  ∑ k ∈ range 45, (firTaps k : ℂ) * (t ((25 * (k + d) + 575 - u) / 576)).elim 0 fun tone =>
    phasor (partAngle (band.sign * tone.excess * u - band.offset tone * (k + d : ℕ)))

/-- A sideband of a transmission is that of the window of its last bits, rotated. -/
theorem sideband_eq (sent : Keying) (band : Sideband) (d : ℕ) (i : ℤ) {u : ℕ} (hu : u < 576) :
    phasor (partAngle (-2799 * d)) * sent.sideband band (576 * i + u - 25 * d) =
      phasor (partAngle (band.sign * 96 * (576 * i + u))) *
        band.window d u fun b => sent (i - b) := by
  unfold Keying.sideband Sideband.window
  rw [mul_sum, mul_sum]
  refine sum_congr rfl fun k _ => ?_
  have hindex : (576 * i + u - 25 * d - 25 * k) / 576 =
      i - ((25 * (k + d) + 575 - u) / 576 : ℕ) := by
    omega
  rw [hindex, mul_left_comm, mul_left_comm (phasor _)]
  congr 1
  beta_reduce
  cases sent (i - ((25 * (k + d) + 575 - u) / 576 : ℕ)) with
  | none => simp only [Option.elim_none, mul_zero]
  | some tone =>
    simp only [Option.elim_some]
    rw [← phasor_add, ← partAngle_add, ← phasor_add, ← partAngle_add]
    refine phasor_partAngle_congr ?_
    obtain ⟨c, hc⟩ := tone.excess_mul
    have hwhole :
        -2799 * d + (band.sign * tone.units * (576 * i + u - 25 * d - 25 * k) - 2799 * k) =
          band.sign * 96 * (576 * i + u) + (band.sign * tone.excess * u -
            band.offset tone * (k + d : ℕ)) + 18432 * (band.sign * i * c) := by
      rw [band.offset_eq, tone.units_eq]
      push_cast
      linear_combination band.sign * i * hc
    rw [hwhole, Int.add_mul_emod_self_left]

/-- The cross product of the lower sideband with itself of twelve samples before, where the
oscillator has turned on. -/
theorem cross_sideband_eq (sent : Keying) (i : ℤ) {u : ℕ} (hu : u < 576) :
    cross (phasor (-(oscAngle * 12)) * sent.sideband .lower (576 * i + u - 300))
        (sent.sideband .lower (576 * i + u)) =
      cross (Sideband.lower.window 12 u fun b => sent (i - b))
        (Sideband.lower.window 0 u fun b => sent (i - b)) := by
  have hfar := sideband_eq sent .lower 12 i hu
  have hnear := sideband_eq sent .lower 0 i hu
  have hback : partAngle (-2799 * (12 : ℕ)) = -(oscAngle * 12) := by
    rw [oscAngle_eq]
    unfold partAngle
    push_cast
    ring
  have hnone : phasor (partAngle (-2799 * (0 : ℕ))) = 1 := by
    simp [partAngle, phasor]
  rw [hback] at hfar
  rw [hnone, one_mul] at hnear
  norm_num at hfar hnear
  rw [hfar, hnear, cross_phasor_mul]

theorem norm_sideband_eq (sent : Keying) (band : Sideband) (i : ℤ) {u : ℕ} (hu : u < 576) :
    ‖sent.sideband band (576 * i + u)‖ = ‖band.window 0 u fun b => sent (i - b)‖ := by
  have hnear := congrArg norm (sideband_eq sent band 0 i hu)
  rw [norm_mul, norm_mul, norm_phasor, norm_phasor, one_mul, one_mul] at hnear
  simpa using hnear

end PiWxRx
