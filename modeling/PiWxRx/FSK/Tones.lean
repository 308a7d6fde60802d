import PiWxRx.FSK.BitDecision
import PiWxRx.General.CosineEnclosure

/-!
# The tones of the two bit values

The transmitter sends a logic one as 2083.3 Hz and a logic zero as 1562.5 Hz. At 12000 samples a
second these are `25 / 144` and `25 / 192` of a turn per sample, on either side of the `311 / 2048`
of the oscillator. A tone that has lasted for the 57 samples the front end remembers is demodulated
to its bit: of whatever phase, from an amplitude of 500 on and with an error of each sample of up to
a tenth of the amplitude (`demodBit_tone`, `demodBit_quiet_tone`).

The signals of the exact demodulator are compared with those of the quadrature demodulator over the
real numbers, one stage after the other: `norm_mixed_sub_le`, `norm_filtered_sub_le` and
`sign_mul_cross_ge`.
-/

namespace PiWxRx

open CArith Quadrature Finset Complex

/-! ## Tones and oscillator -/

/-- The two tones. -/
inductive Tone where
  | mark
  | space
  deriving DecidableEq

/-- Turns per sample, as a fraction over `18432 = 9 * 2048`. -/
def Tone.turns : Tone → ℤ
  | .mark => 3200
  | .space => 2400

/-- The angle per sample. -/
noncomputable def Tone.angle (tone : Tone) : ℝ := 2 * Real.pi * (tone.turns / (18432 : ℕ))

/-- The bit a tone stands for. -/
def Tone.bit : Tone → DataBit
  | .mark => true
  | .space => false

/-- The sign of the discriminator output. -/
def Tone.sign : Tone → ℤ
  | .mark => -1
  | .space => 1

/-- The table is the cosine over one turn, up to the rounding of `InitOsc`. -/
structure CosineTable (oscLut : Vector OscValue lutSize) : Prop where
  near : ∀ i (hi : i < lutSize),
    |(oscLut[i].toInt : ℝ) - 32767 * Real.cos (2 * Real.pi * i / 2048)| ≤ 2
  range : ∀ i (hi : i < lutSize), -32767 ≤ oscLut[i].toInt ∧ oscLut[i].toInt ≤ 32767

/-- In the 57 samples up to sample `n` the tone is heard with amplitude `amp` and phase `φ`, each
sample with an error of at most `err`. -/
def Heard (x : ℕ → RtlSample) (tone : Tone) (amp φ err : ℝ) (n : ℕ) : Prop :=
  ∀ m ≤ n, n < m + 57 → |((x m).toInt : ℝ) - amp * Real.cos (tone.angle * m + φ)| ≤ err

/-- The angle of the oscillator per sample. -/
noncomputable def oscAngle : ℝ := 2 * Real.pi * ((2799 : ℤ) / (18432 : ℕ))

/-- The angle of `z` parts of a turn. -/
noncomputable def partAngle (z : ℤ) : ℝ := 2 * Real.pi * (z / (18432 : ℕ))

/-! ## One channel pair as a complex signal -/

/-- The two channels of a signal as one complex number. -/
def paired (signal : Channel → ℕ → ℤ) (m : ℕ) : ℂ := ⟨signal .I m, signal .Q m⟩

/-- A complex number whose parts are small. -/
theorem norm_le_of_parts {z : ℂ} {b : ℝ} (hre : |z.re| ≤ b) (him : |z.im| ≤ b) :
    ‖z‖ ≤ 3 / 2 * b := by
  have hb : 0 ≤ b := (abs_nonneg _).trans hre
  refine (norm_le_sqrt_two_mul_max z).trans ?_
  have hsqrt : √2 ≤ 3 / 2 := by
    rw [Real.sqrt_le_left (by norm_num)]
    norm_num
  gcongr
  exact max_le hre him

/-- An integer division rounds down by less than one. -/
theorem abs_cast_ediv_sub_le {b : ℤ} (hb : 0 < b) (a : ℤ) : |((a / b : ℤ) : ℝ) - a / b| ≤ 1 := by
  have := cast_ediv_bounds hb a
  rw [abs_le]
  constructor <;> linarith [this.1, this.2]

section

variable {oscLut : Vector OscValue lutSize} (hcos : CosineTable oscLut)
include hcos

theorem abs_oscillator_sub_le (ch : Channel) (m : ℕ) :
    |((oscillator oscLut ch m).toInt : ℝ) -
      32767 * Real.cos (2 * Real.pi * ((ch.phase + 311 * m : ℕ) : ℝ) / 2048)| ≤ 2 := by
  have hturn : 2 * Real.pi * ((ch.phase + 311 * m : ℕ) : ℝ) / 2048 =
      2 * Real.pi * (((ch.phase + 311 * m) % 2048 : ℕ) : ℝ) / 2048 +
        ((ch.phase + 311 * m) / 2048 : ℕ) * (2 * Real.pi) := by
    generalize ch.phase + 311 * m = k
    conv_lhs => rw [← Nat.mod_add_div k 2048]
    push_cast
    ring
  rw [hturn, Real.cos_add_nat_mul_two_pi]
  exact hcos.near _ _

/-- The oscillator pair turns by `oscAngle` per sample. -/
theorem norm_oscillator_sub_le (m : ℕ) :
    ‖paired (fun ch m => (oscillator oscLut ch m).toInt) m - 32768 * phasor (oscAngle * m)‖ ≤
      9 / 2 := by
  have hphase : ∀ c v : ℝ, |v - 32767 * c| ≤ 2 → |c| ≤ 1 → |v - 32768 * c| ≤ 3 := by
    intro c v hv hc
    rw [abs_le] at hv hc ⊢
    constructor <;> linarith [hv.1, hv.2, hc.1, hc.2]
  have hI := abs_oscillator_sub_le hcos .I m
  have hQ := abs_oscillator_sub_le hcos .Q m
  have hangleI : 2 * Real.pi * ((Channel.I.phase + 311 * m : ℕ) : ℝ) / 2048 = oscAngle * m := by
    rw [oscAngle, Channel.phase]
    push_cast
    ring
  have hangleQ : 2 * Real.pi * ((Channel.Q.phase + 311 * m : ℕ) : ℝ) / 2048 =
      oscAngle * m - Real.pi / 2 + (1 : ℤ) * (2 * Real.pi) := by
    rw [oscAngle, Channel.phase]
    push_cast
    ring
  rw [hangleI] at hI
  rw [hangleQ, Real.cos_add_int_mul_two_pi, Real.cos_sub_pi_div_two] at hQ
  have hparts := norm_le_of_parts
    (z := paired (fun ch m => (oscillator oscLut ch m).toInt) m - 32768 * phasor (oscAngle * m))
    (b := 3) ?_ ?_
  · linarith
  · simpa [paired] using hphase _ _ hI (Real.abs_cos_le_one _)
  · simpa [paired] using hphase _ _ hQ (Real.abs_sin_le_one _)

/-- The mixer pair is the signal times the oscillator. -/
theorem norm_mixed_sub_le {x : ℕ → RtlSample} {w err : ℝ} {m : ℕ}
    (hheard : |((x m).toInt : ℝ) - w| ≤ err) :
    ‖paired (mixed oscLut x) m - (w : ℂ) * phasor (oscAngle * m)‖ ≤ err + 6 := by
  set v : ℝ := ((x m).toInt : ℝ)
  set osc : ℂ := paired (fun ch m => (oscillator oscLut ch m).toInt) m with hosc
  have hv : |v| ≤ 32768 := by
    have hlo := BitVec.le_toInt (x m)
    have hhi := BitVec.toInt_lt (x := x m)
    have habs : |(x m).toInt| ≤ 32768 := abs_le.mpr ⟨by simpa using hlo, by simpa using hhi.le⟩
    change |((x m).toInt : ℝ)| ≤ 32768
    exact_mod_cast habs
  -- the shift by 15 bits
  have hshift : ‖paired (mixed oscLut x) m - (v / 32768 : ℝ) * osc‖ ≤ 3 / 2 := by
    have hpart : ∀ ch, |((mixed oscLut x ch m : ℤ) : ℝ) -
        v / 32768 * ((oscillator oscLut ch m).toInt : ℝ)| ≤ 1 := by
      intro ch
      have := abs_cast_ediv_sub_le (b := 2 ^ 15) (by norm_num)
        ((oscillator oscLut ch m).toInt * (x m).toInt)
      rw [mixed, show v / 32768 * ((oscillator oscLut ch m).toInt : ℝ) =
        (((oscillator oscLut ch m).toInt * (x m).toInt : ℤ) : ℝ) / ((2 ^ 15 : ℤ) : ℝ) by
          push_cast; ring]
      exact this
    refine (norm_le_of_parts ?_ ?_).trans (le_of_eq (mul_one _))
    · rw [sub_re, re_ofReal_mul]
      exact hpart .I
    · rw [sub_im, im_ofReal_mul]
      exact hpart .Q
  -- the error of the table
  have htable : ‖(v / 32768 : ℝ) * osc - (v : ℂ) * phasor (oscAngle * m)‖ ≤ 9 / 2 := by
    have hfactor : (v / 32768 : ℝ) * osc - (v : ℂ) * phasor (oscAngle * m) =
        (v / 32768 : ℝ) * (osc - 32768 * phasor (oscAngle * m)) := by
      push_cast
      ring
    rw [hfactor, norm_mul, norm_real, Real.norm_eq_abs, abs_div,
      abs_of_pos (by norm_num : (0 : ℝ) < 32768)]
    calc |v| / 32768 * ‖osc - 32768 * phasor (oscAngle * m)‖ ≤ 1 * (9 / 2) := by
          refine mul_le_mul ?_ (norm_oscillator_sub_le hcos m) (norm_nonneg _) zero_le_one
          rwa [div_le_one (by norm_num)]
      _ = 9 / 2 := one_mul _
  -- the error of the sample
  have hsample : ‖(v : ℂ) * phasor (oscAngle * m) - (w : ℂ) * phasor (oscAngle * m)‖ ≤ err := by
    rw [← sub_mul, norm_mul, norm_phasor, mul_one, ← ofReal_sub, norm_real, Real.norm_eq_abs]
    exact hheard
  have htri := norm_sub_le_norm_sub_add_norm_sub (paired (mixed oscLut x) m)
    ((v / 32768 : ℝ) * osc) ((w : ℂ) * phasor (oscAngle * m))
  have htri' := norm_sub_le_norm_sub_add_norm_sub ((v / 32768 : ℝ) * osc)
    ((v : ℂ) * phasor (oscAngle * m)) ((w : ℂ) * phasor (oscAngle * m))
  linarith

end

/-! ## The filter -/

/-- The coefficients of the filter as integers. -/
def firTaps (k : ℕ) : ℤ := (firCoeffs.toList.map BitVec.toInt).getD k 0

/-- The taps with the shift out of the accumulator. -/
noncomputable def firGain (k : ℕ) : ℝ := firTaps k / 65536

theorem firGain_symmetric : Symmetric firGain 22 := by
  intro k hk
  have htaps : ∀ k ≤ 44, firTaps (44 - k) = firTaps k := by decide
  rw [firGain, firGain, htaps k hk]

theorem sum_abs_firTaps : ∑ k ∈ range 45, |firTaps k| = 46718 := by decide

/-- The filter output pair is the filtered mixer pair, rounded down. -/
theorem norm_filtered_sub_sum_le (oscLut : Vector OscValue lutSize) (x : ℕ → RtlSample) {n : ℕ}
    (hn : 44 ≤ n) :
    ‖paired (filtered oscLut x) n -
      ∑ k ∈ range 45, (firGain k : ℂ) * paired (mixed oscLut x) (n - k)‖ ≤ 3 / 2 := by
  have hpart : ∀ ch, |((filtered oscLut x ch n : ℤ) : ℝ) -
      ∑ k ∈ range 45, firGain k * ((mixed oscLut x ch (n - k) : ℤ) : ℝ)| ≤ 1 := by
    intro ch
    have hdot : dot (firCoeffs.toList.map BitVec.toInt) (delayed (mixed oscLut x ch) n) =
        ∑ k ∈ range 45, firTaps k * mixed oscLut x ch (n - k) := by
      rw [dot_eq_sum, show (firCoeffs.toList.map BitVec.toInt).length = 45 from by decide]
      refine sum_congr rfl fun k hk => ?_
      rw [delayed, if_pos (by have := mem_range.mp hk; omega), firTaps]
    have hfloor := abs_cast_ediv_sub_le (b := 2 ^ 16) (by norm_num)
      (∑ k ∈ range 45, firTaps k * mixed oscLut x ch (n - k))
    have hsum : ∑ k ∈ range 45, firGain k * ((mixed oscLut x ch (n - k) : ℤ) : ℝ) =
        ((∑ k ∈ range 45, firTaps k * mixed oscLut x ch (n - k) : ℤ) : ℝ) / ((2 ^ 16 : ℤ) : ℝ) := by
      push_cast
      rw [sum_div]
      refine sum_congr rfl fun k _ => ?_
      rw [firGain]
      ring
    rw [filtered, hdot, hsum]
    exact hfloor
  refine (norm_le_of_parts ?_ ?_).trans (le_of_eq (mul_one _))
  · simp only [sub_re, re_sum, re_ofReal_mul]
    exact hpart .I
  · simp only [sub_im, im_sum, im_ofReal_mul]
    exact hpart .Q

/-- The filter output pair is the filtered product of signal and oscillator. -/
theorem norm_filtered_sub_le {oscLut : Vector OscValue lutSize} (hcos : CosineTable oscLut)
    {x : ℕ → RtlSample} {w : ℕ → ℝ} {err : ℝ} {n : ℕ} (hn : 44 ≤ n)
    (hheard : ∀ m ≤ n, n < m + 45 → |((x m).toInt : ℝ) - w m| ≤ err) :
    ‖paired (filtered oscLut x) n -
        ∑ k ∈ range 45, (firGain k : ℂ) * (w (n - k) * phasor (oscAngle * (n - k : ℕ)))‖ ≤
      46718 / 65536 * (err + 6) + 3 / 2 := by
  have hmixed : ‖∑ k ∈ range 45, (firGain k : ℂ) * paired (mixed oscLut x) (n - k) -
      ∑ k ∈ range 45, (firGain k : ℂ) * (w (n - k) * phasor (oscAngle * (n - k : ℕ)))‖ ≤
      46718 / 65536 * (err + 6) := by
    rw [← sum_sub_distrib]
    calc ‖∑ k ∈ range 45, ((firGain k : ℂ) * paired (mixed oscLut x) (n - k) - (firGain k : ℂ) *
          (w (n - k) * phasor (oscAngle * (n - k : ℕ))))‖
        ≤ ∑ k ∈ range 45, |firGain k| * (err + 6) := by
          refine (norm_sum_le _ _).trans (sum_le_sum fun k hk => ?_)
          have hk' : k ≤ 44 := Nat.lt_succ_iff.mp (mem_range.mp hk)
          rw [← mul_sub, norm_mul, norm_real, Real.norm_eq_abs]
          gcongr
          exact norm_mixed_sub_le hcos (hheard (n - k) (Nat.sub_le n k) (by omega))
      _ = 46718 / 65536 * (err + 6) := by
          have hsum : ∑ k ∈ range 45, |(firTaps k : ℝ)| = 46718 := by
            exact_mod_cast sum_abs_firTaps
          simp only [firGain, abs_div]
          rw [← sum_mul, ← sum_div, hsum]
          norm_num
  exact (norm_sub_le_norm_sub_add_norm_sub _ _ _).trans
    ((add_le_add (norm_filtered_sub_sum_le oscLut x hn) hmixed).trans (le_of_eq (add_comm _ _)))

theorem norm_filtered_sub_tone_le {oscLut : Vector OscValue lutSize} (hcos : CosineTable oscLut)
    {x : ℕ → RtlSample} {tone : Tone} {amp φ err : ℝ} {n : ℕ} (hn : 44 ≤ n)
    (hheard : ∀ m ≤ n, n < m + 45 →
      |((x m).toInt : ℝ) - amp * Real.cos (tone.angle * m + φ)| ≤ err) :
    ‖paired (filtered oscLut x) n - filteredTone firGain 22 amp tone.angle φ oscAngle n‖ ≤
      46718 / 65536 * (err + 6) + 3 / 2 := by
  have hfiltered := norm_filtered_sub_le hcos hn hheard
  have hterm : ∀ k ∈ range 45, (firGain k : ℂ) *
      ((amp * Real.cos (tone.angle * (n - k : ℕ) + φ) : ℝ) * phasor (oscAngle * (n - k : ℕ))) =
        (firGain k : ℂ) * ((amp * Real.cos (tone.angle * (n - k) + φ) : ℝ) *
          phasor (oscAngle * (n - k))) := by
    intro k hk
    have hk' : k ≤ 44 := Nat.lt_succ_iff.mp (mem_range.mp hk)
    rw [Nat.cast_sub (hk'.trans hn)]
  rw [sum_congr rfl hterm] at hfiltered
  exact hfiltered

/-! ## The response to the two tones -/

/-- The difference of the angles of oscillator and tone, as a numerator over `18432`. -/
def Tone.difference (tone : Tone) : ℤ := 2799 - tone.turns

/-- The sum of the angles, likewise. -/
def Tone.sum (tone : Tone) : ℤ := 2799 + tone.turns

theorem oscAngle_sub (tone : Tone) :
    oscAngle - tone.angle = 2 * Real.pi * (tone.difference / (18432 : ℕ)) := by
  rw [oscAngle, Tone.angle, Tone.difference]
  push_cast
  ring

theorem oscAngle_add (tone : Tone) :
    oscAngle + tone.angle = 2 * Real.pi * (tone.sum / (18432 : ℕ)) := by
  rw [oscAngle, Tone.angle, Tone.sum]
  push_cast
  ring

/-- The enclosures are taken at 44 bits, from angles halved 14 times. -/
theorem fineEnough : FineEnough (2 ^ 44) 14 where
  pos := by decide
  le_pow := by decide
  le_digits := by decide

theorem response_firGain (α : ℝ) :
    response firGain 22 α = response (fun k => firTaps k) 22 α / 65536 := by
  rw [response, response, sum_div]
  refine sum_congr rfl fun k _ => ?_
  rw [firGain]
  ring

/-- The filter keeps the difference of the angles. -/
theorem response_difference (tone : Tone) :
    4932 / 10000 ≤ response firGain 22 (oscAngle - tone.angle) ∧
      response firGain 22 (oscAngle - tone.angle) ≤ 4936 / 10000 := by
  have henc := encloses_response fineEnough (q := 18432) (by decide) firTaps 22 tone.difference
  rw [sum_abs_firTaps, ← oscAngle_sub] at henc
  have hbounds : ((32323 : ℤ) : ℝ) ≤ ((1 : ℤ) : ℝ) * _ ∧ ((1 : ℤ) : ℝ) * _ ≤ ((32348 : ℤ) : ℝ) :=
    henc.bounds fineEnough.pos (by decide) (by cases tone <;> decide +kernel)
      (by cases tone <;> decide +kernel)
  rw [response_firGain]
  push_cast at hbounds
  constructor <;> linarith [hbounds.1, hbounds.2]

/-- The filter leaves next to nothing of the sum of the angles. -/
theorem abs_response_sum_le (tone : Tone) :
    |response firGain 22 (oscAngle + tone.angle)| ≤ 2 / 10000 := by
  have henc := encloses_response fineEnough (q := 18432) (by decide) firTaps 22 tone.sum
  rw [sum_abs_firTaps, ← oscAngle_add] at henc
  have hbounds : ((-10 : ℤ) : ℝ) ≤ ((1 : ℤ) : ℝ) * _ ∧ ((1 : ℤ) : ℝ) * _ ≤ ((10 : ℤ) : ℝ) :=
    henc.bounds fineEnough.pos (by decide) (by cases tone <;> decide +kernel)
      (by cases tone <;> decide +kernel)
  rw [response_firGain, abs_le]
  push_cast at hbounds
  constructor <;> linarith [hbounds.1, hbounds.2]

/-- Over the twelve samples of the discriminator the difference of the angles comes to a quarter of
a turn. -/
theorem sign_mul_sin_ge (tone : Tone) :
    997 / 1000 ≤ (tone.sign : ℝ) * Real.sin (12 * (oscAngle - tone.angle)) := by
  have hquarter : Real.sin (12 * (oscAngle - tone.angle)) =
      Real.cos (2 * Real.pi * ((12 * tone.difference - 4608 : ℤ) / (18432 : ℕ))) := by
    rw [← Real.cos_sub_pi_div_two, oscAngle_sub]
    push_cast
    ring_nf
  have henc := encloses_cosTurn fineEnough (q := 18432) (by decide) (12 * tone.difference - 4608)
  rw [← hquarter] at henc
  cases tone with
  | mark =>
    have hbounds : ((-1001 : ℤ) : ℝ) ≤ ((1000 : ℤ) : ℝ) * _ ∧
        ((1000 : ℤ) : ℝ) * _ ≤ ((-997 : ℤ) : ℝ) :=
      henc.bounds fineEnough.pos (by decide) (by decide +kernel) (by decide +kernel)
    push_cast at hbounds
    rw [Tone.sign]
    push_cast
    linarith [hbounds.2]
  | space =>
    have hbounds : ((997 : ℤ) : ℝ) ≤ ((1000 : ℤ) : ℝ) * _ ∧
        ((1000 : ℤ) : ℝ) * _ ≤ ((1001 : ℤ) : ℝ) :=
      henc.bounds fineEnough.pos (by decide) (by decide +kernel) (by decide +kernel)
    push_cast at hbounds
    rw [Tone.sign]
    push_cast
    linarith [hbounds.1]

/-! ## The discriminator -/

/-- The discriminator output is the cross product of the filter output pairs, rounded down. -/
theorem discriminated_eq (oscLut : Vector OscValue lutSize) (x : ℕ → RtlSample) {n : ℕ}
    (hn : 12 ≤ n) : ∃ product : ℤ, discriminated oscLut x n = product / 2048 ∧
      (product : ℝ) =
        cross (paired (filtered oscLut x) (n - 12)) (paired (filtered oscLut x) n) := by
  refine ⟨_, rfl, ?_⟩
  rw [cross_eq, delayed, delayed, if_pos hn, if_pos hn]
  simp only [paired]
  push_cast
  ring

/-- The cross product of the two filter outputs over a tone. -/
theorem sign_mul_cross_ge {oscLut : Vector OscValue lutSize} (hcos : CosineTable oscLut)
    {x : ℕ → RtlSample} {tone : Tone} {amp φ err : ℝ} (hamp : 500 ≤ amp) (herr : 10 * err ≤ amp)
    {n : ℕ} (hn : 56 ≤ n) (hheard : Heard x tone amp φ err n) :
    amp ^ 2 * 2048 / 200000 - 512 ≤ tone.sign *
      cross (paired (filtered oscLut x) (n - 12)) (paired (filtered oscLut x) n) := by
  set S := response firGain 22 (oscAngle + tone.angle)
  set D := response firGain 22 (oscAngle - tone.angle)
  set z := fun t : ℝ => filteredTone firGain 22 amp tone.angle φ oscAngle t
  have hS := abs_response_sum_le tone
  obtain ⟨hD, hD'⟩ := response_difference tone
  have habsD : |D| = D := abs_of_nonneg (by linarith)
  -- the two filter outputs
  have hε : 46718 / 65536 * (err + 6) + 3 / 2 ≤ 713 / 10000 * amp + 6 := by linarith
  have hnow : ‖paired (filtered oscLut x) n - z n‖ ≤ 713 / 10000 * amp + 6 :=
    (norm_filtered_sub_tone_le hcos (by omega) fun m hm hlt => hheard m hm (by omega)).trans hε
  have hthen : ‖paired (filtered oscLut x) (n - 12) - z (n - 12)‖ ≤ 713 / 10000 * amp + 6 := by
    have hdelay := norm_filtered_sub_tone_le hcos (n := n - 12) (by omega) fun m hm hlt =>
      hheard m (by omega) (by omega)
    rw [Nat.cast_sub (by omega), Nat.cast_ofNat] at hdelay
    exact hdelay.trans hε
  have hsize : ∀ t, ‖z t‖ ≤ 2470 / 10000 * amp := by
    intro t
    refine (norm_filteredTone_le firGain_symmetric (by linarith) _ _ _ _).trans ?_
    rw [habsD]
    nlinarith
  have hclose := abs_cross_sub_le (hsize n) (hsize (n - 12)) hnow hthen
  -- the tone itself
  have htone := abs_cross_filteredTone_le firGain_symmetric amp tone.angle φ oscAngle n 12
  have hrest : 2 * |D| * |S| + S ^ 2 ≤ 2 / 10000 := by
    rw [← sq_abs S, habsD]
    nlinarith [abs_nonneg S]
  have hmain : 606 / 10000 * amp ^ 2 ≤
      tone.sign * ((amp / 2) ^ 2 * (D ^ 2 * Real.sin (12 * (oscAngle - tone.angle)))) := by
    have hsq : 2432 / 10000 ≤ D ^ 2 := by nlinarith
    calc 606 / 10000 * amp ^ 2 ≤ (amp / 2) ^ 2 * (2432 / 10000 * (997 / 1000)) := by
          nlinarith [sq_nonneg amp]
      _ ≤ (amp / 2) ^ 2 *
          (D ^ 2 * (tone.sign * Real.sin (12 * (oscAngle - tone.angle)))) := by
          gcongr
          exact sign_mul_sin_ge tone
      _ = tone.sign * ((amp / 2) ^ 2 * (D ^ 2 * Real.sin (12 * (oscAngle - tone.angle)))) := by ring
  have herror : |cross (paired (filtered oscLut x) (n - 12)) (paired (filtered oscLut x) n) -
      (amp / 2) ^ 2 * (D ^ 2 * Real.sin (12 * (oscAngle - tone.angle)))| ≤
      2 * (2470 / 10000 * amp) * (713 / 10000 * amp + 6) + (713 / 10000 * amp + 6) ^ 2 +
        (amp / 2) ^ 2 * (2 / 10000) :=
    (abs_sub_le _ _ _).trans (add_le_add hclose (htone.trans (by gcongr)))
  have hsigned : ∀ a b c : ℝ, |a - b| ≤ c → tone.sign * b - c ≤ tone.sign * a := by
    intro a b c h
    rw [abs_le] at h
    cases tone <;> simp only [Tone.sign] <;> push_cast <;> linarith [h.1, h.2]
  have hle := hsigned _ _ _ herror
  nlinarith [sq_nonneg (amp - 190)]

/-- Against any level of the slicer that is small for the amplitude, the tone decides. -/
theorem decided_tone {oscLut : Vector OscValue lutSize} (hcos : CosineTable oscLut)
    {x : ℕ → RtlSample} {tone : Tone} {amp φ err : ℝ} (hamp : 500 ≤ amp) (herr : 10 * err ≤ amp)
    {n : ℕ} (hn : 56 ≤ n) (hheard : Heard x tone amp φ err n) {level : ℤ}
    (hlevel : 200000 * |(level : ℝ)| + 250000 ≤ amp ^ 2) :
    (!decide (0 < discriminated oscLut x n - level)) = tone.bit := by
  obtain ⟨product, heq, hproduct⟩ := discriminated_eq oscLut x (n := n) (by omega)
  have hcross := sign_mul_cross_ge hcos hamp herr hn hheard
  rw [← hproduct] at hcross
  have hmargin : (2048 * (1 + |level|) : ℤ) ≤ tone.sign * product := by
    have hreal : (2048 * (1 + |(level : ℝ)|) : ℝ) ≤ tone.sign * product := by linarith
    exact_mod_cast hreal
  rw [heq]
  have hle := le_abs_self level
  have hge := neg_abs_le level
  cases tone with
  | mark =>
    have hnot : ¬ 0 < product / 2048 - level := by
      simp only [Tone.sign] at hmargin
      omega
    simp only [hnot, decide_false, Bool.not_false, Tone.bit]
  | space =>
    have hpos : 0 < product / 2048 - level := by
      simp only [Tone.sign] at hmargin
      omega
    simp only [hpos, decide_true, Bool.not_true, Tone.bit]

/-! ## The demodulated bits -/

section

variable {A : Arith} (hA : A.Exact) {oscLut : Vector OscValue lutSize} (hcos : CosineTable oscLut)
  {x : ℕ → RtlSample} {debuglevel : BitVec 32} (hdebug : debuglevel &&& debugWrite = 0)
include hA hcos hdebug

/-- **A tone is demodulated to its bit.** From program start, whatever came before the last 57
samples: at an amplitude of 500 or more, each sample with an error of up to a tenth of it, the bit
is that of the tone as long as the level of the slicer is small for the amplitude. -/
theorem demodBit_tone (demodByte : DemodByte) (bitctr : ℕ) {tone : Tone} {amp φ err : ℝ}
    (hamp : 500 ≤ amp) (herr : 10 * err ≤ amp) {len n : ℕ} (hn : n < len) (hfilled : 56 ≤ n)
    (hheard : Heard x tone amp φ err n)
    (hphase : ∀ m ≤ n, (discriminated oscLut x m).natAbs ≤ 40000)
    (hlevel : 200000 * |(slicerLevel (discriminated oscLut x) (n + 1) : ℝ)| + 250000 ≤ amp ^ 2) :
    streamBit A oscLut debuglevel demodByte bitctr x len n = some tone.bit := by
  rw [streamBit_eq hA hcos.range hdebug demodByte bitctr hn hphase,
    decided_tone hcos hamp herr hfilled hheard hlevel]

/-- **A tone in a quiet stream.** While no sample has exceeded `3600` the slicer takes nothing off,
and the bit is that of the tone. -/
theorem demodBit_quiet_tone (demodByte : DemodByte) (bitctr : ℕ) {tone : Tone} {amp φ err : ℝ}
    (hamp : 500 ≤ amp) (herr : 10 * err ≤ amp) {len n : ℕ} (hn : n < len) (hfilled : 56 ≤ n)
    (hheard : Heard x tone amp φ err n) (hquiet : ∀ m ≤ n, (x m).toInt.natAbs ≤ 3600) :
    streamBit A oscLut debuglevel demodByte bitctr x len n = some tone.bit := by
  have hweak : ∀ m ≤ n, (discriminated oscLut x m).natAbs ≤ 6666 := fun m hm =>
    natAbs_discriminated_le hcos.range fun k hk => hquiet k (hk.trans hm)
  have hlevel : slicerLevel (discriminated oscLut x) (n + 1) = 0 :=
    slicerLevel_deadBand fun m hm => hweak m (Nat.le_of_lt_succ hm)
  rw [streamBit_eq hA hcos.range hdebug demodByte bitctr hn fun m hm =>
      (hweak m hm).trans (by decide),
    decided_tone hcos hamp herr hfilled hheard]
  rw [hlevel, Int.cast_zero, abs_zero]
  nlinarith

end

/-! ## The table of `InitOsc` and a tone -/

/-- The conversion of a floating-point value to an integer. -/
noncomputable def truncate (v : ℝ) : ℤ := if 0 ≤ v then ⌊v⌋ else ⌈v⌉

theorem truncate_bounds (v : ℝ) : |(truncate v : ℝ) - v| ≤ 1 ∧ |(truncate v : ℝ)| ≤ |v| := by
  unfold truncate
  split
  · case isTrue h =>
    have hfloor : (0 : ℝ) ≤ ⌊v⌋ := by exact_mod_cast Int.floor_nonneg.mpr h
    rw [abs_of_nonneg hfloor, abs_of_nonneg h]
    refine ⟨?_, Int.floor_le v⟩
    rw [abs_le]
    constructor <;> linarith [Int.floor_le v, Int.lt_floor_add_one v]
  · case isFalse h =>
    have hneg := (not_le.mp h).le
    have hceil : (⌈v⌉ : ℝ) ≤ 0 := by exact_mod_cast Int.ceil_le.mpr (by simpa using hneg)
    rw [abs_of_nonpos hceil, abs_of_nonpos hneg]
    refine ⟨?_, by linarith [Int.le_ceil v]⟩
    rw [abs_le]
    constructor <;> linarith [Int.le_ceil v, Int.ceil_lt_add_one v]

/-- `InitOsc`, with the products of the table in real numbers: the `cos` of the C library at the
multiples of a turn, for which the code takes its own `PI`. -/
noncomputable def initOsc (cosine : ℝ → ℝ) : Vector OscValue lutSize :=
  Vector.ofFn fun i =>
    BitVec.ofInt 16 (truncate (cosine (2 * 3.141592653562795 * (i : ℕ) / 2048) * 32767))

/-- The entry at angle `θ`, where the exact one is at `θ₀`. -/
theorem initOsc_entry {c θ θ₀ : ℝ} (hc : |c - Real.cos θ| ≤ 1 / 10 ^ 9)
    (hθ : |θ - θ₀| ≤ 1 / 10 ^ 9) :
    |(truncate (c * 32767) : ℝ) - 32767 * Real.cos θ₀| ≤ 2 ∧
      -32767 ≤ truncate (c * 32767) ∧ truncate (c * 32767) ≤ 32767 := by
  obtain ⟨hnear, hsize⟩ := truncate_bounds (c * 32767)
  have hcos := (Real.abs_cos_sub_cos_le θ θ₀).trans hθ
  have hone := Real.abs_cos_le_one θ
  have hmagnitude : |c * 32767| < 32768 := by
    rw [abs_lt]
    rw [abs_le] at hc hone
    constructor <;> linarith [hc.1, hc.2, hone.1, hone.2]
  refine ⟨?_, ?_⟩
  · rw [abs_le] at hnear hc hcos ⊢
    constructor <;> linarith [hnear.1, hnear.2, hc.1, hc.2, hcos.1, hcos.2]
  · have hint : |truncate (c * 32767)| < 32768 := by
      exact_mod_cast (hsize.trans_lt hmagnitude : |(truncate (c * 32767) : ℝ)| < 32768)
    rw [abs_lt] at hint
    omega

/-- With a library cosine good to nine decimals the code fills its table as it should be. -/
theorem cosineTable_initOsc {cosine : ℝ → ℝ} (hcosine : ∀ θ, |cosine θ - Real.cos θ| ≤ 1 / 10 ^ 9) :
    CosineTable (initOsc cosine) := by
  have hentry : ∀ i (hi : i < lutSize),
      |((initOsc cosine)[i].toInt : ℝ) - 32767 * Real.cos (2 * Real.pi * i / 2048)| ≤ 2 ∧
        -32767 ≤ (initOsc cosine)[i].toInt ∧ (initOsc cosine)[i].toInt ≤ 32767 := by
    intro i hi
    have hangle : |2 * 3.141592653562795 * (i : ℝ) / 2048 - 2 * Real.pi * i / 2048| ≤
        1 / 10 ^ 9 := by
      have hi₀ : (0 : ℝ) ≤ i := Nat.cast_nonneg i
      have hi₁ : (i : ℝ) ≤ 2048 := by exact_mod_cast hi.le
      have hlower := Real.pi_gt_d20
      have hupper := Real.pi_lt_d20
      rw [abs_le]
      constructor <;> nlinarith
    obtain ⟨hnear, hlow, hhigh⟩ := initOsc_entry (hcosine _) hangle
    have hfits :
        CArith.Fits 16 (truncate (cosine (2 * 3.141592653562795 * (i : ℝ) / 2048) * 32767)) := by
      constructor <;> omega
    have hvalue : (initOsc cosine)[i].toInt =
        truncate (cosine (2 * 3.141592653562795 * (i : ℝ) / 2048) * 32767) := by
      rw [initOsc, Vector.getElem_ofFn]
      exact (toInt_ofInt_eq_iff (by decide)).mpr hfits
    rw [hvalue]
    exact ⟨hnear, hlow, hhigh⟩
  exact ⟨fun i hi => (hentry i hi).1, fun i hi => (hentry i hi).2⟩

/-- A tone of amplitude `1000`, rounded down. -/
noncomputable def toneSamples (tone : Tone) (m : ℕ) : RtlSample :=
  BitVec.ofInt 16 ⌊1000 * Real.cos (tone.angle * m)⌋

theorem toneSamples_bounds (tone : Tone) (m : ℕ) :
    |((toneSamples tone m).toInt : ℝ) - 1000 * Real.cos (tone.angle * m + 0)| ≤ 1 ∧
      (toneSamples tone m).toInt.natAbs ≤ 3600 := by
  have hone := abs_le.mp (Real.abs_cos_le_one (tone.angle * m))
  have hfloor := Int.floor_le (1000 * Real.cos (tone.angle * m))
  have hlow : (-1000 : ℤ) ≤ ⌊1000 * Real.cos (tone.angle * m)⌋ :=
    Int.le_floor.mpr (by push_cast; linarith [hone.1])
  have hhigh : ⌊1000 * Real.cos (tone.angle * m)⌋ ≤ 1000 := by
    exact_mod_cast hfloor.trans (by linarith [hone.2] : _ ≤ (1000 : ℝ))
  have hvalue : (toneSamples tone m).toInt = ⌊1000 * Real.cos (tone.angle * m)⌋ :=
    (toInt_ofInt_eq_iff (by decide)).mpr (by constructor <;> omega)
  rw [hvalue, add_zero]
  refine ⟨?_, by omega⟩
  rw [abs_le]
  constructor <;> linarith [Int.lt_floor_add_one (1000 * Real.cos (tone.angle * m))]

theorem heard_toneSamples (tone : Tone) (n : ℕ) : Heard (toneSamples tone) tone 1000 0 1 n :=
  fun m _ _ => (toneSamples_bounds tone m).1

/-- The 57th bit of a mark. -/
theorem demodBit_tone_mark :
    streamBit .checked (initOsc Real.cos) 0 0 0 (toneSamples .mark) 57 56 = some Tone.mark.bit := by
  have hcos : CosineTable (initOsc Real.cos) := cosineTable_initOsc (by simp)
  have hweak : ∀ m ≤ 56,
      (discriminated (initOsc Real.cos) (toneSamples .mark) m).natAbs ≤ 6666 :=
    fun m _ => natAbs_discriminated_le hcos.range fun k _ => (toneSamples_bounds .mark k).2
  refine demodBit_tone checked_exact hcos (by decide) 0 0 (by norm_num) (by norm_num) (by decide)
    le_rfl (heard_toneSamples .mark 56) (fun m hm => (hweak m hm).trans (by decide)) ?_
  rw [slicerLevel_deadBand fun m hm => hweak m (Nat.le_of_lt_succ hm)]
  norm_num

/-- The 57th bit of a space. -/
theorem demodBit_quiet_tone_space :
    streamBit .checked (initOsc Real.cos) 0 0 0 (toneSamples .space) 57 56 =
      some Tone.space.bit :=
  demodBit_quiet_tone checked_exact (cosineTable_initOsc (by simp)) (by decide) 0 0 (by norm_num)
    (by norm_num) (by decide) le_rfl (heard_toneSamples .space 56)
    fun m _ => (toneSamples_bounds .space m).2

end PiWxRx
