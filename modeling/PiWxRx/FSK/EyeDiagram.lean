import PiWxRx.FSK.Keying
import PiWxRx.General.PhasorSums

/-!
# The eye of the discriminator

A window of three or four bits at one of the `576` places within a bit leaves the filter with one of
finitely many sidebands. They are enclosed by Gaussian integers (`near_windowMid`) and looked at one
by one (`eyeOpen`): the discriminator output has the sign of the decided bit, `28` samples late,
with a margin, except in the `25` twenty-fifths around a boundary between different bits, which is
one sample. The first two bits of a transmission, ones after silence, are right from a third of the
first bit on.
-/

namespace PiWxRx

open CArith Quadrature Finset Complex

/-! ## Parts of a window -/

/-- The first sample, counted from `d` samples back on, that lies `b` bits back. -/
def bitCut (d u : ℕ) : ℕ → ℕ
  | 0 => 0
  | b + 1 => min 45 ((u + 576 * b) / 25 + 1 - d)

theorem bitCut_mono (d u : ℕ) : Monotone (bitCut d u) := by
  refine monotone_nat_of_le_succ fun b => ?_
  cases b with
  | zero => exact Nat.zero_le _
  | succ b =>
    simp only [bitCut]
    omega

theorem bitCut_le (d u b : ℕ) : bitCut d u b ≤ 45 := by
  cases b with
  | zero => exact Nat.zero_le 45
  | succ b => exact Nat.min_le_left _ _

/-- What the samples of one bit contribute to a window. -/
noncomputable def Sideband.part (band : Sideband) (d u b : ℕ) (t : Option Tone) : ℂ :=
  t.elim 0 fun tone => phasor (partAngle (band.sign * tone.excess * u)) *
    ∑ k ∈ Ico (bitCut d u b) (bitCut d u (b + 1)),
      (firTaps k : ℂ) * phasor (partAngle (-(band.offset tone * (k + d : ℕ))))

/-- A window is the sum of its bits. -/
theorem Sideband.window_eq (band : Sideband) {d u n : ℕ} (hu : u < 576) (hn : bitCut d u n = 45)
    (t : ℕ → Option Tone) :
    band.window d u t = ∑ b ∈ range n, band.part d u b (t b) := by
  rw [Sideband.window, ← hn, ← sum_sum_Ico _ (bitCut_mono d u) rfl]
  refine sum_congr rfl fun b _ => ?_
  have hbit : ∀ k ∈ Ico (bitCut d u b) (bitCut d u (b + 1)),
      (25 * (k + d) + 575 - u) / 576 = b := by
    intro k hk
    obtain ⟨hlo, hhi⟩ := mem_Ico.mp hk
    cases b with
    | zero =>
      simp only [bitCut] at hhi
      omega
    | succ b =>
      simp only [bitCut] at hlo hhi
      omega
  cases hb : t b with
  | none =>
    rw [Sideband.part, Option.elim_none]
    refine sum_eq_zero fun k hk => ?_
    rw [hbit k hk, hb, Option.elim_none, mul_zero]
  | some tone =>
    rw [Sideband.part, Option.elim_some, mul_sum]
    refine sum_congr rfl fun k hk => ?_
    rw [hbit k hk, hb, Option.elim_some, mul_left_comm, ← phasor_add, ← partAngle_add,
      ← sub_eq_add_neg]

/-! ## Centres -/

/-- The scale of the centres. -/
def turnScale : ℤ := 576460752303423488

theorem turnScale_pos : 0 < turnScale := by decide

theorem turnScale_fineEnough : FineEnough turnScale 18 where
  pos := turnScale_pos
  le_pow := by decide
  le_digits := by decide

/-- The running sums of the taps times the phasors of a tone, from `d` samples back on. -/
def Sideband.sums (band : Sideband) (d : ℕ) (tone : Tone) : List GaussianInt :=
  runningSums (fun k => (firTaps k : GaussianInt) *
    phasorMid turnScale 18 (-(band.offset tone * (k + d : ℕ))) 18432) 45 0 0

/-- The centre for the rotation of a mark in the lower sideband. -/
def markMid (u : ℕ) : GaussianInt := phasorMid turnScale 18 (-(32 * u)) 18432

/-- The centre for the rotation of a tone, where `e` is that of a mark in the lower sideband. -/
def Sideband.rotationMid (e : GaussianInt) : Sideband → Tone → GaussianInt
  | _, .space => turnScale
  | .lower, .mark => e
  | .upper, .mark => star e

/-- The centre for the part of one bit. -/
def Sideband.partMid (band : Sideband) (d u : ℕ) (e : GaussianInt) (b : ℕ) :
    Option Tone → GaussianInt
  | none => 0
  | some tone => band.rotationMid e tone *
      ((band.sums d tone).getD (bitCut d u (b + 1)) 0 - (band.sums d tone).getD (bitCut d u b) 0)

/-- The centre for the bits of a window from bit `b` on. -/
def Sideband.windowMid (band : Sideband) (d u : ℕ) (e : GaussianInt) :
    (b : ℕ) → List (Option Tone) → GaussianInt
  | _, [] => 0
  | b, t :: ts => band.partMid d u e b t + band.windowMid d u e (b + 1) ts

theorem near_rotationMid (band : Sideband) (tone : Tone) (u : ℕ) :
    Near turnScale (band.rotationMid (markMid u) tone) (2 * turnRadius turnScale 18)
      (phasor (partAngle (band.sign * tone.excess * u))) := by
  have hmark : Near turnScale (markMid u) (2 * turnRadius turnScale 18)
      (phasor (partAngle (-(32 * u)))) :=
    near_phasorMid turnScale_fineEnough (by decide) _
  cases tone with
  | space =>
    have hone : phasor (partAngle (band.sign * Tone.space.excess * u)) = 1 := by
      simp [partAngle, phasor, Tone.excess]
    rw [hone]
    exact (near_one turnScale).mono hmark.radius_nonneg
  | mark =>
    cases band with
    | lower =>
      have hangle : Sideband.lower.sign * Tone.mark.excess * u = -(32 * u : ℤ) := by
        simp only [Sideband.sign, Tone.excess]
        ring
      rw [hangle]
      exact hmark
    | upper =>
      have hangle : Sideband.upper.sign * Tone.mark.excess * u = -(-(32 * u : ℤ)) := by
        simp only [Sideband.sign, Tone.excess]
        ring
      have hconj : starRingEnd ℂ (phasor (partAngle (-(32 * u)))) =
          phasor (partAngle (-(-(32 * u : ℤ)))) := by
        rw [conj_phasor, ← partAngle_neg]
      rw [hangle, ← hconj]
      exact hmark.conj

/-- The sum of the magnitudes of the taps of one bit. -/
def partTaps (d u b : ℕ) : ℤ := ∑ k ∈ Ico (bitCut d u b) (bitCut d u (b + 1)), |firTaps k|

theorem near_partMid (band : Sideband) (d u b : ℕ) (t : Option Tone) :
    Near (turnScale * turnScale) (band.partMid d u (markMid u) b t)
      (partTaps d u b * (2 * turnRadius turnScale 18 *
        (2 * turnScale + 2 * turnRadius turnScale 18))) (band.part d u b t) := by
  have hradius := (near_rotationMid .lower .space 0).radius_nonneg
  have hscale : (0 : ℝ) < turnScale := by exact_mod_cast turnScale_pos
  have htaps : (0 : ℝ) ≤ partTaps d u b := by
    exact_mod_cast sum_nonneg fun k _ => abs_nonneg (firTaps k)
  cases t with
  | none => exact (near_zero _).mono (by positivity)
  | some tone =>
    have hrotation := near_rotationMid band tone u
    have hsegment := near_segment firTaps (fun k => near_phasorMid turnScale_fineEnough
      (q := 18432) (by decide) (-(band.offset tone * (k + d : ℕ))))
      (bitCut_mono d u (Nat.le_succ b)) (bitCut_le d u (b + 1))
    have hnorm : ‖∑ k ∈ Ico (bitCut d u b) (bitCut d u (b + 1)),
        (firTaps k : ℂ) * phasor (partAngle (-(band.offset tone * (k + d : ℕ))))‖ ≤
          partTaps d u b := by
      refine (norm_sum_le _ _).trans (le_of_eq ?_)
      rw [partTaps]
      push_cast
      refine sum_congr rfl fun k _ => ?_
      rw [norm_mul, norm_phasor, mul_one, norm_intCast]
    refine (hrotation.mul hsegment (norm_phasor _).le hnorm).mono ?_
    rw [abs_of_pos turnScale_pos, partTaps]
    exact le_of_eq (by ring)

theorem near_windowMid (band : Sideband) (d u b : ℕ) (ts : List (Option Tone)) :
    Near (turnScale * turnScale) (band.windowMid d u (markMid u) b ts)
      ((∑ i ∈ range ts.length, partTaps d u (b + i) : ℤ) * (2 * turnRadius turnScale 18 *
        (2 * turnScale + 2 * turnRadius turnScale 18)))
      (∑ i ∈ range ts.length, band.part d u (b + i) (ts.getD i none)) := by
  induction ts generalizing b with
  | nil => simpa [Sideband.windowMid] using near_zero (turnScale * turnScale)
  | cons t ts ih =>
    have hadd := (near_partMid band d u b t).add (ih (b + 1))
    rw [← add_mul, ← Int.cast_add] at hadd
    rw [List.length_cons, sum_range_succ', sum_range_succ', add_comm _ (partTaps d u (b + 0)),
      add_comm _ (band.part d u (b + 0) _)]
    simp only [Nat.add_zero, List.getD_cons_zero, List.getD_cons_succ, ← Nat.add_assoc,
      Nat.add_right_comm b _ 1] at hadd ⊢
    exact hadd

/-- The centre of a window is within one. -/
theorem near_window (band : Sideband) {d u : ℕ} (hu : u < 576) (ts : List (Option Tone))
    (hcut : bitCut d u ts.length = 45) {t : ℕ → Option Tone}
    (ht : ∀ i (hi : i < ts.length), t i = ts[i]) :
    Near (turnScale * turnScale) (band.windowMid d u (markMid u) 0 ts)
      ((turnScale * turnScale : ℤ) : ℝ) (band.window d u t) := by
  have hnear := near_windowMid band d u 0 ts
  simp only [Nat.zero_add] at hnear
  -- the bits cover all taps
  have htaps : ∑ i ∈ range ts.length, partTaps d u i = 46718 := by
    rw [← sum_abs_firTaps, ← hcut, ← sum_sum_Ico _ (bitCut_mono d u) rfl]
    rfl
  have hwindow : ∑ i ∈ range ts.length, band.part d u i (ts.getD i none) = band.window d u t := by
    rw [band.window_eq hu hcut]
    refine sum_congr rfl fun i hi => ?_
    have hi' := mem_range.mp hi
    rw [List.getD_eq_getElem _ _ hi', ht i hi']
  rw [htaps, hwindow] at hnear
  refine hnear.mono ?_
  have hradius : 46718 * (2 * turnRadius turnScale 18 *
      (2 * turnScale + 2 * turnRadius turnScale 18)) ≤ turnScale * turnScale := by
    decide +kernel
  exact_mod_cast hradius

/-! ## All windows -/

instance {p : Tone → Prop} [DecidablePred p] : Decidable (∀ tone, p tone) :=
  decidable_of_iff (p .mark ∧ p .space)
    ⟨fun h tone => match tone with | .mark => h.1 | .space => h.2, fun h => ⟨h _, h _⟩⟩

/-- The two sidebands of a window of three bits are bounded. -/
abbrev Bounded (u : ℕ) (e : GaussianInt) (image : ℤ) (ts : List (Option Tone)) : Prop :=
  (Sideband.lower.windowMid 0 u e 0 ts).norm ≤ (34964 * (turnScale * turnScale)) ^ 2 ∧
    (Sideband.upper.windowMid 0 u e 0 ts).norm ≤ (image * (turnScale * turnScale)) ^ 2

/-- The centre for the cross product of a window of four bits, twelve samples back, and the window
of its first three. -/
def crossMid (u : ℕ) (e : GaussianInt) (a b c d : Option Tone) : ℤ :=
  let far := Sideband.lower.windowMid 12 u e 0 [a, b, c, d]
  let near := Sideband.lower.windowMid 0 u e 0 [a, b, c]
  far.re * near.im - far.im * near.re

/-- The discriminator decides for a tone. -/
abbrev Decided (u : ℕ) (e : GaussianInt) (margin : ℤ) (tone : Tone) (a b c d : Option Tone) :
    Prop :=
  margin * (turnScale * turnScale) ^ 2 ≤ tone.sign * crossMid u e a b c d

/-- The windows at place `u` within a bit: those of four bits, and those after silence. -/
abbrev EyeOpen (u : ℕ) (e : GaussianInt) : Prop :=
  (∀ c b a : Tone, Bounded u e 492 [some a, some b, some c] ∧
    ∀ d : Tone,
      (u ≤ 111 ∨ b = c → Decided u e 143000000 c (some a) (some b) (some c) (some d)) ∧
      (137 ≤ u ∨ b = c → Decided u e 143000000 b (some a) (some b) (some c) (some d))) ∧
  Bounded u e 2600 [some .mark, some .mark, none] ∧
  (563 ≤ u → Bounded u e 2600 [some .mark, none, none]) ∧
  (287 ≤ u → Decided u e 600000000 .mark (some .mark) (some .mark) none none) ∧
  Decided u e 600000000 .mark (some .space) (some .mark) (some .mark) none

/-- The eye is open at every place. The centres are Gaussian integers, so the kernel can go through
all of them. -/
theorem eyeOpen : ∀ u < 576, EyeOpen u (markMid u) := by
  decide +kernel

/-! ## The sidebands of a window -/

theorem bitCut_near {u : ℕ} (hu : u < 576) : bitCut 0 u 3 = 45 := by
  simp only [bitCut]
  omega

theorem bitCut_far {u : ℕ} (hu : u < 576) : bitCut 12 u 4 = 45 := by
  simp only [bitCut]
  omega

theorem turnScale_sq_pos : 0 < turnScale * turnScale := mul_pos turnScale_pos turnScale_pos

theorem norm_window_le {band : Sideband} {u : ℕ} (hu : u < 576) {ts : List (Option Tone)}
    (hlength : ts.length = 3) {t : ℕ → Option Tone} (ht : ∀ i (hi : i < ts.length), t i = ts[i])
    {b : ℤ} (hb : 0 ≤ b)
    (h : (band.windowMid 0 u (markMid u) 0 ts).norm ≤ (b * (turnScale * turnScale)) ^ 2) :
    ‖band.window 0 u t‖ ≤ b + 1 := by
  have hcut : bitCut 0 u ts.length = 45 := by rw [hlength, bitCut_near hu]
  have hnorm := (near_window band hu ts hcut ht).norm_le turnScale_sq_pos hb h
  rwa [div_self (by exact_mod_cast turnScale_sq_pos.ne')] at hnorm

theorem Bounded.norm_le {u : ℕ} (hu : u < 576) {image : ℤ} (himage : 0 ≤ image)
    {ts : List (Option Tone)} (hlength : ts.length = 3) {t : ℕ → Option Tone}
    (ht : ∀ i (hi : i < ts.length), t i = ts[i]) (h : Bounded u (markMid u) image ts) :
    ‖Sideband.lower.window 0 u t‖ ≤ 34965 ∧ ‖Sideband.upper.window 0 u t‖ ≤ image + 1 := by
  refine ⟨?_, norm_window_le hu hlength ht himage h.2⟩
  have hlower := norm_window_le hu hlength ht (by decide) h.1
  norm_num at hlower
  exact hlower

/-- A decision by the centres is one by the windows. -/
theorem Decided.cross_ge {u : ℕ} (hu : u < 576) {margin : ℤ} {tone : Tone} {a b c d : Option Tone}
    (h : Decided u (markMid u) margin tone a b c d) {t : ℕ → Option Tone} (h0 : t 0 = a)
    (h1 : t 1 = b) (h2 : t 2 = c) (h3 : t 3 = d)
    (hfar : ‖Sideband.lower.window 12 u t‖ ≤ 34965)
    (hnear : ‖Sideband.lower.window 0 u t‖ ≤ 34965) :
    margin - 69931 ≤
      tone.sign * cross (Sideband.lower.window 12 u t) (Sideband.lower.window 0 u t) := by
  have hmidFar := near_window .lower (d := 12) hu [a, b, c, d] (bitCut_far hu) (t := t) (by
    intro i hi
    simp only [List.length_cons, List.length_nil] at hi
    interval_cases i <;> assumption)
  have hmidNear := near_window .lower (d := 0) hu [a, b, c] (bitCut_near hu) (t := t) (by
    intro i hi
    simp only [List.length_cons, List.length_nil] at hi
    interval_cases i <;> assumption)
  have hclose := hmidNear.abs_cross_sub_le turnScale_sq_pos hmidFar hnear hfar
  have hscale : (0 : ℝ) < ((turnScale * turnScale : ℤ) : ℝ) ^ 2 := by
    exact_mod_cast pow_pos turnScale_sq_pos 2
  have hmargin : (margin : ℝ) ≤ tone.sign *
      ((crossMid u (markMid u) a b c d : ℤ) / ((turnScale * turnScale : ℤ) : ℝ) ^ 2) := by
    rw [← mul_div_assoc, le_div_iff₀ hscale]
    exact_mod_cast h
  rw [crossMid] at hmargin
  rw [abs_le] at hclose
  cases tone <;> simp only [Tone.sign] at hmargin ⊢ <;> push_cast at hmargin ⊢ hclose <;>
    linarith [hclose.1, hclose.2]

/-! ## The decision -/

/-- Where the discriminator product is beyond `2048` on the side of a tone, the bit is that of the
tone. -/
theorem decided_of_product {tone : Tone} {product : ℤ} (h : 2048 ≤ tone.sign * product) :
    (!decide (0 < product / 2048)) = tone.bit := by
  cases tone with
  | mark =>
    have hnot : ¬ 0 < product / 2048 := by
      simp only [Tone.sign] at h
      omega
    simp only [hnot, decide_false, Bool.not_false, Tone.bit]
  | space =>
    have hpos : 0 < product / 2048 := by
      simp only [Tone.sign] at h
      omega
    simp only [hpos, decide_true, Bool.not_true, Tone.bit]

/-- The margin of a window covers what the upper sideband, the rounding and the noise leave. -/
theorem sign_mul_cross_filtered_ge {oscLut : Vector OscValue lutSize} (hcos : CosineTable oscLut)
    {sent : Keying} {x : ℕ → RtlSample} {amp φ err : ℝ} (hamp : 2000 ≤ amp) (herr : 95 * err ≤ amp)
    {s : ℤ} {n : ℕ} (hn : 56 ≤ n) (hheard : sent.Heard x amp φ err s n) {i : ℤ} {u : ℕ}
    (hu : u < 576) (hg : 25 * n - s = 576 * i + u) {upper margin : ℝ} {tone : Tone}
    (hlower : ‖sent.sideband .lower (576 * i + u)‖ ≤ 34965)
    (hlower' : ‖sent.sideband .lower (576 * i + u - 300)‖ ≤ 34965)
    (hupper : ‖sent.sideband .upper (576 * i + u)‖ ≤ upper)
    (hupper' : ‖sent.sideband .upper (576 * i + u - 300)‖ ≤ upper)
    (hdecided : margin ≤ tone.sign *
      cross (Sideband.lower.window 12 u fun b => sent (i - b))
        (Sideband.lower.window 0 u fun b => sent (i - b)))
    (hmargin : 2 * (34965 / 131072) * (upper / 131072 + 104 / 10000) +
      (upper / 131072 + 104 / 10000) ^ 2 + 2048 / 2000 ^ 2 ≤ margin / 131072 ^ 2) :
    2048 ≤ tone.sign *
      cross (paired (filtered oscLut x) (n - 12)) (paired (filtered oscLut x) n) := by
  have hclose := abs_cross_filtered_sub_le hcos (by linarith) hn hheard hg hlower hlower' hupper
    hupper'
  rw [cross_sideband_eq sent i hu] at hclose
  set κ : ℝ := upper / 131072 + 104 / 10000
  set η : ℝ := amp / 131072 * upper + (46718 / 65536 * (err + 6) + 3 / 2)
  have herr₀ : 0 ≤ err := (abs_nonneg _).trans (hheard n le_rfl (by omega))
  have hη₀ : 0 ≤ η := by
    have hupper₀ : 0 ≤ upper := (norm_nonneg _).trans hupper
    positivity
  -- both errors grow with the amplitude, from `2000` on
  have hη : η ≤ amp * κ := by
    have hrest : 46718 / 65536 * (err + 6) + 3 / 2 ≤ amp * (104 / 10000) := by linarith
    calc η ≤ amp / 131072 * upper + amp * (104 / 10000) := add_le_add le_rfl hrest
      _ = amp * κ := by ring
  have herror : 2 * (amp / 131072 * 34965) * η + η ^ 2 ≤
      amp ^ 2 * (2 * (34965 / 131072) * κ + κ ^ 2) := by
    calc 2 * (amp / 131072 * 34965) * η + η ^ 2
        ≤ 2 * (amp / 131072 * 34965) * (amp * κ) + (amp * κ) ^ 2 := by gcongr
      _ = amp ^ 2 * (2 * (34965 / 131072) * κ + κ ^ 2) := by ring
  have hmain : amp ^ 2 * (margin / 131072 ^ 2) ≤ tone.sign * ((amp / 131072) ^ 2 *
      cross (Sideband.lower.window 12 u fun b => sent (i - b))
        (Sideband.lower.window 0 u fun b => sent (i - b))) := by
    calc amp ^ 2 * (margin / 131072 ^ 2) = (amp / 131072) ^ 2 * margin := by ring
      _ ≤ (amp / 131072) ^ 2 * (tone.sign *
          cross (Sideband.lower.window 12 u fun b => sent (i - b))
            (Sideband.lower.window 0 u fun b => sent (i - b))) := by gcongr
      _ = _ := by ring
  -- and so does the margin, which has to leave a product that the discriminator does not round away
  have hrest : amp ^ 2 * (2 * (34965 / 131072) * κ + κ ^ 2) + 2048 ≤
      amp ^ 2 * (margin / 131072 ^ 2) := by
    have hsq : (2000 : ℝ) ^ 2 ≤ amp ^ 2 := by gcongr
    calc amp ^ 2 * (2 * (34965 / 131072) * κ + κ ^ 2) + 2048
        ≤ amp ^ 2 * (2 * (34965 / 131072) * κ + κ ^ 2) + amp ^ 2 * (2048 / 2000 ^ 2) := by
          gcongr
          linarith
      _ = amp ^ 2 * (2 * (34965 / 131072) * κ + κ ^ 2 + 2048 / 2000 ^ 2) := by ring
      _ ≤ amp ^ 2 * (margin / 131072 ^ 2) := by gcongr
  rw [abs_le] at hclose
  cases tone <;> simp only [Tone.sign] at hmain ⊢ <;> push_cast at hmain ⊢ <;>
    linarith [hclose.1, hclose.2]

/-- The sidebands are bounded as the windows are. -/
theorem norm_sideband_le {sent : Keying} {i : ℤ} {u : ℕ} (hu : u < 576) {image : ℤ}
    (himage : 0 ≤ image)
    (h : Bounded u (markMid u) image [sent i, sent (i - 1), sent (i - 2)]) :
    ‖sent.sideband .lower (576 * i + u)‖ ≤ 34965 ∧
      ‖sent.sideband .upper (576 * i + u)‖ ≤ image + 1 := by
  rw [norm_sideband_eq sent .lower i hu, norm_sideband_eq sent .upper i hu]
  refine h.norm_le hu himage rfl fun j hj => ?_
  simp only [List.length_cons, List.length_nil] at hj
  interval_cases j <;> simp

/-- Two bounded windows, twelve samples apart, and a decision between them give the bit. -/
theorem decided_of_windows {oscLut : Vector OscValue lutSize} (hcos : CosineTable oscLut)
    {sent : Keying} {x : ℕ → RtlSample} {amp φ err : ℝ} (hamp : 2000 ≤ amp) (herr : 95 * err ≤ amp)
    {s : ℤ} {n : ℕ} (hn : 56 ≤ n) (hheard : sent.Heard x amp φ err s n) {i i' : ℤ} {u u' : ℕ}
    (hu : u < 576) (hu' : u' < 576) (hg : 25 * n - s = 576 * i + u)
    (hg' : 25 * n - s - 300 = 576 * i' + u') {image image' margin : ℤ} {tone : Tone}
    (himage : 0 ≤ image) (himage' : image ≤ image')
    (hnear : Bounded u (markMid u) image [sent i, sent (i - 1), sent (i - 2)])
    (hfar : Bounded u' (markMid u') image' [sent i', sent (i' - 1), sent (i' - 2)])
    (hdecided : Decided u (markMid u) margin tone (sent i) (sent (i - 1)) (sent (i - 2))
      (sent (i - 3)))
    (hmargin : (2 * (34965 / 131072) * ((image' + 1) / 131072 + 104 / 10000) +
      ((image' + 1) / 131072 + 104 / 10000) ^ 2 + 2048 / 2000 ^ 2 : ℝ) ≤
        (margin - 69931) / 131072 ^ 2) :
    (!decide (0 < discriminated oscLut x n)) = tone.bit := by
  obtain ⟨hlower, hupper⟩ := norm_sideband_le hu himage hnear
  obtain ⟨hlower', hupper'⟩ := norm_sideband_le hu' (himage.trans himage') hfar
  rw [← hg', hg] at hlower' hupper'
  have hle : (image : ℝ) + 1 ≤ image' + 1 := by
    have : (image : ℝ) ≤ image' := by exact_mod_cast himage'
    linarith
  -- the window of twelve samples before has the norm of its sideband
  have hback := congrArg norm (sideband_eq sent .lower 12 i hu)
  rw [norm_mul, norm_mul, norm_phasor, norm_phasor, one_mul, one_mul] at hback
  norm_num at hback
  have hwindows := hdecided.cross_ge hu (t := fun b => sent (i - b)) (by simp) (by simp) (by simp)
    (by simp) (hback ▸ hlower') (norm_sideband_eq sent .lower i hu ▸ hlower)
  obtain ⟨product, heq, hproduct⟩ := discriminated_eq oscLut x (n := n) (by omega)
  have hcross := sign_mul_cross_filtered_ge hcos hamp herr hn hheard hu hg hlower hlower'
    (hupper.trans hle) hupper' hwindows hmargin
  rw [← hproduct] at hcross
  rw [heq]
  exact decided_of_product (by exact_mod_cast hcross)

section

variable {oscLut : Vector OscValue lutSize} (hcos : CosineTable oscLut) {sent : Keying}
  {x : ℕ → RtlSample} {amp φ err : ℝ} (hamp : 2000 ≤ amp) (herr : 95 * err ≤ amp) {s : ℤ} {n : ℕ}
  (hn : 56 ≤ n) (hheard : sent.Heard x amp φ err s n)
include hcos hamp herr hn hheard

/-- In the middle of a transmission: with the last four bits sent, the second or third to last is
decided. -/
theorem decided_inside {i : ℤ} {u : ℕ} (hu : u < 576) (hg : 25 * n - s = 576 * i + u)
    {a b c d : Tone} (ha : sent i = some a) (hb : sent (i - 1) = some b)
    (hc : sent (i - 2) = some c) (hd : sent (i - 3) = some d) :
    (u ≤ 111 ∨ b = c → (!decide (0 < discriminated oscLut x n)) = c.bit) ∧
      (137 ≤ u ∨ b = c → (!decide (0 < discriminated oscLut x n)) = b.bit) := by
  obtain ⟨hnear, hdecided⟩ := (eyeOpen u hu).1 c b a
  -- the window of twelve samples before ends in this bit or in the last
  obtain ⟨i', u', hu', hg', hfar⟩ : ∃ (i' : ℤ) (u' : ℕ), u' < 576 ∧
      25 * n - s - 300 = 576 * i' + u' ∧
      Bounded u' (markMid u') 492 [sent i', sent (i' - 1), sent (i' - 2)] := by
    rcases Nat.lt_or_ge u 300 with hlt | hge
    · refine ⟨i - 1, u + 276, by omega, by omega, ?_⟩
      rw [show i - 1 - 1 = i - 2 by ring, show i - 1 - 2 = i - 3 by ring, hb, hc, hd]
      exact ((eyeOpen (u + 276) (by omega)).1 d c b).1
    · refine ⟨i, u - 300, by omega, by omega, ?_⟩
      rw [ha, hb, hc]
      exact ((eyeOpen (u - 300) (by omega)).1 c b a).1
  rw [← ha, ← hb, ← hc] at hnear
  have hdecide : ∀ {tone : Tone},
      Decided u (markMid u) 143000000 tone (some a) (some b) (some c) (some d) →
        (!decide (0 < discriminated oscLut x n)) = tone.bit := by
    intro tone h
    rw [← ha, ← hb, ← hc, ← hd] at h
    exact decided_of_windows hcos hamp herr hn hheard hu hu' hg hg' (by decide) le_rfl hnear hfar h
      (by norm_num)
  exact ⟨fun h => hdecide ((hdecided d).1 h), fun h => hdecide ((hdecided d).2 h)⟩

/-- After silence: with the first two bits ones, both are decided from a third of the first on. -/
theorem decided_first {i : ℤ} {u : ℕ} (hu : u < 576) (hg : 25 * n - s = 576 * i + u)
    (hi : i = 1 ∧ 287 ≤ u ∨ i = 2) (hsilent : ∀ j < 0, sent j = none)
    (h0 : sent 0 = some .mark) (h1 : sent 1 = some .mark) (h2 : sent 2 = some .space) :
    (!decide (0 < discriminated oscLut x n)) = true := by
  -- the windows that end with the first, the second and the third bit
  have hfirst : ∀ u < 576, 563 ≤ u →
      Bounded u (markMid u) 2600 [sent 0, sent (0 - 1), sent (0 - 2)] := by
    intro u hu hlate
    rw [h0, hsilent (0 - 1) (by decide), hsilent (0 - 2) (by decide)]
    exact (eyeOpen u hu).2.2.1 hlate
  have hsecond : ∀ u < 576, Bounded u (markMid u) 2600 [sent 1, sent (1 - 1), sent (1 - 2)] := by
    intro u hu
    rw [h1, show (1 - 1 : ℤ) = 0 by decide, h0, hsilent (1 - 2) (by decide)]
    exact (eyeOpen u hu).2.1
  have hthird : ∀ u < 576, Bounded u (markMid u) 2600 [sent 2, sent (2 - 1), sent (2 - 2)] := by
    intro u hu
    rw [h2, show (2 - 1 : ℤ) = 1 by decide, show (2 - 2 : ℤ) = 0 by decide, h1, h0]
    have hbounded := ((eyeOpen u hu).1 .mark .mark .space).1
    exact ⟨hbounded.1, hbounded.2.trans (by decide)⟩
  rcases hi with ⟨rfl, hlate⟩ | rfl
  · -- in the second bit
    have hdecided : Decided u (markMid u) 600000000 .mark (sent 1) (sent (1 - 1)) (sent (1 - 2))
        (sent (1 - 3)) := by
      rw [h1, show (1 - 1 : ℤ) = 0 by decide, h0, hsilent (1 - 2) (by decide),
        hsilent (1 - 3) (by decide)]
      exact (eyeOpen u hu).2.2.2.1 hlate
    rcases Nat.lt_or_ge u 300 with hlt | hge
    · have hbefore := hfirst (u + 276) (by omega) (by omega)
      exact decided_of_windows hcos hamp herr hn hheard hu (by omega) hg (by omega) (by decide)
        le_rfl (hsecond u hu) hbefore hdecided (by norm_num)
    · have hbefore := hsecond (u - 300) (by omega)
      exact decided_of_windows hcos hamp herr hn hheard hu (by omega) hg (by omega) (by decide)
        le_rfl (hsecond u hu) hbefore hdecided (by norm_num)
  · -- in the third
    have hdecided : Decided u (markMid u) 600000000 .mark (sent 2) (sent (2 - 1)) (sent (2 - 2))
        (sent (2 - 3)) := by
      rw [h2, show (2 - 1 : ℤ) = 1 by decide, show (2 - 2 : ℤ) = 0 by decide, h1, h0,
        hsilent (2 - 3) (by decide)]
      exact (eyeOpen u hu).2.2.2.2
    rcases Nat.lt_or_ge u 300 with hlt | hge
    · have hbefore := hsecond (u + 276) (by omega)
      exact decided_of_windows hcos hamp herr hn hheard hu (by omega) hg (by omega) (by decide)
        le_rfl (hthird u hu) hbefore hdecided (by norm_num)
    · have hbefore := hthird (u - 300) (by omega)
      exact decided_of_windows hcos hamp herr hn hheard hu (by omega) hg (by omega) (by decide)
        le_rfl (hthird u hu) hbefore hdecided (by norm_num)

end

end PiWxRx
