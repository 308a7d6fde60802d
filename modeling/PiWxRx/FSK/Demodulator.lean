import PiWxRx.FSK.FrontEnd
import PiWxRx.General.DelayLine

/-!
# The exact demodulator

What the fixed-point front end computes, in unbounded integers: `mixed`, `filtered` and
`discriminated` give the signals of the whole stream as functions of the sample number.

The front end computes exactly these (`phaseOutput_eq`). The invariant `FrontEnd.Holds` ties each
of its four circular buffers to the history of the signal in it, and the bounds say that every
value on the way fits its type: the mixer output is below `2 ^ 15`, the filter gains at most
`46718 / 2 ^ 16`, and twice the square of the filter output is below `2 ^ 31`.
-/

namespace PiWxRx

open CArith DelayLine Runs

/-! ## The signals -/

section Signals

variable (oscLut : Vector OscValue lutSize) (x : ℕ → RtlSample)

/-- The initial phase of a channel. -/
def Channel.phase : Channel → ℕ
  | .I => 0
  | .Q => 1536

/-- The oscillator of a channel at sample `m`. -/
def oscillator (ch : Channel) (m : ℕ) : OscValue :=
  oscLut.get ⟨(ch.phase + 311 * m) % 2048, Nat.mod_lt _ (by decide)⟩

/-- The mixer output of a channel. -/
def mixed (ch : Channel) (m : ℕ) : ℤ :=
  (oscillator oscLut ch m).toInt * (x m).toInt / 2 ^ 15

/-- The value of a signal `i` samples before sample `m`, `0` before the start. -/
def delayed (f : ℕ → ℤ) (m i : ℕ) : ℤ := if i ≤ m then f (m - i) else 0

/-- The filter output of a channel. -/
def filtered (ch : Channel) (m : ℕ) : ℤ :=
  dot (firCoeffs.toList.map BitVec.toInt) (delayed (mixed oscLut x ch) m) / 2 ^ 16

/-- The discriminator output: the cross product of the filter outputs and those of 12 samples
before. -/
def discriminated (n : ℕ) : ℤ :=
  (delayed (filtered oscLut x .I) n 12 * filtered oscLut x .Q n
    - filtered oscLut x .I n * delayed (filtered oscLut x .Q) n 12) / 2 ^ 11

end Signals

/-- The circular line after sample `m` holds the delayed signal. -/
theorem past_eq_delayed (f : ℕ → ℤ) (m i : ℕ) : past 0 f (m + 1) i = delayed f m i := by
  simp only [past, delayed, Nat.lt_succ_iff, Nat.add_sub_cancel]

theorem abs_delayed_le {f : ℕ → ℤ} {b : ℤ} (hf : ∀ m, |f m| ≤ b) (m i : ℕ) :
    |delayed f m i| ≤ b := by
  unfold delayed
  split
  · exact hf _
  · rw [abs_zero]
    exact (abs_nonneg (f 0)).trans (hf 0)

/-! ## Bounds -/

/-- The absolute sum of the filter coefficients. -/
theorem sum_abs_firCoeffs :
    ((firCoeffs.toList.map BitVec.toInt).map fun c => |c|).sum = 46718 := by
  decide

/-- The filter takes a 16-bit signal to at most `46718 * 32767 / 2 ^ 16`. -/
theorem abs_dot_firCoeffs_le {f : ℕ → ℤ} (hf : ∀ i, |f i| ≤ 32767) (m : ℕ) :
    |dot (firCoeffs.toList.map BitVec.toInt) (delayed f m) / 2 ^ 16| ≤ 23359 := by
  apply abs_ediv_le (by decide)
  have hdot := abs_dot_le (abs_delayed_le hf m) (firCoeffs.toList.map BitVec.toInt)
  rw [sum_abs_firCoeffs] at hdot
  exact hdot.trans (by decide)

section Bounds

variable {oscLut : Vector OscValue lutSize} {x : ℕ → RtlSample}
  (hlut : ∀ i (hi : i < lutSize), -32767 ≤ oscLut[i].toInt ∧ oscLut[i].toInt ≤ 32767)
include hlut

/-- The mixer product: an oscillator value of at most 15 bits times a sample. -/
theorem abs_oscillator_mul_le (ch : Channel) (m : ℕ) :
    |(oscillator oscLut ch m).toInt * (x m).toInt| ≤ 32767 * 2 ^ 15 := by
  apply abs_mul_le
  · exact abs_le.mpr (hlut _ _)
  · have hlo := BitVec.le_toInt (x m)
    have hhi := BitVec.toInt_lt (x := x m)
    exact abs_le.mpr ⟨by simpa using hlo, by simpa using hhi.le⟩

theorem abs_mixed_le (ch : Channel) (m : ℕ) : |mixed oscLut x ch m| ≤ 32767 :=
  abs_ediv_le (by decide) (abs_oscillator_mul_le hlut ch m)

theorem abs_filtered_le (ch : Channel) (m : ℕ) : |filtered oscLut x ch m| ≤ 23359 :=
  abs_dot_firCoeffs_le (abs_mixed_le hlut ch) m

end Bounds

/-! ## Silence -/

theorem toInt_silent : (0 : RtlSample).toInt = 0 := rfl

/-- A sample of zero is mixed to zero. -/
theorem mixed_of_silent (oscLut : Vector OscValue lutSize) {x : ℕ → RtlSample} {n : ℕ}
    (h : x n = 0) (ch : Channel) : mixed oscLut x ch n = 0 := by
  rw [mixed, h, toInt_silent, mul_zero, Int.zero_ediv]

/-- The filter remembers 45 samples: after as many zeros its output is zero. -/
theorem filtered_of_silent (oscLut : Vector OscValue lutSize) {x : ℕ → RtlSample} {n : ℕ}
    (h : ∀ m ≤ n, n < m + nFirTaps → x m = 0) (ch : Channel) : filtered oscLut x ch n = 0 := by
  have hzero : dot (firCoeffs.toList.map BitVec.toInt) (delayed (mixed oscLut x ch) n) = 0 := by
    rw [dot_eq_sum]
    refine Finset.sum_eq_zero fun k hk => ?_
    have hk' : k < nFirTaps := by simpa using hk
    rw [delayed]
    split
    · rw [mixed_of_silent oscLut (h _ (Nat.sub_le n k) (by omega)), mul_zero]
    · rw [mul_zero]
  rw [filtered, hzero, Int.zero_ediv]

/-- After 45 zeros the discriminator output is zero. -/
theorem discriminated_of_silent (oscLut : Vector OscValue lutSize) {x : ℕ → RtlSample} {n : ℕ}
    (h : ∀ m ≤ n, n < m + nFirTaps → x m = 0) : discriminated oscLut x n = 0 := by
  rw [discriminated, filtered_of_silent oscLut h .I, filtered_of_silent oscLut h .Q, mul_zero,
    zero_mul, sub_zero, Int.zero_ediv]

/-! ## One stage at a time -/

section Stages

variable {A : Arith} (hA : A.Exact)
include hA

theorem mixer_eq {oscLut : Vector OscValue lutSize} {x : ℕ → RtlSample}
    (hlut : ∀ i (hi : i < lutSize), -32767 ≤ oscLut[i].toInt ∧ oscLut[i].toInt ≤ 32767)
    (ch : Channel) (m : ℕ) :
    mixer A (oscillator oscLut ch m) (x m) = some (mixed oscLut x ch m) := by
  have hprod := abs_oscillator_mul_le (x := x) hlut ch m
  have hmix := abs_mixed_le (x := x) hlut ch m
  rw [mixer, hA.int _ (fits_of_abs_lt (hprod.trans_lt (by decide))), Option.bind_eq_bind,
    Option.bind_some, shiftRight_eq_ediv]
  exact hA.short _ (fits_of_abs_lt (hmix.trans_lt (by decide)))

/-- The loop of `doFir` from coefficient `j` on: it walks back through the ring and adds up the
delayed signal. The hypothesis on `mac` carries the overflow bound through the loop. -/
theorem macLoop_eq {firdata : Vector ℤ nFirTaps} {f : ℕ → ℤ} {m : ℕ}
    (hcells : RingHolds 0 firdata f (m + 1)) (hf : ∀ i, |f i| ≤ 32767) (coeffs : List FirCoeff)
    (j : ℕ) (hj : j + coeffs.length = nFirTaps) (mac : ℤ)
    (hmac : |mac| + ((coeffs.map BitVec.toInt).map fun c => |c|).sum * 32767 < 2 ^ 31) :
    macLoop A firdata coeffs ((m + nFirTaps - j) % nFirTaps) mac =
      some (mac + dot (coeffs.map BitVec.toInt) fun i => delayed f m (j + i), m % nFirTaps) := by
  induction coeffs generalizing j mac with
  | nil =>
    obtain rfl : j = nFirTaps := by simpa using hj
    simp [macLoop]
  | cons coeff coeffs ih =>
    rw [List.length_cons] at hj
    simp only [List.map_cons, List.sum_cons, add_mul] at hmac
    have hrest : 0 ≤ ((coeffs.map BitVec.toInt).map fun c => |c|).sum * 32767 := by
      apply mul_nonneg _ (by decide)
      apply List.sum_nonneg
      simp
    -- the cell at the read pointer
    have hcell : firdata[(m + nFirTaps - j) % nFirTaps]? = some (delayed f m j) := by
      rw [← past_eq_delayed, ← hcells j (by omega)]
      congr 2
      omega
    have hprod : |delayed f m j * coeff.toInt| ≤ |coeff.toInt| * 32767 := by
      rw [mul_comm]
      exact abs_mul_le le_rfl (abs_delayed_le hf m j)
    have hsum : |mac + delayed f m j * coeff.toInt| ≤ |mac| + |coeff.toInt| * 32767 :=
      (abs_add_le _ _).trans (by omega)
    have hmac0 := abs_nonneg mac
    -- one step back in the ring
    have hback : (if (m + nFirTaps - j) % nFirTaps = 0 then nFirTaps - 1
        else (m + nFirTaps - j) % nFirTaps - 1) = (m + nFirTaps - (j + 1)) % nFirTaps := by
      simp only [nFirTaps] at hj ⊢
      split <;> omega
    rw [macLoop, hcell, Option.bind_eq_bind, Option.bind_some,
      hA.int _ (fits_of_abs_lt (by omega)), Option.bind_some,
      hA.long _ (fits_of_abs_lt (by omega)), Option.bind_some, hback,
      ih (j + 1) (by omega) _ (by omega)]
    simp only [List.map_cons, dot_cons, Nat.add_zero, Option.some.injEq, Prod.mk.injEq, and_true]
    rw [mul_comm coeff.toInt, add_assoc]
    simp only [Nat.add_assoc, Nat.add_comm 1]

/-- The filter of a channel after the first `m` values of its input `f`. -/
structure FirData.Holds (fir : FirData) (f : ℕ → ℤ) (m : ℕ) : Prop where
  wrptr_eq : fir.wrptr = m % nFirTaps
  cells : RingHolds 0 fir.firdata f m

omit hA in
theorem FirData.holds_init (f : ℕ → ℤ) : FirData.init.Holds f 0 where
  wrptr_eq := rfl
  cells := ringHolds_replicate 0 f

/-- `doFir` returns the convolution of its input with the coefficients. -/
theorem doFir_eq {fir : FirData} {f : ℕ → ℤ} {m : ℕ} (h : fir.Holds f m)
    (hf : ∀ i, |f i| ≤ 32767) :
    ∃ fir', doFir A (f m) fir =
        some (dot (firCoeffs.toList.map BitVec.toInt) (delayed f m) / 2 ^ 16, fir') ∧
      fir'.Holds f (m + 1) := by
  have hlt : m % nFirTaps < nFirTaps := Nat.mod_lt _ (by decide)
  have hcells := ringHolds_set h.cells hlt
  -- from an empty accumulator, the absolute coefficient sum bounds every partial sum
  have hmac := macLoop_eq hA hcells hf firCoeffs.toList 0 rfl 0
    (by rw [sum_abs_firCoeffs]; decide)
  simp only [Nat.sub_zero, Nat.add_mod_right, Nat.zero_add, Int.zero_add] at hmac
  have hdot := abs_dot_firCoeffs_le hf m
  have hwrptr : (if m % nFirTaps = nFirTaps - 1 then 0 else m % nFirTaps + 1) =
      (m + 1) % nFirTaps := by
    simp only [nFirTaps]
    split <;> omega
  obtain ⟨wrptr, rdptr, firdata⟩ := fir
  obtain rfl : wrptr = m % nFirTaps := h.wrptr_eq
  rw [doFir, dif_pos hlt]
  simp only [hmac, Option.bind_eq_bind, Option.bind_some, shiftRight_eq_ediv, hwrptr]
  rw [hA.int _ (fits_of_abs_lt (hdot.trans_lt (by decide)))]
  exact ⟨_, rfl, rfl, hcells⟩

/-- The delay lines after the first `n` values of the filter outputs `i` and `q`. -/
structure DemodDly.Holds (dly : DemodDly) (i q : ℕ → ℤ) (n : ℕ) : Prop where
  currIndex_eq : dly.currIndex = n % demodDlyLen
  iCells : RingHolds 0 dly.iDemodDly i n
  qCells : RingHolds 0 dly.qDemodDly q n

omit hA in
theorem DemodDly.holds_init (i q : ℕ → ℤ) : DemodDly.init.Holds i q 0 where
  currIndex_eq := rfl
  iCells := ringHolds_replicate 0 i
  qCells := ringHolds_replicate 0 q

omit hA in
theorem previousBitIndex_mod (n : ℕ) :
    previousBitIndex (n % demodDlyLen) = (n + 1 + (demodDlyLen - 1 - 12)) % demodDlyLen := by
  rw [previousBitIndex_eq (Nat.mod_lt _ (by decide)), Nat.mod_add_mod]
  rfl

/-- `PhaseDiscrim` returns the scaled cross product of its inputs and those of 12 calls before. -/
theorem phaseDiscrim_eq {dly : DemodDly} {i q : ℕ → ℤ} {n : ℕ} (h : dly.Holds i q n)
    (hi : ∀ k, |i k| ≤ 23359) (hq : ∀ k, |q k| ≤ 23359) :
    ∃ dly', phaseDiscrim A dly (i n) (q n) =
        some ((delayed i n 12 * q n - i n * delayed q n 12) / 2 ^ 11, dly') ∧
      dly'.Holds i q (n + 1) := by
  have hlt : n % demodDlyLen < demodDlyLen := Nat.mod_lt _ (by decide)
  have hicells := ringHolds_set h.iCells hlt
  have hqcells := ringHolds_set h.qCells hlt
  -- the cells 12 samples back, read after the new values were written
  have hiprev := hicells 12 (by decide)
  have hqprev := hqcells 12 (by decide)
  rw [← previousBitIndex_mod, past_eq_delayed] at hiprev hqprev
  -- the products and their difference
  have hleft := abs_mul_le (abs_delayed_le hi n 12) (hq n)
  have hright := abs_mul_le (hi n) (abs_delayed_le hq n 12)
  have hdiff : |delayed i n 12 * q n - i n * delayed q n 12| ≤ 23359 * 23359 + 23359 * 23359 :=
    (abs_sub _ _).trans (add_le_add hleft hright)
  have hindex : (n % demodDlyLen + 1) &&& (demodDlyLen - 1) = (n + 1) % demodDlyLen := by
    rw [Nat.and_two_pow_sub_one_eq_mod _ 6, Nat.mod_add_mod]
  obtain ⟨iDemodDly, qDemodDly, currIndex⟩ := dly
  obtain rfl : currIndex = n % demodDlyLen := h.currIndex_eq
  rw [phaseDiscrim, dif_pos hlt]
  simp only [hA.short _ (fits_of_abs_lt ((hi n).trans_lt (by decide))),
    hA.short _ (fits_of_abs_lt ((hq n).trans_lt (by decide))), Option.bind_eq_bind,
    Option.bind_some, hiprev, hqprev, hA.long _ (fits_of_abs_lt (hleft.trans_lt (by decide))),
    hA.long _ (fits_of_abs_lt (hright.trans_lt (by decide))),
    hA.long _ (fits_of_abs_lt (hdiff.trans_lt (by decide))),
    hA.int _ (fits_of_abs_lt (hdiff.trans_lt (by decide))), hindex, shiftRight_eq_ediv]
  exact ⟨_, rfl, rfl, hicells, hqcells⟩

end Stages

/-! ## The stream -/

/-- The front end after the first `n` samples of the stream: every buffer holds the history of
its signal. -/
structure FrontEnd.Holds (oscLut : Vector OscValue lutSize) (x : ℕ → RtlSample) (s : FrontEnd)
    (n : ℕ) : Prop where
  iPhase_eq : s.osc.iPhase = (Channel.I.phase + 311 * n) % 2048
  qPhase_eq : s.osc.qPhase = (Channel.Q.phase + 311 * n) % 2048
  iFir : s.iChannelFir.Holds (mixed oscLut x .I) n
  qFir : s.qChannelFir.Holds (mixed oscLut x .Q) n
  dly : s.dly.Holds (filtered oscLut x .I) (filtered oscLut x .Q) n

theorem FrontEnd.holds_init (oscLut : Vector OscValue lutSize) (x : ℕ → RtlSample) :
    FrontEnd.init.Holds oscLut x 0 where
  iPhase_eq := rfl
  qPhase_eq := rfl
  iFir := FirData.holds_init _
  qFir := FirData.holds_init _
  dly := DemodDly.holds_init _ _

/-- The phase accumulator advances around the table. -/
private theorem phase_advance (p n : ℕ) :
    (p + 311 * n) % 2048 + injFreq &&& (lutSize - 1) = (p + 311 * (n + 1)) % 2048 := by
  rw [Nat.and_two_pow_sub_one_eq_mod _ 11, Nat.mod_add_mod, Nat.mul_succ, Nat.add_assoc]

variable {A : Arith} {oscLut : Vector OscValue lutSize}

theorem runOsc_I {osc : Osc} {n : ℕ} (h : osc.iPhase = (Channel.I.phase + 311 * n) % 2048) :
    runOsc oscLut osc .I = some (oscillator oscLut .I n,
      { osc with iPhase := (Channel.I.phase + 311 * (n + 1)) % 2048 }) := by
  rw [runOsc, h, Vector.getElem?_eq_getElem (Nat.mod_lt _ (by decide)), phase_advance]
  rfl

theorem runOsc_Q {osc : Osc} {n : ℕ} (h : osc.qPhase = (Channel.Q.phase + 311 * n) % 2048) :
    runOsc oscLut osc .Q = some (oscillator oscLut .Q n,
      { osc with qPhase := (Channel.Q.phase + 311 * (n + 1)) % 2048 }) := by
  rw [runOsc, h, Vector.getElem?_eq_getElem (Nat.mod_lt _ (by decide)), phase_advance]
  rfl

/-- One sample: the front end returns the discriminator output, and its buffers advance. -/
theorem frontEnd_eq (hA : A.Exact)
    (hlut : ∀ i (hi : i < lutSize), -32767 ≤ oscLut[i].toInt ∧ oscLut[i].toInt ≤ 32767)
    {x : ℕ → RtlSample} {s : FrontEnd} {n : ℕ} (h : s.Holds oscLut x n) :
    ∃ s', frontEnd A oscLut s (x n) = some (discriminated oscLut x n, s') ∧
      s'.Holds oscLut x (n + 1) := by
  obtain ⟨iFir, hiFir, hiFir'⟩ := doFir_eq hA h.iFir (abs_mixed_le hlut .I)
  obtain ⟨qFir, hqFir, hqFir'⟩ := doFir_eq hA h.qFir (abs_mixed_le hlut .Q)
  obtain ⟨dly, hdly, hdly'⟩ := phaseDiscrim_eq hA h.dly (abs_filtered_le hlut .I)
    (abs_filtered_le hlut .Q)
  refine ⟨{ osc := ⟨_, _⟩, iChannelFir := iFir, qChannelFir := qFir, dly }, ?_,
    ⟨rfl, rfl, hiFir', hqFir', hdly'⟩⟩
  simp only [frontEnd, runOsc_I h.iPhase_eq, Option.bind_eq_bind, Option.bind_some]
  rw [runOsc_Q (by exact h.qPhase_eq)]
  simp only [Option.bind_some, mixer_eq hA hlut, hiFir, hqFir]
  change (phaseDiscrim A s.dly (filtered oscLut x .I n) (filtered oscLut x .Q n)).bind _ = _
  rw [hdly]
  rfl

/-- Every sample finds the front end with the history of the stream. -/
theorem frontEndState_holds (hA : A.Exact)
    (hlut : ∀ i (hi : i < lutSize), -32767 ≤ oscLut[i].toInt ∧ oscLut[i].toInt ≤ 32767)
    (x : ℕ → RtlSample) (n : ℕ) :
    ∃ s, frontEndState A oscLut x n = some s ∧ s.Holds oscLut x n := by
  induction n with
  | zero => exact ⟨_, rfl, FrontEnd.holds_init oscLut x⟩
  | succ n ih =>
    obtain ⟨s, hs, hholds⟩ := ih
    obtain ⟨s', hs', hholds'⟩ := frontEnd_eq hA hlut hholds
    refine ⟨s', ?_, hholds'⟩
    rw [frontEndState] at hs ⊢
    rw [List.range_succ, List.map_append, List.map_singleton, run_concat, hs, Option.bind_some,
      hs']
    rfl

/-- An exact evaluation of the front end gives the discriminator output of every sample. -/
theorem phaseOutput_of_exact (hA : A.Exact)
    (hlut : ∀ i (hi : i < lutSize), -32767 ≤ oscLut[i].toInt ∧ oscLut[i].toInt ≤ 32767)
    (x : ℕ → RtlSample) (n : ℕ) :
    phaseOutput A oscLut x n = some (discriminated oscLut x n) := by
  obtain ⟨s, hs, hholds⟩ := frontEndState_holds hA hlut x n
  obtain ⟨s', hs', -⟩ := frontEnd_eq hA hlut hholds
  rw [phaseOutput, hs, Option.bind_eq_bind, Option.bind_some, hs']
  rfl

/-- The value `PhaseDiscrim` returns for every sample is the one of the exact demodulator. It is
reached without any overflow, and so in two's complement too, for every width of `long` from 32
bits on. -/
theorem phaseOutput_eq
    (hlut : ∀ i (hi : i < lutSize), -32767 ≤ oscLut[i].toInt ∧ oscLut[i].toInt ≤ 32767)
    (x : ℕ → RtlSample) (n : ℕ) :
    phaseOutput .checked oscLut x n = some (discriminated oscLut x n) ∧
      ∀ longBits, 32 ≤ longBits →
        phaseOutput (.wrap longBits) oscLut x n = some (discriminated oscLut x n) :=
  ⟨phaseOutput_of_exact checked_exact hlut x n,
    fun _ h => phaseOutput_of_exact (wrap_exact h) hlut x n⟩

/-- A square wave in the table. -/
def squareTable : Vector OscValue lutSize :=
  Vector.ofFn fun i => if i.val < lutSize / 2 then 32767 else -32767

theorem squareTable_range (i : ℕ) (hi : i < lutSize) :
    -32767 ≤ squareTable[i].toInt ∧ squareTable[i].toInt ≤ 32767 := by
  rw [squareTable, Vector.getElem_ofFn]
  split <;> decide

/-- A square wave of 2000 Hz. -/
def squareWave (n : ℕ) : RtlSample := if n % 6 < 3 then 2000 else -2000

theorem mixed_square :
    mixed squareTable squareWave = fun ch m =>
      if ((ch.phase + 311 * m) % 2048 < 1024 ↔ m % 6 < 3) then 1999 else -2000 := by
  funext ch m
  have hosc : oscillator squareTable ch m =
      if (ch.phase + 311 * m) % 2048 < 1024 then 32767 else -32767 :=
    Vector.getElem_ofFn (Nat.mod_lt _ (by decide))
  rw [mixed, hosc, squareWave]
  by_cases h : (ch.phase + 311 * m) % 2048 < 1024 <;> by_cases h' : m % 6 < 3 <;>
    simp only [h, h', ↓reduceIte, iff_self, iff_true, iff_false, not_true_eq_false] <;> decide

theorem discriminated_square : discriminated squareTable squareWave 56 = -209 := by
  -- the filter outputs of the sample and of the one 12 samples back
  have hi : filtered squareTable squareWave .I 56 = -726 := by
    rw [filtered, mixed_square]
    decide +kernel
  have hq : filtered squareTable squareWave .Q 56 = 265 := by
    rw [filtered, mixed_square]
    decide +kernel
  have hiprev : delayed (filtered squareTable squareWave .I) 56 12 = -725 := by
    rw [delayed, if_pos (by decide), filtered, mixed_square]
    decide +kernel
  have hqprev : delayed (filtered squareTable squareWave .Q) 56 12 = -324 := by
    rw [delayed, if_pos (by decide), filtered, mixed_square]
    decide +kernel
  rw [discriminated, hi, hq, hiprev, hqprev]
  decide

/-- Two square waves. -/
theorem phaseOutput_eq_of_square :
    phaseOutput .checked squareTable squareWave 56 = some (-209) ∧
      phaseOutput (.wrap 32) squareTable squareWave 56 = some (-209) := by
  have h := phaseOutput_eq squareTable_range squareWave 56
  rw [discriminated_square] at h
  exact ⟨h.1, h.2 32 le_rfl⟩

end PiWxRx
