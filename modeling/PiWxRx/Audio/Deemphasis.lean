import PiWxRx.Audio.LinearSignal

/-!
# De-emphasis in range

The mu-law encoder with de-emphasis runs every decimated and amplified sample through `deemph`, a
recursive filter in 32-bit arithmetic with a 16-bit argument and a 16-bit result. `DeemphInRange`
says that nothing is lost on the way, so that the codes are those of the filter in unbounded
integers (`deemphExact`).

The products never overflow, since a result that fits 16 bits keeps the state small
(`sampleInRange_iff`). What can be lost is the gain, which is applied before the conversion of the
argument, and the result: the gain of the filter is above one at low frequencies, and the result is
not saturated. `deemphInRange_iff` gives the inputs on which neither happens.
-/

namespace PiWxRx

open Blocks CArith

/-- The filter in unbounded integers: the new state and the output. -/
def deemphExact (state input : ℤ) : ℤ × ℤ :=
  let state := input + state * 25889 / 2 ^ 15
  (state, state * 6878 / 2 ^ 14 + state * 6878 / 2 ^ 15)

/-- The `int` that `deemph` returns after its state became `state`. -/
def deemphReturned (state : DeemphState) : BitVec 32 :=
  (state * 6878).sshiftRight 14 + (state * 6878).sshiftRight 15

/-- The argument of `deemph` for a decimated sample. -/
def deemphInput (gain : ℕ) (sample : RtlSample) : RtlSample :=
  (sample.signExtend 32 <<< gain).truncate 16

/-- Encoding a sample in a state of the filter loses nothing. -/
structure SampleInRange (gain : ℕ) (state : DeemphState) (sample : RtlSample) : Prop where
  /-- The conversion to 16 bits does not change the amplified sample. -/
  amplified : (deemphInput gain sample).toInt = sample.toInt * 2 ^ gain
  /-- `state * coeff01` is an `int`. -/
  product01 : CArith.Fits 32 (state.toInt * 25889)
  /-- `state * coeff00` is an `int`. -/
  product00 : CArith.Fits 32 ((deemph state (deemphInput gain sample)).2.toInt * 6878)
  /-- The value returned fits 16 bits. -/
  returned : CArith.Fits 16 (deemphReturned (deemph state (deemphInput gain sample)).2).toInt

/-- The codes written by successive calls of `G711uLawEncode`. -/
def uLawCodes (debuglevel : BitVec 32) (gain : ℕ) (state : DeemphState)
    (buffers : List (List RtlSample)) : List CodecByte :=
  (Mealy.outputs (fun state buffer => let encoded := g711uLawEncode debuglevel gain state buffer
    (encoded.state, encoded.payload)) state buffers).flatten

/-- De-emphasis stays in range for successive buffers, from filter state `0` on: no sample loses
anything, and the codes are those of the output of the exact filter. -/
structure DeemphInRange (debuglevel : BitVec 32) (gain : ℕ) (buffers : List (List RtlSample)) :
    Prop where
  steps : Mealy.EveryStep (uLawStep debuglevel gain) (SampleInRange gain) 0
    (buffers.flatMap decimatedSamples)
  codes : uLawCodes debuglevel gain 0 buffers =
    (Mealy.outputs deemphExact 0 (buffers.flatMap (linearSignal gain))).map linear2ulaw

/-- The states of the exact filter whose output fits 16 bits. -/
def WithinScale (state : ℤ) : Prop := -52036 ≤ state ∧ state ≤ 52039

instance (state : ℤ) : Decidable (WithinScale state) := inferInstanceAs (Decidable (_ ∧ _))

/-- An amplified sample fits 16 bits, and the filter state it leads to is within scale. -/
def InputInRange (state input : ℤ) : Prop :=
  CArith.Fits 16 input ∧ WithinScale (deemphExact state input).1

instance (state input : ℤ) : Decidable (InputInRange state input) :=
  inferInstanceAs (Decidable (_ ∧ _))

/-! ## The filter -/

theorem deemph_eq (state : DeemphState) (input : RtlSample) :
    deemph state input =
      ((deemphReturned (deemph state input).2).truncate 16,
        input.signExtend 32 + (state * 25889).sshiftRight 15) := rfl

/-- A larger state has a larger output. -/
theorem output_mono {s t : ℤ} (h : s ≤ t) :
    s * 6878 / 2 ^ 14 + s * 6878 / 2 ^ 15 ≤ t * 6878 / 2 ^ 14 + t * 6878 / 2 ^ 15 :=
  add_le_add (Int.ediv_le_ediv (by decide) (by omega)) (Int.ediv_le_ediv (by decide) (by omega))

/-- The output of the exact filter fits 16 bits for the states within scale. -/
theorem fits_output_iff (state : ℤ) :
    CArith.Fits 16 (state * 6878 / 2 ^ 14 + state * 6878 / 2 ^ 15) ↔ WithinScale state := by
  constructor
  · rintro ⟨hlo, hhi⟩
    constructor
    · by_contra h
      have := output_mono (s := state) (t := -52037) (by omega)
      omega
    · by_contra h
      have := output_mono (s := 52040) (t := state) (by omega)
      omega
  · rintro ⟨hlo, hhi⟩
    have h1 := output_mono hlo
    have h2 := output_mono hhi
    constructor <;> omega

/-- From a state within scale the filter computes its next state exactly, and the products fit. -/
theorem toInt_deemph_snd {state : DeemphState} (hs : WithinScale state.toInt) (input : RtlSample) :
    CArith.Fits 32 (state.toInt * 25889) ∧
      (deemph state input).2.toInt = (deemphExact state.toInt input.toInt).1 ∧
      CArith.Fits 32 ((deemphExact state.toInt input.toInt).1 * 6878) := by
  obtain ⟨hlo, hhi⟩ := hs
  obtain ⟨hin, hin'⟩ := fits_toInt input
  have hext : (input.signExtend 32).toInt = input.toInt :=
    BitVec.toInt_signExtend_of_le (by decide)
  have hcoeff : (25889 : BitVec 32).toInt = 25889 := rfl
  have hproduct : CArith.Fits 32 (state.toInt * 25889) := by constructor <;> omega
  have hmul : (state * 25889).toInt = state.toInt * 25889 := by
    rw [toInt_mul_of_fits (by decide) (by rwa [hcoeff]), hcoeff]
  have hstate : (deemph state input).2.toInt = (deemphExact state.toInt input.toInt).1 := by
    rw [deemph_eq, toInt_add_of_fits (by decide)] <;>
      rw [hext, BitVec.toInt_sshiftRight, hmul, CArith.shiftRight_eq_ediv]
    · rfl
    · constructor <;> omega
  refine ⟨hproduct, hstate, ?_⟩
  simp only [deemphExact]
  constructor <;> omega

/-- From a small state the filter computes its result exactly. -/
theorem toInt_deemphReturned {state : DeemphState} (hs : CArith.Fits 32 (state.toInt * 6878)) :
    (deemphReturned state).toInt =
      state.toInt * 6878 / 2 ^ 14 + state.toInt * 6878 / 2 ^ 15 := by
  have hcoeff : (6878 : BitVec 32).toInt = 6878 := rfl
  have hmul : (state * 6878).toInt = state.toInt * 6878 := by
    rw [toInt_mul_of_fits (by decide) (by rwa [hcoeff]), hcoeff]
  obtain ⟨hlo, hhi⟩ := hs
  rw [deemphReturned, toInt_add_of_fits (by decide)] <;>
    rw [BitVec.toInt_sshiftRight, BitVec.toInt_sshiftRight, hmul, CArith.shiftRight_eq_ediv,
      CArith.shiftRight_eq_ediv]
  constructor <;> omega

/-- The conversion of the amplified sample to 16 bits keeps it exactly if it fits. -/
theorem toInt_deemphInput_iff (sample : RtlSample) {gain : ℕ} (hgain : gain ≤ 15) :
    (deemphInput gain sample).toInt = sample.toInt * 2 ^ gain ↔
      CArith.Fits 16 (sample.toInt * 2 ^ gain) := by
  rw [← toInt_amplified sample hgain]
  exact toInt_truncate_eq_iff (by decide) (by decide) _

/-! ## One sample -/

/-- From a state within scale, encoding a sample loses nothing exactly if the amplified sample is in
range for the exact filter. -/
theorem sampleInRange_iff {gain : ℕ} (hgain : gain ≤ 15) {state : DeemphState}
    (hs : WithinScale state.toInt) (sample : RtlSample) :
    SampleInRange gain state sample ↔ InputInRange state.toInt (sample.toInt * 2 ^ gain) := by
  obtain ⟨hproduct, hstate, hproduct'⟩ := toInt_deemph_snd hs (deemphInput gain sample)
  have hreturned := toInt_deemphReturned (hstate.symm ▸ hproduct')
  constructor
  · rintro ⟨hamp, -, -, hret⟩
    refine ⟨(toInt_deemphInput_iff sample hgain).mp hamp, ?_⟩
    rwa [hreturned, fits_output_iff, hstate, hamp] at hret
  · rintro ⟨hfits, hscale⟩
    have hamp := (toInt_deemphInput_iff sample hgain).mpr hfits
    refine ⟨hamp, hproduct, hstate.symm ▸ hproduct', ?_⟩
    rwa [hreturned, fits_output_iff, hstate, hamp]

/-- A sample in range takes the exact filter along and is encoded to its output. -/
theorem uLawStep_of_inputInRange {debuglevel : BitVec 32} (hon : debuglevel &&& debugDeemphasis ≠ 0)
    {gain : ℕ} (hgain : gain ≤ 15) {state : DeemphState} (hs : WithinScale state.toInt)
    {sample : RtlSample} (h : InputInRange state.toInt (sample.toInt * 2 ^ gain)) :
    (uLawStep debuglevel gain state sample).1.toInt =
        (deemphExact state.toInt (sample.toInt * 2 ^ gain)).1 ∧
      (uLawStep debuglevel gain state sample).2 =
        linear2ulaw (deemphExact state.toInt (sample.toInt * 2 ^ gain)).2 := by
  obtain ⟨-, hstate, hproduct'⟩ := toInt_deemph_snd hs (deemphInput gain sample)
  have hreturned := toInt_deemphReturned (hstate.symm ▸ hproduct')
  have hamp := (toInt_deemphInput_iff sample hgain).mpr h.1
  have hstep : uLawStep debuglevel gain state sample =
      ((deemph state (deemphInput gain sample)).2,
        linear2ulaw (deemph state (deemphInput gain sample)).1.toInt) := by
    rw [uLawStep, encodeSample, if_pos hon]
    rfl
  rw [hamp] at hstate
  rw [hstate] at hreturned
  -- the result fits 16 bits and is not changed
  have hresult : (deemph state (deemphInput gain sample)).1.toInt =
      (deemphExact state.toInt (sample.toInt * 2 ^ gain)).2 := by
    rw [deemph_eq, (toInt_truncate_eq_iff (by decide) (by decide) _).mpr] <;> rw [hreturned]
    · rfl
    · exact (fits_output_iff _).mpr h.2
  rw [hstep, hresult]
  exact ⟨hstate, rfl⟩

/-! ## Runs -/

/-- Over any samples, nothing is lost and the codes are exact as long as the exact filter is in
range. -/
theorem everyStep_sampleInRange_iff {debuglevel : BitVec 32}
    (hon : debuglevel &&& debugDeemphasis ≠ 0) {gain : ℕ} (hgain : gain ≤ 15) {state : DeemphState}
    (hs : WithinScale state.toInt) (samples : List RtlSample) :
    (Mealy.EveryStep (uLawStep debuglevel gain) (SampleInRange gain) state samples ↔
      Mealy.EveryStep deemphExact InputInRange state.toInt
        (samples.map fun sample => sample.toInt * 2 ^ gain)) ∧
    (Mealy.EveryStep deemphExact InputInRange state.toInt
        (samples.map fun sample => sample.toInt * 2 ^ gain) →
      Mealy.outputs (uLawStep debuglevel gain) state samples =
        (Mealy.outputs deemphExact state.toInt
          (samples.map fun sample => sample.toInt * 2 ^ gain)).map linear2ulaw) := by
  -- the states of the two filters are equal as long as the inputs are in range
  induction samples generalizing state with
  | nil => exact ⟨iff_of_true Mealy.everyStep_nil Mealy.everyStep_nil, fun _ => rfl⟩
  | cons sample samples ih =>
    rw [List.map_cons, Mealy.everyStep_cons, Mealy.everyStep_cons, sampleInRange_iff hgain hs]
    have hnext : ∀ h : InputInRange state.toInt (sample.toInt * 2 ^ gain), _ := fun h =>
      have hstep := uLawStep_of_inputInRange hon hgain hs h
      And.intro hstep (hstep.1 ▸ @ih (uLawStep debuglevel gain state sample).1 (hstep.1.symm ▸ h.2))
    refine ⟨and_congr_right fun h => (hnext h).2.1, fun h => ?_⟩
    obtain ⟨⟨hstate, hcode⟩, -, hrun⟩ := hnext h.1
    rw [Mealy.outputs_cons, Mealy.outputs_cons, List.map_cons, hcode, hrun h.2]

/-- The codes of successive buffers are those of one run over their decimated samples. -/
theorem uLawCodes_eq (debuglevel : BitVec 32) (gain : ℕ) (state : DeemphState)
    (buffers : List (List RtlSample)) :
    uLawCodes debuglevel gain state buffers =
      Mealy.outputs (uLawStep debuglevel gain) state (buffers.flatMap decimatedSamples) := by
  induction buffers generalizing state with
  | nil => rfl
  | cons buffer buffers ih =>
    rw [uLawCodes, Mealy.outputs_cons, List.flatten_cons, ← uLawCodes, ih, List.flatMap_cons,
      Mealy.outputs_append, g711uLawEncode_eq_outputs]

/-- The amplified samples of the buffers are their linear signals. -/
theorem flatMap_linearSignal (gain : ℕ) (buffers : List (List RtlSample)) :
    buffers.flatMap (linearSignal gain) =
      (buffers.flatMap decimatedSamples).map fun sample => sample.toInt * 2 ^ gain := by
  have hbuffer : ∀ buffer, linearSignal gain buffer =
      (decimatedSamples buffer).map fun sample => sample.toInt * 2 ^ gain := fun buffer => by
    have hmeans : (decimatedSamples buffer).map BitVec.toInt = blockMap 3 groupMean buffer :=
      map_blockMap (fun _ => toInt_decimated_group) buffer
    rw [linearSignal, ← hmeans, List.map_map]
    rfl
  rw [List.map_flatMap]
  exact List.flatMap_congr fun buffer _ => hbuffer buffer

/-- **De-emphasis.** For every gain and all successive buffers, the mu-law encoder with de-emphasis
stays in range exactly when every amplified mean fits 16 bits and the exact filter, run over the
amplified means, stays within scale. -/
theorem deemphInRange_iff {debuglevel : BitVec 32} (hon : debuglevel &&& debugDeemphasis ≠ 0)
    {gain : ℕ} (hgain : gain ≤ 15) (buffers : List (List RtlSample)) :
    DeemphInRange debuglevel gain buffers ↔
      Mealy.EveryStep deemphExact InputInRange 0 (buffers.flatMap (linearSignal gain)) := by
  obtain ⟨hiff, hcodes⟩ := everyStep_sampleInRange_iff hon hgain
    (show WithinScale (0 : DeemphState).toInt by decide) (buffers.flatMap decimatedSamples)
  rw [← flatMap_linearSignal] at hiff hcodes
  constructor
  · exact fun h => hiff.mp h.steps
  · exact fun h => ⟨hiff.mpr h, (uLawCodes_eq ..).trans (hcodes h)⟩

/-- A quiet signal stays in range. -/
theorem deemphInRange_quiet :
    debugDeemphasis &&& debugDeemphasis ≠ 0 ∧ 3 ≤ 15 ∧
      DeemphInRange debugDeemphasis 3 [[300, 600, 900], [30, 60, 90]] := by
  refine ⟨by decide, by decide, (deemphInRange_iff (by decide) (by decide) _).mpr ?_⟩
  rw [show [[300, 600, 900], [30, 60, 90]].flatMap (linearSignal 3) = [4800, 480] by decide]
  simp only [Mealy.everyStep_cons, Mealy.everyStep_nil, and_true]
  decide

/-- At gain `3` a group of mean `4096` wraps to `-32768`. -/
theorem gain_wraps :
    ¬ ∀ (gain : ℕ) (buffers : List (List RtlSample)), gain ≤ 15 →
      DeemphInRange debugDeemphasis gain buffers := by
  intro h
  have hamp := ((h 3 [[4096, 4096, 4096]] (by decide)).steps 0 4096 rfl).amplified
  exact absurd hamp (by decide)

end PiWxRx
