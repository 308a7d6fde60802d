import PiWxRx.Audio.G711
import PiWxRx.General.Blocks
import PiWxRx.General.Mealy
import PiWxRx.Rtl

/-!
# Codecs

`PCMEncode` of `codecs.c` with its three encoders and the de-emphasis filter.

The mu-law encoder is a machine over the decimated samples of the complete groups of three, the
de-emphasis filter being its state (`g711uLawEncode_eq_outputs`). With de-emphasis off it is a map
of the groups (`g711uLawEncode_eq`).
-/

namespace PiWxRx

open Blocks

/-- `CODEC_NONE`: write to `stdout`. -/
abbrev codecNone : ℤ := -1

/-- `CODEC_PCMU`: G.711 mu-law. -/
abbrev codecPcmu : ℤ := 0

/-- `CODEC_PCMA`: G.711 A-law. -/
abbrev codecPcma : ℤ := 8

/-- `DEBUG_DEEMPHASIS`. -/
abbrev debugDeemphasis : BitVec 32 := 0x0800

/-- The filter variable `state`. -/
abbrev DeemphState := BitVec 32

/-- `deemph`: the filtered sample and the new `state`. -/
def deemph (state : DeemphState) (input : RtlSample) : RtlSample × DeemphState :=
  let coeff00 : BitVec 32 := 6878
  let coeff01 : BitVec 32 := 25889
  let accum := input.signExtend 32
  let state := accum + (state * coeff01).sshiftRight 15
  let accum := state * coeff00
  ((accum.sshiftRight 14 + accum.sshiftRight 15).truncate 16, state)

/-- What an encoder leaves behind. -/
structure Encoded where
  /-- The samples written to `stdout`. -/
  stdout : List RtlSample
  /-- The bytes written to the output buffer. -/
  payload : List CodecByte
  /-- The value returned. -/
  decimlength : ℕ
  /-- The de-emphasis filter afterwards. -/
  state : DeemphState
  deriving DecidableEq, Repr

/-- The decimated sample of a sum: `(RTL_SAMPLE)((decim_sample / 3) & 0xffff)`. -/
def decimated (decimSample : ℤ) : RtlSample := BitVec.ofInt 16 (decimSample.tdiv 3) &&& 0xffff

/-- The loop body of both companding encoders on a decimated sample: amplify it, filter it if
asked to, and encode it by `linear2law`. -/
def encodeSample (linear2law : ℤ → CodecByte) (debuglevel : BitVec 32) (gain : ℕ)
    (state : DeemphState) (sample : RtlSample) : CodecByte × DeemphState :=
  let amplified := sample.signExtend 32 <<< gain
  if debuglevel &&& debugDeemphasis ≠ 0 then
    -- the argument of `deemph` is 16 bits wide
    let (filtered, state) := deemph state (amplified.truncate 16)
    (linear2law filtered.toInt, state)
  else
    (linear2law amplified.toInt, state)

/-- The loop of `stdioOutEncode`. -/
def stdioOutLoop : (count : ℕ) → List RtlSample → List RtlSample
  | count + 1, s0 :: s1 :: s2 :: buffer =>
    decimated (s0.toInt + s1.toInt + s2.toInt) :: stdioOutLoop count buffer
  | _, _ => []

/-- `stdioOutEncode`. The gain is not used. -/
def stdioOutEncode (buffer : List RtlSample) : List RtlSample :=
  stdioOutLoop (buffer.length / 3) buffer

/-- The loop of `G711uLawEncode`: three samples make one byte. -/
def g711uLawLoop (debuglevel : BitVec 32) (gain : ℕ) :
    (newlen : ℕ) → List RtlSample → DeemphState → List CodecByte × DeemphState
  | newlen + 1, s0 :: s1 :: s2 :: buffer, state =>
    let (code, state) := encodeSample linear2ulaw debuglevel gain state
      (decimated (s0.toInt + s1.toInt + s2.toInt))
    let (codes, state) := g711uLawLoop debuglevel gain newlen buffer state
    (code :: codes, state)
  | _, _, state => ([], state)

/-- `G711uLawEncode`. -/
def g711uLawEncode (debuglevel : BitVec 32) (gain : ℕ) (state : DeemphState)
    (buffer : List RtlSample) : Encoded :=
  let newlen := buffer.length / 3
  let (payload, state) := g711uLawLoop debuglevel gain newlen buffer state
  { stdout := [], payload, decimlength := newlen, state }

/-- The loop of `G711aLawEncode`. Unlike the other two it advances by one sample for each byte. -/
def g711aLawLoop (debuglevel : BitVec 32) (gain : ℕ) :
    (newlen : ℕ) → List RtlSample → DeemphState → List CodecByte × DeemphState
  | newlen + 1, s0 :: buffer, state =>
    let (code, state) := encodeSample linear2alaw debuglevel gain state (decimated s0.toInt)
    let (codes, state) := g711aLawLoop debuglevel gain newlen buffer state
    (code :: codes, state)
  | _, _, state => ([], state)

/-- `G711aLawEncode`. -/
def g711aLawEncode (debuglevel : BitVec 32) (gain : ℕ) (state : DeemphState)
    (buffer : List RtlSample) : Encoded :=
  let newlen := buffer.length / 3
  let (payload, state) := g711aLawLoop debuglevel gain newlen buffer state
  { stdout := [], payload, decimlength := newlen, state }

/-- `PCMEncode`. -/
def pcmEncode (debuglevel : BitVec 32) (codec : ℤ) (gain : ℕ) (state : DeemphState)
    (buffer : List RtlSample) : Encoded :=
  if codec = codecNone then
    { stdout := stdioOutEncode buffer, payload := [], decimlength := 0, state }
  else if codec = codecPcmu then
    g711uLawEncode debuglevel gain state buffer
  else if codec = codecPcma then
    g711aLawEncode debuglevel gain state buffer
  else
    { stdout := [], payload := [], decimlength := 0, state }

/-! ## Lengths -/

theorem length_g711uLawLoop (debuglevel : BitVec 32) (gain newlen : ℕ) (buffer : List RtlSample)
    (state : DeemphState) (h : 3 * newlen ≤ buffer.length) :
    (g711uLawLoop debuglevel gain newlen buffer state).1.length = newlen := by
  induction newlen generalizing buffer state with
  | zero => rfl
  | succ newlen ih =>
    -- three samples are left for this byte
    obtain _ | ⟨s0, _ | ⟨s1, _ | ⟨s2, buffer⟩⟩⟩ := buffer
    · simp at h
    · simp only [List.length_singleton] at h
      omega
    · simp only [List.length_cons, List.length_nil] at h
      omega
    · simp only [List.length_cons] at h
      simp only [g711uLawLoop, List.length_cons]
      rw [ih buffer _ (by omega)]

theorem length_g711aLawLoop (debuglevel : BitVec 32) (gain newlen : ℕ) (buffer : List RtlSample)
    (state : DeemphState) (h : newlen ≤ buffer.length) :
    (g711aLawLoop debuglevel gain newlen buffer state).1.length = newlen := by
  induction newlen generalizing buffer state with
  | zero => rfl
  | succ newlen ih =>
    obtain _ | ⟨s0, buffer⟩ := buffer
    · simp at h
    · simp only [List.length_cons] at h
      simp only [g711aLawLoop, List.length_cons]
      rw [ih buffer _ (by omega)]

/-- Both companding encoders write as many bytes as they return, one for three samples. -/
theorem length_pcmEncode (debuglevel : BitVec 32) {codec : ℤ}
    (hcodec : codec = codecPcmu ∨ codec = codecPcma) (gain : ℕ) (state : DeemphState)
    (buffer : List RtlSample) :
    (pcmEncode debuglevel codec gain state buffer).payload.length = buffer.length / 3 ∧
      (pcmEncode debuglevel codec gain state buffer).decimlength = buffer.length / 3 := by
  rcases hcodec with rfl | rfl
  · refine ⟨?_, rfl⟩
    exact length_g711uLawLoop _ _ _ _ _ (Nat.mul_div_le _ _)
  · refine ⟨?_, rfl⟩
    exact length_g711aLawLoop _ _ _ _ _ (Nat.div_le_self _ _)

/-- With any codec as many bytes are written as are returned, at most one for three samples. -/
theorem length_payload_pcmEncode (debuglevel : BitVec 32) (codec : ℤ) (gain : ℕ)
    (state : DeemphState) (buffer : List RtlSample) :
    (pcmEncode debuglevel codec gain state buffer).payload.length =
        (pcmEncode debuglevel codec gain state buffer).decimlength ∧
      (pcmEncode debuglevel codec gain state buffer).decimlength ≤ buffer.length / 3 := by
  by_cases hlaw : codec = codecPcmu ∨ codec = codecPcma
  · obtain ⟨hpayload, hdecim⟩ := length_pcmEncode debuglevel hlaw gain state buffer
    rw [hpayload, hdecim]
    exact ⟨rfl, le_rfl⟩
  · -- nothing is encoded
    obtain ⟨hu, ha⟩ := not_or.mp hlaw
    rcases eq_or_ne codec codecNone with hn | hn
    · rw [pcmEncode, if_pos hn]
      exact ⟨rfl, Nat.zero_le _⟩
    · rw [pcmEncode, if_neg hn, if_neg hu, if_neg ha]
      exact ⟨rfl, Nat.zero_le _⟩

/-! ## Groups of three -/

/-- The mu-law code of a group of three samples. -/
def uLawGroup (gain : ℕ) (group : List RtlSample) : CodecByte :=
  linear2ulaw ((decimated (group.map BitVec.toInt).sum).signExtend 32 <<< gain).toInt

theorem encodeSample_of_deemphasis_off {debuglevel : BitVec 32}
    (hoff : debuglevel &&& debugDeemphasis = 0) (linear2law : ℤ → CodecByte) (gain : ℕ)
    (state : DeemphState) (sample : RtlSample) :
    encodeSample linear2law debuglevel gain state sample =
      (linear2law (sample.signExtend 32 <<< gain).toInt, state) := by
  rw [encodeSample, if_neg (not_not_intro hoff)]

/-- One sample of the mu-law encoder, the filter being the state. -/
def uLawStep (debuglevel : BitVec 32) (gain : ℕ) (state : DeemphState) (sample : RtlSample) :
    DeemphState × CodecByte :=
  (encodeSample linear2ulaw debuglevel gain state sample).swap

/-- The decimated samples of the complete groups of three. -/
def decimatedSamples (buffer : List RtlSample) : List RtlSample :=
  blockMap 3 (fun group => decimated (group.map BitVec.toInt).sum) buffer

/-- The first group of three gives the first decimated sample. -/
theorem decimatedSamples_cons₃ (s0 s1 s2 : RtlSample) (buffer : List RtlSample) :
    decimatedSamples (s0 :: s1 :: s2 :: buffer) =
      decimated (s0.toInt + s1.toInt + s2.toInt) :: decimatedSamples buffer := by
  have hblock := blockMap_cons (g := 3) (by decide)
    (fun group : List RtlSample => decimated (group.map BitVec.toInt).sum)
    (b := [s0, s1, s2]) rfl buffer
  simpa [decimatedSamples, add_assoc] using hblock

theorem decimatedSamples_of_lt {buffer : List RtlSample} (h : buffer.length < 3) :
    decimatedSamples buffer = [] := blockMap_of_lt _ h

theorem length_div_three (s0 s1 s2 : RtlSample) (buffer : List RtlSample) :
    (s0 :: s1 :: s2 :: buffer).length / 3 = buffer.length / 3 + 1 := by
  simp only [List.length_cons]
  omega

private theorem g711uLawLoop_eq (debuglevel : BitVec 32) (gain : ℕ) :
    ∀ (buffer : List RtlSample) (state : DeemphState),
      g711uLawLoop debuglevel gain (buffer.length / 3) buffer state =
        (Mealy.outputs (uLawStep debuglevel gain) state (decimatedSamples buffer),
          Mealy.final (uLawStep debuglevel gain) state (decimatedSamples buffer))
  | [], state => by simp [g711uLawLoop, decimatedSamples_of_lt]
  | [s0], state => by simp [g711uLawLoop, decimatedSamples_of_lt]
  | [s0, s1], state => by simp [g711uLawLoop, decimatedSamples_of_lt]
  | s0 :: s1 :: s2 :: buffer, state => by
    -- the first group, and the loop over the others
    rw [length_div_three, decimatedSamples_cons₃]
    simp only [g711uLawLoop, g711uLawLoop_eq debuglevel gain buffer]
    rfl

/-- The mu-law encoder runs over the decimated samples of its buffer. -/
theorem g711uLawEncode_eq_outputs (debuglevel : BitVec 32) (gain : ℕ) (state : DeemphState)
    (buffer : List RtlSample) :
    g711uLawEncode debuglevel gain state buffer =
      { stdout := []
        payload := Mealy.outputs (uLawStep debuglevel gain) state (decimatedSamples buffer)
        decimlength := buffer.length / 3
        state := Mealy.final (uLawStep debuglevel gain) state (decimatedSamples buffer) } := by
  simp only [g711uLawEncode, g711uLawLoop_eq]

/-- With de-emphasis off, mu-law encoding maps the complete groups of three samples. -/
theorem g711uLawEncode_eq {debuglevel : BitVec 32} (hoff : debuglevel &&& debugDeemphasis = 0)
    (gain : ℕ) (state : DeemphState) (buffer : List RtlSample) :
    g711uLawEncode debuglevel gain state buffer =
      { stdout := []
        payload := blockMap 3 (uLawGroup gain) buffer
        decimlength := buffer.length / 3
        state } := by
  have hstep : uLawStep debuglevel gain = fun state (sample : RtlSample) =>
      (state, linear2ulaw (sample.signExtend 32 <<< gain).toInt) := by
    funext state sample
    rw [uLawStep, encodeSample_of_deemphasis_off hoff]
    rfl
  have hgroups : (decimatedSamples buffer).map (fun sample : RtlSample =>
      linear2ulaw (sample.signExtend 32 <<< gain).toInt) = blockMap 3 (uLawGroup gain) buffer :=
    map_blockMap (fun _ _ => rfl) buffer
  rw [g711uLawEncode_eq_outputs, hstep, Mealy.final_const, Mealy.outputs_const, hgroups]

/-- The groups `-32768, 0, 0` and `0, 0, 0` have codes of different sign at every gain. -/
theorem uLawGroup_ne {gain : ℕ} (hgain : gain ≤ 15) :
    uLawGroup gain (BitVec.intMin 16 :: List.replicate (3 - 1) 0) ≠
      uLawGroup gain (List.replicate 3 0) := by
  have hall : ∀ gain ≤ 15, uLawGroup gain (BitVec.intMin 16 :: List.replicate (3 - 1) 0) ≠
      uLawGroup gain (List.replicate 3 0) := by
    decide
  exact hall gain hgain

end PiWxRx
