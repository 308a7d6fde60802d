import PiWxRx.Audio.Codecs
import PiWxRx.General.Arith

/-!
# The linear signal behind the three outputs

The packet generator decimates the samples by three, amplifies them and then writes them out as
they are or compressed by either law. So with de-emphasis off the three codecs should differ only
in what they make of one linear signal (`linearSignal`, `SameSignal`).

The mu-law encoder always encodes that signal (`uLaw_eq`). The `stdout` writer leaves the gain
away, and the A-law encoder takes single samples for the groups of three
(`sameSignal_iff`).
-/

namespace PiWxRx

open Blocks CArith

/-- The mean of a group of three samples, truncated toward zero. -/
def groupMean (group : List RtlSample) : ℤ := (group.map BitVec.toInt).sum.tdiv 3

/-- The amplified means of the complete groups of three. -/
def linearSignal (gain : ℕ) (buffer : List RtlSample) : List ℤ :=
  (blockMap 3 groupMean buffer).map (· * 2 ^ gain)

/-- The three codecs derive their output from the linear signal. -/
structure SameSignal (debuglevel : BitVec 32) (gain : ℕ) (state : DeemphState)
    (buffer : List RtlSample) : Prop where
  /-- Without a codec the signal is written to `stdout`, within 16 bits. -/
  stdout : (pcmEncode debuglevel codecNone gain state buffer).stdout =
    (linearSignal gain buffer).map (BitVec.ofInt 16)
  uLaw : (pcmEncode debuglevel codecPcmu gain state buffer).payload =
    (linearSignal gain buffer).map linear2ulaw
  aLaw : (pcmEncode debuglevel codecPcma gain state buffer).payload =
    (linearSignal gain buffer).map linear2alaw

/-! ## Decimation and gain -/

/-- A sum of up to three 16-bit samples, divided by three, is kept. -/
theorem toInt_decimated {m : ℤ} (hlo : 3 * -2 ^ 15 ≤ m) (hhi : m < 3 * 2 ^ 15) :
    (decimated m).toInt = m.tdiv 3 := by
  rw [decimated, and_ffff, toInt_ofInt_eq_iff (by decide), Int.tdiv_eq_ediv]
  split
  · constructor <;> omega
  · rw [Int.sign_eq_one_of_pos (by decide)]
    constructor <;> omega

theorem toInt_decimated_group {group : List RtlSample} (h : group.length = 3) :
    (decimated (group.map BitVec.toInt).sum).toInt = groupMean group := by
  obtain ⟨s0, s1, s2, rfl⟩ := List.length_eq_three.mp h
  obtain ⟨h0, h0'⟩ := fits_toInt s0
  obtain ⟨h1, h1'⟩ := fits_toInt s1
  obtain ⟨h2, h2'⟩ := fits_toInt s2
  apply toInt_decimated <;> simp at * <;> omega

/-- Amplifying a sample by at most `15` bits is exact in an `int`. -/
theorem toInt_amplified (sample : RtlSample) {gain : ℕ} (hgain : gain ≤ 15) :
    (sample.signExtend 32 <<< gain).toInt = sample.toInt * 2 ^ gain := by
  have hext : (sample.signExtend 32).toInt = sample.toInt :=
    BitVec.toInt_signExtend_of_le (by decide)
  rw [toInt_shiftLeft_of_fits (by decide), hext]
  have hsample : |sample.toInt| ≤ 2 ^ 15 :=
    abs_le.mpr ⟨(fits_toInt sample).1, (fits_toInt sample).2.le⟩
  have hpow : |(2 : ℤ) ^ gain| ≤ 2 ^ 15 := by
    rw [abs_of_pos (by positivity)]
    gcongr
    exact one_le_two
  rw [hext]
  apply fits_of_abs_lt
  calc |sample.toInt * 2 ^ gain| ≤ 2 ^ 15 * 2 ^ 15 := abs_mul_le hsample hpow
    _ < 2 ^ (32 - 1) := by decide

/-! ## The three outputs -/

variable {debuglevel : BitVec 32} {gain : ℕ} (state : DeemphState) (buffer : List RtlSample)

/-- The mu-law encoder always encodes the linear signal. -/
theorem uLaw_eq (hoff : debuglevel &&& debugDeemphasis = 0) (hgain : gain ≤ 15) :
    (pcmEncode debuglevel codecPcmu gain state buffer).payload =
      (linearSignal gain buffer).map linear2ulaw := by
  have hgroups : ∀ group : List RtlSample, group.length = 3 →
      linear2ulaw (groupMean group * 2 ^ gain) = uLawGroup gain group := fun group h => by
    rw [uLawGroup, toInt_amplified _ hgain, toInt_decimated_group h]
  rw [linearSignal, List.map_map, map_blockMap (h := linear2ulaw ∘ (· * 2 ^ gain)) hgroups]
  exact congrArg Encoded.payload (g711uLawEncode_eq hoff gain state buffer)

private theorem stdioOutLoop_eq : ∀ buffer : List RtlSample,
    stdioOutLoop (buffer.length / 3) buffer = decimatedSamples buffer
  | [] => by simp [stdioOutLoop, decimatedSamples_of_lt]
  | [s0] => by simp [stdioOutLoop, decimatedSamples_of_lt]
  | [s0, s1] => by simp [stdioOutLoop, decimatedSamples_of_lt]
  | s0 :: s1 :: s2 :: buffer => by
    rw [length_div_three, decimatedSamples_cons₃, stdioOutLoop, stdioOutLoop_eq buffer]

/-- The `stdout` writer emits the means without the gain. -/
theorem stdout_eq : (pcmEncode debuglevel codecNone gain state buffer).stdout =
    (blockMap 3 groupMean buffer).map (BitVec.ofInt 16) := by
  have hgroups : ∀ group : List RtlSample, group.length = 3 →
      BitVec.ofInt 16 (groupMean group) = decimated (group.map BitVec.toInt).sum := fun _ _ => by
    rw [decimated, and_ffff, groupMean]
  rw [map_blockMap hgroups]
  exact stdioOutLoop_eq buffer

/-- What the A-law encoder makes of a sample: a third of it, amplified. -/
def aLawSample (gain : ℕ) (sample : RtlSample) : CodecByte :=
  linear2alaw (sample.toInt.tdiv 3 * 2 ^ gain)

private theorem g711aLawLoop_eq (hoff : debuglevel &&& debugDeemphasis = 0) (hgain : gain ≤ 15)
    (newlen : ℕ) (buffer : List RtlSample) :
    (g711aLawLoop debuglevel gain newlen buffer state).1 =
      (buffer.take newlen).map (aLawSample gain) := by
  induction newlen generalizing buffer with
  | zero => simp [g711aLawLoop]
  | succ newlen ih =>
    cases buffer with
    | nil => simp [g711aLawLoop]
    | cons s0 buffer =>
      obtain ⟨hlo, hhi⟩ := fits_toInt s0
      have hmean : (decimated s0.toInt).toInt = s0.toInt.tdiv 3 := by
        apply toInt_decimated <;> simp at * <;> omega
      simp only [g711aLawLoop, encodeSample_of_deemphasis_off hoff, ih buffer,
        toInt_amplified _ hgain, hmean, List.take_succ_cons, List.map_cons, aLawSample]

/-- The A-law encoder encodes the first third of the samples one by one. -/
theorem aLaw_eq (hoff : debuglevel &&& debugDeemphasis = 0) (hgain : gain ≤ 15) :
    (pcmEncode debuglevel codecPcma gain state buffer).payload =
      (buffer.take (buffer.length / 3)).map (aLawSample gain) :=
  g711aLawLoop_eq state hoff hgain _ buffer

/-- Within 16 bits the gain only leaves a zero mean alone. -/
theorem ofInt_amplified_eq_iff {m : ℤ} (hm : CArith.Fits 16 m) :
    BitVec.ofInt 16 m = BitVec.ofInt 16 (m * 2 ^ gain) ↔ gain = 0 ∨ m = 0 := by
  constructor
  · intro h
    cases gain with
    | zero => exact Or.inl rfl
    | succ k =>
      right
      -- the modulus divides `m * (2 ^ (k + 1) - 1)`, and the second factor is odd
      have hcop : IsCoprime ((2 : ℤ) ^ 16) (2 ^ (k + 1) - 1) :=
        IsCoprime.pow_left ⟨2 ^ k, -1, by ring⟩
      have hmod : m.bmod (2 ^ 16) = (m * 2 ^ (k + 1)).bmod (2 ^ 16) := by
        rw [← BitVec.toInt_ofInt, h, BitVec.toInt_ofInt]
      rw [eq_comm, Int.bmod_eq_bmod_iff_bmod_sub_eq_zero, ← Int.dvd_iff_bmod_eq_zero] at hmod
      obtain ⟨t, ht⟩ : (2 : ℤ) ^ 16 ∣ m := by
        refine hcop.dvd_of_dvd_mul_right ?_
        rw [mul_sub, mul_one]
        exact_mod_cast hmod
      obtain ⟨hlo, hhi⟩ := hm
      omega
  · rintro (rfl | rfl) <;> simp

theorem fits_of_mem_groupMeans {m : ℤ} (hm : m ∈ blockMap 3 groupMean buffer) :
    CArith.Fits 16 m := by
  rw [← map_blockMap (h := BitVec.toInt) fun _ => toInt_decimated_group] at hm
  obtain ⟨s, -, rfl⟩ := List.mem_map.mp hm
  exact fits_toInt s

/-- **One signal.** For every buffer, gain and filter state, with de-emphasis off, the three codecs
derive their output from the linear signal exactly when the signal is not amplified or zero, and
each of the first third of the samples has the A-law code of the group of the same number. -/
theorem sameSignal_iff (hoff : debuglevel &&& debugDeemphasis = 0) (hgain : gain ≤ 15) :
    SameSignal debuglevel gain state buffer ↔
      (gain = 0 ∨ ∀ m ∈ blockMap 3 groupMean buffer, m = 0) ∧
        ∀ (j : ℕ) (sample : RtlSample) (mean : ℤ), buffer[j]? = some sample →
          (blockMap 3 groupMean buffer)[j]? = some mean →
          linear2alaw (sample.toInt.tdiv 3 * 2 ^ gain) = linear2alaw (mean * 2 ^ gain) := by
  -- `stdout` has the means themselves, without the gain
  have hstdout : (pcmEncode debuglevel codecNone gain state buffer).stdout =
      (linearSignal gain buffer).map (BitVec.ofInt 16) ↔
        gain = 0 ∨ ∀ m ∈ blockMap 3 groupMean buffer, m = 0 := by
    rw [stdout_eq, linearSignal, List.map_map, List.map_inj_left]
    have hall := forall₂_congr fun m hm =>
      @ofInt_amplified_eq_iff gain m (fits_of_mem_groupMeans buffer hm)
    refine hall.trans ?_
    by_cases hg : gain = 0 <;> simp [hg]
  -- A-law has the code of sample `j` where mean `j` belongs
  have haLaw : (pcmEncode debuglevel codecPcma gain state buffer).payload =
      (linearSignal gain buffer).map linear2alaw ↔
        ∀ (j : ℕ) (sample : RtlSample) (mean : ℤ), buffer[j]? = some sample →
          (blockMap 3 groupMean buffer)[j]? = some mean →
          linear2alaw (sample.toInt.tdiv 3 * 2 ^ gain) = linear2alaw (mean * 2 ^ gain) := by
    rw [aLaw_eq state buffer hoff hgain, linearSignal, List.map_map, List.ext_getElem?_iff]
    refine forall_congr' fun j => ?_
    rw [List.getElem?_map, List.getElem?_map, List.getElem?_take]
    rcases Nat.lt_or_ge j (buffer.length / 3) with hj | hj
    · rw [if_pos hj, List.getElem?_eq_getElem (show j < buffer.length by omega),
        getElem?_blockMap 3 groupMean buffer hj]
      simp [aLawSample]
    · rw [if_neg (by omega), List.getElem?_eq_none (by simpa using hj)]
      simp
  rw [← hstdout, ← haLaw]
  exact ⟨fun h => ⟨h.stdout, h.aLaw⟩, fun h => ⟨h.1, uLaw_eq state buffer hoff hgain, h.2⟩⟩

/-- Without amplification a quiet group goes through all three codecs alike. -/
theorem sameSignal_quiet :
    (0 : BitVec 32) &&& debugDeemphasis = 0 ∧ 0 ≤ 15 ∧ SameSignal 0 0 0 [9, 9, 9] := by
  refine ⟨by decide, by decide, (sameSignal_iff 0 [9, 9, 9] (by decide) (by decide)).mpr
    ⟨Or.inl rfl, fun j sample mean hsample hmean => ?_⟩⟩
  rcases j with _ | j
  · obtain rfl : 9 = sample := Option.some.inj hsample
    obtain rfl : 9 = mean := Option.some.inj hmean
    decide
  · rw [List.getElem?_eq_none (by simp)] at hmean
    cases hmean

/-- The A-law encoder takes the first sample for the whole group. -/
theorem aLaw_first_sample :
    ¬ ∀ gain ≤ 15, ∀ buffer : List RtlSample, SameSignal 0 gain 0 buffer := by
  intro h
  exact absurd (h 0 (by decide) [0, 3000, 3000]).aLaw (by decide)

end PiWxRx
