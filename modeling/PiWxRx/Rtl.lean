import Mathlib.Tactic

/-!
# System-wide definitions

The types and constants of `rtl.h` that the modelled functions use.
-/

namespace PiWxRx

/-- `DATA_BIT`: a demodulated bit. The C type is `uint8_t`, the values are `0` and `1`. -/
abbrev DataBit := Bool

/-- `DEMOD_BYTE`: a demodulated byte. -/
abbrev DemodByte := BitVec 8

/-- `RTL_SAMPLE`: a 16-bit audio sample. -/
abbrev RtlSample := BitVec 16

/-- The mask `0xffff` on a sample does nothing. -/
theorem and_ffff (x : RtlSample) : x &&& 0xffff = x := by
  have hones : (0xffff : RtlSample) = BitVec.allOnes 16 := by decide
  rw [hones, BitVec.and_allOnes]

/-- `NO_BYTE`. -/
abbrev noByte : DemodByte := 0xED

/-- `SAMPLE_BFRSIZ`: the size of the sample buffer. -/
abbrev sampleBfrsiz : ℕ := 4096

/-- `BITSPERBYTE`: demodulated bits per byte. -/
abbrev bitsPerByte : ℕ := 8

/-- `BIT_DIVISOR`: the bit time divisor. -/
abbrev bitDivisor : ℕ := 23

/-- `SWALLOW_CTR`: the initial value of the swallow counter. -/
abbrev swallowCtrInit : ℕ := 23

/-- `SYNC_BYTE`: the preamble byte. -/
abbrev syncByte : DemodByte := 0xAB

end PiWxRx
