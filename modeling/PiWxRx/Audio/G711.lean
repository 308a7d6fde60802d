import Mathlib.Tactic

/-!
# G.711 companding

The encoders and decoders of `g711.c`. A linear PCM value is an `int` of the source, read here as an
integer: the values passed in are 16-bit samples shifted to the left by at most 15, so nothing
overflows.
-/

namespace PiWxRx

/-- `CODEC_BYTE`. -/
abbrev CodecByte := BitVec 8

/-- `SIGN_BIT`: sign bit for an A-law byte. -/
abbrev signBit : CodecByte := 0x80

/-- `QUANT_MASK`: quantization field mask. -/
abbrev quantMask : CodecByte := 0xf

/-- `SEG_SHIFT`: left shift for the segment number. -/
abbrev segShift : ℕ := 4

/-- `SEG_MASK`: segment field mask. -/
abbrev segMask : CodecByte := 0x70

/-- `BIAS`: bias for the linear code. -/
abbrev bias : ℤ := 0x84

/-- `seg_end`. -/
def segEnd : List ℤ := [0xFF, 0x1FF, 0x3FF, 0x7FF, 0xFFF, 0x1FFF, 0x3FFF, 0x7FFF]

/-- `search`: the first entry of the table that is not below `val`, or the table size. -/
def search (val : ℤ) (table : List ℤ) : ℕ := table.findIdx fun entry => val ≤ entry

/-- `linear2alaw`. -/
def linear2alaw (pcmVal : ℤ) : CodecByte :=
  let mask : CodecByte := if 0 ≤ pcmVal then 0xD5 else 0x55
  let pcmVal := if 0 ≤ pcmVal then pcmVal else -pcmVal - 8
  let seg := search pcmVal segEnd
  -- out of range, return maximum value
  if 8 ≤ seg then
    0x7F ^^^ mask
  else
    let aval := BitVec.ofNat 8 (seg <<< segShift)
    let quant := if seg < 2 then pcmVal >>> (4 : ℕ) else pcmVal >>> (seg + 3)
    (aval ||| (BitVec.ofInt 8 quant &&& quantMask)) ^^^ mask

/-- `linear2ulaw`. -/
def linear2ulaw (pcmVal : ℤ) : CodecByte :=
  let mask : CodecByte := if pcmVal < 0 then 0x7F else 0xFF
  let pcmVal := if pcmVal < 0 then bias - pcmVal else pcmVal + bias
  let seg := search pcmVal segEnd
  -- out of range, return maximum value
  if 8 ≤ seg then
    0x7F ^^^ mask
  else
    let uval := BitVec.ofNat 8 (seg <<< 4) ||| (BitVec.ofInt 8 (pcmVal >>> (seg + 3)) &&& 0xF)
    uval ^^^ mask

/-- `alaw2linear`. -/
def alaw2linear (aVal : CodecByte) : ℤ :=
  let aVal := aVal ^^^ 0x55
  let t : ℤ := (aVal &&& quantMask).toNat <<< 4
  let seg := (aVal &&& segMask).toNat >>> segShift
  let t :=
    match seg with
    | 0 => t + 8
    | 1 => t + 0x108
    | _ => (t + 0x108) <<< (seg - 1)
  if aVal &&& signBit ≠ 0 then t else -t

/-- `ulaw2linear`. -/
def ulaw2linear (uVal : CodecByte) : ℤ :=
  -- complement to obtain normal u-law value
  let uVal := ~~~uVal
  let t : ℤ := (uVal &&& quantMask).toNat <<< 3 + bias
  let t := t <<< ((uVal &&& segMask).toNat >>> segShift)
  if uVal &&& signBit ≠ 0 then bias - t else t - bias

end PiWxRx
