import Mathlib.Tactic

/-!
# Big-endian fields

Counters of 16 and 32 bits as bytes, most significant byte first. `be16` and `be32` read a field,
`bytes16` and `bytes32` write one, and what was read is written back (`bytes16_be16`,
`bytes32_be32`).

C code builds the bytes and the fields with shifts and masks on promoted integers. `unsignedByte`
and `lowByte` are its two masks: reading a `char` of either signedness as a value from 0 to 255, and
cutting a byte out of an `int`.
-/

namespace BigEndian

/-- The field with bytes `b0`, `b1`. -/
def be16 (b0 b1 : BitVec 8) : BitVec 16 := b0 ++ b1

/-- The field with bytes `b0`, …, `b3`. -/
def be32 (b0 b1 b2 b3 : BitVec 8) : BitVec 32 := b0 ++ b1 ++ b2 ++ b3

/-- The bytes of a 16-bit field. -/
def bytes16 (w : BitVec 16) : List (BitVec 8) := [w.extractLsb' 8 8, w.extractLsb' 0 8]

/-- The bytes of a 32-bit field. -/
def bytes32 (w : BitVec 32) : List (BitVec 8) :=
  [w.extractLsb' 24 8, w.extractLsb' 16 8, w.extractLsb' 8 8, w.extractLsb' 0 8]

theorem bytes16_be16 (b0 b1 : BitVec 8) : bytes16 (be16 b0 b1) = [b0, b1] := by
  rw [bytes16, be16, BitVec.extractLsb'_append_eq_left, BitVec.extractLsb'_append_eq_right]

theorem bytes32_be32 (b0 b1 b2 b3 : BitVec 8) : bytes32 (be32 b0 b1 b2 b3) = [b0, b1, b2, b3] := by
  have h0 : (b0 ++ b1 ++ b2 ++ b3).extractLsb' 24 8 = b0 := by
    rw [BitVec.extractLsb'_append_eq_of_le (by decide),
      BitVec.extractLsb'_append_eq_of_le (by decide)]
    exact BitVec.extractLsb'_append_eq_left
  have h1 : (b0 ++ b1 ++ b2 ++ b3).extractLsb' 16 8 = b1 := by
    rw [BitVec.extractLsb'_append_eq_of_le (by decide),
      BitVec.extractLsb'_append_eq_of_le (by decide)]
    exact BitVec.extractLsb'_append_eq_right
  have h2 : (b0 ++ b1 ++ b2 ++ b3).extractLsb' 8 8 = b2 := by
    rw [BitVec.extractLsb'_append_eq_of_le (by decide)]
    exact BitVec.extractLsb'_append_eq_right
  rw [bytes32, be32, h0, h1, h2, BitVec.extractLsb'_append_eq_right]

/-- Every field has its bytes. -/
theorem exists_be16 (w : BitVec 16) : ∃ b0 b1, w = be16 b0 b1 := by
  refine ⟨w.extractLsb' 8 8, w.extractLsb' 0 8, ?_⟩
  rw [be16, BitVec.extractLsb'_append_extractLsb'_eq_extractLsb' (by decide : 8 = 0 + 8)]
  exact BitVec.extractLsb'_eq_self.symm

theorem exists_be32 (w : BitVec 32) : ∃ b0 b1 b2 b3, w = be32 b0 b1 b2 b3 := by
  refine ⟨w.extractLsb' 24 8, w.extractLsb' 16 8, w.extractLsb' 8 8, w.extractLsb' 0 8, ?_⟩
  rw [be32, BitVec.extractLsb'_append_extractLsb'_eq_extractLsb' (by decide : 24 = 16 + 8),
    BitVec.extractLsb'_append_extractLsb'_eq_extractLsb' (by decide : 16 = 8 + 8),
    BitVec.extractLsb'_append_extractLsb'_eq_extractLsb' (by decide : 8 = 0 + 8)]
  exact BitVec.extractLsb'_eq_self.symm

/-! ## Promoted bytes -/

/-- `c & 0xff` of a signed `char`, promoted to `int`. -/
def unsignedByte (c : BitVec 8) : BitVec 32 := c.signExtend 32 &&& 0xff

/-- The byte stored for `v & 0xff`. -/
def lowByte (v : BitVec 32) : BitVec 8 := (v &&& 0xff).truncate 8

/-- The mask takes the sign back out: an unsigned `char` gives the same value. -/
theorem unsignedByte_eq (c : BitVec 8) : unsignedByte c = c.setWidth 32 := by
  have hall : ∀ c : BitVec 8, unsignedByte c = c.setWidth 32 := by decide
  exact hall c

theorem lowByte_eq (v : BitVec 32) : lowByte v = v.extractLsb' 0 8 := by
  have hmask : (0xff : BitVec 32).setWidth 8 = BitVec.allOnes 8 := rfl
  rw [lowByte, BitVec.truncate, BitVec.setWidth_and, hmask, BitVec.and_allOnes]
  exact BitVec.setWidth_eq_extractLsb' (by decide)

theorem lowByte_ushiftRight (v : BitVec 32) (k : ℕ) : lowByte (v >>> k) = v.extractLsb' k 8 := by
  rw [lowByte_eq]
  ext i hi
  simp

/-- The sign extension does not reach the second byte of a 16-bit value. -/
theorem lowByte_sshiftRight_signExtend (w : BitVec 16) :
    lowByte ((w.signExtend 32).sshiftRight 8) = w.extractLsb' 8 8 := by
  rw [lowByte_eq]
  ext i hi
  have h16 : 8 + i < 16 := by omega
  have h32 : 8 + i < 32 := by omega
  have hlt : ¬ 32 ≤ i := by omega
  rw [BitVec.getElem_extractLsb', BitVec.getElem_extractLsb', BitVec.getLsbD_sshiftRight]
  simp [h16, h32, hlt, BitVec.getElem_signExtend]

theorem lowByte_signExtend (w : BitVec 16) : lowByte (w.signExtend 32) = w.extractLsb' 0 8 := by
  rw [lowByte_eq]
  ext i hi
  have h16 : i < 16 := by omega
  have h32 : i < 32 := by omega
  simp [BitVec.getElem_signExtend, h16, h32]

/-- A 16-bit field read with shifts. -/
theorem setWidth_or_eq_be16 (b0 b1 : BitVec 8) :
    (unsignedByte b0 <<< 8 ||| unsignedByte b1).truncate 16 = be16 b0 b1 := by
  rw [unsignedByte_eq, unsignedByte_eq, be16, ← BitVec.setWidth_append_eq_shiftLeft_setWidth_or]
  simp

/-- A 32-bit field read with shifts. -/
theorem or_eq_be32 (b0 b1 b2 b3 : BitVec 8) :
    (unsignedByte b0 <<< 24 ||| unsignedByte b1 <<< 16 ||| unsignedByte b2 <<< 8 |||
      unsignedByte b3) = be32 b0 b1 b2 b3 := by
  calc unsignedByte b0 <<< 24 ||| unsignedByte b1 <<< 16 ||| unsignedByte b2 <<< 8 |||
        unsignedByte b3
      = (b0 ++ b1 ++ b2 ++ b3).setWidth 32 := by
        rw [BitVec.setWidth_append_append_append_eq_shiftLeft_setWidth_or]
        simp only [unsignedByte_eq]
    _ = be32 b0 b1 b2 b3 := BitVec.setWidth_eq _

end BigEndian
