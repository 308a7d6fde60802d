import PiWxRx.Audio.LinearSignal
import PiWxRx.General.Quantizer

/-!
# The companding laws as quantisers

What the decoders of `g711.c` make of the codes of the encoders. Both laws keep five significant
bits of a magnitude: a linear value comes back as the middle of its cell (`Quantizer.cellMid`).

* Mu-law biases the magnitude by `BIAS` and takes the bias off again. It is monotone, a second pass
  changes nothing, and the error is below one part in `32` of the biased magnitude up to
  `32635`, where it saturates (`uLaw_quantizes`).
* A-law shifts the magnitude of negative values by `8` and has no case for magnitudes below that:
  `-7` to `-1` come back as `-248`. Its error bound holds for all other values
  (`aLaw_error_iff`), and so does the order; a second pass changes nothing (`aLaw_quantizes`).

`pcmDecode` is applied to what `pcmEncode` writes in `decoded_uLaw`: a receiver of the packets gets
the linear signal back within that error.
-/

namespace PiWxRx

open Quantizer

/-! ## Codes -/

/-- Below `2 ^ 15`, `search` finds the number of the binade, from `2 ^ 7` on. -/
theorem search_segEnd {m : ℕ} (h : m < 2 ^ 15) : search m segEnd = Nat.log 2 m - 7 := by
  rcases Nat.eq_zero_or_pos m with rfl | hpos
  · decide
  have hlog : Nat.log 2 m < 15 := Nat.log_lt_of_lt_pow hpos.ne' h
  have hlow := Nat.pow_log_le_self 2 hpos.ne'
  have hhigh := Nat.lt_pow_succ_log_self Nat.one_lt_two m
  generalize Nat.log 2 m = k at *
  interval_cases k <;> simp only [search, segEnd, List.findIdx_cons] <;> grind

/-- From `2 ^ 15` on, no entry is large enough. -/
theorem search_segEnd_of_ge {m : ℕ} (h : 2 ^ 15 ≤ m) : search m segEnd = 8 := by
  simp only [search, segEnd, List.findIdx_cons, List.findIdx_nil]
  grind

/-- The quantisation field of a shifted magnitude. -/
theorem ofInt_and_quantMask (m k : ℕ) :
    BitVec.ofInt 8 ((m : ℤ) >>> k) &&& quantMask = BitVec.ofNat 8 (m / 2 ^ k % 16) := by
  apply BitVec.eq_of_toNat_eq
  have hshift : ((m : ℤ) >>> k) = ((m / 2 ^ k : ℕ) : ℤ) := by
    rw [← Nat.shiftRight_eq_div_pow]
    rfl
  rw [hshift, BitVec.ofInt_natCast, BitVec.toNat_and, BitVec.toNat_ofNat, BitVec.toNat_ofNat]
  change _ &&& (2 ^ 4 - 1) = _
  rw [Nat.and_two_pow_sub_one_eq_mod]
  omega

/-- The cell of a magnitude from `2 ^ 7` on, by the number `s` of its binade and the four bits `q`
behind the first. -/
theorem cellMid_three_five {m : ℕ} (h : 2 ^ 7 ≤ m) :
    cellMid 3 5 m =
      (8 * (m / 2 ^ (Nat.log 2 m - 7 + 3) % 16) + 132) * 2 ^ (Nat.log 2 m - 7) := by
  have hlog := Nat.le_log_of_pow_le Nat.one_lt_two h
  obtain ⟨s, hs⟩ := Nat.exists_eq_add_of_le' hlog
  have hexp : cellExp 3 5 m = s + 3 := by
    rw [cellExp, hs]
    omega
  have hupper := div_cellExp_lt 3 5 m
  have hlower : 16 ≤ m / 2 ^ (s + 3) := by
    have hm := Nat.pow_log_le_self 2 (show m ≠ 0 by omega)
    rw [Nat.le_div_iff_mul_le (by positivity)]
    rw [hs, show s + 7 = 4 + (s + 3) by omega, Nat.pow_add] at hm
    exact hm
  rw [hexp] at hupper
  have hsplit : m / 2 ^ (s + 3) = 16 + m / 2 ^ (s + 3) % 16 := by omega
  rw [cellMid, hexp, hs, Nat.add_sub_cancel, hsplit, Nat.add_mod_left, Nat.mod_mod,
    show s + 3 - 1 = s + 2 by omega]
  ring

/-! ## Mu-law -/

/-- What mu-law makes of a magnitude. -/
def uLawMagnitude (n : ℕ) : ℕ := cellMid 3 5 (min (n + 132) 32767) - 132

/-- The code of a segment and a quantisation field decodes to the middle of the cell. -/
theorem ulaw2linear_code : ∀ seg < 8, ∀ quant < 16,
    ulaw2linear ((BitVec.ofNat 8 (seg <<< 4) ||| BitVec.ofNat 8 quant) ^^^ 0xFF) =
        (8 * quant + 132) * 2 ^ seg - 132 ∧
      ulaw2linear ((BitVec.ofNat 8 (seg <<< 4) ||| BitVec.ofNat 8 quant) ^^^ 0x7F) =
        -((8 * quant + 132) * 2 ^ seg - 132) := by
  decide

/-- The middle of the highest cell. -/
theorem cellMid_three_five_max : cellMid 3 5 32767 = 32256 := by
  have hlog : Nat.log 2 32767 = 14 := by
    rw [Nat.log_eq_iff (by decide)]
    decide
  rw [cellMid_three_five (by norm_num), hlog]
  norm_num

/-- Every cell from the bias on is above it. -/
theorem bias_le_cellMid {m : ℕ} (h : 132 ≤ m) : 132 ≤ cellMid 3 5 m := by
  have hpos := Nat.one_le_two_pow (n := Nat.log 2 m - 7)
  rw [cellMid_three_five (le_trans (by decide) h)]
  calc 132 ≤ 132 * 2 ^ (Nat.log 2 m - 7) := by omega
    _ ≤ _ := Nat.mul_le_mul_right _ (Nat.le_add_left _ _)

theorem uLawMagnitude_zero : uLawMagnitude 0 = 0 := by
  have hlog : Nat.log 2 132 = 7 := by
    rw [Nat.log_eq_iff (by decide)]
    decide
  unfold uLawMagnitude
  rw [Nat.min_eq_left (by norm_num), cellMid_three_five (by norm_num), hlog]
  norm_num

/-- Decoding a mu-law code gives the quantised value. -/
theorem ulaw2linear_linear2ulaw (v : ℤ) :
    ulaw2linear (linear2ulaw v) = signed uLawMagnitude v := by
  have hbiased : (if v < 0 then bias - v else v + bias) = ((v.natAbs + 132 : ℕ) : ℤ) := by
    simp only [bias]
    split_ifs <;> omega
  -- the sign is a bit of its own
  have hsigned : signed uLawMagnitude v =
      if v < 0 then -(uLawMagnitude v.natAbs : ℤ) else uLawMagnitude v.natAbs := by
    split_ifs with hv
    · exact signed_of_neg _ hv
    · exact signed_of_nonneg _ uLawMagnitude_zero (not_lt.mp hv)
  rw [hsigned]
  simp only [linear2ulaw, hbiased]
  rcases Nat.lt_or_ge (v.natAbs + 132) (2 ^ 15) with hm | hm
  · -- within range: segment and field of the biased magnitude
    have hseg : search ((v.natAbs + 132 : ℕ) : ℤ) segEnd < 8 := by
      have hlog := Nat.log_lt_of_lt_pow (by omega) hm
      rw [search_segEnd hm]
      omega
    have hcell : (uLawMagnitude v.natAbs : ℤ) =
        (8 * ((v.natAbs + 132) / 2 ^ (Nat.log 2 (v.natAbs + 132) - 7 + 3) % 16 : ℕ) + 132) *
          2 ^ (Nat.log 2 (v.natAbs + 132) - 7) - 132 := by
      have hbias := bias_le_cellMid (m := v.natAbs + 132) (Nat.le_add_left _ _)
      unfold uLawMagnitude
      rw [Nat.min_eq_left (by omega), Nat.cast_sub hbias, cellMid_three_five (by omega)]
      push_cast
      rfl
    rw [if_neg (Nat.not_le.mpr hseg)]
    rw [search_segEnd hm] at hseg ⊢
    obtain ⟨hpos, hneg⟩ := ulaw2linear_code _ hseg _
      (Nat.mod_lt ((v.natAbs + 132) / 2 ^ (Nat.log 2 (v.natAbs + 132) - 7 + 3)) (by decide))
    change ulaw2linear ((_ ||| (_ &&& quantMask)) ^^^ _) = _
    rw [ofInt_and_quantMask, hcell]
    split_ifs
    · exact hneg
    · exact hpos
  · -- out of range: the highest cell
    unfold uLawMagnitude
    rw [search_segEnd_of_ge hm, if_pos le_rfl, Nat.min_eq_right (by omega), cellMid_three_five_max]
    split_ifs <;> decide

theorem uLawMagnitude_mono : Monotone uLawMagnitude := by
  intro m n h
  exact Nat.sub_le_sub_right (cellMid_mono (by decide) (by omega)) _

theorem uLawMagnitude_idem (n : ℕ) : uLawMagnitude (uLawMagnitude n) = uLawMagnitude n := by
  have hbias := bias_le_cellMid (m := min (n + 132) 32767) (by omega)
  have hmax : cellMid 3 5 (min (n + 132) 32767) ≤ cellMid 3 5 32767 :=
    cellMid_mono (by decide) (Nat.min_le_right _ _)
  rw [cellMid_three_five_max] at hmax
  unfold uLawMagnitude
  rw [Nat.sub_add_cancel hbias, Nat.min_eq_left (by omega),
    cellMid_cellMid (by decide) (by decide)]

/-- Up to `32635`, where the magnitude is not clipped, the cells bound the error. -/
theorem uLaw_error {v : ℤ} (hv : v.natAbs ≤ 32635) :
    32 * (v - ulaw2linear (linear2ulaw v)).natAbs ≤ v.natAbs + 132 := by
  have hbias := bias_le_cellMid (m := v.natAbs + 132) (Nat.le_add_left _ _)
  have herror := pow_mul_dist_cellMid_le (by decide : 0 < 3) (by decide : 0 < 5)
    (v.natAbs + 132)
  rw [ulaw2linear_linear2ulaw, natAbs_sub_signed uLawMagnitude_zero]
  unfold uLawMagnitude
  rw [Nat.min_eq_left (by omega), Nat.cast_sub hbias]
  rw [max_eq_right (by omega)] at herror
  push_cast at herror ⊢
  omega

/-- From there on it is clipped. -/
theorem uLaw_saturated {v : ℤ} (hv : 32635 ≤ v.natAbs) :
    ulaw2linear (linear2ulaw v) = v.sign * 32124 := by
  rw [ulaw2linear_linear2ulaw, signed]
  unfold uLawMagnitude
  rw [Nat.min_eq_right (by omega), cellMid_three_five_max]
  norm_num

/-- **Mu-law.** Encoding and decoding is monotone, doing it again changes nothing, the error is at
most one part in `32` of the biased magnitude up to `32635`, and from there on the result is the
highest value of the sign. -/
theorem uLaw_quantizes :
    Monotone (fun v => ulaw2linear (linear2ulaw v)) ∧
      (∀ v, ulaw2linear (linear2ulaw (ulaw2linear (linear2ulaw v))) =
        ulaw2linear (linear2ulaw v)) ∧
      (∀ v : ℤ, v.natAbs ≤ 32635 →
        32 * (v - ulaw2linear (linear2ulaw v)).natAbs ≤ v.natAbs + 132) ∧
      ∀ v : ℤ, 32635 ≤ v.natAbs → ulaw2linear (linear2ulaw v) = v.sign * 32124 := by
  refine ⟨?_, fun v => ?_, fun v hv => uLaw_error hv, fun v hv => uLaw_saturated hv⟩
  · simp only [ulaw2linear_linear2ulaw]
    exact signed_mono uLawMagnitude_mono
  · simp only [ulaw2linear_linear2ulaw]
    exact signed_signed uLawMagnitude_idem v

/-! ## A-law -/

/-- What A-law makes of a magnitude. -/
def aLawMagnitude (n : ℕ) : ℕ := cellMid 4 5 (min n 32767)

/-- The middle of the cell of a segment and a quantisation field. -/
def aLawCell (seg quant : ℕ) : ℕ :=
  if seg = 0 then 16 * quant + 8 else (8 * quant + 132) * 2 ^ seg

/-- The code of a segment and a quantisation field decodes to the middle of the cell. -/
theorem alaw2linear_code : ∀ seg < 8, ∀ quant < 16,
    alaw2linear ((BitVec.ofNat 8 (seg <<< segShift) ||| BitVec.ofNat 8 quant) ^^^ 0xD5) =
        aLawCell seg quant ∧
      alaw2linear ((BitVec.ofNat 8 (seg <<< segShift) ||| BitVec.ofNat 8 quant) ^^^ 0x55) =
        -aLawCell seg quant := by
  decide

/-- The cells of A-law: those of mu-law, but for the two lowest binades. -/
theorem cellMid_four_five (m : ℕ) :
    cellMid 4 5 m = aLawCell (Nat.log 2 m - 7)
      (m / 2 ^ (if Nat.log 2 m - 7 < 2 then 4 else Nat.log 2 m - 7 + 3) % 16) := by
  rcases Nat.lt_or_ge m (2 ^ 8) with hlt | hge
  · -- the cells of least width
    have hlog : Nat.log 2 m < 8 := Nat.log_lt_of_lt_pow' (by decide) hlt
    have hexp : cellExp 4 5 m = 4 := by
      rw [cellExp]
      omega
    rw [cellMid, hexp, show Nat.log 2 m - 7 = 0 by omega, aLawCell, if_pos rfl,
      if_pos (by decide)]
    omega
  · have hlog := Nat.le_log_of_pow_le Nat.one_lt_two hge
    have hexp : cellExp 4 5 m = cellExp 3 5 m := by
      rw [cellExp, cellExp]
      omega
    have hshift : (if Nat.log 2 m - 7 < 2 then 4 else Nat.log 2 m - 7 + 3) =
        Nat.log 2 m - 7 + 3 := by
      split_ifs <;> omega
    rw [cellMid, hexp, ← cellMid, cellMid_three_five (le_trans (by decide) hge), hshift, aLawCell,
      if_neg (by omega)]

/-- The code of a value, by its magnitude as the encoder takes it. -/
theorem linear2alaw_eq {v : ℤ} {m : ℕ} {mask : CodecByte}
    (hmask : (if 0 ≤ v then 0xD5 else 0x55) = mask)
    (hm : (if 0 ≤ v then v else -v - 8) = (m : ℤ)) :
    linear2alaw v = if 2 ^ 15 ≤ m then 0x7F ^^^ mask else
      (BitVec.ofNat 8 ((Nat.log 2 m - 7) <<< segShift) ||| BitVec.ofNat 8
        (m / 2 ^ (if Nat.log 2 m - 7 < 2 then 4 else Nat.log 2 m - 7 + 3) % 16)) ^^^ mask := by
  simp only [linear2alaw, hmask, hm]
  rcases Nat.lt_or_ge m (2 ^ 15) with hlt | hge
  · have hlog := Nat.log_lt_of_lt_pow' (b := 2) (by decide) hlt
    rw [search_segEnd hlt, if_neg (Nat.not_le.mpr (show Nat.log 2 m - 7 < 8 by omega)),
      if_neg (Nat.not_le.mpr hlt)]
    split_ifs <;> rw [ofInt_and_quantMask]
  · rw [search_segEnd_of_ge hge, if_pos le_rfl, if_pos hge]

theorem cellMid_four_five_max : cellMid 4 5 32767 = 32256 := by
  have hlog : Nat.log 2 32767 = 14 := by
    rw [Nat.log_eq_iff (by decide)]
    decide
  rw [cellMid_four_five, hlog]
  decide

/-- Decoding the code of a value that is not negative. -/
theorem alaw2linear_of_nonneg {v : ℤ} (h : 0 ≤ v) :
    alaw2linear (linear2alaw v) = aLawMagnitude v.natAbs := by
  rw [linear2alaw_eq (m := v.natAbs) (if_pos h) (by rw [if_pos h]; omega)]
  unfold aLawMagnitude
  rcases Nat.lt_or_ge v.natAbs (2 ^ 15) with hlt | hge
  · have hlog := Nat.log_lt_of_lt_pow' (b := 2) (by decide) hlt
    have hseg : Nat.log 2 v.natAbs - 7 < 8 := by omega
    rw [if_neg (Nat.not_le.mpr hlt), Nat.min_eq_left (by omega), cellMid_four_five]
    exact (alaw2linear_code _ hseg _ (Nat.mod_lt _ (by decide))).1
  · rw [if_pos hge, Nat.min_eq_right (by omega), cellMid_four_five_max]
    decide

/-- Decoding the code of a negative value: the magnitude is taken `8` too small. -/
theorem alaw2linear_of_le {v : ℤ} (h : v ≤ -8) :
    alaw2linear (linear2alaw v) = -aLawMagnitude (v.natAbs - 8) := by
  rw [linear2alaw_eq (m := v.natAbs - 8) (if_neg (by omega)) (by rw [if_neg (by omega)]; omega)]
  unfold aLawMagnitude
  rcases Nat.lt_or_ge (v.natAbs - 8) (2 ^ 15) with hlt | hge
  · have hlog := Nat.log_lt_of_lt_pow' (b := 2) (by decide) hlt
    have hseg : Nat.log 2 (v.natAbs - 8) - 7 < 8 := by omega
    rw [if_neg (Nat.not_le.mpr hlt), Nat.min_eq_left (by omega), cellMid_four_five]
    exact (alaw2linear_code _ hseg _ (Nat.mod_lt _ (by decide))).2
  · rw [if_pos hge, Nat.min_eq_right (by omega), cellMid_four_five_max]
    decide

/-- Between `-7` and `-1` the magnitude is negative, and its bits give the top of the lowest
segment. -/
theorem alaw2linear_of_small {v : ℤ} (hlo : -7 ≤ v) (hhi : v ≤ -1) :
    alaw2linear (linear2alaw v) = -248 := by
  interval_cases v <;> decide

/-- The error of the quantised magnitude. -/
theorem dist_aLawMagnitude_le {m : ℕ} (h : m ≤ 32767) :
    32 * ((m : ℤ) - aLawMagnitude m).natAbs ≤ max 256 m := by
  have herror := pow_mul_dist_cellMid_le (by decide : 0 < 4) (by decide : 0 < 5) m
  unfold aLawMagnitude
  rw [Nat.min_eq_left h]
  simpa using herror

/-- **A-law.** Over the 16-bit values the error of encoding and decoding is at most one part in
`32`, and half a cell at either end of it, exactly for the values that are not `-7` to `-1`. These
come back as `-248`. -/
theorem aLaw_error_iff {v : ℤ} (hlo : -2 ^ 15 ≤ v) (hhi : v < 2 ^ 15) :
    (32 * (v - alaw2linear (linear2alaw v)).natAbs ≤ v.natAbs + 512 ↔ ¬ (-7 ≤ v ∧ v ≤ -1)) ∧
      (-7 ≤ v → v ≤ -1 → alaw2linear (linear2alaw v) = -248) := by
  refine ⟨?_, alaw2linear_of_small⟩
  rcases le_or_gt 0 v with hv | hv
  · have herror := dist_aLawMagnitude_le (m := v.natAbs) (by omega)
    rw [alaw2linear_of_nonneg hv]
    omega
  · rcases le_or_gt v (-8) with hv8 | hv8
    · have herror := dist_aLawMagnitude_le (m := v.natAbs - 8) (by omega)
      rw [alaw2linear_of_le hv8]
      omega
    · rw [alaw2linear_of_small (by omega) (by omega)]
      omega

/-- The smallest negative values are off the mark, and the value below them is not. -/
theorem aLaw_error_small :
    alaw2linear (linear2alaw (-7)) = -248 ∧
      ¬ 32 * ((-7 : ℤ) - alaw2linear (linear2alaw (-7))).natAbs ≤ (-7 : ℤ).natAbs + 512 ∧
      32 * ((-8 : ℤ) - alaw2linear (linear2alaw (-8))).natAbs ≤ (-8 : ℤ).natAbs + 512 := by
  obtain ⟨herror, hsmall⟩ := aLaw_error_iff (v := -7) (by decide) (by decide)
  exact ⟨hsmall (by decide) (by decide), fun h => herror.mp h (by decide),
    (aLaw_error_iff (by decide) (by decide)).1.mpr (by decide)⟩

theorem aLawMagnitude_mono : Monotone aLawMagnitude := by
  intro m n h
  exact cellMid_mono (by decide) (by omega)

theorem aLawMagnitude_bounds (n : ℕ) : 8 ≤ aLawMagnitude n ∧ aLawMagnitude n ≤ 32256 := by
  have hzero : cellMid 4 5 0 = 8 := by
    rw [cellMid_four_five]
    decide
  have hlow : cellMid 4 5 0 ≤ aLawMagnitude n := cellMid_mono (by decide) (Nat.zero_le _)
  have hhigh : aLawMagnitude n ≤ cellMid 4 5 32767 :=
    cellMid_mono (by decide) (Nat.min_le_right _ _)
  rw [hzero] at hlow
  rw [cellMid_four_five_max] at hhigh
  exact ⟨hlow, hhigh⟩

/-- A magnitude decoded, and one taken `8` too small again, are encoded as before. -/
theorem aLawMagnitude_sub (n : ℕ) {r : ℕ} (hr : r ≤ 8) :
    aLawMagnitude (aLawMagnitude n - r) = aLawMagnitude n := by
  have hbounds := aLawMagnitude_bounds n
  -- half of the smallest cell
  have hhalf : 2 ^ (4 - 1) ≤ 2 ^ (cellExp 4 5 (min n 32767) - 1) :=
    Nat.pow_le_pow_right (by decide) (Nat.sub_le_sub_right (Nat.le_max_left _ _) 1)
  -- the value is below the cut at `32767`, and in the lower half of its cell
  unfold aLawMagnitude at hbounds ⊢
  rw [Nat.min_eq_left (by omega)]
  exact cellMid_cellMid_sub (by decide) (by decide) _ (hr.trans hhalf)

/-- **A-law again.** A second pass changes nothing, over all integers. The order is kept by all
values but `-7` to `-1`, which fall below those they are above. From `32767` on and below `-32774`
the result is the highest value of the sign. -/
theorem aLaw_quantizes :
    (∀ v, alaw2linear (linear2alaw (alaw2linear (linear2alaw v))) =
        alaw2linear (linear2alaw v)) ∧
      MonotoneOn (fun v => alaw2linear (linear2alaw v)) {v | ¬ (-7 ≤ v ∧ v ≤ -1)} ∧
      (∀ v, -7 ≤ v → v ≤ -1 →
        alaw2linear (linear2alaw v) < alaw2linear (linear2alaw (-8))) ∧
      ∀ v, (32767 ≤ v → alaw2linear (linear2alaw v) = 32256) ∧
        (v ≤ -32775 → alaw2linear (linear2alaw v) = -32256) := by
  -- not negative, shifted by `8`, or too small for the shift
  have hcases : ∀ v : ℤ, 0 ≤ v ∨ v ≤ -8 ∨ -7 ≤ v ∧ v ≤ -1 := by omega
  refine ⟨fun v => ?_, fun v hv w hw hvw => ?_, fun v hlo hhi => ?_,
    fun v => ⟨fun h => ?_, fun h => ?_⟩⟩
  · rcases hcases v with h | h | ⟨hlo, hhi⟩
    · rw [alaw2linear_of_nonneg h, alaw2linear_of_nonneg (Int.natCast_nonneg _), Int.natAbs_natCast]
      exact congrArg Nat.cast (aLawMagnitude_sub _ (Nat.zero_le _))
    · have hbounds := aLawMagnitude_bounds (v.natAbs - 8)
      rw [alaw2linear_of_le h, alaw2linear_of_le (by omega), Int.natAbs_neg, Int.natAbs_natCast,
        aLawMagnitude_sub _ le_rfl]
    · rw [alaw2linear_of_small hlo hhi]
      decide
  · change alaw2linear (linear2alaw v) ≤ alaw2linear (linear2alaw w)
    rcases hcases v with h | h | h
    · have hmono := aLawMagnitude_mono (show v.natAbs ≤ w.natAbs by omega)
      rw [alaw2linear_of_nonneg h, alaw2linear_of_nonneg (h.trans hvw)]
      omega
    · rw [alaw2linear_of_le h]
      rcases hcases w with h' | h' | h'
      · rw [alaw2linear_of_nonneg h']
        omega
      · have hmono := aLawMagnitude_mono (show w.natAbs - 8 ≤ v.natAbs - 8 by omega)
        rw [alaw2linear_of_le h']
        omega
      · exact absurd h' hw
    · exact absurd h hv
  · rw [alaw2linear_of_small hlo hhi]
    decide
  · rw [alaw2linear_of_nonneg (by omega), aLawMagnitude, Nat.min_eq_right (by omega),
      cellMid_four_five_max]
    rfl
  · rw [alaw2linear_of_le (by omega), aLawMagnitude, Nat.min_eq_right (by omega),
      cellMid_four_five_max]
    rfl

/-! ## Buffers -/

/-- `G711uLawDecode`. -/
def g711uLawDecode (inbuf : List CodecByte) : List RtlSample :=
  inbuf.map fun code => BitVec.ofInt 16 (ulaw2linear code)

/-- `G711aLawDecode`. -/
def g711aLawDecode (inbuf : List CodecByte) : List RtlSample :=
  inbuf.map fun code => BitVec.ofInt 16 (alaw2linear code)

/-- `PCMDecode`: the samples written and the value returned. -/
def pcmDecode (inbuf : List CodecByte) (codec : ℤ) : List RtlSample × ℕ :=
  if codec = codecPcmu then
    (g711uLawDecode inbuf, inbuf.length)
  else if codec = codecPcma then
    (g711aLawDecode inbuf, inbuf.length)
  else
    ([], inbuf.length)

/-- Decoded values fit their 16-bit samples. -/
theorem toInt_decoded (code : CodecByte) :
    (BitVec.ofInt 16 (ulaw2linear code)).toInt = ulaw2linear code ∧
      (BitVec.ofInt 16 (alaw2linear code)).toInt = alaw2linear code := by
  revert code
  decide +kernel

variable {debuglevel : BitVec 32} {gain : ℕ} (state : DeemphState) (buffer : List RtlSample)

/-- **What a receiver of mu-law packets hears.** With de-emphasis off, for every buffer and every
gain up to `15`: the payload decodes to the linear signal, each value of it quantised, that is
within one part in `32` of its biased magnitude up to `32635` and the highest value of its sign
beyond. -/
theorem decoded_uLaw (hoff : debuglevel &&& debugDeemphasis = 0) (hgain : gain ≤ 15) :
    List.Forall₂
      (fun (y : ℤ) (sample : RtlSample) =>
        (y.natAbs ≤ 32635 → 32 * (y - sample.toInt).natAbs ≤ y.natAbs + 132) ∧
          (32635 ≤ y.natAbs → sample.toInt = y.sign * 32124))
      (linearSignal gain buffer)
      (pcmDecode (pcmEncode debuglevel codecPcmu gain state buffer).payload codecPcmu).1 := by
  rw [uLaw_eq state buffer hoff hgain, pcmDecode, if_pos rfl, g711uLawDecode, List.map_map,
    List.forall₂_map_right_iff, List.forall₂_same]
  intro y _
  rw [Function.comp_apply, (toInt_decoded _).1]
  exact ⟨uLaw_error, uLaw_saturated⟩

/-- A quiet and a loud group of three. -/
theorem decoded_uLaw_quiet_loud :
    List.Forall₂
      (fun (y : ℤ) (sample : RtlSample) =>
        (y.natAbs ≤ 32635 → 32 * (y - sample.toInt).natAbs ≤ y.natAbs + 132) ∧
          (32635 ≤ y.natAbs → sample.toInt = y.sign * 32124))
      (linearSignal 2 [30, 33, 36, -9000, -9000, -9000])
      (pcmDecode (pcmEncode 0 codecPcmu 2 0 [30, 33, 36, -9000, -9000, -9000]).payload
        codecPcmu).1 :=
  decoded_uLaw 0 _ (by decide) (by decide)

end PiWxRx
