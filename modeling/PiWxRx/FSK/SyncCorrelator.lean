import PiWxRx.Rtl
import PiWxRx.General.DelayLine

/-!
# The sync correlator

`SyncCorrelator` of `demod.c`: a shift register of `CORR_LENGTH = 368` demodulated bits with
sixteen taps `BIT_DIVISOR = 23` bits apart, compared with two sync bytes.

The register is described by the history of the bits fed to it (`DelayLine.Holds`). In terms of
that history a call answers `TRUE` exactly when `TapsMatch` holds (`syncCorrelator_eq_true_iff`).
-/

namespace PiWxRx

/-- `N_CORR_BITS`: the number of taps. -/
abbrev nCorrBits : ℕ := bitsPerByte * 2

/-- `CORR_LENGTH`: the number of cells of the correlator. -/
abbrev corrLength : ℕ := bitDivisor * nCorrBits

/-- `correlator`: the demodulated bits, newest at index `0`. -/
abbrev Correlator := Vector DataBit corrLength

/-- `sync_bits`: the expected bits, latest first. -/
def syncBits : Vector DataBit nCorrBits :=
  #v[true, false, true, false, true, false, true, true,
     true, false, true, false, true, false, true, true]

/-- The all-zero correlator of program start. -/
def Correlator.zero : Correlator := Vector.replicate corrLength false

/-- The shift loop of `SyncCorrelator` followed by `correlator[0] = databit`. -/
def Correlator.push (correlator : Correlator) (databit : DataBit) : Correlator :=
  (DelayLine.shiftFrom correlator (corrLength - 1) (by decide)).set 0 databit

private theorem tap_lt {i : ℕ} (hi : i < nCorrBits) : i * bitDivisor < corrLength := by
  rw [corrLength, Nat.mul_comm]
  exact Nat.mul_lt_mul_of_pos_left hi (by decide)

/-- The comparison loop of `SyncCorrelator`: `correlator[i * BIT_DIVISOR] == sync_bits[i]` for
every `i < N_CORR_BITS`. -/
def Correlator.compareTaps (correlator : Correlator) : Bool :=
  (List.finRange nCorrBits).all fun i =>
    have hi : i.val * bitDivisor < corrLength := tap_lt i.isLt
    correlator[i.val * bitDivisor] == syncBits[i]

/-- `SyncCorrelator`: shift the bit in, then compare the taps. -/
def syncCorrelator (correlator : Correlator) (databit : DataBit) : Bool × Correlator :=
  let correlator := correlator.push databit
  (correlator.compareTaps, correlator)

@[simp] theorem syncCorrelator_fst (correlator : Correlator) (databit : DataBit) :
    (syncCorrelator correlator databit).1 = (correlator.push databit).compareTaps := rfl

/-! ## The correlator in terms of the bits fed to it -/

/-- The correlator holds the bits of `hist`, newest first, and zeros before them. -/
abbrev Correlator.Holds (correlator : Correlator) (hist : List DataBit) : Prop :=
  DelayLine.Holds false correlator hist

/-- The taps read off a history (newest bit first) all carry the expected bits. -/
def TapsMatch (hist : List DataBit) : Prop :=
  ∀ i (hi : i < nCorrBits), hist.getD (bitDivisor * i) false = syncBits[i]

instance (hist : List DataBit) : Decidable (TapsMatch hist) :=
  Nat.decidableBallLT _ _

theorem Correlator.holds_zero : Correlator.zero.Holds [] :=
  DelayLine.holds_replicate false

theorem Correlator.holds_push {correlator : Correlator} {hist : List DataBit}
    (h : correlator.Holds hist) (databit : DataBit) :
    (correlator.push databit).Holds (databit :: hist) :=
  DelayLine.holds_push h databit _

/-- The comparison loop decides `TapsMatch` of the history the correlator holds. -/
theorem Correlator.compareTaps_eq_true_iff {correlator : Correlator} {hist : List DataBit}
    (h : correlator.Holds hist) : correlator.compareTaps = true ↔ TapsMatch hist := by
  have htap : ∀ i (hi : i < nCorrBits) (hc : i * bitDivisor < corrLength),
      correlator[i * bitDivisor] = hist.getD (bitDivisor * i) false := by
    intro i hi hc
    rw [h _ hc, Nat.mul_comm]
  -- the loop compares the cells, `TapsMatch` the history they hold
  simp only [compareTaps, List.all_eq_true, List.mem_finRange, forall_const, beq_iff_eq]
  constructor
  · intro hall i hi
    rw [← htap i hi (tap_lt hi)]
    exact hall ⟨i, hi⟩
  · intro hall i
    rw [htap i i.isLt]
    exact hall i i.isLt

/-- A call answers `TRUE` exactly when the history ending with the new bit matches the taps. -/
theorem syncCorrelator_eq_true_iff {correlator : Correlator} {hist : List DataBit}
    (h : correlator.Holds hist) (databit : DataBit) :
    (syncCorrelator correlator databit).1 = true ↔ TapsMatch (databit :: hist) := by
  rw [syncCorrelator_fst]
  exact Correlator.compareTaps_eq_true_iff (Correlator.holds_push h databit)

/-- The newest bit of a matching history is a one. -/
theorem TapsMatch.head {databit : DataBit} {hist : List DataBit}
    (h : TapsMatch (databit :: hist)) : databit = true := by
  have h0 := h 0 (by decide)
  simpa using h0.trans (show syncBits[0] = true by decide)

/-- A matching history reaches back to the last tap: its bits alone span `345` samples. -/
theorem TapsMatch.length_lt {hist : List DataBit} (h : TapsMatch hist) :
    bitDivisor * 15 < hist.length := by
  by_contra hlen
  -- a history that does not reach the last tap leaves it zero, and the pattern has a one there
  have hlast := h 15 (by decide)
  rw [List.getD_eq_default _ _ (by omega)] at hlast
  exact absurd hlast (by decide)

/-- The bit `i` samples back in the history of a stream. -/
theorem getD_reverse_range (b : ℕ → DataBit) {n i : ℕ} (hi : i < n) :
    ((List.range n).map b).reverse.getD i false = b (n - 1 - i) := by
  rw [List.getD_eq_getElem?_getD, List.getElem?_reverse (by simpa using hi), List.getElem?_map,
    List.length_map, List.length_range, List.getElem?_range (by omega)]
  rfl

/-- A stream of ones from sample 322 on has no preamble in it. -/
theorem not_tapsMatch_of_ones {b : ℕ → DataBit} (hones : ∀ m, 322 ≤ m → b m = true) (n : ℕ) :
    ¬ TapsMatch ((List.range n).map b).reverse := by
  intro h
  have hlen := h.length_lt
  rw [List.length_reverse, List.length_map, List.length_range, bitDivisor] at hlen
  -- the second tap asks for a zero, 23 bits back
  have htap := h 1 (by decide)
  rw [getD_reverse_range b (by rw [bitDivisor]; omega), hones _ (by rw [bitDivisor]; omega)] at htap
  exact absurd htap (by decide)

end PiWxRx
