import PiWxRx.FSK.Preamble

/-!
# The pattern the correlator matches

`SyncCorrelator` over a whole stream of demodulated bits. The taps run from the latest bit to the
earliest, `sync_bits` lists two sync bytes most significant bit first, and the bytes arrive least
significant bit first: the two reversals cancel (`syncBits_eq`). So a call answers `TRUE` exactly
when the bits fed `BIT_DIVISOR` calls apart up to this one spell the transmitted bytes
(`syncCorrelator_exact`).
-/

namespace PiWxRx

open DelayLine

/-- One call of `SyncCorrelator` as a step. -/
def correlatorStep (correlator : Correlator) (databit : DataBit) : Correlator × Bool :=
  (syncCorrelator correlator databit).swap

/-- The bit fed `k` calls before call `n` of a stream, zero if there was none. -/
def bitBefore (bits : List DataBit) (n k : ℕ) : DataBit :=
  past false (fun m => bits.getD m false) (n + 1) k

/-- Tap `i` expects bit `16 - i` of the two sync bytes in the order of transmission. -/
theorem syncBits_eq (i : ℕ) (hi : i < nCorrBits) :
    (bitString [syncByte, syncByte])[nCorrBits - 1 - i]? = some syncBits[i] := by
  have hall : ∀ i < nCorrBits,
      (bitString [syncByte, syncByte])[nCorrBits - 1 - i]? = syncBits[i]? := by decide
  rw [hall i hi, Vector.getElem?_eq_getElem hi]

/-- After any run from the all-zero correlator its cells hold the stream, newest bit first. -/
theorem Correlator.holds_final {correlator : Correlator} {hist : List DataBit}
    (h : correlator.Holds hist) (bits : List DataBit) :
    (Mealy.final correlatorStep correlator bits).Holds (bits.reverse ++ hist) := by
  induction bits generalizing correlator hist with
  | nil => exact h
  | cons b bits ih =>
    rw [List.reverse_cons, List.append_assoc]
    exact ih (Correlator.holds_push h b)

/-- The taps of the history up to call `n` compare the bits fed `BIT_DIVISOR` calls apart. -/
theorem tapsMatch_take_iff {bits : List DataBit} {n : ℕ} (hn : n < bits.length) :
    TapsMatch (bits.take (n + 1)).reverse ↔ ∀ i < nCorrBits,
      (bitString [syncByte, syncByte])[nCorrBits - 1 - i]? =
        some (bitBefore bits n (bitDivisor * i)) := by
  refine forall₂_congr fun i hi => ?_
  rw [syncBits_eq i hi, Option.some_inj, bitBefore, getD_reverse_take _ _ hn]
  exact eq_comm

/-- **The correlator is an exact matcher.** Fed any stream from the all-zero correlator, call `n`
answers `TRUE` exactly if for each `i < 16` the bit fed `23 * i` calls earlier is bit `16 - i` of
the two sync bytes in the order of transmission. -/
theorem syncCorrelator_exact (bits : List DataBit) (n : ℕ) :
    (Mealy.outputs correlatorStep Correlator.zero bits)[n]? = some true ↔
      n < bits.length ∧ ∀ i < nCorrBits,
        (bitString [syncByte, syncByte])[nCorrBits - 1 - i]? =
          some (bitBefore bits n (bitDivisor * i)) := by
  rw [Mealy.getElem?_outputs]
  rcases Nat.lt_or_ge n bits.length with hn | hn
  · have hholds := Correlator.holds_final Correlator.holds_zero (bits.take n)
    rw [List.append_nil] at hholds
    have hlast : bits[n] :: (bits.take n).reverse = (bits.take (n + 1)).reverse := by
      rw [← List.take_append_getElem hn, List.reverse_append, List.reverse_singleton,
        List.singleton_append]
    rw [List.getElem?_eq_getElem hn, Option.map_some, Option.some_inj, correlatorStep,
      Prod.snd_swap, syncCorrelator_eq_true_iff hholds, hlast, tapsMatch_take_iff hn]
    simp only [hn, true_and]
  · -- there is no call `n`
    simp [hn]

/-- In search, a receiver that was fed `bits` declares sync on the next one exactly if it
completes the pattern. -/
theorem insync_rxSample_iff {s : RxState} (hs : s.insync = false) {bits : List DataBit}
    (hc : s.correlator.Holds bits.reverse) (b : DataBit) :
    (rxSample s b).1.insync = true ↔ ∀ i < nCorrBits,
      (bitString [syncByte, syncByte])[nCorrBits - 1 - i]? =
        some (bitBefore (bits ++ [b]) bits.length (bitDivisor * i)) := by
  have hn : bits.length < (bits ++ [b]).length := by simp
  rw [← tapsMatch_take_iff hn, insync_rxSample, hs, Bool.false_or, syncCorrelator_eq_true_iff hc,
    List.take_of_length_le (by simp), List.reverse_append, List.reverse_singleton,
    List.singleton_append]

end PiWxRx
