import Mathlib.Data.List.SplitLengths
import PiWxRx.General.Arith
import PiWxRx.General.Blocks
import PiWxRx.General.Mealy
import PiWxRx.Rings.Protocol
import PiWxRx.Rtl

/-!
# The sample ring

`DSPDemod` of `FSKdsp.c` decimates the samples of one pipe read from 24 kHz to 12 kHz and appends
them to the ring that `dsp_threads_fn` consumes one sample at a time.

A call appends the averages of its consecutive sample pairs (`dspDemod_eq`). The pairing starts
afresh with every call, so the samples appended by several calls are those of the whole stream
exactly if no call but the last ends inside a pair (`dspDemod_cuts_iff`).
-/

namespace PiWxRx

open Blocks CArith Circular

/-- The ring of `struct dsp_threads_t`. -/
abbrev SampleRing := Ring RtlSample sampleBfrsiz

/-- The loop of `DSPDemod` over the samples read, from loop counter `i` on. `ring.wrptr` is the
local `wrptr`. The second component lists the samples stored, in order. -/
def dspDemodLoop (ring : SampleRing) (i : ℕ) (samplez1 : ℤ) :
    List RtlSample → SampleRing × List RtlSample
  | [] => (ring, [])
  | x :: xs =>
    let sample := x.toInt
    let sum := sample + samplez1
    if i &&& 1 = 1 then
      -- the sample at an odd position closes a pair
      let stored := BitVec.ofInt 16 (sum >>> (1 : ℕ)) &&& 0xffff
      let (ring, rest) := dspDemodLoop
        { ring with
          buffer := ring.buffer.setIfInBounds ring.wrptr stored
          wrptr := (ring.wrptr + 1) &&& (sampleBfrsiz - 1) }
        (i + 1) sample xs
      (ring, stored :: rest)
    else
      dspDemodLoop ring (i + 1) sample xs

/-- The critical section of `DSPDemod` on the samples read from the pipe. -/
def dspDemod (ring : SampleRing) (samples : List RtlSample) : SampleRing × List RtlSample :=
  dspDemodLoop ring 0 0 samples

/-- The first lines of an iteration of `dsp_threads_fn`, past the critical section. -/
def dspTake (ring : SampleRing) : Option RtlSample × SampleRing :=
  (ring.buffer[ring.rdptr]?, { ring with rdptr := (ring.rdptr + 1) &&& (sampleBfrsiz - 1) })

/-- The operations of the sample ring. -/
def sampleRingOps : RingOps (List RtlSample) RtlSample sampleBfrsiz where
  produce := dspDemod
  consume := dspTake

/-- The samples appended by successive calls of `DSPDemod`. -/
def samplesAppended (ring : SampleRing) (reads : List (List RtlSample)) : List RtlSample :=
  (Mealy.outputs dspDemod ring reads).flatten

/-! ## One call -/

/-- What `DSPDemod` stores for a pair of samples. -/
def pairAverage (pair : List RtlSample) : RtlSample :=
  BitVec.ofInt 16 ((pair.map BitVec.toInt).sum >>> (1 : ℕ)) &&& 0xffff

/-- The average of a pair of samples in unbounded integers, rounded down. -/
def floorAverage (pair : List RtlSample) : ℤ := (pair.map BitVec.toInt).sum / 2

private theorem and_sampleBfrsiz_sub_one (i : ℕ) :
    i &&& (sampleBfrsiz - 1) = i % sampleBfrsiz :=
  Nat.and_two_pow_sub_one_eq_mod i 12

/-- At an even loop counter the loop works off one pair after another. -/
private theorem dspDemodLoop_even (ring : SampleRing) {i : ℕ} (hi : i % 2 = 0) (z : ℤ) :
    ∀ xs : List RtlSample, dspDemodLoop ring i z xs =
      (ring.putAll (blockMap 2 pairAverage xs), blockMap 2 pairAverage xs)
  | [] => by simp [dspDemodLoop, blockMap_of_lt]
  | [x] => by simp [dspDemodLoop, hi, blockMap_of_lt]
  | x :: y :: xs => by
    -- `x` only becomes `samplez1`, `y` is stored with it
    have hi1 : ¬ i &&& 1 = 1 := by rw [Nat.and_one_is_mod]; omega
    have hi2 : (i + 1) &&& 1 = 1 := by rw [Nat.and_one_is_mod]; omega
    have hpair : pairAverage [x, y] =
        BitVec.ofInt 16 ((y.toInt + x.toInt) >>> (1 : ℕ)) &&& 0xffff := by
      simp [pairAverage, Int.add_comm]
    have hblock := blockMap_cons (g := 2) (by decide) pairAverage (b := [x, y]) rfl xs
    rw [List.cons_append, List.cons_append, List.nil_append, hpair] at hblock
    rw [hblock]
    simp only [dspDemodLoop, hi1, hi2, ↓reduceIte]
    rw [dspDemodLoop_even _ (by omega) _ xs, and_sampleBfrsiz_sub_one, Ring.putAll_cons]
    rfl

/-- A call appends the averages of its complete pairs. -/
theorem dspDemod_eq (ring : SampleRing) (samples : List RtlSample) :
    dspDemod ring samples =
      (ring.putAll (blockMap 2 pairAverage samples), blockMap 2 pairAverage samples) :=
  dspDemodLoop_even ring rfl 0 samples

theorem dspTake_eq (ring : SampleRing) :
    dspTake ring = (ring.buffer[ring.rdptr]?, ring.drop) := by
  rw [dspTake, and_sampleBfrsiz_sub_one]
  rfl

/-- The sample ring is a circular buffer; a call stores one sample for each complete pair. -/
theorem sampleRingOps_lawful : sampleRingOps.Lawful (blockMap 2 pairAverage) where
  produce_eq := dspDemod_eq
  consume_eq := dspTake_eq

/-- The stored sample is the exact average: a pair of 16-bit samples cannot overflow it. -/
theorem toInt_pairAverage (pair : List RtlSample) (h : pair.length = 2) :
    (pairAverage pair).toInt = floorAverage pair := by
  obtain ⟨x, y, rfl⟩ := List.length_eq_two.mp h
  -- half the sum of two 16-bit values is one
  obtain ⟨hx, hx'⟩ := fits_toInt x
  obtain ⟨hy, hy'⟩ := fits_toInt y
  have hsum : ([x, y].map BitVec.toInt).sum = x.toInt + y.toInt := by simp
  rw [pairAverage, and_ffff, floorAverage, hsum, shiftRight_eq_ediv, pow_one,
    toInt_ofInt_eq_iff (by decide)]
  constructor <;> omega

theorem map_toInt_blockMap (samples : List RtlSample) :
    (blockMap 2 pairAverage samples).map BitVec.toInt = blockMap 2 floorAverage samples :=
  map_blockMap toInt_pairAverage samples

/-! ## Successive calls -/

theorem samplesAppended_eq (ring : SampleRing) (reads : List (List RtlSample)) :
    samplesAppended ring reads = reads.flatMap (blockMap 2 pairAverage) := by
  induction reads generalizing ring with
  | nil => rfl
  | cons xs reads ih =>
    rw [samplesAppended, Mealy.outputs_cons, List.flatten_cons, ← samplesAppended, ih,
      dspDemod_eq, List.flatMap_cons]

/-- The samples appended are the averages of the whole stream exactly if each call is given
whole pairs. -/
theorem map_toInt_samplesAppended_iff (ring : SampleRing) (reads : List (List RtlSample)) :
    (samplesAppended ring reads).map BitVec.toInt = blockMap 2 floorAverage reads.flatten ↔
      reads.flatMap (blockMap 2 pairAverage) = blockMap 2 pairAverage reads.flatten := by
  rw [samplesAppended_eq, ← map_toInt_blockMap]
  exact (List.map_injective_iff.mpr fun _ _ => BitVec.toInt_inj.mp).eq_iff

/-- Two ways of cutting streams into calls append the same samples, those of the whole stream,
whatever the samples are, exactly if no call of either ends inside a pair of the stream. -/
theorem dspDemod_cuts_iff (lens lens' : List ℕ) (hsum : lens.sum = lens'.sum) :
    (∀ (ring ring' : SampleRing) (reads reads' : List (List RtlSample)),
        reads.map List.length = lens → reads'.map List.length = lens' →
        reads.flatten = reads'.flatten →
        samplesAppended ring reads = samplesAppended ring' reads' ∧
        (samplesAppended ring reads).map BitVec.toInt = blockMap 2 floorAverage reads.flatten) ↔
      Aligned 2 lens ∧ Aligned 2 lens' := by
  -- a sample alone at the end of a read is lost: its pair would show it
  have hab : pairAverage (2 :: List.replicate (2 - 1) 0) ≠ pairAverage (List.replicate 2 0) := by
    decide
  rw [← forall_flatMap_blockMap_eq_iff (by decide) hab lens,
    ← forall_flatMap_blockMap_eq_iff (by decide) hab lens']
  let ring : SampleRing := { buffer := Vector.replicate sampleBfrsiz 0, wrptr := 0, rdptr := 0 }
  constructor
  · intro h
    refine ⟨fun reads hlens => ?_, fun reads' hlens' => ?_⟩
    · -- against the same stream cut the other way
      have hlen : reads.flatten.length = lens'.sum := by rw [List.length_flatten, hlens, hsum]
      exact (map_toInt_samplesAppended_iff ring reads).mp (h ring ring reads _ hlens
        (List.map_splitLengths_length _ _ hlen.ge)
        (List.flatten_splitLengths _ _ hlen.le).symm).2
    · have hlen : reads'.flatten.length = lens.sum := by rw [List.length_flatten, hlens', hsum]
      have hflat := List.flatten_splitLengths _ _ hlen.le
      obtain ⟨heq, havg⟩ := h ring ring (lens.splitLengths reads'.flatten) reads'
        (List.map_splitLengths_length _ _ hlen.ge) hlens' hflat
      rw [heq, hflat] at havg
      exact (map_toInt_samplesAppended_iff ring reads').mp havg
  · rintro ⟨h, h'⟩ r r' reads reads' hlens hlens' hflat
    refine ⟨?_, (map_toInt_samplesAppended_iff r reads).mpr (h reads hlens)⟩
    rw [samplesAppended_eq, samplesAppended_eq, h reads hlens, h' reads' hlens', hflat]

/-- Reads of an even number of samples are aligned. -/
theorem dspDemod_cuts_even_reads :
    [720, 512].sum = [512, 720].sum ∧
      (∀ (ring ring' : SampleRing) (reads reads' : List (List RtlSample)),
        reads.map List.length = [720, 512] → reads'.map List.length = [512, 720] →
        reads.flatten = reads'.flatten →
        samplesAppended ring reads = samplesAppended ring' reads' ∧
        (samplesAppended ring reads).map BitVec.toInt =
          blockMap 2 floorAverage reads.flatten) := by
  refine ⟨rfl, (dspDemod_cuts_iff [720, 512] [512, 720] rfl).mpr ⟨?_, ?_⟩⟩
  · simp [aligned_cons, aligned_nil]
  · simp [aligned_cons, aligned_nil]

/-- Two samples read one at a time are lost. -/
theorem dspDemod_short_reads :
    ¬ ∀ (ring ring' : SampleRing) (reads reads' : List (List RtlSample)),
        (∀ r ∈ reads ++ reads', 0 < r.length ∧ r.length ≤ 720) →
        reads.flatten = reads'.flatten →
        samplesAppended ring reads = samplesAppended ring' reads' ∧
        (samplesAppended ring reads).map BitVec.toInt =
          blockMap 2 floorAverage reads.flatten := by
  intro h
  let ring : SampleRing := { buffer := Vector.replicate sampleBfrsiz 0, wrptr := 0, rdptr := 0 }
  have hlost := (h ring ring [[2], [0]] [[2, 0]] (by decide) rfl).1
  rw [samplesAppended_eq, samplesAppended_eq] at hlost
  exact absurd hlost (by decide)

end PiWxRx
