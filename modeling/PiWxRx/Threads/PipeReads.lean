import PiWxRx.General.Blocks
import PiWxRx.General.Mealy
import PiWxRx.Threads.Shutdown

/-!
# Reads from the pipe

`ReadFromPipe` of `linux_spawn.c` reads the bytes the child process writes into the sample buffer
of the timer thread, and `timer_threads_fn` (`rtl.c`) uses as many samples of the buffer as the
call returns.

`read()` may stop at any byte. `ReadFromPipe` divides its count by the size of a sample, and the
next call writes from the start of the buffer again, so the last byte of an odd count is lost. The
samples handed over are those of the byte stream exactly if no count but the last is odd
(`samplesHanded_iff_even`).
-/

namespace PiWxRx

open Blocks

/-- A byte on the pipe. -/
abbrev PipeByte := BitVec 8

/-- `SPARE`: samples allocated beyond `PIPE_READ_SIZE`. -/
abbrev spare : ℕ := 100

/-- What one call of `read()` on the pipe does. -/
inductive PipeRead where
  /-- It stores these bytes and returns their number. -/
  | bytes (bs : List PipeByte)
  /-- It stores nothing and returns `0`, at the end of the file. -/
  | endOfFile
  /-- It stores nothing and returns `-1`. -/
  | failure

/-- `dwRead`. -/
def PipeRead.dwRead : PipeRead → ℤ
  | .bytes bs => bs.length
  | .endOfFile => 0
  | .failure => -1

/-- The sample buffer, as bytes, after `read()`. -/
def PipeRead.store (buffer : List PipeByte) : PipeRead → List PipeByte
  | .bytes bs => bs ++ buffer.drop bs.length
  | .endOfFile => buffer
  | .failure => buffer

/-- `ReadFromPipe`: the sample buffer after it and the value returned. -/
def readFromPipe (buffer : List PipeByte) (read : PipeRead) : List PipeByte × ℤ :=
  if read.dwRead ≤ 0 then (read.store buffer, read.dwRead)
  else (read.store buffer, read.dwRead / 2)

/-- The two bytes of a sample, low byte first. -/
def sampleOf (pair : List PipeByte) : RtlSample := pair.getD 1 0 ++ pair.getD 0 0

/-- The read of one iteration of `timer_threads_fn`: the buffer after it and the samples the
thread goes on with, none if `ReadFromPipe` returns no positive number. -/
def timerReadStep (buffer : List PipeByte) (read : PipeRead) : List PipeByte × List RtlSample :=
  let (buffer, samplesRead) := readFromPipe buffer read
  if 0 < samplesRead then (buffer, (blockMap 2 sampleOf buffer).take samplesRead.toNat)
  else (buffer, [])

/-- The samples handed to `timer_threads_fn` by successive calls. -/
def samplesHanded (buffer : List PipeByte) (reads : List PipeRead) : List RtlSample :=
  (Mealy.outputs timerReadStep buffer reads).flatten

/-- A read counts the complete samples of its bytes. -/
theorem readFromPipe_bytes (buffer bs : List PipeByte) :
    readFromPipe buffer (.bytes bs) = (bs ++ buffer.drop bs.length, ((bs.length / 2 : ℕ) : ℤ)) := by
  have hcount : (PipeRead.bytes bs).dwRead = bs.length := rfl
  rcases Nat.eq_zero_or_pos bs.length with hzero | hpos
  · rw [readFromPipe, if_pos (by omega), PipeRead.store, hcount, hzero]
  · rw [readFromPipe, if_neg (by omega), hcount, Int.natCast_ediv, Nat.cast_ofNat]
    rfl

/-- A call hands over the complete samples of its bytes, whatever the buffer held before. -/
theorem timerReadStep_bytes (buffer bs : List PipeByte) :
    timerReadStep buffer (.bytes bs) =
      (bs ++ buffer.drop bs.length, blockMap 2 sampleOf bs) := by
  rw [timerReadStep, readFromPipe_bytes]
  simp only [Int.toNat_natCast, take_blockMap_append]
  split
  · rfl
  · rw [blockMap_of_lt _ (by omega)]

theorem samplesHanded_eq (buffer : List PipeByte) (pieces : List (List PipeByte)) :
    samplesHanded buffer (pieces.map .bytes) = pieces.flatMap (blockMap 2 sampleOf) := by
  induction pieces generalizing buffer with
  | nil => rfl
  | cons bs pieces ih =>
    rw [samplesHanded, List.map_cons, Mealy.outputs_cons, timerReadStep_bytes, List.flatten_cons,
      ← samplesHanded, ih, List.flatMap_cons]

/-- **Alignment.** For reads of given byte counts, the samples handed over are the little-endian
decoding of the byte stream, whatever the bytes and the buffer before them are, exactly if every
count but the last is even. -/
theorem samplesHanded_iff_even (counts : List ℕ)
    (hcounts : ∀ n ∈ counts, 1 ≤ n ∧ n ≤ 2 * pipeReadSize) :
    (∀ (buffer : List PipeByte) (pieces : List (List PipeByte)),
      buffer.length = 2 * (pipeReadSize + spare) → pieces.map List.length = counts →
      samplesHanded buffer (pieces.map .bytes) = blockMap 2 sampleOf pieces.flatten) ↔
      ∀ n ∈ counts.dropLast, 2 ∣ n := by
  rw [← aligned_two_iff fun n hn => (hcounts n hn).1]
  have hab : sampleOf (1 :: List.replicate (2 - 1) 0) ≠ sampleOf (List.replicate 2 0) := by decide
  rw [← forall_flatMap_blockMap_eq_iff (by decide) hab]
  constructor
  · intro h pieces hlens
    have hbuffer := h (List.replicate _ 0) pieces (List.length_replicate ..) hlens
    rwa [samplesHanded_eq] at hbuffer
  · intro h buffer pieces _ hlens
    rw [samplesHanded_eq]
    exact h pieces hlens

/-- A full read and an odd one after it. -/
theorem samplesHanded_odd_last :
    (∀ n ∈ [1440, 721], 1 ≤ n ∧ n ≤ 2 * pipeReadSize) ∧
      ∀ (buffer : List PipeByte) (pieces : List (List PipeByte)),
        buffer.length = 2 * (pipeReadSize + spare) → pieces.map List.length = [1440, 721] →
        samplesHanded buffer (pieces.map .bytes) = blockMap 2 sampleOf pieces.flatten :=
  ⟨by decide, (samplesHanded_iff_even [1440, 721] (by decide)).mpr (by decide)⟩

/-- Two samples in two reads of three bytes and one: the first byte of the second sample is
dropped. -/
theorem samplesHanded_odd_read :
    ¬ ∀ (buffer : List PipeByte) (pieces : List (List PipeByte)),
      buffer.length = 2 * (pipeReadSize + spare) →
      (∀ bs ∈ pieces, 1 ≤ bs.length ∧ bs.length ≤ 2 * pipeReadSize) →
      samplesHanded buffer (pieces.map .bytes) = blockMap 2 sampleOf pieces.flatten := by
  intro h
  have hlost := h (List.replicate _ 0) [[1, 0, 2], [0]] (List.length_replicate ..) (by decide)
  rw [samplesHanded_eq] at hlost
  exact absurd hlost (by decide)

end PiWxRx
