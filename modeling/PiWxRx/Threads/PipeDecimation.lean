import PiWxRx.General.Arith
import PiWxRx.General.Blocks
import PiWxRx.General.Overwrite
import PiWxRx.Rtl
import PiWxRx.Threads.Shutdown

/-!
# Decimation of a pipe read

`PipeDecimate` of `codecs.c` averages the samples of a pipe read pairwise, in the buffer they were
read to. The pointer `newSample` never gets ahead of `Buffer`, so the loop reads original samples
only and leaves the averages of consecutive pairs (`pipeDecimateLoop_eq`).

The loop runs `readlen` times, though, and takes two samples each time: it reads `2 * readlen`
entries of a buffer that holds `readlen` samples (`not_decimatesInPlace`), and writes as many
averages as there were samples. The averages are formed in 16 bits (`toInt_wrapAverage_iff`).
`timer_threads_fn` reads no more than `PIPE_READ_LEN` samples and so never gets to the loop
(`pipeDecimate_timer`).
-/

namespace PiWxRx

open Blocks Buffer CArith

/-- What a call of `PipeDecimate` does. -/
structure PipeDecimated where
  /-- The memory from `Buffer` on afterwards. -/
  memory : List RtlSample
  /-- The entries read, in order. -/
  reads : List ℕ
  /-- The value returned. -/
  newsamples : ℕ
  deriving DecidableEq, Repr

/-- The loop of `PipeDecimate` with `count` iterations to go; `buffer` and `newSample` are the
positions of the two pointers. There is no result if an access is out of bounds. -/
def pipeDecimateLoop : (count buffer newSample : ℕ) → List RtlSample →
    Option (List RtlSample × List ℕ)
  | 0, _, _, memory => some (memory, [])
  | count + 1, buffer, newSample, memory => do
    let dsamp ← memory[buffer]?
    let next ← memory[buffer + 1]?
    -- `dsamp` is 16 bits wide
    let dsamp := dsamp + next
    if newSample < memory.length then
      let (memory, reads) ← pipeDecimateLoop count (buffer + 2) (newSample + 1)
        (memory.set newSample (dsamp.sdiv 2))
      return (memory, buffer :: (buffer + 1) :: reads)
    else
      none

/-- `PipeDecimate` on the memory from `Buffer` on. -/
def pipeDecimate (memory : List RtlSample) (readlen decimlen : ℕ) : Option PipeDecimated :=
  if readlen ≤ decimlen then
    some { memory, reads := [], newsamples := readlen }
  else do
    let (memory, reads) ← pipeDecimateLoop readlen 0 0 memory
    return { memory, reads, newsamples := decimlen }

/-! ## The loop -/

/-- What the loop stores for a pair of samples. -/
def wrapAverage (pair : List RtlSample) : RtlSample := (pair.getD 0 0 + pair.getD 1 0).sdiv 2

/-- One iteration, as long as `newSample` is not ahead of `Buffer` and the pair is there. -/
theorem pipeDecimateLoop_succ {count buffer newSample : ℕ} {memory : List RtlSample}
    (hle : newSample ≤ buffer) (h : buffer + 1 < memory.length) :
    pipeDecimateLoop (count + 1) buffer newSample memory =
      (pipeDecimateLoop count (buffer + 2) (newSample + 1)
        (memory.set newSample (wrapAverage [memory[buffer], memory[buffer + 1]]))).map
        fun run => (run.1, buffer :: (buffer + 1) :: run.2) := by
  have havg : wrapAverage [memory[buffer], memory[buffer + 1]] =
      (memory[buffer] + memory[buffer + 1]).sdiv 2 := rfl
  have hstore : newSample < memory.length := by omega
  rw [pipeDecimateLoop, List.getElem?_eq_getElem (by omega), List.getElem?_eq_getElem h, havg]
  simp only [Option.bind_eq_bind, Option.bind_some, if_pos hstore]
  cases pipeDecimateLoop count (buffer + 2) (newSample + 1) _ <;> rfl

/-- The loop reads original samples only: it overwrites the entries from `newSample` on with the
averages of the pairs from `Buffer` on. -/
theorem pipeDecimateLoop_eq {count buffer newSample : ℕ} {memory : List RtlSample}
    (hle : newSample ≤ buffer) (hlen : buffer + 2 * count ≤ memory.length) :
    pipeDecimateLoop count buffer newSample memory =
      some (overwrite memory newSample
          (blockMap 2 wrapAverage ((memory.drop buffer).take (2 * count))),
        List.range' buffer (2 * count)) := by
  induction count generalizing buffer newSample memory with
  | zero => simp [pipeDecimateLoop, blockMap_of_lt]
  | succ count ih =>
    have h0 : buffer < memory.length := by omega
    have h1 : buffer + 1 < memory.length := by omega
    set v := wrapAverage [memory[buffer], memory[buffer + 1]] with hv
    -- the pair comes off the front of the samples
    have hpair : blockMap 2 wrapAverage ((memory.drop buffer).take (2 * (count + 1))) =
        v :: blockMap 2 wrapAverage ((memory.drop (buffer + 2)).take (2 * count)) := by
      rw [List.drop_eq_getElem_cons h0, List.drop_eq_getElem_cons h1, Nat.mul_succ]
      exact blockMap_cons Nat.two_pos wrapAverage (b := [memory[buffer], memory[buffer + 1]]) rfl _
    have hreads : List.range' buffer (2 * (count + 1)) =
        buffer :: (buffer + 1) :: List.range' (buffer + 2) (2 * count) := by
      rw [Nat.mul_succ, List.range'_succ, List.range'_succ]
    rw [pipeDecimateLoop_succ hle h1, ← hv, ih (by omega) (by rw [List.length_set]; omega),
      Option.map_some, hpair, hreads, List.drop_set_of_lt (by omega), overwrite_cons (by omega)]

/-- With fewer samples in the memory the loop runs over its end. -/
theorem pipeDecimateLoop_eq_none {count buffer newSample : ℕ} {memory : List RtlSample}
    (hle : newSample ≤ buffer) (hbuffer : buffer ≤ memory.length)
    (hlen : memory.length < buffer + 2 * count) :
    pipeDecimateLoop count buffer newSample memory = none := by
  induction count generalizing buffer newSample memory with
  | zero => omega
  | succ count ih =>
    rcases Nat.lt_or_ge (buffer + 1) memory.length with h | h
    · rw [pipeDecimateLoop_succ hle h, ih (by omega) (by rw [List.length_set]; omega)
        (by rw [List.length_set]; omega), Option.map_none]
    · -- the second sample of the pair is not there
      rw [pipeDecimateLoop, List.getElem?_eq_none h]
      cases memory[buffer]? <;> rfl

/-! ## The call -/

/-- A call with nothing to decimate leaves the buffer alone. -/
theorem pipeDecimate_of_le (memory : List RtlSample) {readlen decimlen : ℕ}
    (h : readlen ≤ decimlen) :
    pipeDecimate memory readlen decimlen = some { memory, reads := [], newsamples := readlen } :=
  if_pos h

/-- `timer_threads_fn` decimates the samples of one read to `PIPE_READ_LEN`, which is what it read
at most. -/
theorem pipeDecimate_timer (memory : List RtlSample) {samplesRead : ℕ}
    (h : samplesRead ≤ pipeReadSize) :
    pipeDecimate memory samplesRead pipeReadSize =
      some { memory, reads := [], newsamples := samplesRead } :=
  pipeDecimate_of_le memory h

/-- A call that decimates takes two samples for each of the `readlen` samples it was given. -/
theorem pipeDecimate_eq {memory : List RtlSample} {readlen decimlen : ℕ} (h : decimlen < readlen)
    (hlen : 2 * readlen ≤ memory.length) :
    pipeDecimate memory readlen decimlen =
      some { memory := overwrite memory 0 (blockMap 2 wrapAverage (memory.take (2 * readlen)))
             reads := List.range (2 * readlen)
             newsamples := decimlen } := by
  rw [pipeDecimate, if_neg (Nat.not_le.mpr h),
    pipeDecimateLoop_eq le_rfl (by rwa [Nat.zero_add])]
  simp [List.range_eq_range']

/-- If there are not as many, the call runs over the end of the memory. -/
theorem pipeDecimate_eq_none {memory : List RtlSample} {readlen decimlen : ℕ}
    (h : decimlen < readlen) (hlen : memory.length < 2 * readlen) :
    pipeDecimate memory readlen decimlen = none := by
  rw [pipeDecimate, if_neg (Nat.not_le.mpr h),
    pipeDecimateLoop_eq_none le_rfl (Nat.zero_le _) (by rwa [Nat.zero_add])]
  rfl

/-! ## The averages -/

/-- The average of a pair in unbounded integers, truncated toward zero. -/
def truncAverage (pair : List RtlSample) : ℤ := (pair.map BitVec.toInt).sum.tdiv 2

private theorem tdiv_two (v : ℤ) : v.tdiv 2 = if 0 ≤ v ∨ 2 ∣ v then v / 2 else v / 2 + 1 := by
  rw [Int.tdiv_eq_ediv, Int.sign_eq_one_of_pos (by decide)]
  split_ifs
  · exact Int.add_zero _
  · rfl

/-- Half a sample is a sample. -/
theorem toInt_sdiv_two (x : RtlSample) : (x.sdiv 2).toInt = x.toInt.tdiv 2 := by
  obtain ⟨hlo, hhi⟩ := fits_toInt x
  have hfit : CArith.Fits 16 (x.toInt.tdiv 2) := by
    rw [tdiv_two]
    constructor <;> split_ifs <;> omega
  rw [BitVec.toInt_sdiv, show (2 : RtlSample).toInt = 2 by decide, bmod_of_fits (by decide) hfit]

/-- The average stored for a pair is the average exactly if the sum fits 16 bits. -/
theorem toInt_wrapAverage_iff (x y : RtlSample) :
    (wrapAverage [x, y]).toInt = truncAverage [x, y] ↔ CArith.Fits 16 (x.toInt + y.toInt) := by
  have hstored : wrapAverage [x, y] = (x + y).sdiv 2 := rfl
  have hexact : truncAverage [x, y] = (x.toInt + y.toInt).tdiv 2 := by simp [truncAverage]
  rw [hstored, hexact, toInt_sdiv_two]
  refine ⟨fun h => ?_, fun h => by rw [toInt_add_of_fits (by decide) h]⟩
  obtain ⟨hx, hx'⟩ := fits_toInt x
  obtain ⟨hy, hy'⟩ := fits_toInt y
  -- a sum that wraps changes its sign, and so does its half
  rw [BitVec.toInt_add, tdiv_two, tdiv_two, Int.bmod_def] at h
  constructor <;> split_ifs at h <;> omega

/-- The first `decimlen` entries are right exactly if no sum wraps. The entries the loop writes
behind them do not matter: it has read the pair before it writes. -/
theorem pipeDecimate_averages_iff {memory : List RtlSample} {decimlen : ℕ} (h : 0 < decimlen)
    (hlen : 2 * (2 * decimlen) ≤ memory.length) :
    ∃ run, pipeDecimate memory (2 * decimlen) decimlen = some run ∧ run.newsamples = decimlen ∧
      ∀ j < decimlen, (run.memory[j]?.map BitVec.toInt =
          some (truncAverage ((memory.drop (2 * j)).take 2)) ↔
        CArith.Fits 16 (((memory.drop (2 * j)).take 2).map BitVec.toInt).sum) := by
  refine ⟨_, pipeDecimate_eq (by omega) hlen, rfl, fun j hj => ?_⟩
  set pair := (memory.drop (2 * j)).take 2 with hpair
  have hcount : (memory.take (2 * (2 * decimlen))).length / 2 = 2 * decimlen := by
    rw [List.length_take, Nat.min_eq_left hlen, Nat.mul_div_cancel_left _ Nat.two_pos]
  have hblock : ((memory.take (2 * (2 * decimlen))).drop (2 * j)).take 2 = pair := by
    rw [List.drop_take, List.take_take, Nat.min_eq_left (by omega)]
  rw [getElem?_overwrite_zero _ (by rw [length_blockMap, hcount]; omega),
    getElem?_blockMap _ _ _ (by rw [hcount]; omega), hblock, Option.map_some, Option.some_inj]
  obtain ⟨x, y, hxy⟩ := List.length_eq_two.mp (show pair.length = 2 by simp [hpair]; omega)
  rw [hxy, toInt_wrapAverage_iff]
  simp

/-! ## Decimating in place -/

/-- What the call has to do to two samples for each one asked for: read these samples only, return
the number asked for, and leave the averages of the original pairs in front. -/
def DecimatesInPlace (memory : List RtlSample) (decimlen : ℕ) : Prop :=
  ∃ run, pipeDecimate memory (2 * decimlen) decimlen = some run ∧
    (∀ k ∈ run.reads, k < 2 * decimlen) ∧ run.newsamples = decimlen ∧
    ∀ j < decimlen, run.memory[j]?.map BitVec.toInt =
      some (truncAverage ((memory.drop (2 * j)).take 2))

/-- Decimating two samples reads four. -/
theorem reads_two_samples :
    ¬ ∀ (decimlen : ℕ) (memory : List RtlSample), 0 < decimlen →
      2 * decimlen ≤ memory.length → DecimatesInPlace memory decimlen := by
  intro h
  obtain ⟨run, hrun, hreads, -⟩ := h 1 [2, 4, 6, 8] (by decide) (by decide)
  have hcall : pipeDecimate [2, 4, 6, 8] (2 * 1) 1 =
      some { memory := [3, 7, 6, 8], reads := [0, 1, 2, 3], newsamples := 1 } := by decide
  rw [hcall, Option.some_inj] at hrun
  subst hrun
  exact absurd (hreads 2 (by decide)) (by decide)

/-- **No call decimates in place.** Whatever the samples are and however many are asked for, the
call reads beyond the samples it was given. -/
theorem not_decimatesInPlace (memory : List RtlSample) {decimlen : ℕ} (h : 0 < decimlen) :
    ¬ DecimatesInPlace memory decimlen := by
  rintro ⟨run, hrun, hreads, -⟩
  rcases Nat.lt_or_ge memory.length (2 * (2 * decimlen)) with hlen | hlen
  · rw [pipeDecimate_eq_none (by omega) hlen] at hrun
    cases hrun
  · rw [pipeDecimate_eq (by omega) hlen, Option.some_inj] at hrun
    subst hrun
    have hlast := hreads (2 * decimlen) (List.mem_range.mpr (by omega))
    exact absurd hlast (Nat.lt_irrefl _)

/-- A full pipe read at half the rate, the buffer being as long as `RunRTL` makes it. -/
theorem not_decimatesInPlace_pipe_read :
    0 < 360 ∧ ¬ DecimatesInPlace (List.replicate 820 0) 360 :=
  ⟨by decide, not_decimatesInPlace _ (by decide)⟩

end PiWxRx
