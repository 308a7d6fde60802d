import PiWxRx.General.Overwrite
import PiWxRx.Rings.SampleRing

/-!
# The file and USB reader

`filereader.c` is a program of its own that feeds the receiver: it reads 48 kHz samples from a
file or a USB device block by block, averages consecutive pairs and writes 24 kHz samples to
`stdout`. `readUSB` of `usb.c` is its reader for the device.

The loop counter and `samplez1` start afresh with every block. A block of whole pairs is worked off
exactly (`filereaderBlock_eq`); a block that ends inside a pair drops one sample and shifts the
pairing of those after it. Reads from a file end at a pair up to the last one, but `readUSB` returns
any number of frames, so over a run the output is that of the whole stream exactly if every call
but the last returns an even number (`filereader_exact_iff`).
-/

namespace PiWxRx

open Blocks Buffer

/-- A byte of the input. -/
abbrev InputByte := BitVec 8

/-- `FILE_READ_SIZE`: the samples of a read from a file. -/
abbrev fileReadSize : ℕ := 720 * 2

/-- `USB_READ_SIZE`: the frames asked for in a read from the USB device. -/
abbrev usbReadSize : ℕ := 1024

/-- `USB_FRAME_SIZE`: the bytes of a frame. -/
abbrev usbFrameSize : ℕ := 2

/-- `mode`, as far as the loop is reached in it. -/
inductive ReadMode where
  | fileMode
  | usbModeById
  | usbModeByCard
  deriving DecidableEq, Repr

/-- `wrBufSize`, the size of the write buffer in bytes. -/
def ReadMode.wrBufSize : ReadMode → ℕ
  | .fileMode => fileReadSize
  | .usbModeById => usbReadSize
  | .usbModeByCard => usbReadSize

/-! ## The readers -/

/-- The reads from a file: full ones, and at its end a shorter one, which may be empty. -/
def freads (file : List InputByte) : List (List InputByte) :=
  if file.length < fileReadSize * 2 then [file]
  else file.take (fileReadSize * 2) :: freads (file.drop (fileReadSize * 2))
termination_by file.length
decreasing_by
  simp only [fileReadSize, List.length_drop] at *
  omega

/-- What `snd_pcm_readn` does when asked for `len` frames. -/
inductive PcmRead (len : ℕ) where
  /-- It stores these frames of two bytes and returns their number. -/
  | frames (fs : List (InputByte × InputByte)) (hlen : fs.length ≤ len)
  /-- It returns `-EPIPE`. -/
  | brokenPipe
  /-- It returns another error. -/
  | error
  deriving DecidableEq, Repr

/-- `readUSB` against the answers of the device: the bytes returned and the answers left. It calls
`snd_pcm_readn` until there is data or an error other than a broken pipe. -/
def readUSB {len : ℕ} : List (PcmRead len) → Option (List InputByte × List (PcmRead len))
  | [] => none
  | .frames fs _ :: answers =>
    if fs.length = 0 then readUSB answers
    else some (fs.flatMap fun f => [f.1, f.2], answers)
  | .brokenPipe :: answers => readUSB answers
  | .error :: answers => some ([], answers)

/-- The sequences of byte counts the reader may return before it returns zero: full reads and a
shorter last one from a file, between one frame and `USB_READ_SIZE` frames from the device. -/
def ReadMode.MayReturn : ReadMode → List ℕ → Prop
  | .fileMode, counts =>
    ∃ k m, m < fileReadSize * 2 ∧ counts = List.replicate k (fileReadSize * 2) ++ [m]
  | _, counts =>
    ∃ frames : List ℕ, (∀ n ∈ frames, 1 ≤ n ∧ n ≤ usbReadSize) ∧
      counts = frames.map (usbFrameSize * ·)

/-! ## The loop -/

/-- A sample put together from two bytes of the input. -/
def inSample (shift1 shift2 : ℕ) (b1 b2 : InputByte) : RtlSample :=
  b1.setWidth 16 <<< shift1 ||| b2.setWidth 16 <<< shift2

/-- The inner loop of `main` on the bytes left, from loop counter `i` on; `outbuf` is the position
of the pointer in the write buffer. There is no result if it runs over the end. -/
def decimateLoop (shift1 shift2 gain : ℕ) (i : ℕ) (samplez1 : ℤ) (outbuf : ℕ) :
    List InputByte → List RtlSample → Option (List RtlSample)
  | b1 :: b2 :: inbuf, writeBuf =>
    let insample := inSample shift1 shift2 b1 b2
    let decimsample := insample.toInt + samplez1
    if (i >>> 1) &&& 1 = 1 then
      if outbuf < writeBuf.length then
        decimateLoop shift1 shift2 gain (i + 2) insample.toInt (outbuf + 1) inbuf
          (writeBuf.set outbuf ((BitVec.ofInt 16 (decimsample >>> (1 : ℕ)) &&& 0xffff) <<< gain))
      else
        none
    else
      decimateLoop shift1 shift2 gain (i + 2) insample.toInt outbuf inbuf writeBuf
  | _, writeBuf => some writeBuf

/-- The body of the outer loop on the bytes of one read: the write buffer afterwards and the
samples written. -/
def filereaderBlock (shift1 shift2 gain : ℕ) (writeBuf : List RtlSample)
    (block : List InputByte) : Option (List RtlSample × List RtlSample) := do
  -- meant to "make sure we have an even number of samples", this drops an odd byte
  let bytesRead := if block.length &&& 1 = 1 then block.length - 1 else block.length
  let writeBuf ← decimateLoop shift1 shift2 gain 0 0 0 (block.take bytesRead) writeBuf
  return (writeBuf, writeBuf.take (bytesRead / 4))

/-- The samples `main` writes to `stdout` for the blocks its reader returns. It stops at the first
empty one. -/
def filereader (shift1 shift2 gain : ℕ) :
    List RtlSample → List (List InputByte) → Option (List RtlSample)
  | _, [] => some []
  | writeBuf, block :: blocks =>
    if block.length = 0 then some []
    else do
      let (writeBuf, written) ← filereaderBlock shift1 shift2 gain writeBuf block
      let rest ← filereader shift1 shift2 gain writeBuf blocks
      return written ++ rest

/-! ## One block -/

/-- What the inner loop stores for the four bytes of a pair of samples. -/
def storedFor (shift1 shift2 gain : ℕ) (quad : List InputByte) : RtlSample :=
  pairAverage (blockMap 2 (fun b => inSample shift1 shift2 (b.getD 0 0) (b.getD 1 0)) quad) <<< gain

theorem storedFor_quad (shift1 shift2 gain : ℕ) (b1 b2 b3 b4 : InputByte) :
    storedFor shift1 shift2 gain [b1, b2, b3, b4] =
      (BitVec.ofInt 16 (((inSample shift1 shift2 b3 b4).toInt +
        (inSample shift1 shift2 b1 b2).toInt) >>> (1 : ℕ)) &&& 0xffff) <<< gain := by
  rw [Int.add_comm]
  simp [storedFor, pairAverage, blockMap, List.range_succ]

/-- The first sample of a pair only becomes `samplez1`. -/
theorem decimateLoop_first {shift1 shift2 gain i : ℕ} (hi : i % 4 = 0) (z : ℤ) (outbuf : ℕ)
    (b1 b2 : InputByte) (inbuf : List InputByte) (writeBuf : List RtlSample) :
    decimateLoop shift1 shift2 gain i z outbuf (b1 :: b2 :: inbuf) writeBuf =
      decimateLoop shift1 shift2 gain (i + 2) (inSample shift1 shift2 b1 b2).toInt outbuf inbuf
        writeBuf := by
  have hpar : ¬ (i >>> 1) &&& 1 = 1 := by
    rw [Nat.and_one_is_mod, Nat.shiftRight_eq_div_pow]
    omega
  rw [decimateLoop, if_neg hpar]

/-- The second one is stored with it. -/
theorem decimateLoop_second {shift1 shift2 gain i : ℕ} (hi : i % 4 = 0) (b1 b2 b3 b4 : InputByte)
    {outbuf : ℕ} {writeBuf : List RtlSample} (h : outbuf < writeBuf.length)
    (inbuf : List InputByte) :
    decimateLoop shift1 shift2 gain (i + 2) (inSample shift1 shift2 b1 b2).toInt outbuf
        (b3 :: b4 :: inbuf) writeBuf =
      decimateLoop shift1 shift2 gain (i + 4) (inSample shift1 shift2 b3 b4).toInt (outbuf + 1)
        inbuf (writeBuf.set outbuf (storedFor shift1 shift2 gain [b1, b2, b3, b4])) := by
  have hpar : ((i + 2) >>> 1) &&& 1 = 1 := by
    rw [Nat.and_one_is_mod, Nat.shiftRight_eq_div_pow]
    omega
  rw [decimateLoop, if_pos hpar, if_pos h, storedFor_quad]

/-- From a pair on, the inner loop stores one sample after the other for the pairs of the bytes
left. -/
theorem decimateLoop_eq {shift1 shift2 gain i : ℕ} (hi : i % 4 = 0) (z : ℤ) {outbuf : ℕ} :
    ∀ {inbuf : List InputByte} {writeBuf : List RtlSample},
      outbuf + inbuf.length / 4 ≤ writeBuf.length →
      decimateLoop shift1 shift2 gain i z outbuf inbuf writeBuf =
        some (overwrite writeBuf outbuf (blockMap 4 (storedFor shift1 shift2 gain) inbuf))
  | [], _, _ => by simp [decimateLoop, blockMap_of_lt]
  | [_], _, _ => by simp [decimateLoop, blockMap_of_lt]
  | [b1, b2], writeBuf, _ => by
    rw [decimateLoop_first hi]
    simp [decimateLoop, blockMap_of_lt]
  | [b1, b2, b3], writeBuf, _ => by
    rw [decimateLoop_first hi]
    simp [decimateLoop, blockMap_of_lt]
  | b1 :: b2 :: b3 :: b4 :: inbuf, writeBuf, hlen => by
    have hstep : outbuf + 1 + inbuf.length / 4 ≤ writeBuf.length := by
      simp only [List.length_cons] at hlen
      omega
    have hquad : blockMap 4 (storedFor shift1 shift2 gain) (b1 :: b2 :: b3 :: b4 :: inbuf) =
        storedFor shift1 shift2 gain [b1, b2, b3, b4] ::
          blockMap 4 (storedFor shift1 shift2 gain) inbuf :=
      blockMap_cons (Nat.succ_pos 3) _ (b := [b1, b2, b3, b4]) rfl inbuf
    rw [decimateLoop_first hi, decimateLoop_second hi b1 b2 b3 b4 (by omega),
      decimateLoop_eq (by omega) _ (by rwa [List.length_set]), hquad, overwrite_cons (by omega)]

/-- A read that fits the write buffer is worked off pair by pair; an odd byte at its end does not
matter. -/
theorem filereaderBlock_eq (shift1 shift2 gain : ℕ) {writeBuf : List RtlSample}
    {block : List InputByte} (h : block.length / 4 ≤ writeBuf.length) :
    filereaderBlock shift1 shift2 gain writeBuf block =
      some (overwrite writeBuf 0 (blockMap 4 (storedFor shift1 shift2 gain) block),
        blockMap 4 (storedFor shift1 shift2 gain) block) := by
  have heven : (if block.length &&& 1 = 1 then block.length - 1 else block.length) =
      block.length - block.length % 2 := by
    rw [Nat.and_one_is_mod]
    split_ifs <;> omega
  set bytesRead := block.length - block.length % 2 with hbytes
  have hlen : (block.take bytesRead).length = bytesRead := by
    rw [List.length_take]
    omega
  have hquads : blockMap 4 (storedFor shift1 shift2 gain) (block.take bytesRead) =
      blockMap 4 (storedFor shift1 shift2 gain) block := by
    conv_rhs => rw [← List.take_append_drop bytesRead block]
    rw [blockMap_append_of_div_eq]
    rw [hlen, List.length_drop]
    omega
  have hcount : bytesRead / 4 = (blockMap 4 (storedFor shift1 shift2 gain) block).length := by
    rw [length_blockMap]
    omega
  simp only [filereaderBlock, heven]
  rw [decimateLoop_eq (by decide) 0 (by rw [hlen]; omega), hquads, hcount]
  simp only [Option.bind_eq_bind, Option.bind_some, take_overwrite_zero]
  rfl

/-! ## The whole run -/

/-- Over a run the reads are worked off one after the other, the write buffer being used again for
each. Only the last read may be empty. -/
theorem filereader_eq (shift1 shift2 gain : ℕ) {writeBuf : List RtlSample}
    {blocks : List (List InputByte)} (hfit : ∀ b ∈ blocks, b.length / 4 ≤ writeBuf.length)
    (hne : ∀ b ∈ blocks.dropLast, b ≠ []) :
    filereader shift1 shift2 gain writeBuf blocks =
      some (blocks.flatMap (blockMap 4 (storedFor shift1 shift2 gain))) := by
  induction blocks generalizing writeBuf with
  | nil => rfl
  | cons block blocks ih =>
    rw [List.forall_mem_cons] at hfit
    rw [filereader, List.flatMap_cons]
    split_ifs with hempty
    · -- an empty block is the last one
      rw [List.length_eq_zero_iff] at hempty
      cases blocks with
      | nil => simp [hempty, blockMap_of_lt]
      | cons b bs => exact absurd hempty (hne block (by simp))
    · have hlen := @length_overwrite _ writeBuf 0
        (blockMap 4 (storedFor shift1 shift2 gain) block) (by rw [length_blockMap]; omega)
      rw [filereaderBlock_eq shift1 shift2 gain hfit.1]
      simp only [Option.bind_eq_bind, Option.bind_some]
      rw [ih (by rw [hlen]; exact hfit.2) fun b hb => hne b (by
        cases blocks with
        | nil => simp at hb
        | cons c cs => exact List.mem_cons_of_mem _ hb)]
      rfl

/-! ## The output against the whole stream -/

/-- The byte order of the input, chosen by `-b` or `-l`. -/
inductive ByteOrder where
  | big
  | little
  deriving DecidableEq, Repr

/-- `shift1`. -/
def ByteOrder.shift1 : ByteOrder → ℕ
  | .big => 8
  | .little => 0

/-- `shift2`. -/
def ByteOrder.shift2 : ByteOrder → ℕ
  | .big => 0
  | .little => 8

/-- The sample two bytes stand for. -/
def ByteOrder.sample : ByteOrder → List InputByte → RtlSample
  | .big, pair => pair.getD 0 0 ++ pair.getD 1 0
  | .little, pair => pair.getD 1 0 ++ pair.getD 0 0

/-- A high and a low byte. -/
private theorem shiftLeft_or (hi lo : InputByte) :
    hi.setWidth 16 <<< 8 ||| lo.setWidth 16 = hi ++ lo := by
  grind

theorem inSample_eq (order : ByteOrder) (b1 b2 : InputByte) :
    inSample order.shift1 order.shift2 b1 b2 = order.sample [b1, b2] := by
  cases order with
  | big =>
    rw [inSample, ByteOrder.shift1, ByteOrder.shift2, BitVec.shiftLeft_zero, shiftLeft_or]
    rfl
  | little =>
    rw [inSample, ByteOrder.shift1, ByteOrder.shift2, BitVec.shiftLeft_zero, BitVec.or_comm,
      shiftLeft_or]
    rfl

/-- The samples written for the blocks are the averages, rounded down, of the consecutive pairs of
samples in the whole input. -/
def DecimatesStream (order : ByteOrder) (writeBuf : List RtlSample)
    (blocks : List (List InputByte)) : Prop :=
  ∃ out, filereader order.shift1 order.shift2 0 writeBuf blocks = some out ∧
    out.map BitVec.toInt = blockMap 2 floorAverage (blockMap 2 order.sample blocks.flatten)

/-- The average of the pair of samples in four bytes. -/
def quadAverage (order : ByteOrder) (quad : List InputByte) : RtlSample :=
  pairAverage (blockMap 2 order.sample quad)

theorem storedFor_eq (order : ByteOrder) :
    storedFor order.shift1 order.shift2 0 = quadAverage order := by
  have hpair : (fun b : List InputByte =>
      inSample order.shift1 order.shift2 (b.getD 0 0) (b.getD 1 0)) = order.sample := by
    ext b : 1
    rw [inSample_eq]
    cases order <;> rfl
  ext quad : 1
  unfold storedFor quadAverage
  rw [hpair, BitVec.shiftLeft_zero]

/-- The output is that of the whole stream exactly if the cuts do not matter. -/
theorem decimatesStream_iff_of_fits {order : ByteOrder} {writeBuf : List RtlSample}
    {blocks : List (List InputByte)} (hfit : ∀ b ∈ blocks, b.length / 4 ≤ writeBuf.length)
    (hne : ∀ b ∈ blocks.dropLast, b ≠ []) :
    DecimatesStream order writeBuf blocks ↔
      blocks.flatMap (blockMap 4 (quadAverage order)) =
        blockMap 4 (quadAverage order) blocks.flatten := by
  have hspec : blockMap 2 floorAverage (blockMap 2 order.sample blocks.flatten) =
      (blockMap 4 (quadAverage order) blocks.flatten).map BitVec.toInt := by
    rw [← map_toInt_blockMap, blockMap_blockMap Nat.two_pos Nat.two_pos]
    rfl
  rw [DecimatesStream, filereader_eq _ _ _ hfit hne, storedFor_eq, hspec]
  constructor
  · rintro ⟨out, hout, heq⟩
    rw [Option.some_inj] at hout
    rw [hout]
    apply List.map_injective_iff.mpr (fun _ _ => BitVec.toInt_inj.mp)
    exact heq
  · intro h
    exact ⟨_, rfl, congrArg _ h⟩

/-! ## What the readers return -/

theorem ReadMode.MayReturn.frames {mode : ReadMode} {counts : List ℕ} (h : mode.MayReturn counts)
    (hmode : mode ≠ .fileMode) :
    mode.wrBufSize = usbReadSize ∧ ∃ frames : List ℕ,
      (∀ n ∈ frames, 1 ≤ n ∧ n ≤ usbReadSize) ∧ counts = frames.map (usbFrameSize * ·) := by
  cases mode with
  | fileMode => exact absurd rfl hmode
  | usbModeById => exact ⟨rfl, h⟩
  | usbModeByCard => exact ⟨rfl, h⟩

/-- The read buffer is twice the size of the write buffer, and no read exceeds it. -/
theorem ReadMode.MayReturn.fits {mode : ReadMode} {counts : List ℕ} (h : mode.MayReturn counts) :
    ∀ n ∈ counts, n ≤ 2 * mode.wrBufSize := by
  by_cases hmode : mode = .fileMode
  · subst hmode
    obtain ⟨k, m, hm, rfl⟩ := h
    intro n hn
    rw [List.mem_append, List.mem_singleton] at hn
    rw [ReadMode.wrBufSize, Nat.mul_comm]
    rcases hn with hn | rfl
    · exact (List.eq_of_mem_replicate hn).le
    · exact hm.le
  · obtain ⟨hsize, frames, hframes, rfl⟩ := h.frames hmode
    rw [hsize, List.forall_mem_map]
    intro n hn
    exact Nat.mul_le_mul_left _ (hframes n hn).2

/-- Only the last read may be empty. -/
theorem ReadMode.MayReturn.pos {mode : ReadMode} {counts : List ℕ} (h : mode.MayReturn counts) :
    ∀ n ∈ counts.dropLast, 0 < n := by
  by_cases hmode : mode = .fileMode
  · subst hmode
    obtain ⟨k, m, hm, rfl⟩ := h
    intro n hn
    rw [List.dropLast_concat] at hn
    rw [List.eq_of_mem_replicate hn]
    decide
  · obtain ⟨-, frames, hframes, rfl⟩ := h.frames hmode
    intro n hn
    obtain ⟨m, hm, rfl⟩ := List.mem_map.mp (List.mem_of_mem_dropLast hn)
    exact Nat.mul_pos Nat.two_pos (hframes m hm).1

/-- The reads are aligned to pairs of samples exactly if they are those of a file, whose full reads
are whole pairs, or all but the last have an even number of frames. -/
theorem ReadMode.MayReturn.aligned_iff {mode : ReadMode} {counts : List ℕ}
    (h : mode.MayReturn counts) :
    Aligned 4 counts ↔ mode = .fileMode ∨ ∀ n ∈ counts.dropLast, 4 ∣ n := by
  by_cases hmode : mode = .fileMode
  · subst hmode
    obtain ⟨k, m, -, rfl⟩ := h
    refine iff_of_true (aligned_of_dropLast (by decide) ?_) (Or.inl rfl)
    intro n hn
    rw [List.dropLast_concat] at hn
    rw [List.eq_of_mem_replicate hn]
    decide
  · obtain ⟨-, frames, hframes, rfl⟩ := h.frames hmode
    have hfour : Aligned 4 (frames.map (usbFrameSize * ·)) ↔ Aligned 2 frames :=
      aligned_mul_iff Nat.two_pos 2 frames
    rw [hfour, aligned_two_iff fun n hn => (hframes n hn).1, ← List.map_dropLast,
      List.forall_mem_map]
    simp only [hmode, false_or]
    refine forall₂_congr fun n _ => ?_
    rw [usbFrameSize]
    omega

/-- A file is read in full blocks up to the last one. -/
theorem mayReturn_freads (file : List InputByte) :
    ReadMode.fileMode.MayReturn ((freads file).map List.length) ∧ (freads file).flatten = file := by
  induction file using freads.induct with
  | case1 file hlt =>
    rw [freads, if_pos hlt]
    exact ⟨⟨0, file.length, hlt, rfl⟩, by simp⟩
  | case2 file hge ih =>
    obtain ⟨⟨k, m, hm, hlens⟩, hflat⟩ := ih
    rw [freads, if_neg hge]
    refine ⟨⟨k + 1, m, hm, ?_⟩, ?_⟩
    · rw [List.map_cons, hlens, List.length_take, Nat.min_eq_left (Nat.le_of_not_lt hge),
        List.replicate_succ, List.cons_append]
    · rw [List.flatten_cons, hflat, List.take_append_drop]

/-- `readUSB` returns between one and `USB_READ_SIZE` frames, or nothing after an error. -/
theorem mayReturn_readUSB {answers rest : List (PcmRead usbReadSize)} {block : List InputByte}
    (h : readUSB answers = some (block, rest)) :
    block = [] ∨ ReadMode.usbModeById.MayReturn [block.length] := by
  induction answers with
  | nil => cases h
  | cons answer answers ih =>
    cases answer with
    | frames fs hlen =>
      rw [readUSB] at h
      split_ifs at h with hzero
      · -- no data yet
        exact ih h
      · obtain ⟨rfl, -⟩ := Prod.mk.inj (Option.some.inj h)
        refine Or.inr ⟨[fs.length], ?_, ?_⟩
        · simpa using ⟨Nat.one_le_iff_ne_zero.mpr hzero, hlen⟩
        · simp [List.length_flatMap, Nat.mul_comm]
    | brokenPipe => exact ih h
    | error =>
      obtain ⟨rfl, -⟩ := Prod.mk.inj (Option.some.inj h)
      exact Or.inl rfl

/-! ## Block boundaries -/

/-- On the reads of a run the output is that of the whole stream exactly if the cuts do not
matter. -/
theorem ReadMode.MayReturn.decimatesStream_iff {mode : ReadMode} {order : ByteOrder}
    {writeBuf : List RtlSample} {blocks : List (List InputByte)}
    (h : mode.MayReturn (blocks.map List.length)) (hsize : 2 * writeBuf.length = mode.wrBufSize) :
    DecimatesStream order writeBuf blocks ↔
      blocks.flatMap (blockMap 4 (quadAverage order)) =
        blockMap 4 (quadAverage order) blocks.flatten := by
  refine decimatesStream_iff_of_fits (fun b hb => ?_) fun b hb => ?_
  · have hfits := h.fits b.length (List.mem_map_of_mem hb)
    omega
  · have hpos := h.pos b.length (by
      rw [← List.map_dropLast]
      exact List.mem_map_of_mem hb)
    exact List.ne_nil_of_length_pos hpos

/-- From a file the output is always that of the whole file. -/
theorem decimatesStream_freads (order : ByteOrder) (file : List InputByte)
    {writeBuf : List RtlSample} (hsize : 2 * writeBuf.length = ReadMode.fileMode.wrBufSize) :
    DecimatesStream order writeBuf (freads file) := by
  have h := (mayReturn_freads file).1
  rw [h.decimatesStream_iff hsize]
  exact flatMap_blockMap_of_aligned (by decide) _ (h.aligned_iff.mpr (Or.inl rfl))

/-- **Block boundaries.** For the byte counts a reader may return, the samples written are the
averages of the consecutive pairs of the whole input, whatever the bytes are and in either byte
order, exactly if the reader is that of a file or every read but the last has an even number of
frames. -/
theorem filereader_exact_iff (mode : ReadMode) (order : ByteOrder) (counts : List ℕ)
    (h : mode.MayReturn counts) :
    (∀ (writeBuf : List RtlSample) (blocks : List (List InputByte)),
        2 * writeBuf.length = mode.wrBufSize → blocks.map List.length = counts →
        DecimatesStream order writeBuf blocks) ↔
      mode = .fileMode ∨ ∀ n ∈ counts.dropLast, 4 ∣ n := by
  have hab : quadAverage order (2 :: List.replicate (4 - 1) 0) ≠
      quadAverage order (List.replicate 4 0) := by
    cases order <;> decide
  rw [← h.aligned_iff, ← forall_flatMap_blockMap_eq_iff (by decide) hab]
  constructor
  · rintro hall blocks rfl
    have hsize : 2 * (List.replicate (mode.wrBufSize / 2) (0 : RtlSample)).length =
        mode.wrBufSize := by
      rw [List.length_replicate]
      cases mode <;> rfl
    exact (h.decimatesStream_iff hsize).mp (hall _ blocks hsize rfl)
  · rintro hall writeBuf blocks hsize rfl
    exact (h.decimatesStream_iff hsize).mpr (hall blocks rfl)

/-- A full read from the device and one of an odd number of frames after it. -/
theorem filereader_exact_odd_last :
    ReadMode.usbModeById.MayReturn [2048, 2046] ∧
      ∀ (writeBuf : List RtlSample) (blocks : List (List InputByte)),
        2 * writeBuf.length = ReadMode.usbModeById.wrBufSize →
        blocks.map List.length = [2048, 2046] → DecimatesStream .little writeBuf blocks := by
  have h : ReadMode.usbModeById.MayReturn [2048, 2046] := ⟨[1024, 1023], by decide, rfl⟩
  exact ⟨h, (filereader_exact_iff .usbModeById .little [2048, 2046] h).mpr (Or.inr (by decide))⟩

/-- Two samples read one frame at a time are lost. -/
theorem filereader_single_frames :
    ¬ ∀ (mode : ReadMode) (order : ByteOrder) (writeBuf : List RtlSample)
        (blocks : List (List InputByte)), mode.MayReturn (blocks.map List.length) →
        2 * writeBuf.length = mode.wrBufSize → DecimatesStream order writeBuf blocks := by
  intro h
  have hsize : 2 * (List.replicate 512 (0 : RtlSample)).length =
      ReadMode.usbModeByCard.wrBufSize := by
    rw [List.length_replicate]
    rfl
  obtain ⟨out, hout, havg⟩ := h .usbModeByCard .little _ [[2, 0], [4, 0]]
    ⟨[1, 1], by decide, rfl⟩ hsize
  rw [filereader_eq _ _ _ (by rw [List.length_replicate]; decide) (by decide),
    Option.some_inj] at hout
  -- neither read holds a pair
  have hnothing : out = [] := hout.symm
  subst hnothing
  exact absurd havg (by decide)

end PiWxRx
