import PiWxRx.Audio.Packetisation
import PiWxRx.FileReader
import PiWxRx.Rings.SampleRing
import PiWxRx.Threads.PipeDecimation
import PiWxRx.Threads.PipeReads

/-!
# The samples from the input to the ring and the network

An iteration of `timer_threads_fn` takes what `ReadFromPipe` returns through `PipeDecimate` to
`SendUDPPacket` and to `DSPDemod`. With a mu-law session going and de-emphasis off, a run of
iterations stores and sends what the reads give piece by piece (`timerRun_eq`), and this is what the
whole byte stream gives, for every stream, exactly if the byte counts of the reads are aligned to
pairs and to groups of three samples (`timerRun_iff`).

In front of the pipe is `filereader`. A file comes out of the whole path as averages of its samples
four by four in the ring, and as mu-law codes of its samples six by six on the network
(`file_to_outputs`).
-/

namespace PiWxRx

open Blocks

/-! ## The loop of the timer thread -/

/-- `PIPE_READ_LEN`. -/
abbrev pipeReadLen : ℕ := 720

/-- What the loop of `timer_threads_fn` works on. -/
structure TimerThread where
  /-- The memory at `PipeBufferPtr`, as bytes. -/
  buffer : List PipeByte
  udp : Udp
  ring : SampleRing

/-- What an iteration puts out. -/
structure TimerOutput where
  /-- Samples written to `stdout`. -/
  stdout : List RtlSample
  packet : Option UdpPacket
  /-- The samples stored in the ring. -/
  stored : List RtlSample

/-- The two bytes of a sample in memory. -/
def sampleBytes (sample : RtlSample) : List PipeByte :=
  [sample.extractLsb' 0 8, sample.extractLsb' 8 8]

/-- An iteration of `timer_threads_fn` after the wait. There is no result if an access is out of
bounds. -/
def timerIterate (debuglevel : BitVec 32) (sendingUDP : Bool) (s : TimerThread) (read : PipeRead) :
    Option (TimerThread × TimerOutput) :=
  let (buffer, samplesRead) := readFromPipe s.buffer read
  if 0 < samplesRead then do
    let decimated ← pipeDecimate (blockMap 2 sampleOf buffer) samplesRead.toNat pipeReadLen
    let buffer := decimated.memory.flatMap sampleBytes ++ buffer.drop (2 * decimated.memory.length)
    let samples := decimated.memory.take decimated.newsamples
    let (udp, out) ←
      if sendingUDP then (sendUDPPacket debuglevel s.udp samples).toOption
      else some (s.udp, { stdout := [], packet := none })
    let (ring, stored) := dspDemod s.ring samples
    return ({ buffer, udp, ring }, { stdout := out.stdout, packet := out.packet, stored })
  else
    some ({ s with buffer }, { stdout := [], packet := none, stored := [] })

/-- Successive iterations. -/
def timerRun (debuglevel : BitVec 32) (sendingUDP : Bool) (s : TimerThread) :
    List PipeRead → Option (TimerThread × List TimerOutput)
  | [] => some (s, [])
  | read :: reads => do
    let (s, out) ← timerIterate debuglevel sendingUDP s read
    let (s, outs) ← timerRun debuglevel sendingUDP s reads
    return (s, out :: outs)

/-- The packets of a run. -/
def packetsSent (outs : List TimerOutput) : List UdpPacket := outs.filterMap TimerOutput.packet

/-- The samples a run stores in the ring. -/
def samplesStored (outs : List TimerOutput) : List RtlSample := outs.flatMap TimerOutput.stored

/-! ## A run, read by read -/

/-- What the bytes of a pair of samples give in the ring. -/
def pairOfBytes (bytes : List PipeByte) : RtlSample := pairAverage (blockMap 2 sampleOf bytes)

/-- What the bytes of a group of three samples give on the network. -/
def groupOfBytes (gain : ℕ) (bytes : List PipeByte) : CodecByte :=
  uLawGroup gain (blockMap 2 sampleOf bytes)

section

variable {debuglevel : BitVec 32} (hoff : debuglevel &&& debugDeemphasis = 0)
include hoff

/-- An iteration stores and sends the complete pairs and groups of its bytes. -/
theorem timerIterate_bytes {s : TimerThread} {hdr : Vector UdpByte rtpHdrLen} {marker : Bool}
    (hs : s.udp.Session hdr marker) (hcodec : s.udp.codec = codecPcmu) {bs : List PipeByte}
    (hlen : bs.length ≤ 2 * pipeReadSize) :
    ∃ t out marker', timerIterate debuglevel true s (.bytes bs) = some (t, out) ∧
      t.udp.Session hdr marker' ∧ t.udp.codec = codecPcmu ∧ t.udp.gain = s.udp.gain ∧
      out.stored = blockMap 4 pairOfBytes bs ∧
      payloads out.packet.toList = blockMap 6 (groupOfBytes s.udp.gain) bs := by
  have hpairs : blockMap 2 pairAverage (blockMap 2 sampleOf bs) = blockMap 4 pairOfBytes bs :=
    blockMap_blockMap Nat.two_pos Nat.two_pos _ _ bs
  have hgroups : blockMap 3 (uLawGroup s.udp.gain) (blockMap 2 sampleOf bs) =
      blockMap 6 (groupOfBytes s.udp.gain) bs :=
    blockMap_blockMap (m := 3) (by decide) Nat.two_pos _ _ bs
  have hlen' : bs.length ≤ 1440 := hlen
  rcases Nat.eq_zero_or_pos (bs.length / 2) with hzero | hpos
  · -- less than one sample
    refine ⟨{ s with buffer := bs ++ s.buffer.drop bs.length },
      { stdout := [], packet := none, stored := [] }, marker, ?_, hs, hcodec, rfl,
      (blockMap_of_lt _ (by omega)).symm, (blockMap_of_lt _ (by omega)).symm⟩
    rw [timerIterate, readFromPipe_bytes, hzero]
    rfl
  · set memory := blockMap 2 sampleOf (bs ++ s.buffer.drop bs.length) with hmemory
    have hsamples : memory.take (bs.length / 2) = blockMap 2 sampleOf bs :=
      take_blockMap_append 2 sampleOf bs _
    have hroom : (blockMap 2 sampleOf bs).length ≤ 720 := by
      rw [length_blockMap]
      omega
    obtain ⟨u, out, packet, hsend, hout, hbytes, hsession, hcodec', hgain, -, -⟩ :=
      sendUDPPacket_eq debuglevel hs hroom
    have hpayload : (pcmEncode debuglevel s.udp.codec s.udp.gain s.udp.deemph
        (blockMap 2 sampleOf bs)).payload = blockMap 6 (groupOfBytes s.udp.gain) bs := by
      rw [hcodec, ← hgroups]
      exact congrArg Encoded.payload (g711uLawEncode_eq hoff _ _ _)
    -- no more samples than `PipeDecimate` is asked for: it passes them on
    have hdecimated : pipeDecimate memory (bs.length / 2) pipeReadLen =
        some { memory, reads := [], newsamples := bs.length / 2 } :=
      pipeDecimate_timer memory (by omega : bs.length / 2 ≤ 720)
    have hrun : timerIterate debuglevel true s (.bytes bs) =
        some ({ buffer := memory.flatMap sampleBytes ++
                  (bs ++ s.buffer.drop bs.length).drop (2 * memory.length)
                udp := u
                ring := s.ring.putAll (blockMap 2 pairAverage (blockMap 2 sampleOf bs)) },
          { stdout := out.stdout
            packet := out.packet
            stored := blockMap 2 pairAverage (blockMap 2 sampleOf bs) }) := by
      rw [timerIterate, readFromPipe_bytes]
      simp only [Nat.cast_pos, hpos, ↓reduceIte, Int.toNat_natCast, ← hmemory, hdecimated, hsamples,
        hsend, Except.toOption, Option.bind_eq_bind, Option.bind_some, dspDemod_eq]
      rfl
    -- the codes are behind the header
    refine ⟨_, _, false, hrun, hsession, hcodec'.trans hcodec, hgain, hpairs, ?_⟩
    rw [hout, payloads, Option.toList_some, List.flatMap_singleton, hbytes,
      List.drop_left' (length_rtpHeader _ _ _ _), hpayload]

/-- A run stores and sends what its reads give piece by piece. -/
theorem timerRun_eq {s : TimerThread} {hdr : Vector UdpByte rtpHdrLen} {marker : Bool}
    (hs : s.udp.Session hdr marker) (hcodec : s.udp.codec = codecPcmu)
    {pieces : List (List PipeByte)} (hlens : ∀ bs ∈ pieces, bs.length ≤ 2 * pipeReadSize) :
    ∃ t outs, timerRun debuglevel true s (pieces.map .bytes) = some (t, outs) ∧
      samplesStored outs = pieces.flatMap (blockMap 4 pairOfBytes) ∧
      payloads (packetsSent outs) = pieces.flatMap (blockMap 6 (groupOfBytes s.udp.gain)) := by
  induction pieces generalizing s marker with
  | nil => exact ⟨s, [], rfl, rfl, rfl⟩
  | cons bs pieces ih =>
    rw [List.forall_mem_cons] at hlens
    obtain ⟨s₁, out, marker₁, hiterate, hs₁, hcodec₁, hgain, hstored, hsent⟩ :=
      timerIterate_bytes hoff hs hcodec hlens.1
    obtain ⟨t, outs, hrun, hstored', hsent'⟩ := ih hs₁ hcodec₁ hlens.2
    have hpackets : packetsSent (out :: outs) = out.packet.toList ++ packetsSent outs := by
      cases h : out.packet <;> simp [packetsSent, h]
    refine ⟨t, out :: outs, ?_, ?_, ?_⟩
    · simp only [List.map_cons, timerRun, hiterate, hrun, Option.bind_eq_bind, Option.bind_some]
      rfl
    · rw [samplesStored, List.flatMap_cons, ← samplesStored, hstored, hstored', List.flatMap_cons]
    · rw [hpackets, payloads, List.flatMap_append, ← payloads, ← payloads, hsent, hsent', hgain,
        List.flatMap_cons]

end

/-! ## The cuts of the stream -/

/-- The first byte of a pair changes its average, and that of a group its code at every gain. -/
theorem pairOfBytes_ne :
    pairOfBytes (2 :: List.replicate (4 - 1) 0) ≠ pairOfBytes (List.replicate 4 0) := by
  decide

theorem groupOfBytes_ne {gain : ℕ} (hgain : gain ≤ 15) :
    groupOfBytes gain (0xFF :: List.replicate (6 - 1) 0) ≠
      groupOfBytes gain (List.replicate 6 0) := by
  have hall : ∀ gain ≤ 15, groupOfBytes gain (0xFF :: List.replicate (6 - 1) 0) ≠
      groupOfBytes gain (List.replicate 6 0) := by
    decide
  exact hall gain hgain

/-- **The cuts.** For reads of given byte counts in a mu-law session without de-emphasis and with a
gain of at most `15`: the samples stored in the ring and the payloads sent are those of the whole
byte stream, whatever the bytes are and whatever the buffer and the ring held before, exactly if the
counts are aligned to pairs of samples and to groups of three. -/
theorem timerRun_iff {debuglevel : BitVec 32} (hoff : debuglevel &&& debugDeemphasis = 0)
    {udp : Udp} {hdr : Vector UdpByte rtpHdrLen} {marker : Bool} (hs : udp.Session hdr marker)
    (hcodec : udp.codec = codecPcmu) (hgain : udp.gain ≤ 15) (counts : List ℕ)
    (hcounts : ∀ n ∈ counts, n ≤ 2 * pipeReadSize) :
    (∀ (buffer : List PipeByte) (ring : SampleRing) (pieces : List (List PipeByte)),
      pieces.map List.length = counts →
      ∃ t outs,
        timerRun debuglevel true { buffer, udp, ring } (pieces.map .bytes) = some (t, outs) ∧
        samplesStored outs = blockMap 2 pairAverage (blockMap 2 sampleOf pieces.flatten) ∧
        payloads (packetsSent outs) = (pcmEncode debuglevel codecPcmu udp.gain udp.deemph
          (blockMap 2 sampleOf pieces.flatten)).payload) ↔
      Aligned 4 counts ∧ Aligned 6 counts := by
  rw [← forall_flatMap_blockMap_eq_iff (by decide) pairOfBytes_ne,
    ← forall_flatMap_blockMap_eq_iff (by decide) (groupOfBytes_ne hgain)]
  -- what the whole stream gives
  have hpairs : ∀ bs, blockMap 2 pairAverage (blockMap 2 sampleOf bs) = blockMap 4 pairOfBytes bs :=
    blockMap_blockMap Nat.two_pos Nat.two_pos _ _
  have hgroups : ∀ bs, (pcmEncode debuglevel codecPcmu udp.gain udp.deemph
      (blockMap 2 sampleOf bs)).payload = blockMap 6 (groupOfBytes udp.gain) bs := fun bs =>
    (congrArg Encoded.payload (g711uLawEncode_eq hoff _ _ _)).trans
      (blockMap_blockMap (m := 3) (by decide) Nat.two_pos _ _ bs)
  have hfit : ∀ pieces : List (List PipeByte), pieces.map List.length = counts →
      ∀ bs ∈ pieces, bs.length ≤ 2 * pipeReadSize := by
    rintro pieces rfl bs hbs
    exact hcounts _ (List.mem_map_of_mem hbs)
  constructor
  · intro h
    let ring : SampleRing := { buffer := Vector.replicate sampleBfrsiz 0, wrptr := 0, rdptr := 0 }
    have hboth : ∀ pieces : List (List PipeByte), pieces.map List.length = counts →
        pieces.flatMap (blockMap 4 pairOfBytes) = blockMap 4 pairOfBytes pieces.flatten ∧
          pieces.flatMap (blockMap 6 (groupOfBytes udp.gain)) =
            blockMap 6 (groupOfBytes udp.gain) pieces.flatten := by
      intro pieces hlens
      obtain ⟨t, outs, hrun, hstored, hsent⟩ := h [] ring pieces hlens
      obtain ⟨t', outs', hrun', hstored', hsent'⟩ :=
        timerRun_eq hoff (s := { buffer := [], udp, ring }) hs hcodec (hfit pieces hlens)
      obtain ⟨-, rfl⟩ := Prod.mk.inj (Option.some.inj (hrun.symm.trans hrun'))
      rw [← hstored', ← hsent', hstored, hsent, hpairs, hgroups]
      exact ⟨rfl, rfl⟩
    exact ⟨fun pieces hlens => (hboth pieces hlens).1, fun pieces hlens => (hboth pieces hlens).2⟩
  · rintro ⟨hfour, hsix⟩ buffer ring pieces hlens
    obtain ⟨t, outs, hrun, hstored, hsent⟩ :=
      timerRun_eq hoff (s := { buffer, udp, ring }) hs hcodec (hfit pieces hlens)
    refine ⟨t, outs, hrun, ?_, ?_⟩
    · rw [hstored, hfour pieces hlens, hpairs]
    · rw [hsent, hsix pieces hlens, hgroups]

/-- A full read and half a one are aligned. -/
theorem timerRun_iff_full_and_half :
    ∃ u₁, initUDP ⟨some (Vector.replicate udpBufferSize 0), 3, 0, fun _ => none⟩
        (Vector.replicate rtpHdrLen 0).toList [] 5004 [] 5004 codecPcmu 2 Udp.init =
          .ok (u₁, true) ∧
      ∀ (buffer : List PipeByte) (ring : SampleRing) (pieces : List (List PipeByte)),
        pieces.map List.length = [1440, 720] →
        ∃ t outs, timerRun 0 true { buffer, udp := u₁, ring } (pieces.map .bytes) = some (t, outs) ∧
          samplesStored outs = blockMap 2 pairAverage (blockMap 2 sampleOf pieces.flatten) ∧
          payloads (packetsSent outs) = (pcmEncode 0 codecPcmu u₁.gain u₁.deemph
            (blockMap 2 sampleOf pieces.flatten)).payload := by
  let env : UdpEnv := ⟨some (Vector.replicate udpBufferSize 0), 3, 0, fun _ => none⟩
  have hmem : env.malloc = some (Vector.replicate udpBufferSize 0) := rfl
  obtain ⟨u₁, hinit⟩ := initUDP_succeeds hmem (by decide) (by decide)
    (Vector.replicate rtpHdrLen 0) [] [] 5004 5004 (Or.inl rfl) 2 Udp.init
  obtain ⟨hs, hcodec, hgain, -, -⟩ := initUDP_session (Or.inl rfl) hinit
  refine ⟨u₁, hinit, (timerRun_iff (by decide) hs hcodec (by rw [hgain]; decide) [1440, 720]
    (by decide)).mpr ⟨?_, ?_⟩⟩
  · simp [aligned_cons, aligned_nil]
  · simp [aligned_cons, aligned_nil]

/-! ## A file on its way to the ring and the network -/

theorem sampleOf_sampleBytes (sample : RtlSample) : sampleOf (sampleBytes sample) = sample := by
  simp only [sampleOf, sampleBytes, List.getD_cons_zero, List.getD_cons_succ]
  grind

/-- The bytes `filereader` writes are read as its samples. -/
theorem blockMap_sampleBytes (samples : List RtlSample) :
    blockMap 2 sampleOf (samples.flatMap sampleBytes) = samples := by
  induction samples with
  | nil => rfl
  | cons sample samples ih =>
    rw [List.flatMap_cons, blockMap_cons Nat.two_pos sampleOf rfl, ih, sampleOf_sampleBytes]

/-- What four samples of a file give in the ring. -/
def octAverage (order : ByteOrder) (gain : ℕ) (bytes : List InputByte) : RtlSample :=
  pairAverage (blockMap 4 (storedFor order.shift1 order.shift2 gain) bytes)

/-- What six samples of a file give on the network. -/
def dozenCode (order : ByteOrder) (gain udpGain : ℕ) (bytes : List InputByte) : CodecByte :=
  uLawGroup udpGain (blockMap 4 (storedFor order.shift1 order.shift2 gain) bytes)

/-- Without a gain the ring has the average of four samples, to within one. -/
theorem octAverage_bounds (order : ByteOrder) {bytes : List InputByte} (hlen : bytes.length = 8) :
    let sum := ((blockMap 2 order.sample bytes).map BitVec.toInt).sum
    4 * (octAverage order 0 bytes).toInt ≤ sum ∧
      sum ≤ 4 * (octAverage order 0 bytes).toInt + 4 := by
  have hquads : octAverage order 0 bytes =
      pairAverage (blockMap 2 pairAverage (blockMap 2 order.sample bytes)) := by
    rw [octAverage, storedFor_eq, blockMap_blockMap Nat.two_pos Nat.two_pos]
    rfl
  rw [hquads]
  set samples := blockMap 2 order.sample bytes with hsamples
  have hfour : samples.length = 4 := by rw [hsamples, length_blockMap, hlen]
  obtain ⟨a, b, c, d, heq⟩ : ∃ a b c d, samples = [a, b, c, d] := by
    match samples, hfour with
    | [a, b, c, d], _ => exact ⟨a, b, c, d, rfl⟩
  have hpairs : blockMap 2 pairAverage [a, b, c, d] =
      [pairAverage [a, b], pairAverage [c, d]] := by
    simp [blockMap, List.range_succ]
  rw [heq, hpairs, toInt_pairAverage _ rfl, floorAverage]
  simp only [List.map_cons, List.map_nil, List.sum_cons, List.sum_nil,
    toInt_pairAverage [a, b] rfl, toInt_pairAverage [c, d] rfl, floorAverage]
  omega

/-- **From the file to the ring and the network.** `filereader` reads a file and writes it to the
pipe; the timer thread reads the pipe in pieces aligned to pairs and groups of three samples, in a
mu-law session without de-emphasis. Then the ring has got one sample for four of the file and the
network one code for six, whatever the file and the pieces. -/
theorem file_to_outputs {debuglevel : BitVec 32} (hoff : debuglevel &&& debugDeemphasis = 0)
    {s : TimerThread} {hdr : Vector UdpByte rtpHdrLen} {marker : Bool}
    (hs : s.udp.Session hdr marker) (hcodec : s.udp.codec = codecPcmu) (order : ByteOrder)
    (gain : ℕ) (file : List InputByte) {writeBuf : List RtlSample}
    (hbuf : writeBuf.length = 720) {written : List RtlSample}
    (hwritten : filereader order.shift1 order.shift2 gain writeBuf (freads file) = some written)
    {pieces : List (List PipeByte)} (hpipe : pieces.flatten = written.flatMap sampleBytes)
    (hlens : ∀ bs ∈ pieces, bs.length ≤ 2 * pipeReadSize)
    (hpairs : Aligned 4 (pieces.map List.length)) (hgroups : Aligned 6 (pieces.map List.length)) :
    ∃ t outs, timerRun debuglevel true s (pieces.map .bytes) = some (t, outs) ∧
      samplesStored outs = blockMap 8 (octAverage order gain) file ∧
      payloads (packetsSent outs) = blockMap 12 (dozenCode order gain s.udp.gain) file := by
  obtain ⟨hmode, hflat⟩ := mayReturn_freads file
  have hfit : ∀ b ∈ freads file, b.length / 4 ≤ writeBuf.length := by
    intro b hb
    have := hmode.fits b.length (List.mem_map_of_mem hb)
    simp only [ReadMode.wrBufSize, fileReadSize] at this
    omega
  have hne : ∀ b ∈ (freads file).dropLast, b ≠ [] := by
    intro b hb hnil
    have := hmode.pos b.length (by rw [← List.map_dropLast]; exact List.mem_map_of_mem hb)
    rw [hnil] at this
    exact Nat.lt_irrefl 0 this
  -- the blocks of the file are cut at pairs of frames, so they do not show
  have hwhole := flatMap_blockMap_of_aligned (g := 4) (by decide)
    (storedFor order.shift1 order.shift2 gain) (hmode.aligned_iff.mpr (Or.inl rfl))
  rw [hflat] at hwhole
  obtain rfl := Option.some.inj ((filereader_eq _ _ gain hfit hne).symm.trans hwritten)
  rw [hwhole] at hpipe
  obtain ⟨t, outs, hrun, hstored, hsent⟩ := timerRun_eq hoff hs hcodec hlens
  -- the pipe has the samples that were written
  have hsamples : blockMap 2 sampleOf pieces.flatten =
      blockMap 4 (storedFor order.shift1 order.shift2 gain) file := by
    rw [hpipe, blockMap_sampleBytes]
  refine ⟨t, outs, hrun, ?_, ?_⟩
  · rw [hstored, flatMap_blockMap_of_aligned (by decide) _ hpairs]
    calc blockMap 4 pairOfBytes pieces.flatten
        = blockMap 2 pairAverage (blockMap 2 sampleOf pieces.flatten) :=
          (blockMap_blockMap Nat.two_pos Nat.two_pos _ _ _).symm
      _ = blockMap 8 (octAverage order gain) file := by
          rw [hsamples]
          exact blockMap_blockMap (n := 4) Nat.two_pos (by decide) _ _ file
  · rw [hsent, flatMap_blockMap_of_aligned (by decide) _ hgroups]
    calc blockMap 6 (groupOfBytes s.udp.gain) pieces.flatten
        = blockMap 3 (uLawGroup s.udp.gain) (blockMap 2 sampleOf pieces.flatten) :=
          (blockMap_blockMap (m := 3) (by decide) Nat.two_pos _ _ _).symm
      _ = blockMap 12 (dozenCode order gain s.udp.gain) file := by
          rw [hsamples]
          exact blockMap_blockMap (m := 3) (n := 4) (by decide) (by decide) _ _ file

/-- Six equal samples of a file in one read. -/
theorem file_to_outputs_one_read :
    ∃ u₁, initUDP ⟨some (Vector.replicate udpBufferSize 0), 3, 0, fun _ => none⟩
        (Vector.replicate rtpHdrLen 0).toList [] 5004 [] 5004 codecPcmu 2 Udp.init =
          .ok (u₁, true) ∧
      ∃ t outs, timerRun 0 true
          { buffer := []
            udp := u₁
            ring := { buffer := Vector.replicate sampleBfrsiz 0, wrptr := 0, rdptr := 0 } }
          ([List.replicate 12 1].map .bytes) = some (t, outs) ∧
        samplesStored outs = blockMap 8 (octAverage .big 0) (List.replicate 24 1) ∧
        payloads (packetsSent outs) = blockMap 12 (dozenCode .big 0 u₁.gain)
          (List.replicate 24 1) := by
  let env : UdpEnv := ⟨some (Vector.replicate udpBufferSize 0), 3, 0, fun _ => none⟩
  have hmem : env.malloc = some (Vector.replicate udpBufferSize 0) := rfl
  obtain ⟨u₁, hinit⟩ := initUDP_succeeds hmem (by decide) (by decide)
    (Vector.replicate rtpHdrLen 0) [] [] 5004 5004 (Or.inl rfl) 2 Udp.init
  obtain ⟨hs, hcodec, -, -, -⟩ := initUDP_session (Or.inl rfl) hinit
  have hread : freads (List.replicate 24 1) = [List.replicate 24 1] := by
    rw [freads, if_pos (by decide)]
  have hwritten : filereader ByteOrder.big.shift1 ByteOrder.big.shift2 0 (List.replicate 720 0)
      (freads (List.replicate 24 1)) = some (List.replicate 6 0x0101) := by
    have hfit : ∀ b ∈ [List.replicate 24 (1 : InputByte)],
        b.length / 4 ≤ (List.replicate 720 (0 : RtlSample)).length := by
      rw [List.length_replicate]
      decide
    rw [hread, filereader_eq _ _ 0 hfit (by simp)]
    decide
  exact ⟨u₁, hinit, file_to_outputs (by decide) hs hcodec .big 0 (List.replicate 24 1)
    List.length_replicate hwritten (by decide) (by decide) (by simp [aligned_cons, aligned_nil])
    (by simp [aligned_cons, aligned_nil])⟩

end PiWxRx
