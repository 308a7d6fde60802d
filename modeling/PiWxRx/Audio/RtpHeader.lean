import PiWxRx.Audio.Udp

/-!
# The RTP header over a transmission

The header of every packet of a transmission, from the header `InitUDP` is given
(`rtp_header_law`). The counters live twice, as variables and as bytes of the packet buffer.
`Udp.Session` is the invariant that keeps the two in step: between calls the buffer starts with
the `rtpHeader` of the variables, whatever the encoder wrote behind it.
-/

namespace PiWxRx

open BigEndian

/-- The header `hdr` with the mark bit and the counters replaced. -/
def rtpHeader (hdr : Vector UdpByte rtpHdrLen) (marker : Bool) (sequence : BitVec 16)
    (timestamp : BitVec 32) : List UdpByte :=
  [hdr[0], if marker then hdr[1] ||| mark else hdr[1] &&& ~~~mark] ++ bytes16 sequence ++
    bytes32 timestamp ++ [hdr[8], hdr[9], hdr[10], hdr[11]]

@[simp] theorem length_rtpHeader (hdr : Vector UdpByte rtpHdrLen) (marker : Bool)
    (sequence : BitVec 16) (timestamp : BitVec 32) :
    (rtpHeader hdr marker sequence timestamp).length = rtpHdrLen := rfl

/-- The packet buffer starts with the header of the variables, marked or not. -/
def Udp.HasHeader (u : Udp) (hdr : Vector UdpByte rtpHdrLen) (marker : Bool) : Prop :=
  ∃ ptr rest, u.buffer = .ok (ptr, rtpHeader hdr marker u.sequence u.timestamp ++ rest) ∧
    rest.length + rtpHdrLen = udpBufferSize

/-- Between calls: a companding codec, and a packet buffer with the header. -/
structure Udp.Session (u : Udp) (hdr : Vector UdpByte rtpHdrLen) (marker : Bool) : Prop where
  law : u.codec = codecPcmu ∨ u.codec = codecPcma
  header : u.HasHeader hdr marker

/-! ## One packet -/

private theorem ne_codecNone {codec : ℤ} (h : codec = codecPcmu ∨ codec = codecPcma) :
    codec ≠ codecNone := by
  rcases h with h | h <;> rw [h] <;> decide

private theorem and_not_mark (marker : Bool) (c : UdpByte) :
    (if marker then c ||| mark else c &&& ~~~mark) &&& ~~~mark = c &&& ~~~mark := by
  have hall : ∀ (marker : Bool) (c : UdpByte),
      (if marker then c ||| mark else c &&& ~~~mark) &&& ~~~mark = c &&& ~~~mark := by
    decide
  exact hall marker c

/-- The header update writes the new counters over the old ones and takes the mark bit off. -/
theorem advanceHeader_eq (hdr : Vector UdpByte rtpHdrLen) (marker : Bool)
    (sequence sequence' : BitVec 16) (timestamp timestamp' : BitVec 32) (rest : List UdpByte) :
    advanceHeader sequence' timestamp' (rtpHeader hdr marker sequence timestamp ++ rest) =
      rtpHeader hdr false sequence' timestamp' ++ rest := by
  have hmark := and_not_mark marker hdr[1]
  simp only [advanceHeader, lowByte_sshiftRight_signExtend, lowByte_signExtend,
    lowByte_ushiftRight, lowByte_eq timestamp']
  change hdr[0] :: ((if marker then hdr[1] ||| mark else hdr[1] &&& ~~~mark) &&& ~~~mark) :: _ = _
  rw [hmark]
  rfl

/-- The encoder writes behind the header. -/
theorem copyInto_header {header rest : List UdpByte} (h : header.length = rtpHdrLen)
    (payload : List UdpByte) (hlen : payload.length ≤ rest.length) :
    copyInto (header ++ rest) rtpHdrLen payload =
      .ok (header ++ payload ++ rest.drop payload.length) := by
  rw [copyInto, if_pos (by rw [List.length_append]; omega), ← h, List.take_left,
    ← List.drop_drop, List.drop_left]

/-- One call with a codec: the packet is the header of the variables and the encoded samples, and
the buffer then starts with the header of the new variables. -/
theorem sendUDPPacket_hasHeader {debuglevel : BitVec 32} {u : Udp}
    {hdr : Vector UdpByte rtpHdrLen} {marker : Bool} (hcodec : u.codec ≠ codecNone)
    (hu : u.HasHeader hdr marker) {samples : List RtlSample}
    (hfit : rtpHdrLen + (pcmEncode debuglevel u.codec u.gain u.deemph samples).payload.length ≤
      udpBufferSize) :
    ∃ u', sendUDPPacket debuglevel u samples =
        .ok (u',
          { stdout := (pcmEncode debuglevel u.codec u.gain u.deemph samples).stdout
            packet := some
              { datagram := u.datagram
                remoteAddr := u.remoteAddr
                bytes := rtpHeader hdr marker u.sequence u.timestamp ++
                  (pcmEncode debuglevel u.codec u.gain u.deemph samples).payload } }) ∧
      u'.HasHeader hdr false ∧
      ∃ heap, u' =
        { u with
          deemph := (pcmEncode debuglevel u.codec u.gain u.deemph samples).state
          sequence := u.sequence + 1
          timestamp := u.timestamp + BitVec.ofNat 32
            (pcmEncode debuglevel u.codec u.gain u.deemph samples).decimlength
          heap } := by
  obtain ⟨ptr, rest, hbuf, hrest⟩ := hu
  obtain ⟨hpayload, -⟩ := length_payload_pcmEncode debuglevel u.codec u.gain u.deemph samples
  simp only [sendUDPPacket, if_neg hcodec, Udp.buffer_deemph, hbuf]
  generalize pcmEncode debuglevel u.codec u.gain u.deemph samples = encoded at hpayload hfit ⊢
  have hfit : encoded.payload.length ≤ rest.length := by omega
  -- the bytes sent end with the payload
  have htake : (rtpHeader hdr marker u.sequence u.timestamp ++ encoded.payload ++
      rest.drop encoded.payload.length).take (encoded.decimlength + rtpHdrLen) =
      rtpHeader hdr marker u.sequence u.timestamp ++ encoded.payload := by
    apply List.take_left'
    rw [List.length_append, length_rtpHeader, hpayload, Nat.add_comm]
  simp only [copyInto_header (length_rtpHeader hdr marker u.sequence u.timestamp) _ hfit, htake,
    bind, Except.bind, pure, Except.pure]
  refine ⟨_, rfl, ⟨ptr, encoded.payload ++ rest.drop encoded.payload.length, ?_, ?_⟩, _, rfl⟩
  · -- behind the new header stands what the encoder left
    rw [Udp.buffer_eq_ok_iff, List.append_assoc, advanceHeader_eq]
    exact ⟨(Udp.buffer_eq_ok_iff.mp hbuf).1, Function.update_self _ _ _⟩
  · rw [List.length_append, List.length_drop]
    omega

/-- A payload too long for the buffer is a fault. -/
theorem sendUDPPacket_overrun {debuglevel : BitVec 32} {u : Udp}
    {hdr : Vector UdpByte rtpHdrLen} {marker : Bool} (hcodec : u.codec ≠ codecNone)
    (hu : u.HasHeader hdr marker) {samples : List RtlSample}
    (hlong : ¬ rtpHdrLen + (pcmEncode debuglevel u.codec u.gain u.deemph samples).payload.length ≤
      udpBufferSize) :
    sendUDPPacket debuglevel u samples = .error .overrun := by
  obtain ⟨ptr, rest, hbuf, hrest⟩ := hu
  simp only [sendUDPPacket, if_neg hcodec, Udp.buffer_deemph, hbuf, bind, Except.bind]
  rw [copyInto, if_neg]
  rwa [List.length_append, length_rtpHeader, Nat.add_comm rtpHdrLen rest.length, hrest]

/-- One call in a session: the header moves on by one packet and the number of bytes encoded. -/
theorem sendUDPPacket_eq (debuglevel : BitVec 32) {u : Udp} {hdr : Vector UdpByte rtpHdrLen}
    {marker : Bool} (hs : u.Session hdr marker) {samples : List RtlSample}
    (hlen : samples.length ≤ 720) :
    ∃ u' out packet, sendUDPPacket debuglevel u samples = .ok (u', out) ∧
      out.packet = some packet ∧
      packet.bytes = rtpHeader hdr marker u.sequence u.timestamp ++
        (pcmEncode debuglevel u.codec u.gain u.deemph samples).payload ∧
      u'.Session hdr false ∧ u'.codec = u.codec ∧ u'.gain = u.gain ∧
      u'.sequence = u.sequence + 1 ∧
      u'.timestamp = u.timestamp + BitVec.ofNat 32 (samples.length / 3) := by
  obtain ⟨hpayload, hdecim⟩ := length_payload_pcmEncode debuglevel u.codec u.gain u.deemph samples
  -- 240 bytes at most, and there is room for 472
  have hfit : rtpHdrLen + (pcmEncode debuglevel u.codec u.gain u.deemph samples).payload.length ≤
      udpBufferSize := by
    simp only [rtpHdrLen, udpBufferSize]
    omega
  obtain ⟨u', hsend, hheader, heap, rfl⟩ :=
    sendUDPPacket_hasHeader (ne_codecNone hs.law) hs.header hfit
  refine ⟨_, _, _, hsend, rfl, rfl, ⟨hs.law, hheader⟩, rfl, rfl, rfl, ?_⟩
  exact congrArg (u.timestamp + BitVec.ofNat 32 ·)
    (length_pcmEncode debuglevel hs.law u.gain u.deemph samples).2

/-! ## A transmission -/

/-- Successive calls: packet `n` has the header with the sequence number advanced by `n`, the time
stamp advanced by the payload sizes of the packets before, and the mark bit in the first packet
only. -/
theorem sendUDPPackets_eq (debuglevel : BitVec 32) {u : Udp} {hdr : Vector UdpByte rtpHdrLen}
    {marker : Bool} (hs : u.Session hdr marker) {calls : List (List RtlSample)}
    (hcalls : ∀ samples ∈ calls, samples.length ≤ 720) :
    ∃ u' packets, sendUDPPackets debuglevel u calls = .ok (u', packets) ∧
      packets.length = calls.length ∧
      u'.timestamp = u.timestamp + BitVec.ofNat 32 (calls.map fun s => s.length / 3).sum ∧
      ∀ n packet samples, packets[n]? = some packet → calls[n]? = some samples →
        ∃ payload, payload.length = samples.length / 3 ∧
          packet.bytes = rtpHeader hdr (marker && n == 0) (u.sequence + BitVec.ofNat 16 n)
            (u.timestamp + BitVec.ofNat 32 ((calls.take n).map fun s => s.length / 3).sum) ++
              payload := by
  induction calls generalizing u marker with
  | nil => exact ⟨u, [], rfl, rfl, by simp, by simp⟩
  | cons samples calls ih =>
    obtain ⟨u₁, out, packet, hsend, hout, hbytes, hs₁, hcodec, -, hseq, hts⟩ :=
      sendUDPPacket_eq debuglevel hs (hcalls samples List.mem_cons_self)
    obtain ⟨u₂, packets, hrest, hlen, hts₂, hpackets⟩ :=
      ih hs₁ fun s h => hcalls s (List.mem_cons_of_mem _ h)
    refine ⟨u₂, packet :: packets, ?_, ?_, ?_, ?_⟩
    · rw [sendUDPPackets_cons hsend hrest, hout]
      rfl
    · rw [List.length_cons, List.length_cons, hlen]
    · rw [hts₂, hts, List.map_cons, List.sum_cons, BitVec.ofNat_add, BitVec.add_assoc]
    · intro n p s hp hc
      cases n with
      | zero =>
        obtain rfl : packet = p := by simpa using hp
        obtain rfl : samples = s := by simpa using hc
        refine ⟨_, (length_pcmEncode debuglevel hs.law u.gain u.deemph samples).1, ?_⟩
        simpa using hbytes
      | succ n =>
        -- packet `n` of the calls after the first, whose header was advanced by one packet
        obtain ⟨payload, hsize, hb⟩ := hpackets n p s hp hc
        refine ⟨payload, hsize, ?_⟩
        rw [hb, hseq, hts, List.take_succ_cons, List.map_cons, List.sum_cons, BitVec.ofNat_add,
          BitVec.ofNat_add, BitVec.add_assoc, BitVec.add_assoc, BitVec.add_comm 1]
        simp

/-! ## Set-up -/

private theorem toList_header (hdr : Vector UdpByte rtpHdrLen) :
    hdr.toList = [hdr[0], hdr[1], hdr[2], hdr[3], hdr[4], hdr[5], hdr[6], hdr[7], hdr[8], hdr[9],
      hdr[10], hdr[11]] := by
  apply List.ext_getElem
  · simp
  · intro i hi hi'
    simp only [Vector.length_toList, rtpHdrLen] at hi
    interval_cases i <;> simp

/-- The header in the buffer, marked, is the one of its own counters. -/
theorem modify_mark (hdr : Vector UdpByte rtpHdrLen) (rest : List UdpByte) :
    (hdr.toList ++ rest).modify hdr2 (· ||| mark) =
      rtpHeader hdr true (be16 hdr[2] hdr[3]) (be32 hdr[4] hdr[5] hdr[6] hdr[7]) ++ rest := by
  rw [toList_header, rtpHeader, bytes16_be16, bytes32_be32]
  rfl

/-- What `InitUDP` reads from a header are its counters. -/
theorem headerSequence_rtpHeader (hdr : Vector UdpByte rtpHdrLen) (marker : Bool)
    (sequence : BitVec 16) (timestamp : BitVec 32) (rest : List UdpByte) :
    headerSequence (rtpHeader hdr marker sequence timestamp ++ rest) = sequence := by
  obtain ⟨b2, b3, rfl⟩ := exists_be16 sequence
  rw [rtpHeader, bytes16_be16, headerSequence]
  exact setWidth_or_eq_be16 b2 b3

theorem headerTimestamp_rtpHeader (hdr : Vector UdpByte rtpHdrLen) (marker : Bool)
    (sequence : BitVec 16) (timestamp : BitVec 32) (rest : List UdpByte) :
    headerTimestamp (rtpHeader hdr marker sequence timestamp ++ rest) = timestamp := by
  obtain ⟨b4, b5, b6, b7, rfl⟩ := exists_be32 timestamp
  rw [rtpHeader, bytes32_be32, headerTimestamp]
  exact or_eq_be32 b4 b5 b6 b7

private theorem copyInto_memory (memory : Vector UdpByte udpBufferSize)
    (hdr : Vector UdpByte rtpHdrLen) :
    copyInto memory.toList 0 hdr.toList = .ok (hdr.toList ++ memory.toList.drop rtpHdrLen) := by
  simp [copyInto, show rtpHdrLen ≤ udpBufferSize by decide]

/-- `InitUDP` succeeds if the system calls do. -/
theorem initUDP_succeeds {env : UdpEnv} {memory : Vector UdpByte udpBufferSize}
    (hmem : env.malloc = some memory) (hsocket : ¬ env.socket < 0) (hbind : ¬ env.bind < 0)
    (hdr : Vector UdpByte rtpHdrLen) (remoteip myip : List Char) (remotePort myport : ℕ)
    {codectype : ℤ} (hcodec : codectype = codecPcmu ∨ codectype = codecPcma) (gainvalue : ℕ)
    (u : Udp) :
    ∃ u₁, initUDP env hdr.toList remoteip remotePort myip myport codectype gainvalue u =
      .ok (u₁, true) := by
  simp only [initUDP, if_neg (ne_codecNone hcodec), hmem, copyInto_memory, bind, Except.bind, pure,
    Except.pure, openSocket, if_neg hsocket, hbind, decide_false, Bool.not_false]
  exact ⟨_, rfl⟩

/-- `InitUDP` with the header `hdr` leaves it in the buffer, marked, and its counters in the
variables. -/
theorem initUDP_session {env : UdpEnv} {hdr : Vector UdpByte rtpHdrLen} {remoteip myip : List Char}
    {remotePort myport : ℕ} {codectype : ℤ} {gainvalue : ℕ} {u u₁ : Udp}
    (hcodec : codectype = codecPcmu ∨ codectype = codecPcma)
    (hinit : initUDP env hdr.toList remoteip remotePort myip myport codectype gainvalue u =
      .ok (u₁, true)) :
    u₁.Session hdr true ∧ u₁.codec = codectype ∧ u₁.gain = gainvalue ∧
      u₁.sequence = be16 hdr[2] hdr[3] ∧ u₁.timestamp = be32 hdr[4] hdr[5] hdr[6] hdr[7] := by
  have hne := ne_codecNone hcodec
  cases hmem : env.malloc with
  | none => simp [initUDP, hne, hmem, pure, Except.pure] at hinit
  | some memory =>
    simp only [initUDP, if_neg hne, hmem, copyInto_memory, bind, Except.bind, pure, Except.pure,
      modify_mark, headerSequence_rtpHeader, headerTimestamp_rtpHeader, Except.ok.injEq] at hinit
    -- the sockets do not touch the buffer and the counters
    obtain ⟨my, remote, datagram, sockets, hframe⟩ := openSocket_frame env remoteip.tail remotePort
      myip.tail myport _
    rw [← Prod.eta (openSocket _ _ _ _ _ _), hframe] at hinit
    obtain ⟨rfl, -⟩ := Prod.mk.inj hinit
    refine ⟨⟨hcodec, u.nextBlock, memory.toList.drop rtpHdrLen, ?_, ?_⟩, rfl, rfl, rfl, rfl⟩
    · exact Udp.buffer_eq_ok_iff.mpr ⟨rfl, Function.update_self _ _ _⟩
    · rw [List.length_drop, Vector.length_toList]
      rfl

/-- The header law: over any number of `SendUDPPacket` calls after a successful `InitUDP`, packet
`n` carries the sequence number of the header given advanced by `n`, its time stamp advanced by
the payload sizes of the packets before, the mark bit in the first packet only and all other bits
as given, followed by the payload. -/
theorem rtp_header_law (debuglevel : BitVec 32) (env : UdpEnv) (hdr : Vector UdpByte rtpHdrLen)
    (remoteip myip : List Char) (remotePort myport : ℕ) (codectype : ℤ) (gainvalue : ℕ)
    (u u₁ : Udp) (hcodec : codectype = codecPcmu ∨ codectype = codecPcma)
    (hinit : initUDP env hdr.toList remoteip remotePort myip myport codectype gainvalue u =
      .ok (u₁, true))
    (calls : List (List RtlSample))
    (hcalls : ∀ samples ∈ calls, 1 ≤ samples.length ∧ samples.length ≤ 720) :
    ∃ u₂ packets, sendUDPPackets debuglevel u₁ calls = .ok (u₂, packets) ∧
      packets.length = calls.length ∧
      ∀ n packet samples, packets[n]? = some packet → calls[n]? = some samples →
        ∃ payload, payload.length = samples.length / 3 ∧
          packet.bytes = rtpHeader hdr (n == 0)
              (be16 hdr[2] hdr[3] + BitVec.ofNat 16 n)
              (be32 hdr[4] hdr[5] hdr[6] hdr[7] +
                BitVec.ofNat 32 ((calls.take n).map fun s => s.length / 3).sum) ++
            payload ∧
          packet.bytes.length = 12 + payload.length := by
  obtain ⟨hs, -, -, hseq, hts⟩ := initUDP_session hcodec hinit
  obtain ⟨u₂, packets, hrun, hlen, -, hpackets⟩ :=
    sendUDPPackets_eq debuglevel hs fun s h => (hcalls s h).2
  refine ⟨u₂, packets, hrun, hlen, fun n packet samples hp hc => ?_⟩
  obtain ⟨payload, hsize, hbytes⟩ := hpackets n packet samples hp hc
  refine ⟨payload, hsize, ?_, ?_⟩
  · rw [hbytes, hseq, hts, Bool.true_and]
  · rw [hbytes, List.length_append, length_rtpHeader]

/-- The sequence number wraps around with the second packet. -/
theorem rtp_header_law_two_packets :
    ∃ u₁ u₂ packets,
      initUDP ⟨some (Vector.replicate udpBufferSize 0), 3, 0, fun _ => none⟩
        #v[0x80, 0x08, 0xFF, 0xFF, 0xFF, 0xFF, 0xFF, 0xFE, 0x12, 0x34, 0x56, 0x78].toList [] 5004
        [] 5004 codecPcma 2 Udp.init = .ok (u₁, true) ∧
      sendUDPPackets 0 u₁ [[1, 2, 3], [4, 5, 6]] = .ok (u₂, packets) ∧ packets.length = 2 := by
  let env : UdpEnv := ⟨some (Vector.replicate udpBufferSize 0), 3, 0, fun _ => none⟩
  have hmem : env.malloc = some (Vector.replicate udpBufferSize 0) := rfl
  obtain ⟨u₁, hinit⟩ := initUDP_succeeds hmem (by decide) (by decide)
    #v[0x80, 0x08, 0xFF, 0xFF, 0xFF, 0xFF, 0xFF, 0xFE, 0x12, 0x34, 0x56, 0x78]
    [] [] 5004 5004 (Or.inr rfl) 2 Udp.init
  obtain ⟨u₂, packets, hrun, hlen, -⟩ := rtp_header_law 0 _ _ [] [] 5004 5004 codecPcma 2
    Udp.init u₁ (Or.inr rfl) hinit [[1, 2, 3], [4, 5, 6]] (by simp)
  exact ⟨u₁, u₂, packets, hinit, hrun, hlen⟩

end PiWxRx
