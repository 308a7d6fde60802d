import PiWxRx.Audio.RtpHeader

/-!
# Packets and read boundaries

`SendUDPPacket` is called with whatever a pipe read returns. The mu-law encoder starts its groups
of three afresh with every call and drops what is left over, so the payloads of a transmission are
those of the whole stream, whatever the samples, exactly if no call ends inside a group of the
stream (`packetisation_iff`).
-/

namespace PiWxRx

open BigEndian Blocks

/-- The payloads of packets, one after another. -/
def payloads (packets : List UdpPacket) : List UdpByte :=
  packets.flatMap fun packet => packet.bytes.drop rtpHdrLen

/-- With mu-law and de-emphasis off, each call sends the codes of its own groups of three. -/
theorem payloads_sendUDPPackets {debuglevel : BitVec 32}
    (hoff : debuglevel &&& debugDeemphasis = 0) {u u' : Udp} {hdr : Vector UdpByte rtpHdrLen}
    {marker : Bool} (hs : u.Session hdr marker) (hcodec : u.codec = codecPcmu)
    {calls : List (List RtlSample)} (hcalls : ∀ samples ∈ calls, samples.length ≤ 720)
    {packets : List UdpPacket} (hrun : sendUDPPackets debuglevel u calls = .ok (u', packets)) :
    payloads packets = calls.flatMap (blockMap 3 (uLawGroup u.gain)) := by
  induction calls generalizing u marker packets with
  | nil =>
    obtain ⟨-, rfl⟩ : u = u' ∧ [] = packets := by
      simpa [sendUDPPackets, pure, Except.pure] using hrun
    rfl
  | cons samples calls ih =>
    obtain ⟨u₁, out, packet, hsend, hout, hbytes, hs₁, hcodec₁, hgain₁, -, -⟩ :=
      sendUDPPacket_eq debuglevel hs (hcalls samples List.mem_cons_self)
    have hcalls₁ : ∀ s ∈ calls, s.length ≤ 720 := fun s h => hcalls s (List.mem_cons_of_mem _ h)
    obtain ⟨u₂, rest, hrest, -, -, -⟩ := sendUDPPackets_eq debuglevel hs₁ hcalls₁
    obtain ⟨rfl, rfl⟩ : u₂ = u' ∧ packet :: rest = packets := by
      simpa [sendUDPPackets_cons hsend hrest, hout] using hrun
    have hpayload : (pcmEncode debuglevel u.codec u.gain u.deemph samples).payload =
        blockMap 3 (uLawGroup u.gain) samples := by
      rw [hcodec]
      exact congrArg Encoded.payload (g711uLawEncode_eq hoff u.gain u.deemph samples)
    rw [payloads, List.flatMap_cons, ← payloads, ih hs₁ (hcodec₁.trans hcodec) hcalls₁ hrest,
      hgain₁, hbytes, List.drop_left' (length_rtpHeader _ _ _ _), hpayload, List.flatMap_cons]

/-- For calls of given lengths, the payloads and the time stamp after them are those of the whole
stream encoded in one go, whatever the samples are, exactly if the lengths are aligned to groups
of three. -/
theorem packetisation_iff (debuglevel : BitVec 32) (hoff : debuglevel &&& debugDeemphasis = 0)
    (env : UdpEnv) (hdr : Vector UdpByte rtpHdrLen) (remoteip myip : List Char)
    (remotePort myport gain : ℕ) (hgain : gain ≤ 15) (u u₁ : Udp)
    (hinit : initUDP env hdr.toList remoteip remotePort myip myport codecPcmu gain u =
      .ok (u₁, true))
    (lens : List ℕ) (hlens : ∀ n ∈ lens, 1 ≤ n ∧ n ≤ 720) :
    (∀ calls : List (List RtlSample), calls.map List.length = lens →
      ∃ u₂ packets, sendUDPPackets debuglevel u₁ calls = .ok (u₂, packets) ∧
        payloads packets =
          (pcmEncode debuglevel codecPcmu gain u₁.deemph calls.flatten).payload ∧
        u₂.timestamp = u₁.timestamp + BitVec.ofNat 32 (calls.flatten.length / 3)) ↔
      Aligned 3 lens := by
  obtain ⟨hs, hcodec, rfl, -, -⟩ := initUDP_session (Or.inl rfl) hinit
  rw [← forall_flatMap_blockMap_eq_iff (by decide) (uLawGroup_ne hgain)]
  -- call by call the payloads are those of the pieces
  apply forall_congr'
  intro calls
  apply imp_congr_right
  rintro rfl
  have hcalls : ∀ samples ∈ calls, samples.length ≤ 720 :=
    fun samples h => (hlens _ (List.mem_map_of_mem h)).2
  obtain ⟨u₂, packets, hrun, -, hts, -⟩ := sendUDPPackets_eq debuglevel hs hcalls
  have hpayloads := payloads_sendUDPPackets hoff hs hcodec hcalls hrun
  have hwhole : (pcmEncode debuglevel codecPcmu u₁.gain u₁.deemph calls.flatten).payload =
      blockMap 3 (uLawGroup u₁.gain) calls.flatten :=
    congrArg Encoded.payload (g711uLawEncode_eq hoff u₁.gain u₁.deemph calls.flatten)
  rw [hwhole]
  constructor
  · rintro ⟨u₃, packets', hrun', heq, -⟩
    obtain ⟨rfl, rfl⟩ : u₂ = u₃ ∧ packets = packets' := by simpa [hrun] using hrun'
    rw [← hpayloads, heq]
  · intro heq
    refine ⟨u₂, packets, hrun, hpayloads.trans heq, ?_⟩
    -- as many bytes are sent as the whole stream encodes to
    have hlen := congrArg List.length heq
    simp only [List.length_flatMap, length_blockMap] at hlen
    rw [hts, hlen]

/-- A short read at the end of a group does no harm. -/
theorem packetisation_short_last_read :
    ∃ u₁, initUDP ⟨some (Vector.replicate udpBufferSize 0), 3, 0, fun _ => none⟩
        (Vector.replicate rtpHdrLen 0).toList [] 5004 [] 5004 codecPcmu 2 Udp.init =
          .ok (u₁, true) ∧
      ∀ calls : List (List RtlSample), calls.map List.length = [720, 512] →
        ∃ u₂ packets, sendUDPPackets 0 u₁ calls = .ok (u₂, packets) ∧
          payloads packets = (pcmEncode 0 codecPcmu 2 u₁.deemph calls.flatten).payload ∧
          u₂.timestamp = u₁.timestamp + BitVec.ofNat 32 (calls.flatten.length / 3) := by
  let env : UdpEnv := ⟨some (Vector.replicate udpBufferSize 0), 3, 0, fun _ => none⟩
  have hmem : env.malloc = some (Vector.replicate udpBufferSize 0) := rfl
  obtain ⟨u₁, hinit⟩ := initUDP_succeeds hmem (by decide) (by decide)
    (Vector.replicate rtpHdrLen 0) [] [] 5004 5004 (Or.inl rfl) 2 Udp.init
  refine ⟨u₁, hinit, (packetisation_iff 0 (by decide) env _ [] [] 5004 5004 2 (by decide) Udp.init
    u₁ hinit [720, 512] (by simp)).mpr ?_⟩
  simp [aligned_cons, aligned_nil]

/-- Three samples read as one and two are not sent at all. -/
theorem packetisation_short_reads :
    ∃ u₁ u₂ packets, initUDP ⟨some (Vector.replicate udpBufferSize 0), 3, 0, fun _ => none⟩
        (Vector.replicate rtpHdrLen 0).toList [] 5004 [] 5004 codecPcmu 0 Udp.init =
          .ok (u₁, true) ∧
      sendUDPPackets 0 u₁ [[3], [6, 9]] = .ok (u₂, packets) ∧
      payloads packets = [] ∧ (pcmEncode 0 codecPcmu 0 u₁.deemph [3, 6, 9]).payload.length = 1 ∧
      u₂.timestamp ≠ u₁.timestamp + BitVec.ofNat 32 (3 / 3) := by
  let env : UdpEnv := ⟨some (Vector.replicate udpBufferSize 0), 3, 0, fun _ => none⟩
  have hmem : env.malloc = some (Vector.replicate udpBufferSize 0) := rfl
  obtain ⟨u₁, hinit⟩ := initUDP_succeeds hmem (by decide) (by decide)
    (Vector.replicate rtpHdrLen 0) [] [] 5004 5004 (Or.inl rfl) 0 Udp.init
  obtain ⟨hs, hcodec, -, -, -⟩ := initUDP_session (Or.inl rfl) hinit
  have hcalls : ∀ samples ∈ ([[3], [6, 9]] : List (List RtlSample)), samples.length ≤ 720 := by
    simp
  obtain ⟨u₂, packets, hrun, -, hts, -⟩ := sendUDPPackets_eq 0 hs hcalls
  refine ⟨u₁, u₂, packets, hinit, hrun, ?_, ?_, ?_⟩
  · rw [payloads_sendUDPPackets (by decide) hs hcodec hcalls hrun]
    rfl
  · exact (length_pcmEncode 0 (Or.inl rfl) 0 u₁.deemph [3, 6, 9]).1
  · rw [hts]
    simp

end PiWxRx
