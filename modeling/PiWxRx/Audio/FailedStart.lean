import PiWxRx.Audio.RtpHeader
import PiWxRx.Audio.Session

/-!
# A `StartUDP` that fails

What the timer thread sends after a `StartUDP` that returned `FALSE`, against what it would have
sent without the call. `SendingUDP` is set on success only, so that a failure makes no difference
while nothing is sent. `InitUDP` though has overwritten the codec, the gain, the buffer pointer, the
counters, the addresses and the descriptor by then. `leavesTransmission_iff` says when a session
that is running survives this.
-/

namespace PiWxRx

open Runs

/-! ## Later packets -/

/-- While packets are sent, the packet buffer is missing or starts with the header of the
variables. -/
def Sender.Buffered (s : Sender) : Prop :=
  s.sendingUDP = true → s.udp.codec ≠ codecNone →
    s.udp.udpBufferPtr = none ∨ ∃ hdr marker, s.udp.HasHeader hdr marker

/-- `InitUDP` with memory sets up a header and its counters. -/
theorem StartArgs.newBuffer_eq (args : StartArgs) (memory : Vector UdpByte udpBufferSize) :
    ∃ hdr rest, args.newBuffer memory =
        rtpHeader hdr true (headerSequence (args.newBuffer memory))
          (headerTimestamp (args.newBuffer memory)) ++ rest ∧
      rest.length + rtpHdrLen = udpBufferSize := by
  let buf := args.hdr ++ memory.toList.drop args.hdr.length
  have hlen : buf.length = udpBufferSize := by
    have h := args.length_hdr
    simp only [buf, List.length_append, List.length_drop, Vector.length_toList]
    omega
  have htake : (buf.take rtpHdrLen).length = rtpHdrLen := by
    rw [List.length_take, hlen]
    rfl
  -- its first twelve bytes, as the vector the header is described with
  let hdr : Vector UdpByte rtpHdrLen := ⟨(buf.take rtpHdrLen).toArray, htake⟩
  have hbuf : buf = hdr.toList ++ buf.drop rtpHdrLen := (List.take_append_drop rtpHdrLen buf).symm
  have hnew := modify_mark hdr (buf.drop rtpHdrLen)
  rw [← hbuf] at hnew
  change args.newBuffer memory = _ at hnew
  refine ⟨hdr, buf.drop rtpHdrLen, ?_, ?_⟩
  · rw [hnew, headerSequence_rtpHeader, headerTimestamp_rtpHeader]
  · rw [List.length_drop, hlen]
    rfl

theorem StartArgs.hasHeader_openSocket (args : StartArgs) (memory : Vector UdpByte udpBufferSize)
    (u : Udp) {hdr : Vector UdpByte rtpHdrLen} {marker : Bool} {rest : List UdpByte}
    (hnew : args.newBuffer memory =
      rtpHeader hdr marker (headerSequence (args.newBuffer memory))
        (headerTimestamp (args.newBuffer memory)) ++ rest)
    (hrest : rest.length + rtpHdrLen = udpBufferSize) :
    (args.openSocket (args.newUdp memory u)).1.HasHeader hdr marker := by
  obtain ⟨myAddr, hfst⟩ := args.openSocket_fst (args.newUdp memory u)
  rw [hfst]
  refine ⟨u.nextBlock, rest, Udp.buffer_eq_ok_iff.mpr ⟨rfl, ?_⟩, hrest⟩
  exact (Function.update_self _ _ _).trans (congrArg some hnew)

/-- A packet leaves a header behind. -/
theorem Udp.HasHeader.send {u u' : Udp} {hdr : Vector UdpByte rtpHdrLen} {marker : Bool}
    (hu : u.HasHeader hdr marker) (hcodec : u.codec ≠ codecNone) {debuglevel : BitVec 32}
    {samples : List RtlSample} {out : UdpOutput}
    (hsend : sendUDPPacket debuglevel u samples = .ok (u', out)) : u'.HasHeader hdr false := by
  by_cases hfit : rtpHdrLen +
      (pcmEncode debuglevel u.codec u.gain u.deemph samples).payload.length ≤ udpBufferSize
  · obtain ⟨v, hv, hheader, -⟩ := sendUDPPacket_hasHeader hcodec hu hfit
    obtain ⟨rfl, -⟩ := Prod.mk.inj (Except.ok.inj (hv.symm.trans hsend))
    exact hheader
  · cases (sendUDPPacket_overrun hcodec hu hfit).symm.trans hsend

theorem Sender.Buffered.step {s t : Sender} {a : SenderAction} (hs : s.Buffered)
    (ht : senderStep s a = some t) : t.Buffered := by
  intro hsending hcodec
  cases a with
  | start args =>
    obtain ⟨ok, hok⟩ := senderStep_start ht
    rcases startUDP_cases hok with ⟨hnone, -, rfl⟩ | ⟨-, ⟨-, -, rfl⟩ | ⟨memory, -, -, rfl⟩⟩
    · exact absurd hnone hcodec
    · exact Or.inl rfl
    · obtain ⟨hdr, rest, hnew, hrest⟩ := args.newBuffer_eq memory
      exact Or.inr ⟨hdr, true, args.hasHeader_openSocket memory s.udp hnew hrest⟩
  | stop =>
    rw [(stopUDP_eq_ok (senderStep_stop ht)).1] at hsending
    cases hsending
  | send debuglevel samples =>
    obtain ⟨hs', u, out, hsend, rfl⟩ := senderStep_send ht
    obtain ⟨hcodec', hptr', -⟩ := sendUDPPacket_frame hsend
    rcases hs hs' (hcodec' ▸ hcodec) with hptr | ⟨hdr, marker, hheader⟩
    · exact Or.inl (hptr'.trans hptr)
    · exact Or.inr ⟨hdr, false, hheader.send (hcodec' ▸ hcodec) hsend⟩

/-- Sessions with the same header and settings, whatever stands behind the header. -/
structure Udp.Alike (u v : Udp) : Prop where
  law : u.codec ≠ codecNone
  codec : v.codec = u.codec
  gain : v.gain = u.gain
  datagram : v.datagram = u.datagram
  remoteAddr : v.remoteAddr = u.remoteAddr
  deemph : v.deemph = u.deemph
  sequence : v.sequence = u.sequence
  timestamp : v.timestamp = u.timestamp
  header : ∃ hdr marker, u.HasHeader hdr marker ∧ v.HasHeader hdr marker

/-- They send the same packet and are alike again, or the packet fits in neither buffer. -/
theorem Udp.Alike.send {u v : Udp} (h : u.Alike v) (debuglevel : BitVec 32)
    (samples : List RtlSample) :
    (sendUDPPacket debuglevel u samples = .error .overrun ∧
        sendUDPPacket debuglevel v samples = .error .overrun) ∨
      ∃ u' v' out, sendUDPPacket debuglevel u samples = .ok (u', out) ∧
        sendUDPPacket debuglevel v samples = .ok (v', out) ∧ u'.Alike v' := by
  obtain ⟨hdr, marker, hu, hv⟩ := h.header
  have hlaw : v.codec ≠ codecNone := h.codec ▸ h.law
  -- codec, gain and filter state are the same, so the payload is
  have hencoded : pcmEncode debuglevel v.codec v.gain v.deemph samples =
      pcmEncode debuglevel u.codec u.gain u.deemph samples := by
    rw [h.codec, h.gain, h.deemph]
  by_cases hfit : rtpHdrLen +
      (pcmEncode debuglevel u.codec u.gain u.deemph samples).payload.length ≤ udpBufferSize
  · obtain ⟨u', hsu, hu', heapu, rfl⟩ := sendUDPPacket_hasHeader h.law hu hfit
    obtain ⟨v', hsv, hv', heapv, hv''⟩ := sendUDPPacket_hasHeader hlaw hv (hencoded ▸ hfit)
    refine Or.inr ⟨_, v', _, hsu, ?_, ?_⟩
    · rw [hsv]
      simp only [hencoded, h.datagram, h.remoteAddr, h.sequence, h.timestamp]
    · subst hv''
      exact
        { law := h.law
          codec := h.codec
          gain := h.gain
          datagram := h.datagram
          remoteAddr := h.remoteAddr
          deemph := congrArg Encoded.state hencoded
          sequence := congrArg (· + 1) h.sequence
          timestamp := by simp only [hencoded, h.timestamp]
          header := ⟨hdr, false, hu', hv'⟩ }
  · exact Or.inl ⟨sendUDPPacket_overrun h.law hu hfit,
      sendUDPPacket_overrun hlaw hv (hencoded ▸ hfit)⟩

end PiWxRx
