import PiWxRx.Audio.Codecs
import PiWxRx.General.BigEndian

/-!
# RTP packets

`udp.c` and `udpsocket.c`: `InitUDP` sets a transmission up from the header it is given, and
`SendUDPPacket` encodes the samples of a pipe read into the packet buffer behind the header, sends
the packet, and advances the header for the next one.

Memory and sockets are explicit. A buffer is a block of the `heap`, and access to a block that is
not there, or beyond its end, is a fault. What the system calls answer (`UdpEnv`) is an input.
-/

namespace PiWxRx

open BigEndian

/-- A `char` of the packet buffer. -/
abbrev UdpByte := BitVec 8

/-! ## Constants -/

/-- `RTP_HDRLEN`. -/
abbrev rtpHdrLen : ℕ := 12

/-- The size of the packet buffer: `2 * RTP_HDRLEN + (MAXUDPLEN + SPARE)`. -/
abbrev udpBufferSize : ℕ := 2 * 12 + (720 / 2 + 100)

/-- `HDR2`: second header byte. -/
abbrev hdr2 : ℕ := 1

/-- `SSEQ`: sequence number. -/
abbrev sseq : ℕ := 2

/-- `TIMESTAMP`: time stamp. -/
abbrev timestampPos : ℕ := 4

/-- `MARK`: mark bit. -/
abbrev mark : UdpByte := 0x80

/-! ## State -/

/-- `struct sockaddr_in`: an internet address and a port. -/
structure SockAddr where
  addr : BitVec 32
  port : BitVec 16
  deriving DecidableEq, Repr

/-- The static variables of `udp.c`, `udpsocket.c` and the de-emphasis filter, and the resources
they refer to. -/
structure Udp where
  codec : ℤ
  gain : ℕ
  sequence : BitVec 16
  timestamp : BitVec 32
  /-- `UDPbufferPtr`, the key of a block; `none` is `NULL`. -/
  udpBufferPtr : Option ℕ
  datagram : ℤ
  remoteAddr : SockAddr
  myAddr : SockAddr
  deemph : DeemphState
  /-- The blocks allocated and not freed. -/
  heap : ℕ → Option (List UdpByte)
  /-- The key of the next block. -/
  nextBlock : ℕ
  /-- The sockets open. -/
  openSockets : List ℤ

/-- Program start. -/
def Udp.init : Udp where
  codec := 0
  gain := 0
  sequence := 0
  timestamp := 0
  udpBufferPtr := none
  datagram := 0
  remoteAddr := { addr := 0, port := 0 }
  myAddr := { addr := 0, port := 0 }
  deemph := 0
  heap _ := none
  nextBlock := 0
  openSockets := []

/-- What the system calls of one `InitUDP` answer. -/
structure UdpEnv where
  /-- `malloc`: the bytes the new buffer happens to hold, or `NULL`. -/
  malloc : Option (Vector UdpByte udpBufferSize)
  /-- `socket`: a descriptor, negative on failure. -/
  socket : ℤ
  /-- `bind`: negative on failure. -/
  bind : ℤ
  /-- `inet_pton`, which leaves the address alone when it cannot read it. -/
  inetPton : List Char → Option (BitVec 32)

/-- A packet handed to `sendto`. -/
structure UdpPacket where
  datagram : ℤ
  remoteAddr : SockAddr
  bytes : List UdpByte
  deriving DecidableEq, Repr

/-- What a `SendUDPPacket` call puts out: samples on `stdout` or a packet. -/
structure UdpOutput where
  stdout : List RtlSample
  packet : Option UdpPacket
  deriving DecidableEq, Repr

/-- Memory faults. -/
inductive UdpFault where
  /-- The buffer pointer is `NULL`. -/
  | absentBuffer
  /-- The buffer was freed. -/
  | releasedBuffer
  /-- A copy runs over the end of the buffer. -/
  | overrun
  deriving DecidableEq, Repr

/-- The block the buffer pointer refers to. -/
def Udp.buffer (u : Udp) : Except UdpFault (ℕ × List UdpByte) :=
  match u.udpBufferPtr with
  | none => .error .absentBuffer
  | some ptr =>
    match u.heap ptr with
    | none => .error .releasedBuffer
    | some buf => .ok (ptr, buf)

theorem Udp.buffer_eq_ok_iff {u : Udp} {ptr : ℕ} {buf : List UdpByte} :
    u.buffer = .ok (ptr, buf) ↔ u.udpBufferPtr = some ptr ∧ u.heap ptr = some buf := by
  cases hptr : u.udpBufferPtr with
  | none => simp [Udp.buffer, hptr]
  | some key =>
    cases hheap : u.heap key with
    | none =>
      simp only [Udp.buffer, hptr, hheap, reduceCtorEq, Option.some.injEq, false_iff]
      rintro ⟨rfl, h⟩
      simp [hheap] at h
    | some block =>
      simp only [Udp.buffer, hptr, hheap, Except.ok.injEq, Prod.mk.injEq, Option.some.injEq]
      apply and_congr_right
      rintro rfl
      rw [hheap, Option.some.injEq]

/-- The buffer does not depend on the filter. -/
theorem Udp.buffer_deemph (u : Udp) (state : DeemphState) :
    { u with deemph := state }.buffer = u.buffer := rfl

/-- Copy `bytes` into `buf` from position `pos` on. -/
def copyInto (buf : List UdpByte) (pos : ℕ) (bytes : List UdpByte) :
    Except UdpFault (List UdpByte) :=
  if pos + bytes.length ≤ buf.length then
    .ok (buf.take pos ++ bytes ++ buf.drop (pos + bytes.length))
  else
    .error .overrun

/-! ## Functions -/

/-- `OpenSocket`. -/
def openSocket (env : UdpEnv) (remoteip : List Char) (remoteport : ℕ) (myip : List Char)
    (myport : ℕ) (u : Udp) : Udp × Bool :=
  let u :=
    { u with
      myAddr :=
        { port := BitVec.ofNat 16 myport, addr := (env.inetPton myip).getD u.myAddr.addr }
      remoteAddr :=
        { port := BitVec.ofNat 16 remoteport
          addr := (env.inetPton remoteip).getD u.remoteAddr.addr }
      datagram := env.socket }
  if env.socket < 0 then
    (u, false)
  else
    let u := { u with openSockets := env.socket :: u.openSockets }
    (u, !decide (env.bind < 0))

/-- `OpenSocket` changes the addresses and the sockets only. -/
theorem openSocket_frame (env : UdpEnv) (remoteip : List Char) (remoteport : ℕ) (myip : List Char)
    (myport : ℕ) (u : Udp) :
    ∃ myAddr remoteAddr datagram openSockets,
      (openSocket env remoteip remoteport myip myport u).1 =
        { u with myAddr, remoteAddr, datagram, openSockets } := by
  unfold openSocket
  split
  · exact ⟨_, _, _, u.openSockets, rfl⟩
  · exact ⟨_, _, _, _, rfl⟩

/-- The sequence number in a header. -/
def headerSequence (buf : List UdpByte) : BitVec 16 :=
  (unsignedByte (buf.getD sseq 0) <<< 8 ||| unsignedByte (buf.getD (sseq + 1) 0)).truncate 16

/-- The time stamp in a header. -/
def headerTimestamp (buf : List UdpByte) : BitVec 32 :=
  unsignedByte (buf.getD timestampPos 0) <<< 24 |||
    unsignedByte (buf.getD (timestampPos + 1) 0) <<< 16 |||
    unsignedByte (buf.getD (timestampPos + 2) 0) <<< 8 |||
    unsignedByte (buf.getD (timestampPos + 3) 0)

/-- `InitUDP`. The leading `/` of both addresses is skipped. -/
def initUDP (env : UdpEnv) (hdr : List UdpByte) (remoteip : List Char) (remotePort : ℕ)
    (myip : List Char) (myport : ℕ) (codectype : ℤ) (gainvalue : ℕ) (u : Udp) :
    Except UdpFault (Udp × Bool) := do
  let u := { u with codec := codectype, gain := gainvalue }
  if codectype = codecNone then
    return (u, true)
  match env.malloc with
  | none => return ({ u with udpBufferPtr := none }, false)
  | some memory =>
    -- copy the header into the buffer and mark the first packet
    let buf ← copyInto memory.toList 0 hdr
    let buf := buf.modify hdr2 (· ||| mark)
    let u :=
      { u with
        udpBufferPtr := some u.nextBlock
        heap := Function.update u.heap u.nextBlock (some buf)
        nextBlock := u.nextBlock + 1
        sequence := headerSequence buf
        timestamp := headerTimestamp buf }
    return openSocket env remoteip.tail remotePort myip.tail myport u

/-- The header update of `SendUDPPacket`: the mark bit off, the counters in their bytes. -/
def advanceHeader (sequence : BitVec 16) (timestamp : BitVec 32) (buf : List UdpByte) :
    List UdpByte :=
  let buf := buf.modify hdr2 (· &&& ~~~mark)
  let buf := buf.set sseq (lowByte ((sequence.signExtend 32).sshiftRight 8))
  let buf := buf.set (sseq + 1) (lowByte (sequence.signExtend 32))
  let buf := buf.set timestampPos (lowByte (timestamp >>> 24))
  let buf := buf.set (timestampPos + 1) (lowByte (timestamp >>> 16))
  let buf := buf.set (timestampPos + 2) (lowByte (timestamp >>> 8))
  buf.set (timestampPos + 3) (lowByte timestamp)

/-- `SendUDPPacket`. -/
def sendUDPPacket (debuglevel : BitVec 32) (u : Udp) (samples : List RtlSample) :
    Except UdpFault (Udp × UdpOutput) := do
  let encoded := pcmEncode debuglevel u.codec u.gain u.deemph samples
  let u := { u with deemph := encoded.state }
  -- if we are writing to stdout, just return here
  if u.codec = codecNone then
    return (u, { stdout := encoded.stdout, packet := none })
  let (ptr, buf) ← u.buffer
  -- the encoder writes behind the header
  let buf ← copyInto buf rtpHdrLen encoded.payload
  let packet : UdpPacket :=
    { datagram := u.datagram
      remoteAddr := u.remoteAddr
      bytes := buf.take (encoded.decimlength + rtpHdrLen) }
  -- update the header for the next packet
  let timestamp := u.timestamp + BitVec.ofNat 32 encoded.decimlength
  let sequence := u.sequence + 1
  let u :=
    { u with
      timestamp
      sequence
      heap := Function.update u.heap ptr (some (advanceHeader sequence timestamp buf)) }
  return (u, { stdout := encoded.stdout, packet := some packet })

/-- Successive `SendUDPPacket` calls, and the packets they send. -/
def sendUDPPackets (debuglevel : BitVec 32) (u : Udp) :
    List (List RtlSample) → Except UdpFault (Udp × List UdpPacket)
  | [] => return (u, [])
  | samples :: calls => do
    let (u, out) ← sendUDPPacket debuglevel u samples
    let (u, packets) ← sendUDPPackets debuglevel u calls
    return (u, out.packet.toList ++ packets)

/-- The packets of a run are that of its first call and those of the calls after it. -/
theorem sendUDPPackets_cons {debuglevel : BitVec 32} {u u₁ u₂ : Udp} {samples : List RtlSample}
    {out : UdpOutput} {calls : List (List RtlSample)} {packets : List UdpPacket}
    (hsend : sendUDPPacket debuglevel u samples = .ok (u₁, out))
    (hrun : sendUDPPackets debuglevel u₁ calls = .ok (u₂, packets)) :
    sendUDPPackets debuglevel u (samples :: calls) = .ok (u₂, out.packet.toList ++ packets) := by
  simp only [sendUDPPackets, hsend, bind, Except.bind, hrun, pure, Except.pure]

end PiWxRx
