import PiWxRx.Audio.Udp
import PiWxRx.General.Runs

/-!
# Sessions

`StartUDP` and `StopUDP` (`rtl.c`) around `InitUDP` and `CloseUDP` (`udp.c`), and the timer thread
that sends while `SendingUDP` is set, in any order. The packet buffer and the socket are resources:
a step that frees a buffer or closes a socket that is not held is a fault.

`UDPbufferPtr` is never reset, `InitUDP` overwrites the codec, the pointer and the descriptor before
it fails, and `CloseUDP` looks at the codec only. `safe_of_inOrder` says which orders of calls are
safe all the same, and `unsafe_of_not_inOrder` that no others are.
-/

namespace PiWxRx

open Runs

/-! ## States and steps -/

/-- What is wrong with a `CloseUDP`. -/
inductive CloseFault where
  /-- The buffer freed is not allocated. -/
  | doubleFree
  /-- The socket closed is not open. -/
  | notOpen
  deriving DecidableEq, Repr

/-- `CloseUDP`, with `CloseSocket`. -/
def closeUDP (u : Udp) : Except CloseFault Udp :=
  if u.codec ≠ codecNone then do
    let u ←
      match u.udpBufferPtr with
      | none => pure u
      | some ptr =>
        -- the pointer is not reset
        if (u.heap ptr).isSome then pure { u with heap := Function.update u.heap ptr none }
        else throw .doubleFree
    if u.datagram ∈ u.openSockets then
      pure { u with openSockets := u.openSockets.erase u.datagram }
    else
      throw .notOpen
  else
    pure u

/-- The variables of `udp.c` and the flag of the timer thread. -/
structure Sender where
  udp : Udp
  /-- `SendingUDP`. -/
  sendingUDP : Bool

/-- Program start. -/
def Sender.start : Sender where
  udp := Udp.init
  sendingUDP := false

/-- The arguments of a `StartUDP` call, and what the system calls in it answer. -/
structure StartArgs where
  env : UdpEnv
  hdr : List UdpByte
  /-- The header fits the packet buffer. -/
  length_hdr : hdr.length ≤ udpBufferSize
  remoteip : List Char
  remotePort : ℕ
  myip : List Char
  myport : ℕ
  codec : ℤ
  gain : ℕ

/-- `StartUDP`. -/
def startUDP (args : StartArgs) (s : Sender) : Except UdpFault (Sender × Bool) := do
  let (udp, ok) ← initUDP args.env args.hdr args.remoteip args.remotePort args.myip args.myport
    args.codec args.gain s.udp
  if ok then
    return ({ udp, sendingUDP := true }, true)
  else
    return ({ s with udp }, false)

/-- `StopUDP`. -/
def stopUDP (s : Sender) : Except CloseFault Sender := do
  let udp ← closeUDP s.udp
  return { udp, sendingUDP := false }

/-- A call, or a packet of the timer thread. -/
inductive SenderAction where
  | start (args : StartArgs)
  | stop
  /-- `SendUDPPacket`, called while `SendingUDP` is set. -/
  | send (debuglevel : BitVec 32) (samples : List RtlSample)

/-- One step. There is none after a fault. -/
def senderStep (s : Sender) : SenderAction → Option Sender
  | .start args => (startUDP args s).toOption.map Prod.fst
  | .stop => (stopUDP s).toOption
  | .send debuglevel samples =>
    if s.sendingUDP then
      (sendUDPPacket debuglevel s.udp samples).toOption.map fun sent => { s with udp := sent.1 }
    else
      none

/-! ## Safety -/

/-- No buffer and no socket is held. -/
def NothingHeld (u : Udp) : Prop := (∀ ptr, u.heap ptr = none) ∧ u.openSockets = []

/-- What a step must not break: a `StopUDP` frees and closes what is held and leaves nothing held,
and a packet is built in a buffer that is there. -/
def Safe (s : Sender) : SenderAction → Prop
  | .start _ => True
  | .stop => ∃ t, stopUDP s = .ok t ∧ NothingHeld t.udp
  | .send debuglevel samples => s.sendingUDP = true →
      sendUDPPacket debuglevel s.udp samples ≠ .error .absentBuffer ∧
        sendUDPPacket debuglevel s.udp samples ≠ .error .releasedBuffer

/-- The orders of calls that are safe.

* `StartUDP` comes when nothing is held; if its `malloc` fails, nothing was being sent to `stdout`.
* `StopUDP` comes with the socket open, unless the codec is `CODEC_NONE`. -/
def InOrder (s : Sender) : SenderAction → Prop
  | .start args => NothingHeld s.udp ∧
      (args.codec ≠ codecNone → args.env.malloc = none → s.sendingUDP = false)
  | .stop => s.udp.codec ≠ codecNone → s.udp.datagram ∈ s.udp.openSockets
  | .send _ _ => True

/-! ## What the calls do -/

/-- The packet buffer `InitUDP` sets up in the memory it gets. -/
def StartArgs.newBuffer (args : StartArgs) (memory : Vector UdpByte udpBufferSize) : List UdpByte :=
  (args.hdr ++ memory.toList.drop args.hdr.length).modify hdr2 (· ||| mark)

/-- The variables before `InitUDP` opens the socket. -/
def StartArgs.newUdp (args : StartArgs) (memory : Vector UdpByte udpBufferSize) (u : Udp) : Udp :=
  { u with
    codec := args.codec
    gain := args.gain
    udpBufferPtr := some u.nextBlock
    heap := Function.update u.heap u.nextBlock (some (args.newBuffer memory))
    nextBlock := u.nextBlock + 1
    sequence := headerSequence (args.newBuffer memory)
    timestamp := headerTimestamp (args.newBuffer memory) }

/-- What `OpenSocket` makes of it. -/
def StartArgs.openSocket (args : StartArgs) (u : Udp) : Udp × Bool :=
  PiWxRx.openSocket args.env args.remoteip.tail args.remotePort args.myip.tail args.myport u

/-- Without a codec `StartUDP` succeeds and acquires nothing. -/
theorem startUDP_none {args : StartArgs} (h : args.codec = codecNone) (s : Sender) :
    startUDP args s =
      .ok ({ udp := { s.udp with codec := args.codec, gain := args.gain }, sendingUDP := true },
        true) := by
  simp [startUDP, initUDP, h, bind, Except.bind, pure, Except.pure]

/-- Without memory it fails. -/
theorem startUDP_noMemory {args : StartArgs} (h : args.codec ≠ codecNone)
    (hmem : args.env.malloc = none) (s : Sender) :
    startUDP args s =
      .ok ({ s with
        udp := { s.udp with codec := args.codec, gain := args.gain, udpBufferPtr := none } },
        false) := by
  simp [startUDP, initUDP, h, hmem, bind, Except.bind, pure, Except.pure]

/-- With memory the socket decides. -/
theorem startUDP_memory {args : StartArgs} (h : args.codec ≠ codecNone)
    {memory : Vector UdpByte udpBufferSize} (hmem : args.env.malloc = some memory) (s : Sender) :
    startUDP args s =
      .ok ({ udp := (args.openSocket (args.newUdp memory s.udp)).1
             sendingUDP := (args.openSocket (args.newUdp memory s.udp)).2 || s.sendingUDP },
        (args.openSocket (args.newUdp memory s.udp)).2) := by
  have hcopy : copyInto memory.toList 0 args.hdr =
      .ok (args.hdr ++ memory.toList.drop args.hdr.length) := by
    simp [copyInto, args.length_hdr]
  have hinit : initUDP args.env args.hdr args.remoteip args.remotePort args.myip args.myport
      args.codec args.gain s.udp = .ok (args.openSocket (args.newUdp memory s.udp)) := by
    simp only [initUDP, if_neg h, hmem, hcopy, bind, Except.bind, pure, Except.pure]
    rfl
  rw [startUDP, hinit]
  cases hok : (args.openSocket (args.newUdp memory s.udp)).2 <;>
    simp [bind, Except.bind, pure, Except.pure, hok]

/-- `StartUDP` answers in every case. -/
theorem startUDP_ok (args : StartArgs) (s : Sender) : ∃ t ok, startUDP args s = .ok (t, ok) := by
  by_cases hcodec : args.codec = codecNone
  · exact ⟨_, _, startUDP_none hcodec s⟩
  · cases hmem : args.env.malloc with
    | none => exact ⟨_, _, startUDP_noMemory hcodec hmem s⟩
    | some memory => exact ⟨_, _, startUDP_memory hcodec hmem s⟩

/-- What a call can lead to: with a codec, the variables are overwritten whether or not it
succeeds. -/
theorem startUDP_cases {args : StartArgs} {s t : Sender} {ok : Bool}
    (h : startUDP args s = .ok (t, ok)) :
    (args.codec = codecNone ∧ ok = true ∧
      t =
        { udp := { s.udp with codec := args.codec, gain := args.gain }, sendingUDP := true }) ∨
    args.codec ≠ codecNone ∧
      ((args.env.malloc = none ∧ ok = false ∧
          t =
            { s with
              udp :=
                { s.udp with codec := args.codec, gain := args.gain, udpBufferPtr := none } }) ∨
        ∃ memory, args.env.malloc = some memory ∧
          ok = (args.openSocket (args.newUdp memory s.udp)).2 ∧
          t =
            { udp := (args.openSocket (args.newUdp memory s.udp)).1
              sendingUDP := ok || s.sendingUDP }) := by
  by_cases hcodec : args.codec = codecNone
  · rw [startUDP_none hcodec] at h
    obtain ⟨rfl, rfl⟩ := Prod.mk.inj (Except.ok.inj h)
    exact Or.inl ⟨hcodec, rfl, rfl⟩
  · -- `malloc` decides before `OpenSocket` is called
    refine Or.inr ⟨hcodec, ?_⟩
    cases hmem : args.env.malloc with
    | none =>
      rw [startUDP_noMemory hcodec hmem] at h
      obtain ⟨rfl, rfl⟩ := Prod.mk.inj (Except.ok.inj h)
      exact Or.inl ⟨rfl, rfl, rfl⟩
    | some memory =>
      rw [startUDP_memory hcodec hmem] at h
      obtain ⟨rfl, rfl⟩ := Prod.mk.inj (Except.ok.inj h)
      exact Or.inr ⟨memory, rfl, rfl, rfl⟩

/-- The destination of the packets after `OpenSocket`. -/
def StartArgs.newRemoteAddr (args : StartArgs) (u : Udp) : SockAddr where
  addr := (args.env.inetPton args.remoteip.tail).getD u.remoteAddr.addr
  port := BitVec.ofNat 16 args.remotePort

/-- `OpenSocket` sets the addresses and the descriptor, whether or not it succeeds. -/
theorem StartArgs.openSocket_fst (args : StartArgs) (u : Udp) :
    ∃ myAddr, (args.openSocket u).1 =
      { u with
        myAddr
        remoteAddr := args.newRemoteAddr u
        datagram := args.env.socket
        openSockets :=
          if args.env.socket < 0 then u.openSockets else args.env.socket :: u.openSockets } := by
  unfold StartArgs.openSocket PiWxRx.openSocket
  split
  · exact ⟨_, rfl⟩
  · exact ⟨_, rfl⟩

/-- With a codec, `StopUDP` frees the buffer and closes the socket, if it can. -/
theorem stopUDP_eq_ok {s t : Sender} (h : stopUDP s = .ok t) :
    t.sendingUDP = false ∧
      (s.udp.codec = codecNone ∧ t.udp = s.udp ∨
        s.udp.codec ≠ codecNone ∧ s.udp.datagram ∈ s.udp.openSockets ∧
          t.udp.openSockets = s.udp.openSockets.erase s.udp.datagram ∧
          ∀ k, some k ≠ s.udp.udpBufferPtr → t.udp.heap k = s.udp.heap k) := by
  by_cases hcodec : s.udp.codec = codecNone
  · obtain rfl : { udp := s.udp, sendingUDP := false } = t := by
      simpa [stopUDP, closeUDP, hcodec, bind, Except.bind, pure, Except.pure] using h
    exact ⟨rfl, Or.inl ⟨hcodec, rfl⟩⟩
  · simp only [stopUDP, closeUDP, hcodec, ne_eq, not_false_eq_true, ↓reduceIte, bind, Except.bind,
      pure, Except.pure, throw, throwThe, MonadExceptOf.throw] at h
    by_cases hopen : s.udp.datagram ∈ s.udp.openSockets
    · cases hptr : s.udp.udpBufferPtr with
      | none =>
        -- nothing to free
        simp only [hptr, hopen, if_true, Except.ok.injEq] at h
        subst h
        exact ⟨rfl, Or.inr ⟨hcodec, hopen, rfl, fun k _ => rfl⟩⟩
      | some ptr =>
        by_cases hheap : (s.udp.heap ptr).isSome
        · simp only [hptr, hopen, hheap, if_true, Except.ok.injEq] at h
          subst h
          refine ⟨rfl, Or.inr ⟨hcodec, hopen, rfl, fun k hk => ?_⟩⟩
          exact Function.update_of_ne (fun h => hk (congrArg some h)) _ _
        · simp [hptr, hheap] at h
    · cases hptr : s.udp.udpBufferPtr with
      | none => simp [hptr, hopen] at h
      | some ptr => by_cases hheap : (s.udp.heap ptr).isSome <;> simp [hptr, hopen, hheap] at h

/-- With its buffer and its socket held, `StopUDP` succeeds. -/
theorem stopUDP_session {s : Sender} (hcodec : s.udp.codec ≠ codecNone) {ptr : ℕ}
    (hptr : s.udp.udpBufferPtr = some ptr) (hheap : (s.udp.heap ptr).isSome)
    (hopen : s.udp.datagram ∈ s.udp.openSockets) :
    stopUDP s =
      .ok { udp :=
              { s.udp with
                heap := Function.update s.udp.heap ptr none
                openSockets := s.udp.openSockets.erase s.udp.datagram }
            sendingUDP := false } := by
  simp [stopUDP, closeUDP, hcodec, hptr, hheap, hopen, bind, Except.bind, pure, Except.pure]

/-- A second `StopUDP` finds the codec and the pointer still set. -/
theorem stopUDP_twice {s : Sender} (hcodec : s.udp.codec ≠ codecNone) {ptr : ℕ}
    (hptr : s.udp.udpBufferPtr = some ptr) (hheap : (s.udp.heap ptr).isSome)
    (hopen : s.udp.datagram ∈ s.udp.openSockets) :
    ∃ t, stopUDP s = .ok t ∧ stopUDP t = .error .doubleFree := by
  refine ⟨_, stopUDP_session hcodec hptr hheap hopen, ?_⟩
  simp [stopUDP, closeUDP, hcodec, hptr, bind, Except.bind, throw, throwThe, MonadExceptOf.throw]

/-- `SendUDPPacket` changes the contents of the packet buffer and the counters only. -/
theorem sendUDPPacket_frame {debuglevel : BitVec 32} {u u' : Udp} {samples : List RtlSample}
    {out : UdpOutput} (h : sendUDPPacket debuglevel u samples = .ok (u', out)) :
    u'.codec = u.codec ∧ u'.udpBufferPtr = u.udpBufferPtr ∧ u'.datagram = u.datagram ∧
      u'.openSockets = u.openSockets ∧ u'.nextBlock = u.nextBlock ∧
      (u'.heap = u.heap ∨ ∃ ptr old new, u.buffer = .ok (ptr, old) ∧
        u'.heap = Function.update u.heap ptr (some new)) := by
  simp only [sendUDPPacket, bind, Except.bind, pure, Except.pure, Udp.buffer_deemph] at h
  split at h
  · -- written to `stdout`
    obtain ⟨rfl, -⟩ := Prod.mk.inj (Except.ok.inj h)
    exact ⟨rfl, rfl, rfl, rfl, rfl, Or.inl rfl⟩
  · split at h
    · cases h
    · split at h
      · cases h
      · obtain ⟨rfl, -⟩ := Prod.mk.inj (Except.ok.inj h)
        exact ⟨rfl, rfl, rfl, rfl, rfl, Or.inr ⟨_, _, _, ‹_›, rfl⟩⟩

/-- Apart from an overrun only the buffer pointer can be at fault, and only with a codec. -/
theorem sendUDPPacket_fault {debuglevel : BitVec 32} {u : Udp} {samples : List RtlSample}
    {fault : UdpFault} (h : sendUDPPacket debuglevel u samples = .error fault) :
    fault = .overrun ∨ u.codec ≠ codecNone ∧ u.buffer = .error fault := by
  simp only [sendUDPPacket, bind, Except.bind, pure, Except.pure, Udp.buffer_deemph] at h
  split at h
  · cases h
  · rename_i hcodec
    split at h
    · rename_i hbuf
      exact Or.inr ⟨hcodec, hbuf.trans (congrArg Except.error (Except.error.inj h))⟩
    · split at h
      · rename_i hcopy
        left
        unfold copyInto at hcopy
        split at hcopy
        · cases hcopy
        · exact (Except.error.inj h).symm.trans (Except.error.inj hcopy).symm
      · cases h

theorem senderStep_start {args : StartArgs} {s t : Sender}
    (h : senderStep s (.start args) = some t) : ∃ ok, startUDP args s = .ok (t, ok) := by
  obtain ⟨u, ok, hu⟩ := startUDP_ok args s
  rw [senderStep, hu] at h
  obtain rfl : u = t := Option.some.inj h
  exact ⟨ok, hu⟩

theorem senderStep_stop {s t : Sender} (h : senderStep s .stop = some t) : stopUDP s = .ok t := by
  rw [senderStep] at h
  cases hres : stopUDP s with
  | error fault => simp [hres, Except.toOption] at h
  | ok u => rw [Option.some.inj (show some u = some t by rwa [hres] at h)]

/-- The timer thread sends while `SendingUDP` is set. -/
theorem senderStep_send {debuglevel : BitVec 32} {samples : List RtlSample} {s t : Sender}
    (h : senderStep s (.send debuglevel samples) = some t) :
    s.sendingUDP = true ∧
      ∃ u out, sendUDPPacket debuglevel s.udp samples = .ok (u, out) ∧ t = { s with udp := u } := by
  simp only [senderStep, Option.ite_none_right_eq_some, Option.map_eq_some_iff] at h
  obtain ⟨hsending, ⟨u, out⟩, hsend, rfl⟩ := h
  refine ⟨hsending, u, out, ?_, rfl⟩
  cases hres : sendUDPPacket debuglevel s.udp samples with
  | error fault => simp [hres, Except.toOption] at hsend
  | ok res => simpa [hres, Except.toOption] using hsend

/-! ## Runs in order -/

/-- A codec is set, the buffer pointer refers to the only buffer held, and no other socket than
`datagram` is open. -/
def Udp.OneSession (u : Udp) : Prop :=
  u.codec ≠ codecNone ∧ (u.openSockets = [] ∨ u.openSockets = [u.datagram]) ∧
    ∃ ptr buf, u.udpBufferPtr = some ptr ∧ u.heap = Function.update (fun _ => none) ptr (some buf)

/-- What calls in order keep: nothing is held or one session is, and the timer thread sends packets
only in a session. Fresh blocks are fresh. -/
structure Sender.Tidy (s : Sender) : Prop where
  held : NothingHeld s.udp ∨ s.udp.OneSession
  sending : s.sendingUDP = true → s.udp.codec = codecNone ∨ s.udp.OneSession
  fresh : ∀ k, s.udp.nextBlock ≤ k → s.udp.heap k = none

theorem tidy_start : Sender.start.Tidy where
  held := Or.inl ⟨fun _ => rfl, rfl⟩
  sending h := by simp [Sender.start] at h
  fresh _ _ := rfl

/-- With nothing held before, `InitUDP` with memory opens one session, complete or not. -/
theorem oneSession_newUdp {args : StartArgs} (hcodec : args.codec ≠ codecNone)
    (memory : Vector UdpByte udpBufferSize) {u : Udp} (hu : NothingHeld u) :
    (args.openSocket (args.newUdp memory u)).1.OneSession := by
  obtain ⟨myAddr, hfst⟩ := args.openSocket_fst (args.newUdp memory u)
  rw [hfst]
  refine ⟨hcodec, ?_, u.nextBlock, args.newBuffer memory, rfl, ?_⟩
  · change (if _ then u.openSockets else _ :: u.openSockets) = [] ∨
      (if _ then u.openSockets else _ :: u.openSockets) = [args.env.socket]
    rw [hu.2]
    split
    · exact Or.inl rfl
    · exact Or.inr rfl
  · exact congrArg (Function.update · u.nextBlock (some (args.newBuffer memory))) (funext hu.1)

/-- A call in order is safe, and the next call starts from a tidy state again. -/
theorem Sender.Tidy.safe {s : Sender} (h : s.Tidy) {a : SenderAction} (ha : InOrder s a) :
    Safe s a := by
  cases a with
  | start args => trivial
  | stop =>
    by_cases hcodec : s.udp.codec = codecNone
    · -- without a codec nothing is done, and nothing was held
      refine ⟨{ udp := s.udp, sendingUDP := false }, ?_, h.held.resolve_right fun h => h.1 hcodec⟩
      simp [stopUDP, closeUDP, hcodec, bind, Except.bind, pure, Except.pure]
    · have hopen := ha hcodec
      have hsession := h.held.resolve_left fun hn => by simp [hn.2] at hopen
      obtain ⟨-, hsockets, ptr, buf, hptr, hheap⟩ := hsession
      have hsockets := hsockets.resolve_left fun hn => by simp [hn] at hopen
      refine ⟨_, stopUDP_session hcodec hptr (by simp [hheap]) hopen, fun k => ?_, ?_⟩
      · simp [hheap]
      · simp [hsockets]
  | send debuglevel samples =>
    intro hsending
    have hfault : ∀ fault, sendUDPPacket debuglevel s.udp samples = .error fault →
        fault = .overrun := fun fault hf => by
      refine (sendUDPPacket_fault hf).resolve_right fun ⟨hcodec, hbuf⟩ => ?_
      obtain ⟨-, -, ptr, buf, hptr, hheap⟩ := (h.sending hsending).resolve_left hcodec
      rw [Udp.buffer_eq_ok_iff.mpr ⟨hptr, by rw [hheap, Function.update_self]⟩] at hbuf
      cases hbuf
    refine ⟨fun hf => ?_, fun hf => ?_⟩ <;> cases hfault _ hf

/-- A packet leaves the session as it is. -/
theorem OneSession.of_send {debuglevel : BitVec 32} {u u' : Udp} {samples : List RtlSample}
    {out : UdpOutput} (h : sendUDPPacket debuglevel u samples = .ok (u', out))
    (hu : u.OneSession) : u'.OneSession := by
  obtain ⟨hcodec, hptr, hdatagram, hopen, -, hheap⟩ := sendUDPPacket_frame h
  obtain ⟨hne, hsockets, ptr, buf, hptr₀, hheap₀⟩ := hu
  refine ⟨hcodec.symm ▸ hne, by rwa [hopen, hdatagram], ?_⟩
  rcases hheap with hheap | ⟨ptr', old, new, hbuf, hheap⟩
  · exact ⟨ptr, buf, hptr.trans hptr₀, hheap.trans hheap₀⟩
  · obtain rfl : ptr = ptr' :=
      Option.some.inj (hptr₀.symm.trans (Udp.buffer_eq_ok_iff.mp hbuf).1)
    exact ⟨ptr, new, hptr.trans hptr₀, by rw [hheap, hheap₀, Function.update_idem]⟩

theorem Sender.Tidy.step {s t : Sender} (h : s.Tidy) {a : SenderAction} (ha : InOrder s a)
    (hst : senderStep s a = some t) : t.Tidy := by
  cases a with
  | start args =>
    obtain ⟨hnothing, hmalloc⟩ := ha
    obtain ⟨ok, hok⟩ := senderStep_start hst
    rcases startUDP_cases hok with
      ⟨hcodec, -, rfl⟩ | ⟨hcodec, ⟨hmem, -, rfl⟩ | ⟨memory, -, -, rfl⟩⟩
    · -- to `stdout`: nothing is allocated
      exact ⟨Or.inl hnothing, fun _ => Or.inl hcodec, h.fresh⟩
    · -- `malloc` fails, and nothing was being sent
      refine ⟨Or.inl hnothing, fun hs => ?_, h.fresh⟩
      exact absurd (hmalloc hcodec hmem) (by simpa using hs)
    · -- a buffer and a socket; blocks from the next one on stay fresh
      have hsession := oneSession_newUdp hcodec memory hnothing
      refine ⟨Or.inr hsession, fun _ => Or.inr hsession, fun k hk => ?_⟩
      obtain ⟨myAddr, hfst⟩ := args.openSocket_fst (args.newUdp memory s.udp)
      rw [hfst] at hk ⊢
      change s.udp.nextBlock + 1 ≤ k at hk
      exact (Function.update_of_ne (by omega) _ _).trans (h.fresh k (by omega))
  | stop =>
    obtain ⟨u, hu, hheld⟩ := h.safe (a := .stop) ha
    rw [senderStep, hu] at hst
    obtain rfl : u = t := Option.some.inj hst
    refine ⟨Or.inl hheld, fun hs => ?_, fun k _ => hheld.1 k⟩
    rw [(stopUDP_eq_ok hu).1] at hs
    cases hs
  | send debuglevel samples =>
    obtain ⟨hsending, u, out, hsend, rfl⟩ := senderStep_send hst
    have hsession := OneSession.of_send hsend
    obtain ⟨hcodec, -, -, hopen, hnext, hheap⟩ := sendUDPPacket_frame hsend
    refine ⟨?_, fun hs => ?_, fun k hk => ?_⟩
    · refine h.held.imp (fun hn => ⟨fun k => ?_, hopen.trans hn.2⟩) hsession
      rcases hheap with hheap | ⟨ptr, old, new, hbuf, -⟩
      · rw [hheap, hn.1 k]
      · -- no packet is built in a buffer that is not there
        have := (Udp.buffer_eq_ok_iff.mp hbuf).2
        simp [hn.1 ptr] at this
    · exact (h.sending hsending).imp hcodec.trans hsession
    · rw [hnext] at hk
      rcases hheap with hheap | ⟨ptr, old, new, hbuf, hheap⟩
      · rw [hheap, h.fresh k hk]
      · rw [hheap, Function.update_of_ne, h.fresh k hk]
        rintro rfl
        have := (Udp.buffer_eq_ok_iff.mp hbuf).2
        simp [h.fresh k hk] at this

/-- Calls in order keep the sender tidy. -/
theorem tidy_of_inOrder {as : List SenderAction} (h : Along senderStep InOrder Sender.start as) :
    AlongStates senderStep Sender.Tidy Sender.start as :=
  run_induction (fun _ _ _ hs ha hst => hs.step ha hst) tidy_start h

/-! ## Calls out of order -/

/-- A buffer held stays held through any `StartUDP`, and the pointer is lost. -/
theorem startUDP_keeps {s t : Sender} {args : StartArgs} (hst : senderStep s (.start args) = some t)
    {ptr : ℕ} (hptr : ptr < s.udp.nextBlock) :
    t.udp.heap ptr = s.udp.heap ptr ∧
      (t.udp.codec = codecNone ∨ t.udp.udpBufferPtr ≠ some ptr) := by
  obtain ⟨ok, hok⟩ := senderStep_start hst
  rcases startUDP_cases hok with ⟨hcodec, -, rfl⟩ | ⟨-, ⟨-, -, rfl⟩ | ⟨memory, -, -, rfl⟩⟩
  · exact ⟨rfl, Or.inl hcodec⟩
  · exact ⟨rfl, Or.inr (by simp)⟩
  · obtain ⟨myAddr, hfst⟩ := args.openSocket_fst (args.newUdp memory s.udp)
    rw [hfst]
    refine ⟨Function.update_of_ne hptr.ne _ _, Or.inr fun heq => ?_⟩
    exact absurd (Option.some.inj heq) hptr.ne'

/-- After a `StartUDP` while something is held, the next `StopUDP` does not release all of it. -/
theorem not_safe_stop_of_held {s t : Sender} (h : s.Tidy) (hheld : ¬ NothingHeld s.udp)
    {args : StartArgs} (hst : senderStep s (.start args) = some t) : ¬ Safe t .stop := by
  rintro ⟨u, hu, hnothing⟩
  obtain ⟨-, -, ptr, buf, hptr, hheap⟩ := h.held.resolve_left hheld
  have hblock : s.udp.heap ptr = some buf := by rw [hheap, Function.update_self]
  have hlt : ptr < s.udp.nextBlock := by
    by_contra hge
    rw [h.fresh ptr (by omega)] at hblock
    cases hblock
  obtain ⟨hkeep, hlost⟩ := startUDP_keeps hst hlt
  -- the stop does not touch the old buffer
  have hstill : u.udp.heap ptr = t.udp.heap ptr := by
    rcases (stopUDP_eq_ok hu).2 with ⟨-, hsame⟩ | ⟨hcodec, -, -, hsame⟩
    · rw [hsame]
    · exact hsame ptr (hlost.resolve_left hcodec).symm
  rw [hnothing.1 ptr, hkeep, hblock] at hstill
  cases hstill

/-- A step out of order is unsafe, or makes the next `StopUDP` or the next packet unsafe. -/
theorem unsafe_of_not_inOrder {s : Sender} (h : s.Tidy) {a : SenderAction} (ha : ¬ InOrder s a) :
    ∃ bs, ¬ Along senderStep Safe s (a :: bs) := by
  cases a with
  | start args =>
    by_cases hheld : NothingHeld s.udp
    · -- the allocation fails while the timer thread sends to `stdout`
      simp only [InOrder, hheld, true_and, Classical.not_imp, Bool.not_eq_false] at ha
      obtain ⟨hcodec, hmem, hsending⟩ := ha
      refine ⟨[.send 0 []], fun hall => ?_⟩
      have hst := congrArg (fun r => r.toOption.map Prod.fst) (startUDP_noMemory hcodec hmem s)
      have hsafe := (along_cons.mp ((along_cons.mp hall).2 _ hst)).1 hsending
      refine hsafe.1 ?_
      simp [sendUDPPacket, hcodec, Udp.buffer, bind, Except.bind]
    · refine ⟨[.stop], fun hall => ?_⟩
      obtain ⟨t, ok, hok⟩ := startUDP_ok args s
      have hst : senderStep s (.start args) = some t := by
        rw [senderStep, hok]
        rfl
      exact not_safe_stop_of_held h hheld hst (along_cons.mp ((along_cons.mp hall).2 t hst)).1
  | stop =>
    refine ⟨[], fun hall => ?_⟩
    obtain ⟨t, ht, -⟩ := (along_cons.mp hall).1
    simp only [InOrder, Classical.not_imp] at ha
    rcases (stopUDP_eq_ok ht).2 with ⟨hcodec, -⟩ | ⟨-, hopen, -⟩
    · exact ha.1 hcodec
    · exact ha.2 hopen
  | send debuglevel samples => exact absurd trivial ha

/-- **Sessions.** Every run of calls in order is safe, and every run in order goes wrong after a
step out of order: with that step, the next `StopUDP` or the next packet. -/
theorem safe_of_inOrder (as : List SenderAction)
    (horder : Along senderStep InOrder Sender.start as) :
    Along senderStep Safe Sender.start as ∧
      ∀ s a, run senderStep Sender.start as = some s → ¬ InOrder s a →
        ∃ bs, ¬ Along senderStep Safe Sender.start (as ++ a :: bs) := by
  have htidy := tidy_of_inOrder horder
  refine ⟨fun pre a post hsplit s hs => ?_, fun s a hs ha => ?_⟩
  · exact (htidy pre _ hsplit s hs).safe (horder pre a post hsplit s hs)
  · obtain ⟨bs, hbs⟩ := unsafe_of_not_inOrder (htidy as [] (List.append_nil as).symm s hs) ha
    refine ⟨bs, fun hall => hbs fun pre b post hsplit t ht => ?_⟩
    refine hall (as ++ pre) b post (by rw [hsplit, List.append_assoc]) t ?_
    rw [run_append, hs]
    exact ht

/-- A mu-law session for which all system calls succeed. -/
def goodStart : StartArgs where
  env := ⟨some (Vector.replicate udpBufferSize 0), 3, 0, fun _ => none⟩
  hdr := List.replicate rtpHdrLen 0
  length_hdr := by decide
  remoteip := []
  remotePort := 5004
  myip := []
  myport := 5004
  codec := codecPcmu
  gain := 0

/-- It leaves a codec, a buffer and an open socket. -/
theorem goodStart_step : ∃ s, senderStep Sender.start (.start goodStart) = some s ∧
    s.udp.codec ≠ codecNone ∧ s.udp.udpBufferPtr = some 0 ∧ (s.udp.heap 0).isSome ∧
    s.udp.datagram ∈ s.udp.openSockets := by
  have hstart := @startUDP_memory goodStart (by decide) _ rfl Sender.start
  obtain ⟨myAddr, hfst⟩ := goodStart.openSocket_fst
    (goodStart.newUdp (Vector.replicate udpBufferSize 0) Sender.start.udp)
  rw [hfst] at hstart
  refine ⟨_, by rw [senderStep, hstart]; rfl, ?_, rfl, rfl, List.mem_cons_self⟩
  exact (by decide : codecPcmu ≠ codecNone)

/-- One `StopUDP` after it is in order. -/
theorem goodStart_inOrder : Along senderStep InOrder Sender.start [.start goodStart, .stop] := by
  refine along_cons.mpr ⟨⟨⟨fun _ => rfl, rfl⟩, fun _ h => by cases h⟩, fun t ht => ?_⟩
  obtain ⟨s, hs, -, -, -, hopen⟩ := goodStart_step
  obtain rfl : s = t := Option.some.inj (hs.symm.trans ht)
  exact along_cons.mpr ⟨fun _ => hopen, fun _ _ => along_nil⟩

/-- A session that is started and stopped. -/
theorem safe_one_session :
    Along senderStep InOrder Sender.start [.start goodStart, .stop] ∧
      Along senderStep Safe Sender.start [.start goodStart, .stop] :=
  ⟨goodStart_inOrder, (safe_of_inOrder _ goodStart_inOrder).1⟩

/-- Stopped twice, the buffer of a session is freed twice. -/
theorem double_free : ∃ s, run senderStep Sender.start [.start goodStart, .stop] = some s ∧
    stopUDP s = .error .doubleFree ∧
    ¬ Along senderStep Safe Sender.start [.start goodStart, .stop, .stop] := by
  obtain ⟨s, hs, hcodec, hptr, hheap, hopen⟩ := goodStart_step
  obtain ⟨t, ht, hagain⟩ := stopUDP_twice hcodec hptr hheap hopen
  have hrun : run senderStep Sender.start [.start goodStart, .stop] = some t := by
    rw [run_cons, hs, Option.bind_some, run_cons, senderStep, ht]
    rfl
  refine ⟨t, hrun, hagain, fun hall => ?_⟩
  obtain ⟨u, hu, -⟩ := hall [.start goodStart, .stop] .stop [] rfl t hrun
  rw [hagain] at hu
  cases hu

end PiWxRx
