import PiWxRx.FSK.DspThread
import PiWxRx.Rings.Fifo

/-!
# The receive side as a network of threads

The timer thread appends the samples of each pipe read to the sample ring (`DSPDemod`). The DSP
thread takes them out one at a time and passes each received byte through `byteRx` (`RTLjni.c`) to
`databuffer_put`. The application takes the bytes out with `getRxByte`, that is `databuffer_get`,
and may call `DSPClearSync` at any time.

`receiveStep` interleaves them. Whatever the interleaving, as long as both rings keep within
capacity the threads compute what the demodulator computes on its own, without threads and rings
(`decodedBytes`), on the events in the order the DSP thread met them:

* `run_delivers`: in every state of a run the bytes taken are a prefix of the bytes decoded, and
  all of them once both consumers wait;
* `taken_of_undisturbed`: without clears and `DEBUG_WRITE` they depend on the 24 kHz samples alone.
-/

namespace PiWxRx

open Blocks CArith Circular Runs

variable {A : Arith} {oscLut : Vector OscValue lutSize}

/-! ## The demodulator on its own -/

/-- The bytes delivered by the events `es` from the state `s`. -/
def decodedBytes (A : Arith) (oscLut : Vector OscValue lutSize) (s : DspState)
    (es : List DspEvent) : List DemodByte :=
  (Mealy.outputs (dspStep A oscLut) (some s) es).filterMap (·.bind DspOut.byteRx)

/-- The sample of an event. -/
def DspEvent.sample? : DspEvent → Option RtlSample
  | .sample _ x => some x
  | .clearSync => none
  | .restart _ _ => none

/-- The samples among the events. -/
def samplesOf (es : List DspEvent) : List RtlSample := es.filterMap DspEvent.sample?

@[simp] theorem samplesOf_append (es fs : List DspEvent) :
    samplesOf (es ++ fs) = samplesOf es ++ samplesOf fs := List.filterMap_append

@[simp] theorem samplesOf_sample (debuglevel : BitVec 32) (sample : RtlSample) :
    samplesOf [.sample debuglevel sample] = [sample] := rfl

@[simp] theorem samplesOf_clearSync : samplesOf [.clearSync] = [] := rfl

theorem decodedBytes_append {s t : DspState} {es : List DspEvent}
    (ht : Mealy.final (dspStep A oscLut) (some s) es = some t) (fs : List DspEvent) :
    decodedBytes A oscLut s (es ++ fs) =
      decodedBytes A oscLut s es ++ decodedBytes A oscLut t fs := by
  rw [decodedBytes, Mealy.outputs_append, List.filterMap_append, ht]
  rfl

/-- One sample more. -/
theorem decodedBytes_sample {s t : DspState} {debuglevel : BitVec 32} {sample : RtlSample}
    {out : DspOut} (h : dspSample A oscLut debuglevel s sample = some (t, out)) :
    Mealy.final (dspStep A oscLut) (some s) [.sample debuglevel sample] = some t ∧
      decodedBytes A oscLut s [.sample debuglevel sample] = out.byteRx.toList := by
  have hstep : dspStep A oscLut (some s) (.sample debuglevel sample) = (some t, some out) := by
    simp only [dspStep, Option.bind_some, h]
  rw [decodedBytes, Mealy.final_cons, Mealy.outputs_cons, hstep]
  refine ⟨rfl, ?_⟩
  cases hbyte : out.byteRx <;> simp [hbyte]

/-! ## The network -/

/-- The two rings with their consumers and the variables of the DSP thread. -/
structure ReceiveState where
  samples : RingState RtlSample sampleBfrsiz
  dsp : DspState
  /-- All events of the demodulator, in order. -/
  handled : List DspEvent
  bytes : RingState DemodByte bufferSize

/-- A step of one of the threads. -/
inductive ReceiveAction where
  /-- The timer thread hands the samples of a pipe read to `DSPDemod`. -/
  | dspDemod (samples : List RtlSample)
  /-- The critical section of `dsp_threads_fn` up to `pthread_cond_wait`. -/
  | dspTest
  /-- `pthread_cond_wait` of `dsp_threads_fn` returns without a signal. -/
  | dspSpurious
  /-- The rest of an iteration of `dsp_threads_fn`. -/
  | dspIterate (debuglevel : BitVec 32)
  /-- The application calls `DSPClearSync`. -/
  | clearSync
  /-- The critical section of `databuffer_get` up to `pthread_cond_wait`. -/
  | getTest
  /-- `pthread_cond_wait` of `databuffer_get` returns without a signal. -/
  | getSpurious
  /-- The rest of `databuffer_get`. -/
  | getUse
  deriving DecidableEq, Repr

/-- After `DSPInit` and `databuffer_init`. -/
def ReceiveState.start (buffer : Vector RtlSample sampleBfrsiz) (dsp : DspState) :
    ReceiveState where
  samples := RingState.start buffer
  dsp := dsp
  handled := []
  bytes := dataBufferStart

/-- The argument of `byte_rx_func`, if it is called, goes through `byteRx` to `databuffer_put`. -/
def byteRx (bytes : RingState DemodByte bufferSize) :
    Option DemodByte → Option (RingState DemodByte bufferSize)
  | none => some bytes
  | some data => ringStep dataBufferOps bytes (.produce data)

/-- One step of the network. -/
def receiveStep (A : Arith) (oscLut : Vector OscValue lutSize) (s : ReceiveState) :
    ReceiveAction → Option ReceiveState
  | .dspDemod samples =>
    (ringStep sampleRingOps s.samples (.produce samples)).map fun samples => { s with samples }
  | .dspTest =>
    (ringStep sampleRingOps s.samples .test).map fun samples => { s with samples }
  | .dspSpurious =>
    (ringStep sampleRingOps s.samples .spurious).map fun samples => { s with samples }
  | .dspIterate debuglevel => do
    let samples ← ringStep sampleRingOps s.samples .use
    let sample ← samples.consumed.getLast?
    let (dsp, out) ← dspSample A oscLut debuglevel s.dsp sample
    let bytes ← byteRx s.bytes out.byteRx
    some { samples, dsp, handled := s.handled ++ [.sample debuglevel sample], bytes }
  | .clearSync =>
    some { s with
      dsp := { s.dsp with rx := dspClearSync s.dsp.rx }
      handled := s.handled ++ [.clearSync] }
  | .getTest =>
    (ringStep dataBufferOps s.bytes .test).map fun bytes => { s with bytes }
  | .getSpurious =>
    (ringStep dataBufferOps s.bytes .spurious).map fun bytes => { s with bytes }
  | .getUse =>
    (ringStep dataBufferOps s.bytes .use).map fun bytes => { s with bytes }

/-- What an iteration of the DSP thread does: it uses a sample of its ring, moves the demodulator,
and puts the byte received, if there is one. -/
theorem receiveStep_dspIterate {s t : ReceiveState} {debuglevel : BitVec 32}
    (h : receiveStep A oscLut s (.dspIterate debuglevel) = some t) :
    ∃ sample out, ringStep sampleRingOps s.samples .use = some t.samples ∧
      t.samples.consumed = s.samples.consumed ++ [sample] ∧
      dspSample A oscLut debuglevel s.dsp sample = some (t.dsp, out) ∧
      byteRx s.bytes out.byteRx = some t.bytes ∧
      t.handled = s.handled ++ [.sample debuglevel sample] := by
  simp only [receiveStep, Option.bind_eq_bind, Option.bind_eq_some_iff] at h
  obtain ⟨samples, huse, sample, hlast, ⟨dsp, out⟩, hdsp, bytes, hbytes, hst⟩ := h
  obtain rfl := Option.some.inj hst
  refine ⟨sample, out, huse, ?_, hdsp, hbytes, rfl⟩
  obtain ⟨x, -, -, rfl⟩ := ringStep_use sampleRingOps_lawful huse
  simp only [List.getLast?_append, List.getLast?_singleton, Option.some_or,
    Option.some.injEq] at hlast
  rw [hlast]

/-- What an action does to the sample ring. -/
def ReceiveAction.onSamples : ReceiveAction → Option (RingAction (List RtlSample))
  | .dspDemod samples => some (.produce samples)
  | .dspTest => some .test
  | .dspSpurious => some .spurious
  | .dspIterate _ => some .use
  | .clearSync => none
  | .getTest => none
  | .getSpurious => none
  | .getUse => none

/-- The sample ring takes its own steps in the network. -/
theorem samples_receiveStep {s t : ReceiveState} {a : ReceiveAction}
    (h : receiveStep A oscLut s a = some t) :
    (a.onSamples = none ∧ t.samples = s.samples) ∨
      ∃ b, a.onSamples = some b ∧ ringStep sampleRingOps s.samples b = some t.samples := by
  cases a with
  | dspIterate debuglevel =>
    obtain ⟨sample, out, huse, -⟩ := receiveStep_dspIterate h
    exact Or.inr ⟨.use, rfl, huse⟩
  | dspDemod | dspTest | dspSpurious =>
    rw [receiveStep, Option.map_eq_some_iff] at h
    obtain ⟨r, hr, rfl⟩ := h
    exact Or.inr ⟨_, rfl, hr⟩
  | clearSync =>
    obtain rfl := Option.some.inj h
    exact Or.inl ⟨rfl, rfl⟩
  | getTest | getSpurious | getUse =>
    rw [receiveStep, Option.map_eq_some_iff] at h
    obtain ⟨r, -, rfl⟩ := h
    exact Or.inl ⟨rfl, rfl⟩

/-- The byte ring takes its own steps too: an iteration of the DSP thread puts at most one byte,
and `databuffer_get` does the rest. -/
theorem bytes_receiveStep {s t : ReceiveState} {a : ReceiveAction}
    (h : receiveStep A oscLut s a = some t) :
    t.bytes = s.bytes ∨
      ∃ b, ringStep dataBufferOps s.bytes b = some t.bytes ∧ (b = .spurious → a = .getSpurious) ∧
        (b.batch? = none ∨ ∃ debuglevel, a = .dspIterate debuglevel) := by
  cases a with
  | dspIterate debuglevel =>
    obtain ⟨sample, out, -, -, -, hbytes, -⟩ := receiveStep_dspIterate h
    cases hbyte : out.byteRx with
    | none =>
      rw [hbyte] at hbytes
      exact Or.inl (Option.some.inj hbytes).symm
    | some data =>
      rw [hbyte] at hbytes
      exact Or.inr ⟨.produce data, hbytes, by simp, Or.inr ⟨debuglevel, rfl⟩⟩
  | dspDemod | dspTest | dspSpurious =>
    rw [receiveStep, Option.map_eq_some_iff] at h
    obtain ⟨r, -, rfl⟩ := h
    exact Or.inl rfl
  | clearSync =>
    obtain rfl := Option.some.inj h
    exact Or.inl rfl
  | getTest | getSpurious | getUse =>
    rw [receiveStep, Option.map_eq_some_iff] at h
    obtain ⟨r, hr, rfl⟩ := h
    exact Or.inr ⟨_, hr, by simp, Or.inl rfl⟩

/-- The demodulator moves when the DSP thread iterates and when sync is cleared. Other steps take no
sample and put no byte. -/
theorem dsp_receiveStep {s t : ReceiveState} {a : ReceiveAction}
    (h : receiveStep A oscLut s a = some t) :
    (∃ debuglevel, a = .dspIterate debuglevel) ∨
      (a = .clearSync ∧ t.dsp = { s.dsp with rx := dspClearSync s.dsp.rx } ∧
        t.handled = s.handled ++ [.clearSync]) ∨
      (a ≠ .clearSync ∧ t.dsp = s.dsp ∧ t.handled = s.handled ∧
        t.samples.consumed = s.samples.consumed ∧ t.bytes.produced = s.bytes.produced) := by
  cases a with
  | dspIterate debuglevel => exact Or.inl ⟨debuglevel, rfl⟩
  | clearSync =>
    obtain rfl := Option.some.inj h
    exact Or.inr (Or.inl ⟨rfl, rfl, rfl⟩)
  | dspDemod | dspTest | dspSpurious =>
    rw [receiveStep, Option.map_eq_some_iff] at h
    obtain ⟨r, hr, rfl⟩ := h
    have hcons := (ringStep_histories sampleRingOps_lawful hr).2.2 (by simp)
    exact Or.inr (Or.inr ⟨by simp, rfl, rfl, hcons, rfl⟩)
  | getTest | getSpurious | getUse =>
    rw [receiveStep, Option.map_eq_some_iff] at h
    obtain ⟨r, hr, rfl⟩ := h
    have hprod := (ringStep_histories dataBufferOps_lawful hr).1
    exact Or.inr (Or.inr ⟨by simp, rfl, rfl, rfl, hprod.trans (List.append_nil _)⟩)

/-- `byteRx` appends the byte received. -/
theorem byteRx_produced {s t : RingState DemodByte bufferSize} {byte : Option DemodByte}
    (h : byteRx s byte = some t) : t.produced = s.produced ++ byte.toList := by
  cases byte with
  | none =>
    obtain rfl := Option.some.inj h
    exact (List.append_nil _).symm
  | some data =>
    rw [byteRx, ringStep_produce dataBufferOps_lawful] at h
    obtain rfl := Option.some.inj h
    rfl

/-! ## What the network computes -/

/-- The rings hold fewer items than they have cells. -/
def WithinRings (s : ReceiveState) : Prop := WithinCapacity s.samples ∧ WithinCapacity s.bytes

/-- Waits return only after a signal, and a `DSPDemod` call that finds the DSP thread waiting
brings a pair of samples. -/
def Signalled (s : ReceiveState) (a : ReceiveAction) : Prop :=
  a ≠ .dspSpurious ∧ a ≠ .getSpurious ∧
    ∀ samples, a = .dspDemod samples → s.samples.consumer = .waiting → 2 ≤ samples.length

/-- Both rings are lossless queues, and between them the demodulator has handled the samples
taken from the one and put its bytes into the other. -/
structure Decodes (A : Arith) (oscLut : Vector OscValue lutSize) (dsp₀ : DspState)
    (s : ReceiveState) : Prop where
  samples : Lossless s.samples
  bytes : Lossless s.bytes
  handled : samplesOf s.handled = s.samples.consumed
  dsp : Mealy.final (dspStep A oscLut) (some dsp₀) s.handled = some s.dsp
  produced : s.bytes.produced = decodedBytes A oscLut dsp₀ s.handled

variable {dsp₀ : DspState}

/-- The sample ring stays a lossless queue. -/
theorem Lossless.samples_receiveStep {s t : ReceiveState} {a : ReceiveAction}
    (h : Lossless s.samples) (hsig : Signalled s a) (hroom : WithinCapacity t.samples)
    (hst : receiveStep A oscLut s a = some t) : Lossless t.samples := by
  obtain ⟨hspurious, -, hpair⟩ := hsig
  rcases PiWxRx.samples_receiveStep hst with ⟨-, heq⟩ | ⟨b, hb, hring⟩
  · rwa [heq]
  · refine h.step sampleRingOps_lawful ?_ ((feedsWaiter_iff_bringsPair _ _).mpr ?_) hroom hring
    · rintro rfl
      cases a <;> simp [ReceiveAction.onSamples] at hb hspurious
    · rintro samples rfl hc
      cases a <;> simp [ReceiveAction.onSamples] at hb
      exact hpair samples (by rw [hb]) hc

/-- The byte ring stays a lossless queue: its batches are never empty. -/
theorem Lossless.bytes_receiveStep {s t : ReceiveState} {a : ReceiveAction}
    (h : Lossless s.bytes) (hsig : a ≠ .getSpurious) (hroom : WithinCapacity t.bytes)
    (hst : receiveStep A oscLut s a = some t) : Lossless t.bytes := by
  rcases PiWxRx.bytes_receiveStep hst with heq | ⟨b, hring, hspurious, -⟩
  · rwa [heq]
  · exact h.step dataBufferOps_lawful (fun hb => hsig (hspurious hb))
      (fun data _ _ => List.cons_ne_nil data []) hroom hring

/-- One step of the network. -/
theorem Decodes.step {s t : ReceiveState} {a : ReceiveAction} (h : Decodes A oscLut dsp₀ s)
    (hsig : Signalled s a) (hroom : WithinRings t) (hst : receiveStep A oscLut s a = some t) :
    Decodes A oscLut dsp₀ t := by
  have hsamples := h.samples.samples_receiveStep hsig hroom.1 hst
  have hbytes := h.bytes.bytes_receiveStep hsig.2.1 hroom.2 hst
  rcases dsp_receiveStep hst with
    ⟨debuglevel, rfl⟩ | ⟨rfl, -, -⟩ | ⟨-, hdsp, hhandled, hcons, hprod⟩
  · -- the sample used moves the demodulator, and its byte goes into the ring
    obtain ⟨sample, out, -, hcons, hdsp, hput, hhandled⟩ := receiveStep_dspIterate hst
    obtain ⟨hfinal, hout⟩ := decodedBytes_sample hdsp
    refine ⟨hsamples, hbytes, ?_, ?_, ?_⟩
    · rw [hhandled, samplesOf_append, h.handled, samplesOf_sample, hcons]
    · rw [hhandled, Mealy.final_append, h.dsp, hfinal]
    · rw [byteRx_produced hput, h.produced, hhandled, decodedBytes_append h.dsp, hout]
  · obtain rfl := Option.some.inj hst
    refine ⟨hsamples, hbytes, ?_, ?_, ?_⟩
    · rw [samplesOf_append, samplesOf_clearSync, List.append_nil, h.handled]
    · rw [Mealy.final_append, h.dsp]
      rfl
    · rw [decodedBytes_append h.dsp, h.produced]
      exact (List.append_nil _).symm
  · exact ⟨hsamples, hbytes, by rw [hhandled, h.handled, hcons], by rw [hhandled, h.dsp, hdsp],
      by rw [hprod, h.produced, hhandled]⟩

theorem decodes_start (buffer : Vector RtlSample sampleBfrsiz) (dsp₀ : DspState) :
    Decodes A oscLut dsp₀ (ReceiveState.start buffer dsp₀) where
  samples := lossless_start (by decide) buffer
  bytes := lossless_start (by decide) databufferInit.buffer
  handled := rfl
  dsp := rfl
  produced := rfl

/-- What the run lemma carries. -/
theorem decodes_of_run {buffer : Vector RtlSample sampleBfrsiz} {as : List ReceiveAction}
    (hsig : Along (receiveStep A oscLut) Signalled (ReceiveState.start buffer dsp₀) as)
    (hroom : AlongStates (receiveStep A oscLut) WithinRings (ReceiveState.start buffer dsp₀) as) :
    AlongStates (receiveStep A oscLut) (Decodes A oscLut dsp₀)
      (ReceiveState.start buffer dsp₀) as := by
  refine run_induction
    (G := fun s a => Signalled s a ∧ ∀ t, receiveStep A oscLut s a = some t → WithinRings t)
    (fun s a t h hG hst => h.step hG.1 (hG.2 t hst) hst) (decodes_start buffer dsp₀) ?_
  exact fun pre a post hsplit u hu =>
    ⟨hsig pre a post hsplit u hu, (hroom.along pre a post hsplit u hu).2⟩

/-! ## Deliveries -/

/-- The samples of the pipe read an action hands over. -/
def ReceiveAction.read? : ReceiveAction → Option (List RtlSample)
  | .dspDemod samples => some samples
  | _ => none

/-- The pipe reads handed to `DSPDemod`, in order. -/
def pipeReads (as : List ReceiveAction) : List (List RtlSample) :=
  as.filterMap ReceiveAction.read?

/-- Only `DSPDemod` stores samples. -/
theorem produced_receiveStep {s t : ReceiveState} {a : ReceiveAction}
    (h : receiveStep A oscLut s a = some t) :
    t.samples.produced =
      s.samples.produced ++ a.read?.toList.flatMap (blockMap 2 pairAverage) := by
  rcases samples_receiveStep h with ⟨hnone, heq⟩ | ⟨b, hb, hring⟩
  · rw [heq]
    cases a <;> simp [ReceiveAction.onSamples, ReceiveAction.read?] at hnone ⊢
  · rw [(ringStep_histories sampleRingOps_lawful hring).1]
    cases a <;> simp [ReceiveAction.onSamples] at hb <;> subst hb <;> rfl

theorem produced_of_run {s t : ReceiveState} {as : List ReceiveAction}
    (h : run (receiveStep A oscLut) s as = some t) :
    t.samples.produced =
      s.samples.produced ++ (pipeReads as).flatMap (blockMap 2 pairAverage) := by
  induction as generalizing s with
  | nil =>
    obtain rfl := Option.some.inj h
    exact (List.append_nil _).symm
  | cons a as ih =>
    obtain ⟨u, hu, hut⟩ := Option.bind_eq_some_iff.mp h
    rw [ih hut, produced_receiveStep hu, List.append_assoc, ← List.flatMap_append]
    cases hread : a.read? <;> simp [pipeReads, hread]

/-- From the start the ring has been given the averages of the pairs of each read. -/
theorem produced_of_start {buffer : Vector RtlSample sampleBfrsiz} {as : List ReceiveAction}
    {t : ReceiveState}
    (ht : run (receiveStep A oscLut) (ReceiveState.start buffer dsp₀) as = some t) :
    t.samples.produced = (pipeReads as).flatMap (blockMap 2 pairAverage) :=
  (produced_of_run ht).trans (List.nil_append _)

/-- The application is never ahead of the demodulator, and not behind it when it waits. -/
theorem Decodes.consumed_bytes {s : ReceiveState} (h : Decodes A oscLut dsp₀ s) :
    s.bytes.consumed <+: decodedBytes A oscLut dsp₀ s.handled ∧
      (s.bytes.consumer = .waiting →
        s.bytes.consumed = decodedBytes A oscLut dsp₀ s.handled) := by
  have hconsumed := h.bytes.tracks.consumed_prefix
  rw [← h.produced]
  -- a prefix of full length is the whole
  exact ⟨hconsumed, fun hw => hconsumed.eq_of_length (h.bytes.waiting hw)⟩

/-- The demodulator is never ahead of the timer thread, and not behind it when it waits. -/
theorem Decodes.handled_samples {s : ReceiveState} (h : Decodes A oscLut dsp₀ s) :
    samplesOf s.handled <+: s.samples.produced ∧
      (s.samples.consumer = .waiting → samplesOf s.handled = s.samples.produced) := by
  have hconsumed := h.samples.tracks.consumed_prefix
  rw [h.handled]
  exact ⟨hconsumed, fun hw => hconsumed.eq_of_length (h.samples.waiting hw)⟩

/-- **Deliveries of the network.** Within the capacity of both rings, and with waits that return
on signals that bring something, every interleaving hands the application the bytes the
demodulator decodes on its own from the events in the order the DSP thread met them. The
application is never ahead of them, and not behind either when it waits. The samples among the
events are those stored, in order, up to the last when the DSP thread waits. -/
theorem run_delivers {buffer : Vector RtlSample sampleBfrsiz} {as : List ReceiveAction}
    (hsig : Along (receiveStep A oscLut) Signalled (ReceiveState.start buffer dsp₀) as)
    (hroom : AlongStates (receiveStep A oscLut) WithinRings (ReceiveState.start buffer dsp₀) as)
    {t : ReceiveState}
    (ht : run (receiveStep A oscLut) (ReceiveState.start buffer dsp₀) as = some t) :
    (t.bytes.consumed <+: decodedBytes A oscLut dsp₀ t.handled ∧
        (t.bytes.consumer = .waiting →
          t.bytes.consumed = decodedBytes A oscLut dsp₀ t.handled)) ∧
      (samplesOf t.handled <+: (pipeReads as).flatMap (blockMap 2 pairAverage) ∧
        (t.samples.consumer = .waiting →
          samplesOf t.handled = (pipeReads as).flatMap (blockMap 2 pairAverage))) := by
  have h := decodes_of_run hsig hroom as [] (List.append_nil as).symm t ht
  rw [← produced_of_start ht]
  exact ⟨h.consumed_bytes, h.handled_samples⟩

/-- A receiver in byte sync that has seven bits of `0xAB` and gets the last one with the next
sample. -/
def lastBitDue : DspState where
  front := FrontEnd.init
  dcsliceLevel := 0
  rx :=
    { insync := true
      correlator := Correlator.zero
      edge := { currentSense := true, xingcnt := 0 }
      clock := { divisor := 0, swallowCtr := 5 }
      bytes := { bytesync := true, demodByte := 0x57, bitctr := 7 } }

/-- Both consumers wait, a pipe read brings one pair, the DSP thread demodulates its average, the
application takes the byte, and both wait again. -/
def oneByte : List ReceiveAction :=
  [.getTest, .dspTest, .dspDemod [4, 2], .dspIterate 0, .getUse, .getTest, .dspTest]

/-- A table with nothing in it. -/
def silentTable : Vector OscValue lutSize := Vector.replicate lutSize 0

/-- The state before `oneByte`. -/
def oneByteStart : ReceiveState := ReceiveState.start (Vector.replicate sampleBfrsiz 0) lastBitDue

theorem dspSample_lastBitDue :
    ∃ dsp out, dspSample (.wrap 64) silentTable 0#32 lastBitDue 3#16 = some (dsp, out) ∧
      out.byteRx = some 0xAB := by
  have hbyte : (dspSample (.wrap 64) silentTable 0 lastBitDue 3).map (·.2.byteRx) =
      some (some 0xAB) := by
    decide +kernel
  obtain ⟨⟨dsp, out⟩, hout, hrx⟩ := Option.map_eq_some_iff.mp hbyte
  exact ⟨dsp, out, hout, hrx⟩

theorem oneByte_run :
    (∃ t, run (receiveStep (.wrap 64) silentTable) oneByteStart oneByte = some t ∧
      t.samples.consumer = .waiting ∧ t.bytes.consumer = .waiting ∧
        t.bytes.produced = [0xAB] ∧ t.bytes.consumed = [0xAB]) ∧
      Along (receiveStep (.wrap 64) silentTable) Signalled oneByteStart oneByte ∧
      AlongStates (receiveStep (.wrap 64) silentTable) WithinRings oneByteStart oneByte := by
  have hpair : blockMap 2 pairAverage [4#16, 2#16] = [3#16] := by decide
  obtain ⟨dsp, out, hdsp, hbyte⟩ := dspSample_lastBitDue
  simp [oneByte, oneByteStart, receiveStep, ReceiveState.start, RingState.start, dataBufferStart,
    ringStep, bufferEmpty, sampleRingOps_lawful.produce_eq, sampleRingOps_lawful.consume_eq,
    dataBufferOps_lawful.produce_eq, dataBufferOps_lawful.consume_eq, hpair, hdsp, hbyte,
    ConsumerPc.signal, Ring.put, Ring.drop, byteRx, databufferInit, alongStates_cons,
    alongStates_nil, along_cons, along_nil, Signalled, WithinRings, WithinCapacity, sampleBfrsiz,
    bufferSize]

/-- The byte is delivered. -/
theorem run_delivers_oneByte :
    ∃ t, run (receiveStep (.wrap 64) silentTable) oneByteStart oneByte = some t ∧
      t.bytes.consumed = [0xAB] ∧
      t.bytes.consumed = decodedBytes (.wrap 64) silentTable lastBitDue t.handled ∧
      samplesOf t.handled = (pipeReads oneByte).flatMap (blockMap 2 pairAverage) := by
  obtain ⟨⟨t, ht, hdsp, hget, -, hbyte⟩, hsig, hroom⟩ := oneByte_run
  have h := run_delivers hsig hroom ht
  exact ⟨t, ht, hbyte, h.1.2 hget, h.2.2 hdsp⟩

/-! ## Runs without clears -/

/-- Sync is not cleared, and the sample is demodulated: `DEBUG_WRITE` is off. -/
def Undisturbed (a : ReceiveAction) : Prop :=
  a ≠ .clearSync ∧ ∀ debuglevel, a = .dspIterate debuglevel → debuglevel &&& debugWrite = 0

/-- A sample that is demodulated. -/
def DspEvent.Demodulated (e : DspEvent) : Prop :=
  ∃ debuglevel sample, e = .sample debuglevel sample ∧ debuglevel &&& debugWrite = 0

/-- Undisturbed, the events are the samples. -/
theorem handled_of_undisturbed {s t : ReceiveState} {as : List ReceiveAction}
    (hquiet : ∀ a ∈ as, Undisturbed a) (hs : ∀ e ∈ s.handled, e.Demodulated)
    (h : run (receiveStep A oscLut) s as = some t) : ∀ e ∈ t.handled, e.Demodulated := by
  induction as generalizing s with
  | nil =>
    obtain rfl := Option.some.inj h
    exact hs
  | cons a as ih =>
    obtain ⟨u, hu, hut⟩ := Option.bind_eq_some_iff.mp h
    obtain ⟨hclear, hlevel⟩ := hquiet a List.mem_cons_self
    refine ih (fun b hb => hquiet b (List.mem_cons_of_mem a hb)) ?_ hut
    rcases dsp_receiveStep hu with ⟨debuglevel, rfl⟩ | ⟨rfl, -, -⟩ | ⟨-, -, hhandled, -⟩
    · obtain ⟨sample, out, -, -, -, -, hhandled⟩ := receiveStep_dspIterate hu
      rw [hhandled]
      intro e he
      rcases List.mem_append.mp he with hold | hnew
      · exact hs e hold
      · exact ⟨debuglevel, sample, List.mem_singleton.mp hnew, hlevel debuglevel rfl⟩
    · exact absurd rfl hclear
    · rwa [hhandled]

/-- Of the debug level a demodulated sample shows `DEBUG_WRITE` only. -/
theorem outputs_of_demodulated {es : List DspEvent} (h : ∀ e ∈ es, e.Demodulated)
    (s : Option DspState) :
    Mealy.outputs (dspStep A oscLut) s es =
      Mealy.outputs (dspStep A oscLut) s ((samplesOf es).map (.sample 0)) := by
  induction es generalizing s with
  | nil => rfl
  | cons e es ih =>
    obtain ⟨debuglevel, sample, rfl, hlevel⟩ := h e List.mem_cons_self
    have hstep : dspStep A oscLut s (.sample debuglevel sample) =
        dspStep A oscLut s (.sample 0 sample) := by
      have hzero : (0 : BitVec 32) &&& debugWrite = 0 := by decide
      simp only [dspStep, dspSample, hlevel, hzero]
    have hsamples : samplesOf (.sample debuglevel sample :: es) = sample :: samplesOf es := rfl
    rw [hsamples, List.map_cons, Mealy.outputs_cons, Mealy.outputs_cons, hstep,
      ih fun e' he' => h e' (List.mem_cons_of_mem _ he')]

theorem decodedBytes_of_demodulated {es : List DspEvent} (h : ∀ e ∈ es, e.Demodulated)
    (dsp₀ : DspState) :
    decodedBytes A oscLut dsp₀ es =
      decodedBytes A oscLut dsp₀ ((samplesOf es).map (.sample 0)) := by
  rw [decodedBytes, decodedBytes, outputs_of_demodulated h]

/-- The bytes of a prefix of the events. -/
theorem prefix_decodedBytes {dsp₀ : DspState} {es fs : List DspEvent} (h : es <+: fs) :
    decodedBytes A oscLut dsp₀ es <+: decodedBytes A oscLut dsp₀ fs := by
  obtain ⟨gs, rfl⟩ := h
  rw [decodedBytes, decodedBytes, Mealy.outputs_append, List.filterMap_append]
  exact List.prefix_append _ _

/-- If the events are the samples, the application is handed bytes of the samples stored, and all of
them once both consumers wait. -/
theorem Decodes.consumed_undisturbed {s : ReceiveState} (h : Decodes A oscLut dsp₀ s)
    (hhandled : ∀ e ∈ s.handled, e.Demodulated) :
    let decoded := decodedBytes A oscLut dsp₀ (s.samples.produced.map (.sample 0))
    s.bytes.consumed <+: decoded ∧
      (s.samples.consumer = .waiting → s.bytes.consumer = .waiting →
        s.bytes.consumed = decoded) := by
  obtain ⟨hbytes, hbytesAll⟩ := h.consumed_bytes
  obtain ⟨hsamples, hsamplesAll⟩ := h.handled_samples
  rw [decodedBytes_of_demodulated hhandled] at hbytes hbytesAll
  constructor
  · exact hbytes.trans (prefix_decodedBytes (hsamples.map _))
  · intro hdsp hget
    rw [hbytesAll hget, hsamplesAll hdsp]

/-- **Determinacy.** If sync is not cleared, `DEBUG_WRITE` is off and no pipe read but the last ends
inside a pair of samples, what the application is handed depends on the 24 kHz samples alone, and
neither on the interleaving nor on how the reads cut them nor on the rest of the debug level: it is
a prefix of the bytes decoded from the averages of their pairs, and all of these once both consumers
wait. -/
theorem taken_of_undisturbed {buffer : Vector RtlSample sampleBfrsiz} {as : List ReceiveAction}
    (hsig : Along (receiveStep A oscLut) Signalled (ReceiveState.start buffer dsp₀) as)
    (hroom : AlongStates (receiveStep A oscLut) WithinRings (ReceiveState.start buffer dsp₀) as)
    (hquiet : ∀ a ∈ as, Undisturbed a) (hcuts : Aligned 2 ((pipeReads as).map List.length))
    {t : ReceiveState}
    (ht : run (receiveStep A oscLut) (ReceiveState.start buffer dsp₀) as = some t) :
    let decoded := decodedBytes A oscLut dsp₀
      ((blockMap 2 pairAverage (pipeReads as).flatten).map (.sample 0))
    t.bytes.consumed <+: decoded ∧
      (t.samples.consumer = .waiting → t.bytes.consumer = .waiting →
        t.bytes.consumed = decoded) := by
  have h := decodes_of_run hsig hroom as [] (List.append_nil as).symm t ht
  rw [← flatMap_blockMap_of_aligned (by decide) pairAverage hcuts, ← produced_of_start ht]
  exact h.consumed_undisturbed
    (handled_of_undisturbed hquiet (fun _ he => absurd he List.not_mem_nil) ht)

/-- One byte, whole. -/
theorem taken_of_undisturbed_oneByte :
    ∃ t, run (receiveStep (.wrap 64) silentTable) oneByteStart oneByte = some t ∧
      t.bytes.consumed = [0xAB] ∧
      t.bytes.consumed = decodedBytes (.wrap 64) silentTable lastBitDue
        ((blockMap 2 pairAverage (pipeReads oneByte).flatten).map (.sample 0)) := by
  obtain ⟨⟨t, ht, hdsp, hget, -, hbyte⟩, hsig, hroom⟩ := oneByte_run
  have hquiet : ∀ a ∈ oneByte, Undisturbed a := by
    simp [oneByte, Undisturbed]
  have h := taken_of_undisturbed hsig hroom hquiet (aligned_of_dropLast (by decide) (by decide)) ht
  exact ⟨t, ht, hbyte, h.2 hdsp hget⟩

end PiWxRx
