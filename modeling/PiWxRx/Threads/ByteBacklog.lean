import PiWxRx.FSK.ByteRate
import PiWxRx.Threads.ReceiveNetwork

/-!
# How far the application may lag

The received-byte ring has no full test, so a byte is safe only while fewer than `bufferSIZE` bytes
are unread. The bit clock bounds how fast they come: whatever the demodulator makes of the noise and
whenever sync is cleared, `k + 1` bytes take more than `104 * k` samples
(`toGo_add_bytes_le`). An application that empties the ring once in `127 * 104` samples of the DSP
thread, a little over a second, therefore loses no byte, even if the sample ring in front of the
demodulator overruns (`fifo_of_punctual`).
-/

namespace PiWxRx

open CArith Circular Runs

variable {A : Arith} {oscLut : Vector OscValue lutSize}

/-! ## Bytes for samples -/

/-- The iterations of the DSP thread in a run. -/
def iterations (as : List ReceiveAction) : ℕ :=
  as.countP fun a => match a with
    | .dspIterate _ => true
    | _ => false

/-- The number of bytes delivered is the number of outputs that carry one. -/
theorem length_bytesReceived (outs : List RxOut) :
    (bytesReceived outs).length = outs.countP fun out => out.byteRx.isSome := by
  induction outs with
  | nil => rfl
  | cons out outs ih =>
    rw [List.countP_cons, ← ih]
    cases hbyte : out.byteRx <;> simp [bytesReceived, hbyte]

/-- What one step adds to the bytes, and what it takes off the samples to go. -/
theorem toGo_add_bytes_receiveStep {s t : ReceiveState} {a : ReceiveAction}
    (h : receiveStep A oscLut s a = some t) :
    byteRxSpacing.toGo s.dsp.rx + 104 * t.bytes.produced.length ≤
      104 * s.bytes.produced.length + iterations [a] + byteRxSpacing.toGo t.dsp.rx := by
  rcases dsp_receiveStep h with ⟨debuglevel, rfl⟩ | ⟨rfl, -, -⟩ | ⟨-, hdsp, -, -, hprod⟩
  · obtain ⟨sample, out, -, -, hdsp, hput, -⟩ := receiveStep_dspIterate h
    obtain ⟨hrx, hout⟩ := rx_dspSample hdsp
    have hpaid := byteRxSpacing.toGo_add_marks_le s.dsp.rx
      (out.demodBit.map RxEvent.sample).toList
    rw [← hrx, ← length_bytesReceived, ← hout, sum_map_samples] at hpaid
    have hone : (demodBits (out.demodBit.map RxEvent.sample).toList).length ≤ 1 := by
      cases out.demodBit <;> simp
    rw [byteRx_produced hput, List.length_append]
    simp only [bitsPerByte] at hpaid
    simp only [iterations, List.countP_singleton, ↓reduceIte]
    omega
  · obtain rfl := Option.some.inj h
    have hclear := byteRxSpacing.toGo_le s.dsp.rx .clearSync
    simp only [RxEvent.samples, rxStep] at hclear
    simp only
    omega
  · rw [hdsp, hprod]
    omega

/-- A run pays `104` samples for a byte, but for the samples the receiver had to go. -/
theorem toGo_add_bytes_le {s t : ReceiveState} {as : List ReceiveAction}
    (h : run (receiveStep A oscLut) s as = some t) :
    byteRxSpacing.toGo s.dsp.rx + 104 * t.bytes.produced.length ≤
      104 * s.bytes.produced.length + iterations as + byteRxSpacing.toGo t.dsp.rx := by
  induction as generalizing s with
  | nil =>
    obtain rfl := Option.some.inj h
    omega
  | cons a as ih =>
    obtain ⟨u, hu, hut⟩ := Option.bind_eq_some_iff.mp h
    have hfirst := toGo_add_bytes_receiveStep hu
    have hrest := ih hut
    have hcount : iterations (a :: as) = iterations [a] + iterations as := by
      simp only [iterations, ← List.countP_append, List.singleton_append]
    omega

/-- There is always a sample to go, and never more than the `104` of a whole byte. -/
theorem toGo_byteRxSpacing (s : RxState) :
    1 ≤ byteRxSpacing.toGo s ∧ byteRxSpacing.toGo s ≤ 104 := by
  have hbits := s.bytes.bitsToGo_le
  have hcalls := s.clock.callsToGo_le
  have hpos : 1 ≤ s.clock.callsToGo := by
    unfold BitClock.callsToGo
    omega
  change 1 ≤ s.samplesToGo ByteAssembler.bitsToGo bitsPerByte ∧
    s.samplesToGo ByteAssembler.bitsToGo bitsPerByte ≤ 104
  unfold RxState.samplesToGo
  simp only [bitsPerByte] at hbits ⊢
  split_ifs <;> omega

/-- In `127 * 104` samples there are no more than `127` bytes. -/
theorem produced_le_of_iterations {s t : ReceiveState} {as : List ReceiveAction}
    (h : run (receiveStep A oscLut) s as = some t) (has : iterations as ≤ 127 * 104) :
    t.bytes.produced.length ≤ s.bytes.produced.length + 127 := by
  have hpaid := toGo_add_bytes_le h
  have hs := toGo_byteRxSpacing s.dsp.rx
  have ht := toGo_byteRxSpacing t.dsp.rx
  omega

/-! ## A punctual application -/

/-- The application has taken every byte put. -/
def CaughtUp (s : ReceiveState) : Prop := s.bytes.consumed.length = s.bytes.produced.length

/-- At any time the application has caught up within the last `127 * 104` iterations of the DSP
thread. -/
def Punctual (A : Arith) (oscLut : Vector OscValue lutSize) (s : ReceiveState)
    (as : List ReceiveAction) : Prop :=
  ∀ pre post, as = pre ++ post → ∃ idle busy, pre = idle ++ busy ∧ iterations busy ≤ 127 * 104 ∧
    ∀ t, run (receiveStep A oscLut) s idle = some t → CaughtUp t

/-- What is taken stays taken. -/
theorem consumed_receiveStep {s t : ReceiveState} {a : ReceiveAction}
    (h : receiveStep A oscLut s a = some t) :
    s.bytes.consumed.length ≤ t.bytes.consumed.length := by
  rcases bytes_receiveStep h with heq | ⟨b, hring, -⟩
  · rw [heq]
  · exact (ringStep_histories dataBufferOps_lawful hring).2.1.length_le

theorem consumed_of_run {s t : ReceiveState} {as : List ReceiveAction}
    (h : run (receiveStep A oscLut) s as = some t) :
    s.bytes.consumed.length ≤ t.bytes.consumed.length :=
  run_invariant (P := fun u => s.bytes.consumed.length ≤ u.bytes.consumed.length)
    (fun _ _ _ hu hst => hu.trans (consumed_receiveStep hst)) le_rfl h

/-- A punctual application keeps the byte ring within capacity. -/
theorem withinCapacity_of_punctual {s : ReceiveState} {as : List ReceiveAction}
    (h : Punctual A oscLut s as) :
    AlongStates (receiveStep A oscLut) (fun t => WithinCapacity t.bytes) s as := by
  intro pre post hsplit t ht
  obtain ⟨idle, busy, rfl, hbusy, hidle⟩ := h pre post hsplit
  rw [run_append, Option.bind_eq_some_iff] at ht
  obtain ⟨u, hu, hut⟩ := ht
  have hcaught : u.bytes.consumed.length = u.bytes.produced.length := hidle u hu
  have hproduced := produced_le_of_iterations hut hbusy
  have hconsumed := consumed_of_run hut
  simp only [WithinCapacity, bufferSize]
  omega

/-- **No byte is lost to a punctual application.** Whatever the samples, however sync is cleared
and even if the sample ring overruns: if the application has always caught up within the last
`127 * 104` samples the DSP thread worked on, and is only woken by signals, the byte ring stays
within capacity and hands over every byte in order. -/
theorem fifo_of_punctual {buffer : Vector RtlSample sampleBfrsiz} {dsp₀ : DspState}
    {as : List ReceiveAction} (hsig : .getSpurious ∉ as)
    (h : Punctual A oscLut (ReceiveState.start buffer dsp₀) as) :
    AlongStates (receiveStep A oscLut) (fun t => WithinCapacity t.bytes ∧ Fifo t.bytes)
      (ReceiveState.start buffer dsp₀) as := by
  have hroom := withinCapacity_of_punctual h
  have hguard : Along (receiveStep A oscLut) (fun s a => a ≠ .getSpurious ∧
      ∀ t, receiveStep A oscLut s a = some t → WithinCapacity t.bytes)
      (ReceiveState.start buffer dsp₀) as := by
    intro pre a post hsplit u hu
    refine ⟨fun ha => hsig ?_, (hroom.along pre a post hsplit u hu).2⟩
    rw [hsplit, ha]
    exact List.mem_append_right _ List.mem_cons_self
  have hlossless := run_induction (P := fun t => Lossless t.bytes)
    (G := fun s a => a ≠ .getSpurious ∧
      ∀ t, receiveStep A oscLut s a = some t → WithinCapacity t.bytes)
    (fun s a t hs hG hst => hs.bytes_receiveStep hG.1 (hG.2 t hst) hst)
    (s := ReceiveState.start buffer dsp₀) (lossless_start (by decide) databufferInit.buffer) hguard
  exact fun pre post hsplit t ht =>
    ⟨hroom pre post hsplit t ht, (hlossless pre post hsplit t ht).fifo⟩

/-- The byte is put and taken. -/
theorem fifo_of_punctual_oneByte :
    ∃ t, run (receiveStep (.wrap 64) silentTable) oneByteStart oneByte = some t ∧
      t.bytes.produced = [0xAB] ∧ t.bytes.consumed = [0xAB] ∧ WithinCapacity t.bytes ∧
      Fifo t.bytes := by
  obtain ⟨⟨t, ht, -, -, hput, htaken⟩, -⟩ := oneByte_run
  have hpunctual : Punctual (.wrap 64) silentTable oneByteStart oneByte := by
    intro pre post hsplit
    -- one iteration in all, and nothing to take before it
    have hone : iterations pre + iterations post = 1 := by
      rw [iterations, iterations, ← List.countP_append, ← hsplit]
      rfl
    refine ⟨[], pre, rfl, by omega, fun u hu => ?_⟩
    obtain rfl := Option.some.inj hu
    rfl
  have h := fifo_of_punctual (by decide) hpunctual oneByte [] (List.append_nil _).symm t ht
  exact ⟨t, ht, hput, htaken, h⟩

end PiWxRx
