import PiWxRx.FSK.Reception
import PiWxRx.Threads.Draining

/-!
# From the pipe to the application

A transmission heard in the samples of the pipe reaches the application, however the threads take
their turns and however the reads cut the samples (`taken_of_transmission`).
-/

namespace PiWxRx

open Blocks CArith Circular Runs

/-! ## A transmission through the threads -/

section

variable {A : Arith} (hA : A.Exact) {oscLut : Vector OscValue lutSize}
  (hcos : CosineTable oscLut) {w : Broadcast} {x : ℕ → RtlSample} (h : w.Heard x)
  {demodByte : DemodByte} {bitctr : ℕ}
include hA hcos h

/-- **A transmission reaches the application.** In a run from the start in which both rings keep
within capacity, waits return on signals that bring something, sync is not cleared, `DEBUG_WRITE` is
off and no read but the last ends inside a pair, let the averages of the pairs be the samples of a
transmission and then anything. The application takes the bytes of the message, without two of the
preamble bytes, and nothing before them; when both consumers wait it has taken them all, and
something after them only if samples came after. -/
theorem taken_of_transmission {buffer : Vector RtlSample sampleBfrsiz} {as : List ReceiveAction}
    (hsig : Along (receiveStep A oscLut) Signalled
      (ReceiveState.start buffer (DspState.start demodByte bitctr)) as)
    (hroom : AlongStates (receiveStep A oscLut) WithinRings
      (ReceiveState.start buffer (DspState.start demodByte bitctr)) as)
    (hquiet : ∀ a ∈ as, Undisturbed a)
    (hcuts : Aligned 2 ((pipeReads as).map List.length)) {after : List RtlSample}
    (hreads : blockMap 2 pairAverage (pipeReads as).flatten =
      (List.range w.duration).map x ++ after) {t : ReceiveState}
    (ht : run (receiveStep A oscLut)
      (ReceiveState.start buffer (DspState.start demodByte bitctr)) as = some t) :
    ∃ more, t.bytes.consumed <+: w.message ++ more ∧
      (t.samples.consumer = .waiting → t.bytes.consumer = .waiting →
        t.bytes.consumed = w.message ++ more) ∧
      (after = [] → more = []) := by
  have hdecodes := decodes_of_run hsig hroom as [] (List.append_nil as).symm t ht
  have htaken := hdecodes.consumed_undisturbed
    (handled_of_undisturbed hquiet (fun _ he => absurd he List.not_mem_nil) ht)
  -- the ring was given the averages of the pairs, however the reads cut them
  have hproduced : t.samples.produced = (List.range w.duration).map x ++ after := by
    rw [produced_of_start ht, flatMap_blockMap_of_aligned (by decide) pairAverage hcuts, hreads]
  have hdebug : (0 : BitVec 32) &&& debugWrite = 0 := by decide
  obtain ⟨⟨u, hu⟩, hmessage⟩ := message_of_heard hA hcos hdebug h demodByte bitctr
  have hdecoded : decodedBytes A oscLut (DspState.start demodByte bitctr)
      (t.samples.produced.map (.sample 0)) =
        w.message ++ decodedBytes A oscLut u (after.map (.sample 0)) := by
    rw [hproduced, List.map_append, List.map_map, Function.comp_def, decodedBytes_append hu,
      hmessage]
  rw [hdecoded] at htaken
  refine ⟨_, htaken.1, htaken.2, ?_⟩
  rintro rfl
  rfl

end

/-! ## Three reads -/

/-- Each sample twice. -/
def doubled (samples : List RtlSample) : List RtlSample := samples.flatMap fun x => [x, x]

theorem doubled_append (xs ys : List RtlSample) : doubled xs ++ doubled ys = doubled (xs ++ ys) :=
  List.flatMap_append.symm

theorem blockMap_doubled (samples : List RtlSample) :
    blockMap 2 pairAverage (doubled samples) = samples := by
  induction samples with
  | nil => rfl
  | cons x samples ih =>
    have hpair : pairAverage [x, x] = x := by
      apply BitVec.eq_of_toInt_eq
      rw [toInt_pairAverage _ rfl, floorAverage]
      simp only [List.map_cons, List.map_nil, List.sum_cons, List.sum_nil]
      omega
    rw [doubled, List.flatMap_cons, blockMap_cons Nat.two_pos pairAverage rfl, hpair, ← doubled, ih]

theorem length_doubled (samples : List RtlSample) :
    (doubled samples).length = 2 * samples.length := by
  induction samples with
  | nil => rfl
  | cons x samples ih =>
    rw [doubled, List.flatMap_cons, List.length_append, ← doubled, ih]
    simp only [List.length_cons, List.length_nil]
    omega

theorem duration_broadcastZ : broadcastZ.duration = 974 := by
  have hceil : ⌈25 * broadcastZ.start⌉₊ = 600 := by
    change ⌈25 * (24 : ℝ)⌉₊ = 600
    norm_num
  rw [Broadcast.duration, hceil]
  rfl

/-- The samples of `broadcastZ`. -/
noncomputable def samplesZ : List RtlSample :=
  (List.range broadcastZ.duration).map (keyedSamples broadcastZ.keying)

theorem length_samplesZ : samplesZ.length = 974 := by
  rw [samplesZ, List.length_map, List.length_range, duration_broadcastZ]

/-- `broadcastZ` in reads of 720 samples and one of the rest. -/
noncomputable def readsZ : List (List RtlSample) :=
  [doubled (samplesZ.take 360), doubled ((samplesZ.drop 360).take 360), doubled (samplesZ.drop 720)]

theorem flatten_readsZ : readsZ.flatten = doubled samplesZ := by
  have hrest : (samplesZ.drop 360).take 360 ++ samplesZ.drop 720 = samplesZ.drop 360 := by
    have hdrop : samplesZ.drop 720 = (samplesZ.drop 360).drop 360 := by rw [List.drop_drop]
    rw [hdrop, List.take_append_drop]
  simp only [readsZ, List.flatten_cons, List.flatten_nil, List.append_nil, doubled_append, hrest,
    List.take_append_drop]

theorem length_readsZ : readsZ.map List.length = [720, 720, 508] := by
  simp only [readsZ, List.map_cons, List.map_nil, length_doubled, List.length_take,
    List.length_drop, length_samplesZ]
  decide

/-- Both consumers wait, and the reads bring `broadcastZ`. -/
noncomputable def threeReads : List ReceiveAction := [.getTest, .dspTest] ++ readsZ.map .dspDemod

/-- The state before `threeReads`. -/
def threeReadsStart : ReceiveState :=
  ReceiveState.start (Vector.replicate sampleBfrsiz 0) (DspState.start 0 0)

theorem threeReads_run (A : Arith) (oscLut : Vector OscValue lutSize) :
    (∃ t, run (receiveStep A oscLut) threeReadsStart threeReads = some t) ∧
      Along (receiveStep A oscLut) Signalled threeReadsStart threeReads ∧
      AlongStates (receiveStep A oscLut) WithinRings threeReadsStart threeReads := by
  simp [threeReads, readsZ, threeReadsStart, receiveStep, ReceiveState.start, RingState.start,
    dataBufferStart, ringStep, bufferEmpty, sampleRingOps_lawful.produce_eq, blockMap_doubled,
    length_doubled, length_samplesZ, ConsumerPc.signal, databufferInit, alongStates_cons,
    alongStates_nil, along_cons, along_nil, Signalled, WithinRings, WithinCapacity, sampleBfrsiz]

theorem undisturbed_threeReads : ∀ a ∈ threeReads, Undisturbed a := by
  simp [threeReads, readsZ, Undisturbed]

theorem pipeReads_threeReads : pipeReads threeReads = readsZ := rfl

/-- The application gets the bytes of `broadcastZ`. -/
theorem taken_of_transmission_Z :
    ∃ as t, run (receiveStep (.wrap 64) (initOsc Real.cos)) threeReadsStart (threeReads ++ as) =
        some t ∧ t.bytes.consumed = [syncByte, syncByte, 0x5A] := by
  have hcos : CosineTable (initOsc Real.cos) := cosineTable_initOsc (by simp)
  obtain ⟨⟨s, hs⟩, hsig, hroom⟩ := threeReads_run (.wrap 64) (initOsc Real.cos)
  have hdecodes := decodes_of_run hsig hroom threeReads [] (List.append_nil _).symm s hs
  have hin : InBounds s := run_invariant (fun _ _ _ hs hst => hs.step hst)
    (inBounds_start _ FrontEnd.inRange_init) hs
  obtain ⟨bs, t, hbs, ht, hroom', hdsp, hget⟩ := exists_drained hdecodes hin
    (hroom threeReads [] (List.append_nil _).symm s hs)
  have hrun : run (receiveStep (.wrap 64) (initOsc Real.cos)) threeReadsStart
      (threeReads ++ bs) = some t := by
    rw [run_append, hs]
    exact ht
  -- the threads work off the reads as they like
  have hdrains : ∀ u, run (receiveStep (.wrap 64) (initOsc Real.cos)) threeReadsStart threeReads =
      some u → Along (receiveStep (.wrap 64) (initOsc Real.cos)) Signalled u bs := by
    intro u _ pre a post hsplit v _
    exact signalled_of_drains (hbs a (by simp [hsplit])).1
  have hfull : ∀ u, run (receiveStep (.wrap 64) (initOsc Real.cos)) threeReadsStart threeReads =
      some u → AlongStates (receiveStep (.wrap 64) (initOsc Real.cos)) WithinRings u bs := by
    intro u hu
    rw [hs] at hu
    obtain rfl := Option.some.inj hu
    exact hroom'
  have hquiet : ∀ a ∈ threeReads ++ bs, Undisturbed a := by
    intro a ha
    rcases List.mem_append.mp ha with hmem | hmem
    · exact undisturbed_threeReads a hmem
    · exact (hbs a hmem).2
  have hpieces : pipeReads (threeReads ++ bs) = readsZ := by
    rw [pipeReads, List.filterMap_append, ← pipeReads, ← pipeReads, pipeReads_threeReads,
      pipeReads_of_drains fun b hb => (hbs b hb).1, List.append_nil]
  have hcuts : Aligned 2 ((pipeReads (threeReads ++ bs)).map List.length) := by
    rw [hpieces, length_readsZ]
    exact aligned_of_dropLast (by decide) (by decide)
  have hreads : blockMap 2 pairAverage (pipeReads (threeReads ++ bs)).flatten =
      samplesZ ++ [] := by
    rw [hpieces, flatten_readsZ, blockMap_doubled, List.append_nil]
  obtain ⟨more, -, htaken, hnone⟩ := taken_of_transmission (wrap_exact (by decide)) hcos
    heard_broadcastZ (hsig.append hdrains) (hroom.append hfull) hquiet hcuts hreads hrun
  refine ⟨bs, t, hrun, ?_⟩
  rw [htaken hdsp hget, hnone rfl]
  rfl

end PiWxRx
