import PiWxRx.Rings.DataBuffer
import PiWxRx.Rings.SampleRing

/-!
# The two rings as queues

The protocol results for the received-byte ring and the sample ring.

* `fifo_iff_batches_nonempty`: within capacity the received-byte ring is a lossless queue in every
  run. The sample ring is one exactly if no `DSPDemod` call of fewer than two samples finds the
  consumer waiting: such a call signals without storing, and the consumer, which tests
  `BUFFER_EMPTY` with `if`, uses a stale slot.
* `keepsUnread_iff_fits`: neither producer tests for a full ring. Each call adds its items to the
  count of readable ones, which wraps: only below the wrap the unread items stay readable.
-/

namespace PiWxRx

open Blocks Circular Runs

/-! ## Lossless within capacity -/

/-- A `DSPDemod` call that finds the consumer waiting brings at least one pair of samples. -/
def BringsPair (s : RingState RtlSample sampleBfrsiz) (a : RingAction (List RtlSample)) : Prop :=
  ∀ samples, a = .produce samples → s.consumer = .waiting → 2 ≤ samples.length

theorem feedsWaiter_iff_bringsPair (s : RingState RtlSample sampleBfrsiz)
    (a : RingAction (List RtlSample)) :
    FeedsWaiter (blockMap 2 pairAverage) s a ↔ BringsPair s a := by
  have hnil : ∀ samples : List RtlSample,
      blockMap 2 pairAverage samples ≠ [] ↔ 2 ≤ samples.length := by
    intro samples
    rw [← List.length_pos_iff, length_blockMap, Nat.div_pos_iff]
    simp
  simp only [FeedsWaiter, BringsPair, hnil]

/-- Within capacity and without spurious wake-ups, every run of the received-byte ring is a
lossless queue throughout, and a run of the sample ring is one exactly if every `DSPDemod` call
that finds the consumer waiting brings a pair. -/
theorem fifo_iff_batches_nonempty (bytes : List (RingAction DemodByte))
    (buffer : Vector RtlSample sampleBfrsiz) (batches : List (RingAction (List RtlSample))) :
    (.spurious ∉ bytes →
      AlongStates (ringStep dataBufferOps) WithinCapacity dataBufferStart bytes →
      AlongStates (ringStep dataBufferOps) Fifo dataBufferStart bytes) ∧
    (.spurious ∉ batches →
      AlongStates (ringStep sampleRingOps) WithinCapacity (RingState.start buffer) batches →
      (AlongStates (ringStep sampleRingOps) Fifo (RingState.start buffer) batches ↔
        Along (ringStep sampleRingOps) BringsPair (RingState.start buffer) batches)) := by
  refine ⟨fun hsig hroom => ?_, fun hsig hroom => ?_⟩
  · refine (alongStates_fifo_iff dataBufferOps_lawful (by decide) _ hsig hroom).mpr ?_
    -- every put stores its byte
    exact fun pre a post _ s _ byterx _ _ => List.cons_ne_nil byterx []
  · rw [alongStates_fifo_iff sampleRingOps_lawful (by decide) buffer hsig hroom]
    simp only [Along, feedsWaiter_iff_bringsPair]

/-- Two bytes and three pairs pass through the rings. -/
theorem fifo_through_rings :
    AlongStates (ringStep dataBufferOps) Fifo dataBufferStart
        [.test, .produce 0xAB, .use, .produce 0x5A, .test, .use, .test] ∧
      AlongStates (ringStep sampleRingOps) Fifo (RingState.start (Vector.replicate sampleBfrsiz 0))
        [.test, .produce [4, 2, 6, 8], .use, .test, .use, .produce [1, 3, 5], .test, .use,
          .test] := by
  have hfour : blockMap 2 pairAverage [4#16, 2#16, 6#16, 8#16] = [3#16, 7#16] := by decide
  have hthree : blockMap 2 pairAverage [1#16, 3#16, 5#16] = [2#16] := by decide
  have h := fifo_iff_batches_nonempty
    [.test, .produce 0xAB, .use, .produce 0x5A, .test, .use, .test]
    (Vector.replicate sampleBfrsiz 0)
    [.test, .produce [4, 2, 6, 8], .use, .test, .use, .produce [1, 3, 5], .test, .use, .test]
  -- both runs stay within capacity, and every batch brings a pair
  refine ⟨h.1 (by simp) ?_, (h.2 (by simp) ?_).mpr ?_⟩
  · simp [alongStates_cons, alongStates_nil, ringStep, bufferEmpty, dataBufferStart, databufferInit,
      dataBufferOps_lawful.produce_eq, dataBufferOps_lawful.consume_eq, Ring.put, Ring.drop,
      ConsumerPc.signal, WithinCapacity, RingState.start, bufferSize]
  · simp [alongStates_cons, alongStates_nil, ringStep, bufferEmpty, hfour, hthree,
      sampleRingOps_lawful.produce_eq, sampleRingOps_lawful.consume_eq, Ring.put, Ring.drop,
      ConsumerPc.signal, WithinCapacity, RingState.start, sampleBfrsiz]
  · rintro pre a post hsplit s - samples rfl -
    have hmem : RingAction.produce samples ∈ [.test, .produce [4, 2, 6, 8], .use, .test, .use,
        .produce [1, 3, 5], .test, .use, .test] := by
      rw [hsplit]
      exact List.mem_append_right _ List.mem_cons_self
    simp only [List.mem_cons, reduceCtorEq, RingAction.produce.injEq, List.not_mem_nil, or_false,
      false_or] at hmem
    rcases hmem with rfl | rfl <;> decide

/-- A `DSPDemod` call with a single sample lets the waiting consumer use a slot never written. -/
theorem stale_slot :
    AlongStates (ringStep sampleRingOps) WithinCapacity
        (RingState.start (Vector.replicate sampleBfrsiz 0)) [.test, .produce [4], .use] ∧
      ∃ t, run (ringStep sampleRingOps) (RingState.start (Vector.replicate sampleBfrsiz 0))
          [.test, .produce [4], .use] = some t ∧
        t.produced = [] ∧ t.consumed = [0] ∧ ¬ Fifo t := by
  refine ⟨?_, _, rfl, rfl, rfl, fun h => ?_⟩
  · -- nothing is ever produced
    simp only [alongStates_cons, alongStates_nil, ringStep_test, Option.some.injEq,
      ringStep_produce sampleRingOps_lawful, WithinCapacity, RingState.start, forall_eq']
    refine ⟨by simp, by simp, by simp, ?_⟩
    intro u hu
    obtain ⟨x, -, -, rfl⟩ := ringStep_use sampleRingOps_lawful hu
    simp
  · exact absurd (h.kth 0 0 rfl) (by decide)

/-! ## Unread items -/

/-- **Unread items.** In every state of every run, a `databuffer_put` adds one to the number of
bytes that can be read, and a `DSPDemod` call half its samples to the number of samples. The numbers
wrap at the sizes of the rings. So they do not fall exactly if the items of the call, less whole
rings of them, stay below the wrap, and the ring looks empty exactly if the wrap comes out at
zero. -/
theorem keepsUnread_iff_fits (bytes : List (RingAction DemodByte))
    (buffer : Vector RtlSample sampleBfrsiz) (batches : List (RingAction (List RtlSample))) :
    AlongStates (ringStep dataBufferOps)
        (fun s => ∀ byterx, ∃ t, ringStep dataBufferOps s (.produce byterx) = some t ∧
          t.ring.available = (s.ring.available + 1) % bufferSize ∧
          (s.ring.available ≤ t.ring.available ↔ s.ring.available + 1 < bufferSize) ∧
          (bufferEmpty t.ring = true ↔ s.ring.available + 1 = bufferSize))
        dataBufferStart bytes ∧
      AlongStates (ringStep sampleRingOps)
        (fun s => ∀ samples, ∃ t, ringStep sampleRingOps s (.produce samples) = some t ∧
          t.ring.available = (s.ring.available + samples.length / 2) % sampleBfrsiz ∧
          (s.ring.available ≤ t.ring.available ↔
            s.ring.available + samples.length / 2 % sampleBfrsiz < sampleBfrsiz) ∧
          (bufferEmpty t.ring = true ↔ sampleBfrsiz ∣ s.ring.available + samples.length / 2))
        (RingState.start buffer) batches := by
  constructor
  · intro pre post _ s hs byterx
    have hrange := pointersInRange_of_run dataBufferOps_lawful (by decide) hs
    obtain ⟨t, ht, hcount, hkept, hempty⟩ := produce_available dataBufferOps_lawful hrange byterx
    rw [List.length_singleton] at hcount hkept hempty
    refine ⟨t, ht, hcount, hkept, hempty.trans ?_⟩
    -- one byte more reaches the size at most
    have hlt := s.ring.available_lt (by decide)
    constructor
    · intro hdvd
      have hle := Nat.le_of_dvd (Nat.succ_pos _) hdvd
      omega
    · intro heq
      rw [heq]
  · intro pre post _ s hs samples
    have hrange := pointersInRange_of_run sampleRingOps_lawful (by decide) hs
    have hcall := produce_available sampleRingOps_lawful hrange samples
    rwa [length_blockMap] at hcall

/-- The 128th unread byte and the twelfth unread batch of 360 samples wrap the count. -/
theorem unread_lost :
    (∃ s t, run (ringStep dataBufferOps) dataBufferStart
        ((List.replicate 127 0xAB).map .produce) = some s ∧
      ringStep dataBufferOps s (.produce 0xAB) = some t ∧
      s.ring.available = 127 ∧ t.ring.available = 0) ∧
    (∃ s t, run (ringStep sampleRingOps) (RingState.start (Vector.replicate sampleBfrsiz 0))
        ((List.replicate 11 (List.replicate 720 0)).map .produce) = some s ∧
      ringStep sampleRingOps s (.produce (List.replicate 720 0)) = some t ∧
      s.ring.available = 3960 ∧ t.ring.available = 224) := by
  constructor
  · obtain ⟨s, hs, havail⟩ := available_run_produce dataBufferOps_lawful databufferInit.buffer
      (List.replicate 127 0xAB)
    rw [List.flatMap_singleton', List.length_replicate] at havail
    refine ⟨s, _, hs, ringStep_produce dataBufferOps_lawful s 0xAB, havail, ?_⟩
    rw [Ring.available_putAll, havail]
    rfl
  · obtain ⟨s, hs, havail⟩ := available_run_produce sampleRingOps_lawful
      (Vector.replicate sampleBfrsiz 0) (List.replicate 11 (List.replicate 720 0))
    rw [List.length_flatMap, List.map_replicate, List.sum_replicate_nat, length_blockMap,
      List.length_replicate] at havail
    refine ⟨s, _, hs, ringStep_produce sampleRingOps_lawful s _, by omega, ?_⟩
    rw [Ring.available_putAll, havail, length_blockMap, List.length_replicate]
    rfl

end PiWxRx
