import PiWxRx.Rings.DataBuffer
import PiWxRx.Rings.SampleRing

/-!
# Waking up on an empty ring

`pthread_cond_wait` may return without a signal, and a signal may come without an item. Both
consumers test `BUFFER_EMPTY` with `if` and do not test again after the wait, so what they use is
unread only if the ring is not empty when they wake up, and stays so until they use the slot.

`alongStates_readsUnread_iff` says for every lawful ring which steps make a run safe, and
`readsUnread_iff_refilled` for the received bytes and the samples.
-/

namespace PiWxRx

open Blocks Circular Runs

variable {β α : Type} {n : ℕ} {ops : RingOps β α n} {items : β → List α}

/-- The consumer only uses what is there to be read. -/
structure ReadsUnread (s : RingState α n) : Prop where
  /-- A consumer about to use a slot has `wrptr` ahead of `rdptr`. -/
  nonempty : s.consumer = .use → bufferEmpty s.ring = false
  /-- The items the read pointer has passed were all produced, and every item used is one of them,
  used once and in order. -/
  behind : ∃ passed, passed <+: s.produced ∧ s.consumed.Sublist passed ∧
    s.ring.rdptr = passed.length % n ∧ s.ring.wrptr = s.produced.length % n

/-- The wait does not return without a signal, and a batch that finds the consumer past its test
leaves an item between the pointers. -/
def Refills (items : β → List α) (s : RingState α n) (a : RingAction β) : Prop :=
  (a = .spurious → s.consumer ≠ .waiting) ∧
    ∀ batch, a = .produce batch → s.consumer ≠ .test →
      (s.ring.available + (items batch).length) % n ≠ 0

/-- The pointers meet when nothing is available. -/
theorem bufferEmpty_iff_available {r : Ring α n} {produced passed : List α}
    (h : Tracks r produced passed) : bufferEmpty r = true ↔ r.available = 0 := by
  have hle := h.consumed_prefix.length_le
  have hroom := h.room
  have hlt : r.wrptr < n := by
    rw [h.wrptr_eq]
    exact Nat.mod_lt _ (by omega)
  have hlt' : r.rdptr < n := by
    rw [h.rdptr_eq]
    exact Nat.mod_lt _ (by omega)
  rw [bufferEmpty, beq_iff_eq, Ring.available_eq_zero_iff hlt hlt']

/-- The invariant: the read pointer has passed over items produced, those used among them, and
the consumer waits on an empty ring only. -/
private structure Behind (s : RingState α n) : Prop where
  tracks : ∃ passed, Tracks s.ring s.produced passed ∧ s.consumed.Sublist passed
  waiting : s.consumer = .waiting → bufferEmpty s.ring = true

private theorem Behind.start (hn : 0 < n) (buffer : Vector α n) :
    Behind (RingState.start buffer) where
  tracks := ⟨[], tracks_nil _ hn rfl rfl, List.Sublist.refl _⟩
  waiting h := by simp [RingState.start] at h

private theorem Behind.readsUnread {s : RingState α n} (h : Behind s)
    (hne : s.consumer = .use → bufferEmpty s.ring = false) : ReadsUnread s := by
  obtain ⟨passed, htracks, hsub⟩ := h.tracks
  exact ⟨hne, passed, htracks.consumed_prefix, hsub, htracks.rdptr_eq, htracks.wrptr_eq⟩

/-- Every step that finds an item to use keeps the invariant. -/
private theorem Behind.step (hops : ops.Lawful items) {s t : RingState α n} {a : RingAction β}
    (h : Behind s) (hs : s.consumer = .use → bufferEmpty s.ring = false)
    (hst : ringStep ops s a = some t) : Behind t := by
  obtain ⟨passed, htracks, hsub⟩ := h.tracks
  cases a with
  | produce batch =>
    rw [ringStep_produce hops] at hst
    obtain rfl := Option.some.inj hst
    obtain ⟨passed', hpre, htracks'⟩ := htracks.putAll_lap (items batch)
    refine ⟨⟨passed', htracks', hsub.trans hpre.sublist⟩, fun hw => ?_⟩
    -- after a signal nobody waits
    cases hc : s.consumer <;> simp [hc, ConsumerPc.signal] at hw
  | test =>
    obtain ⟨hc, rfl⟩ := ringStep_test_eq_some hst
    refine ⟨⟨passed, htracks, hsub⟩, fun hw => ?_⟩
    by_contra hb
    simp [hb] at hw
  | spurious =>
    obtain ⟨hc, rfl⟩ := ringStep_spurious hst
    exact ⟨⟨passed, htracks, hsub⟩, fun hw => by simp at hw⟩
  | use =>
    obtain ⟨x, hx, hc, rfl⟩ := ringStep_use hops hst
    -- the pointers are apart, so the cell read is that of the next item
    have hlt : passed.length < s.produced.length := by
      have hle := htracks.consumed_prefix.length_le
      have hne : s.ring.rdptr ≠ s.ring.wrptr := by simpa [bufferEmpty] using hs hc
      rw [ne_eq, htracks.rdptr_eq_wrptr_iff] at hne
      omega
    obtain ⟨y, hy, htracks'⟩ := htracks.take hlt
    obtain rfl : x = y := Option.some.inj (hx.symm.trans hy)
    exact ⟨⟨passed ++ [x], htracks', hsub.append (List.Sublist.refl _)⟩, fun hw => by simp at hw⟩

/-- A step from a safe state of a run leads to a safe one exactly if it is safe. -/
private theorem Behind.nonempty_step_iff (hops : ops.Lawful items) {s t : RingState α n}
    {a : RingAction β} (h : Behind s) (hst : ringStep ops s a = some t) :
    (t.consumer = .use → bufferEmpty t.ring = false) ↔ Refills items s a := by
  obtain ⟨passed, htracks, -⟩ := h.tracks
  cases a with
  | produce batch =>
    rw [ringStep_produce hops] at hst
    obtain rfl := Option.some.inj hst
    obtain ⟨passed', -, htracks'⟩ := htracks.putAll_lap (items batch)
    rw [← Bool.not_eq_true, bufferEmpty_iff_available htracks', Ring.available_putAll]
    simp only [Refills, reduceCtorEq, false_implies, true_and, RingAction.produce.injEq,
      forall_eq']
    cases s.consumer <;> simp [ConsumerPc.signal]
  | test =>
    obtain ⟨hc, rfl⟩ := ringStep_test_eq_some hst
    refine iff_of_true (fun hu => ?_) (by simp [Refills])
    by_contra hb
    rw [Bool.not_eq_false] at hb
    simp [hb] at hu
  | spurious =>
    obtain ⟨hc, rfl⟩ := ringStep_spurious hst
    -- the consumer leaves the wait on an empty ring
    refine iff_of_false (fun hu => ?_) (fun hr => hr.1 rfl hc)
    exact absurd (h.waiting hc) (by simpa using hu rfl)
  | use =>
    obtain ⟨x, -, -, rfl⟩ := ringStep_use hops hst
    exact iff_of_true (fun hu => by simp at hu) (by simp [Refills])

/-- A step that is not taken does no harm. -/
private theorem refills_of_none (hops : ops.Lawful items) {s : RingState α n} {a : RingAction β}
    (hst : ringStep ops s a = none) : Refills items s a := by
  refine ⟨?_, ?_⟩
  · rintro rfl hc
    simp [ringStep, hc] at hst
  · rintro batch rfl
    rw [ringStep_produce hops] at hst
    cases hst

/-- **Wake-ups.** From the start, the consumer of a lawful ring only uses unread items in a run
exactly if all steps of the run refill the ring for a consumer past its test. -/
theorem alongStates_readsUnread_iff (hops : ops.Lawful items) (hn : 0 < n) (buffer : Vector α n)
    (as : List (RingAction β)) :
    AlongStates (ringStep ops) ReadsUnread (RingState.start buffer) as ↔
      Along (ringStep ops) (Refills items) (RingState.start buffer) as := by
  have hstart : (RingState.start buffer).consumer = .use →
      bufferEmpty (RingState.start buffer).ring = false := fun h => by simp [RingState.start] at h
  constructor
  · intro hall
    have hsafe : Along (ringStep ops) (fun s _ => s.consumer = .use → bufferEmpty s.ring = false)
        (RingState.start buffer) as :=
      fun pre a post hsplit s hs => (hall.along pre a post hsplit s hs).1.nonempty
    have hbehind := run_induction (P := Behind) (fun s a t h hs hst => h.step hops hs hst)
      (Behind.start hn buffer) hsafe
    intro pre a post hsplit s hs
    cases hst : ringStep ops s a with
    | none => exact refills_of_none hops hst
    | some t =>
      obtain ⟨-, ht⟩ := hall.along pre a post hsplit s hs
      exact ((hbehind pre _ hsplit s hs).nonempty_step_iff hops hst).mp (ht t hst).nonempty
  · intro hrefills pre post hsplit s hs
    have hinv := run_induction
      (P := fun s => Behind s ∧ (s.consumer = .use → bufferEmpty s.ring = false))
      (fun s a t h hr hst => ⟨h.1.step hops h.2 hst, (h.1.nonempty_step_iff hops hst).mpr hr⟩)
      ⟨Behind.start hn buffer, hstart⟩ hrefills pre post hsplit s hs
    exact hinv.1.readsUnread hinv.2

/-! ## The two rings -/

/-- A `databuffer_put` that finds the consumer past its test does not fill the last free slot. -/
def RefillsBytes (s : RingState DemodByte bufferSize) (a : RingAction DemodByte) : Prop :=
  (a = .spurious → s.consumer ≠ .waiting) ∧
    ∀ byterx, a = .produce byterx → s.consumer ≠ .test → s.ring.available + 1 ≠ bufferSize

/-- A `DSPDemod` call that finds the consumer past its test does not leave a multiple of the ring
size unread, none included. -/
def RefillsSamples (s : RingState RtlSample sampleBfrsiz) (a : RingAction (List RtlSample)) :
    Prop :=
  (a = .spurious → s.consumer ≠ .waiting) ∧
    ∀ samples, a = .produce samples → s.consumer ≠ .test →
      (s.ring.available + samples.length / 2) % sampleBfrsiz ≠ 0

private theorem refills_iff_bytes (s : RingState DemodByte bufferSize)
    (a : RingAction DemodByte) : Refills (fun byterx => [byterx]) s a ↔ RefillsBytes s a := by
  have hlt := s.ring.available_lt (by decide)
  have hmod : (s.ring.available + 1) % bufferSize ≠ 0 ↔ s.ring.available + 1 ≠ bufferSize := by
    simp only [bufferSize] at hlt ⊢
    omega
  simp only [Refills, RefillsBytes, List.length_singleton, hmod]

/-- In every run of either ring, spurious returns of the wait allowed, the consumer only uses
unread items exactly if the wait never returns without a signal and no producer call makes the
pointers meet while the consumer is past its test. -/
theorem readsUnread_iff_refilled (bytes : List (RingAction DemodByte))
    (buffer : Vector RtlSample sampleBfrsiz) (batches : List (RingAction (List RtlSample))) :
    (AlongStates (ringStep dataBufferOps) ReadsUnread dataBufferStart bytes ↔
      Along (ringStep dataBufferOps) RefillsBytes dataBufferStart bytes) ∧
    (AlongStates (ringStep sampleRingOps) ReadsUnread (RingState.start buffer) batches ↔
      Along (ringStep sampleRingOps) RefillsSamples (RingState.start buffer) batches) := by
  constructor
  · have h := alongStates_readsUnread_iff dataBufferOps_lawful (by decide)
      databufferInit.buffer bytes
    simp only [Along, refills_iff_bytes] at h
    exact h
  · rw [alongStates_readsUnread_iff sampleRingOps_lawful (by decide) buffer]
    simp only [Along, Refills, RefillsSamples, length_blockMap]

/-- A spurious return on the empty byte ring: the consumer returns a byte nobody put there. -/
theorem byte_never_put : ∃ t, run (ringStep dataBufferOps) dataBufferStart
      [.test, .spurious, .use] = some t ∧
    t.produced = [] ∧ t.consumed = [noByte] ∧ t.ring.rdptr = 1 ∧ t.ring.wrptr = 0 ∧
    ¬ AlongStates (ringStep dataBufferOps) ReadsUnread dataBufferStart
      [.test, .spurious, .use] := by
  refine ⟨_, rfl, rfl, rfl, rfl, rfl, fun h => ?_⟩
  -- after the spurious return the consumer is about to use a slot of the empty ring
  have hempty := (h [.test, .spurious] [.use] rfl _ rfl).nonempty rfl
  exact absurd hempty (by decide)

end PiWxRx
