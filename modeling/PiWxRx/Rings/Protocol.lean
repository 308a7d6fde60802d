import PiWxRx.General.Circular
import PiWxRx.General.Runs

/-!
# The ring protocol

The received bytes (`databuffer.c`) and the samples of the demodulator (`FSKdsp.c`) pass through
circular buffers under the same protocol. The producer writes and signals under the lock. The
consumer tests `BUFFER_EMPTY` under the lock and, `if` the ring is empty, waits for a signal;
then, outside the lock and without testing again, it uses the slot at the read pointer and
advances it.

`RingOps` are the operations of one ring as the source codes them, `ringStep` is the protocol
over them with the critical sections as atomic steps, and `Lawful` ties the operations to
`Circular.Ring`. The results hold for every lawful ring:

* `alongStates_fifo_iff`: within capacity a run is a lossless queue exactly if no batch without
  items arrives while the consumer waits;
* `produce_available`: a producer call adds its items to the count of readable ones, which wraps at
  the size of the ring.
-/

namespace PiWxRx

open Circular Runs

/-- `BUFFER_EMPTY`. -/
def bufferEmpty {α : Type} {n : ℕ} (r : Ring α n) : Bool := r.rdptr == r.wrptr

/-- The operations of a ring. -/
structure RingOps (β α : Type) (n : ℕ) where
  /-- The producer's critical section: the new ring and the items it stored, in order. -/
  produce : Ring α n → β → Ring α n × List α
  /-- The consumer's use of a slot: the item read and the new ring. -/
  consume : Ring α n → Option α × Ring α n

/-- Where the consumer is. -/
inductive ConsumerPc where
  /-- Before the critical section with the test. -/
  | test
  /-- In `pthread_cond_wait`. -/
  | waiting
  /-- Past the critical section, about to use the slot at the read pointer. -/
  | use
  deriving DecidableEq, Repr

/-- A ring, its consumer, and the items stored and used so far. -/
structure RingState (α : Type) (n : ℕ) where
  ring : Ring α n
  consumer : ConsumerPc
  /-- All items the producer stored, in order. -/
  produced : List α
  /-- All items the consumer used, in order. -/
  consumed : List α

/-- A step of one of the parties. -/
inductive RingAction (β : Type) where
  /-- The producer's critical section, ending with `pthread_cond_signal`. -/
  | produce (batch : β)
  /-- The consumer's critical section up to `pthread_cond_wait`. -/
  | test
  /-- `pthread_cond_wait` returns without a signal. -/
  | spurious
  /-- The consumer uses a slot. -/
  | use
  deriving DecidableEq, Repr

/-- A ring at start, with the consumer before its first test. -/
def RingState.start {α : Type} {n : ℕ} (buffer : Vector α n) : RingState α n where
  ring := { buffer, wrptr := 0, rdptr := 0 }
  consumer := .test
  produced := []
  consumed := []

/-- The consumer after a signal: a waiting one proceeds, any other does not notice. -/
def ConsumerPc.signal : ConsumerPc → ConsumerPc
  | .test => .test
  | .waiting => .use
  | .use => .use

/-- One step of the protocol. -/
def ringStep {β α : Type} {n : ℕ} (ops : RingOps β α n) (s : RingState α n) :
    RingAction β → Option (RingState α n)
  | .produce batch =>
    -- no test for a full ring
    let (ring, items) := ops.produce s.ring batch
    some { s with ring, consumer := s.consumer.signal, produced := s.produced ++ items }
  | .test =>
    if s.consumer = .test then
      some { s with consumer := if bufferEmpty s.ring then .waiting else .use }
    else
      none
  | .spurious => if s.consumer = .waiting then some { s with consumer := .use } else none
  | .use =>
    if s.consumer = .use then
      -- not tested again after the wait
      let (item, ring) := ops.consume s.ring
      item.map fun x => { s with ring, consumer := .test, consumed := s.consumed ++ [x] }
    else
      none

/-- The operations are those of a circular buffer: a batch stores `items batch`, a use reads the
cell at the read pointer. -/
structure RingOps.Lawful {β α : Type} {n : ℕ} (ops : RingOps β α n) (items : β → List α) :
    Prop where
  produce_eq : ∀ r batch, ops.produce r batch = (r.putAll (items batch), items batch)
  consume_eq : ∀ r, ops.consume r = (r.buffer[r.rdptr]?, r.drop)

variable {β α : Type} {n : ℕ} {ops : RingOps β α n} {items : β → List α}

/-- A producer step of a lawful ring. -/
theorem ringStep_produce (hops : ops.Lawful items) (s : RingState α n) (batch : β) :
    ringStep ops s (.produce batch) =
      some { s with
        ring := s.ring.putAll (items batch)
        consumer := s.consumer.signal
        produced := s.produced ++ items batch } := by
  simp only [ringStep, hops.produce_eq]

/-- A use of the consumer. -/
theorem ringStep_use (hops : ops.Lawful items) {s t : RingState α n}
    (h : ringStep ops s .use = some t) :
    ∃ x, s.ring.buffer[s.ring.rdptr]? = some x ∧ s.consumer = .use ∧
      t = { s with
        ring := s.ring.drop
        consumer := .test
        consumed := s.consumed ++ [x] } := by
  simp only [ringStep, hops.consume_eq, Option.ite_none_right_eq_some,
    Option.map_eq_some_iff] at h
  obtain ⟨hc, x, hx, rfl⟩ := h
  exact ⟨x, hx, hc, rfl⟩

/-- A test of the consumer. -/
theorem ringStep_test (ops : RingOps β α n) (s : RingState α n) (hs : s.consumer = .test) :
    ringStep ops s .test =
      some { s with consumer := if bufferEmpty s.ring then .waiting else .use } := by
  simp only [ringStep, hs, ↓reduceIte]

/-- A consumer that tests goes on, or waits on an empty ring. -/
theorem ringStep_test_eq_some {s t : RingState α n} (h : ringStep ops s .test = some t) :
    s.consumer = .test ∧
      t = { s with consumer := if bufferEmpty s.ring then .waiting else .use } := by
  simp only [ringStep, Option.ite_none_right_eq_some, Option.some.injEq] at h
  exact ⟨h.1, h.2.symm⟩

/-- A spurious return takes the consumer past its test. -/
theorem ringStep_spurious {s t : RingState α n} (h : ringStep ops s .spurious = some t) :
    s.consumer = .waiting ∧ t = { s with consumer := .use } := by
  simp only [ringStep, Option.ite_none_right_eq_some, Option.some.injEq] at h
  exact ⟨h.1, h.2.symm⟩

/-- The batch a producer brings. -/
def RingAction.batch? : RingAction β → Option β
  | .produce batch => some batch
  | .test => none
  | .spurious => none
  | .use => none

/-- A step stores the items of its batch and forgets none of the items used. -/
theorem ringStep_histories (hops : ops.Lawful items) {s t : RingState α n} {a : RingAction β}
    (h : ringStep ops s a = some t) :
    t.produced = s.produced ++ a.batch?.toList.flatMap items ∧ s.consumed <+: t.consumed ∧
      (a ≠ .use → t.consumed = s.consumed) := by
  cases a with
  | produce batch =>
    rw [ringStep_produce hops] at h
    obtain rfl := Option.some.inj h
    exact ⟨by simp [RingAction.batch?], List.prefix_rfl, fun _ => rfl⟩
  | test =>
    obtain ⟨-, rfl⟩ := ringStep_test_eq_some h
    exact ⟨(List.append_nil _).symm, List.prefix_rfl, fun _ => rfl⟩
  | spurious =>
    obtain ⟨-, rfl⟩ := ringStep_spurious h
    exact ⟨(List.append_nil _).symm, List.prefix_rfl, fun _ => rfl⟩
  | use =>
    obtain ⟨x, -, -, rfl⟩ := ringStep_use hops h
    exact ⟨(List.append_nil _).symm, List.prefix_append _ _, fun ha => absurd rfl ha⟩

/-- Both pointers are positions of the buffer. -/
def PointersInRange (r : Ring α n) : Prop := r.wrptr < n ∧ r.rdptr < n

theorem PointersInRange.putAll {r : Ring α n} (h : PointersInRange r) (xs : List α) :
    PointersInRange (r.putAll xs) := by
  induction xs generalizing r with
  | nil => exact h
  | cons x xs ih => exact ih ⟨Nat.mod_lt _ (Nat.zero_lt_of_lt h.1), h.2⟩

/-- No step, not even one on a full or an empty ring, moves a pointer out of the buffer. -/
theorem PointersInRange.step (hops : ops.Lawful items) {s t : RingState α n} {a : RingAction β}
    (hs : PointersInRange s.ring) (h : ringStep ops s a = some t) : PointersInRange t.ring := by
  cases a with
  | produce batch =>
    rw [ringStep_produce hops] at h
    obtain rfl := Option.some.inj h
    exact hs.putAll _
  | test =>
    obtain ⟨-, rfl⟩ := ringStep_test_eq_some h
    exact hs
  | spurious =>
    obtain ⟨-, rfl⟩ := ringStep_spurious h
    exact hs
  | use =>
    obtain ⟨x, -, -, rfl⟩ := ringStep_use hops h
    exact ⟨hs.1, Nat.mod_lt _ (Nat.zero_lt_of_lt hs.1)⟩

/-- A consumer past its test has a slot to use. -/
theorem PointersInRange.use (hops : ops.Lawful items) {s : RingState α n}
    (hs : PointersInRange s.ring) (huse : s.consumer = .use) :
    ∃ x, ringStep ops s .use = some { s with
      ring := s.ring.drop
      consumer := .test
      consumed := s.consumed ++ [x] } := by
  have hlt := hs.2
  refine ⟨s.ring.buffer[s.ring.rdptr], ?_⟩
  simp [ringStep, huse, hops.consume_eq, Vector.getElem?_eq_getElem hlt]

/-- While the consumer does not move, the batches pile up in the ring. -/
theorem run_produce (hops : ops.Lawful items) (s : RingState α n) (hs : s.consumer = .test)
    (batches : List β) :
    run (ringStep ops) s (batches.map .produce) =
      some { s with
        ring := s.ring.putAll (batches.flatMap items)
        produced := s.produced ++ batches.flatMap items } := by
  induction batches generalizing s with
  | nil => simp
  | cons batch batches ih =>
    rw [List.map_cons, run_cons, ringStep_produce hops, Option.bind_some, ih _ (by
      simp [hs, ConsumerPc.signal])]
    simp [hs, ConsumerPc.signal]

/-! ## Lossless queues -/

/-- The ring is a lossless queue: the items used are the items stored, in order; the consumer
waits only when all of them were used and goes on only when one is left. -/
structure Fifo (s : RingState α n) : Prop where
  kth : ∀ (k : ℕ) x, s.consumed[k]? = some x → s.produced[k]? = some x
  waiting : s.consumer = .waiting → s.consumed.length = s.produced.length
  use : s.consumer = .use → s.consumed.length < s.produced.length

/-- Fewer than `n` items are stored and not used. -/
def WithinCapacity (s : RingState α n) : Prop := s.produced.length < s.consumed.length + n

/-- A batch that arrives while the consumer waits stores an item. -/
def FeedsWaiter (items : β → List α) (s : RingState α n) (a : RingAction β) : Prop :=
  ∀ batch, a = .produce batch → s.consumer = .waiting → items batch ≠ []

/-- The invariant of a lossless run: the ring tracks the histories, and the consumer is where the
histories say. -/
structure Lossless (s : RingState α n) : Prop where
  tracks : Tracks s.ring s.produced s.consumed
  waiting : s.consumer = .waiting → s.consumed.length = s.produced.length
  use : s.consumer = .use → s.consumed.length < s.produced.length

theorem Lossless.fifo {s : RingState α n} (h : Lossless s) : Fifo s where
  kth k x hx := by
    obtain ⟨rest, hrest⟩ := h.tracks.consumed_prefix
    have hk := (List.getElem?_eq_some_iff.mp hx).1
    rw [← hrest, List.getElem?_append_left hk, hx]
  waiting := h.waiting
  use := h.use

theorem Lossless.step (hops : ops.Lawful items) {s t : RingState α n}
    {a : RingAction β} (h : Lossless s) (hsig : a ≠ .spurious) (hfeed : FeedsWaiter items s a)
    (hroom : WithinCapacity t) (hst : ringStep ops s a = some t) : Lossless t := by
  cases a with
  | produce batch =>
    rw [ringStep_produce hops] at hst
    obtain rfl := Option.some.inj hst
    have hle := h.tracks.consumed_prefix.length_le
    simp only [WithinCapacity, List.length_append] at hroom
    refine ⟨h.tracks.putAll _ (by omega), ?_, ?_⟩
    · -- after a signal nobody waits
      intro hw
      cases hc : s.consumer <;> simp [hc, ConsumerPc.signal] at hw
    · intro hu
      simp only [List.length_append]
      cases hc : s.consumer with
      | test => simp [hc, ConsumerPc.signal] at hu
      | waiting =>
        -- woken up by this batch, which has an item
        have := List.length_pos_iff.mpr (hfeed batch rfl hc)
        omega
      | use =>
        have := h.use hc
        omega
  | test =>
    obtain ⟨hc, rfl⟩ := ringStep_test_eq_some hst
    have hle := h.tracks.consumed_prefix.length_le
    have hiff := h.tracks.rdptr_eq_wrptr_iff
    -- the pointers meet exactly when everything was used
    refine ⟨h.tracks, fun hw => ?_, fun hu => ?_⟩
    · by_cases hb : bufferEmpty s.ring = true
      · exact hiff.mp (by simpa [bufferEmpty] using hb)
      · simp [hb] at hw
    · by_cases hb : bufferEmpty s.ring = true
      · simp [hb] at hu
      · have hne : s.consumed.length ≠ s.produced.length :=
          fun heq => hb (by simpa [bufferEmpty] using hiff.mpr heq)
        change s.consumed.length < s.produced.length
        omega
  | spurious => exact absurd rfl hsig
  | use =>
    obtain ⟨x, hx, hc, rfl⟩ := ringStep_use hops hst
    -- an item is left, and the cell read is its cell
    obtain ⟨y, hy, htracks⟩ := h.tracks.take (h.use hc)
    obtain rfl : x = y := Option.some.inj (hx.symm.trans hy)
    exact ⟨htracks, fun hw => by simp at hw, fun hu => by simp at hu⟩

theorem lossless_start (hn : 0 < n) (buffer : Vector α n) :
    Lossless (RingState.start buffer) where
  tracks := tracks_nil _ hn rfl rfl
  waiting h := by simp [RingState.start] at h
  use h := by simp [RingState.start] at h

/-- Within capacity and without spurious wake-ups, a run is a lossless queue throughout exactly
if every batch that arrives while the consumer waits stores an item. -/
theorem alongStates_fifo_iff (hops : ops.Lawful items) (hn : 0 < n) (buffer : Vector α n)
    {as : List (RingAction β)} (hsig : .spurious ∉ as)
    (hroom : AlongStates (ringStep ops) WithinCapacity (RingState.start buffer) as) :
    AlongStates (ringStep ops) Fifo (RingState.start buffer) as ↔
      Along (ringStep ops) (FeedsWaiter items) (RingState.start buffer) as := by
  constructor
  · intro hfifo pre a post hsplit s hs batch hbatch hc hnil
    subst hbatch
    obtain ⟨hs', ht'⟩ := hfifo.along pre _ post hsplit s hs
    have hwait := hs'.waiting hc
    -- the empty batch sends the waiting consumer on
    have huse := (ht' _ (ringStep_produce hops s batch)).use (by simp [hc, ConsumerPc.signal])
    simp only [hnil, List.append_nil] at huse
    omega
  · -- the invariant is kept by every step whose new state is within capacity
    intro hfeed pre post hsplit s hs
    refine Lossless.fifo (run_induction (P := Lossless)
      (G := fun s a => a ≠ .spurious ∧ FeedsWaiter items s a ∧
        ∀ t, ringStep ops s a = some t → WithinCapacity t)
      (fun s a t h hG hst => h.step hops hG.1 hG.2.1 (hG.2.2 t hst) hst)
      (lossless_start hn buffer) ?_ pre post hsplit s hs)
    intro pre' a post' hsplit' u hu
    refine ⟨fun ha => hsig ?_, hfeed pre' a post' hsplit' u hu,
      (hroom.along pre' a post' hsplit' u hu).2⟩
    rw [hsplit', ha]
    exact List.mem_append_right _ List.mem_cons_self

/-! ## Unread items -/

/-- In every run, overruns and spurious returns included, the pointers stay positions of the
buffer. -/
theorem pointersInRange_of_run (hops : ops.Lawful items) (hn : 0 < n) {buffer : Vector α n}
    {as : List (RingAction β)} {s : RingState α n}
    (h : run (ringStep ops) (RingState.start buffer) as = some s) : PointersInRange s.ring :=
  run_invariant (P := fun s => PointersInRange s.ring) (fun _ _ _ hs hst => hs.step hops hst)
    ⟨hn, hn⟩ h

/-- A producer call adds its items to those readable, and the count wraps at `n`. It drops exactly
if the items do not fit below the wrap, and the ring looks empty exactly if it comes out at zero. -/
theorem produce_available (hops : ops.Lawful items) {s : RingState α n}
    (hs : PointersInRange s.ring) (batch : β) :
    ∃ t, ringStep ops s (.produce batch) = some t ∧
      t.ring.available = (s.ring.available + (items batch).length) % n ∧
      (s.ring.available ≤ t.ring.available ↔
        s.ring.available + (items batch).length % n < n) ∧
      (bufferEmpty t.ring = true ↔ n ∣ s.ring.available + (items batch).length) := by
  have havailable := s.ring.available_putAll (items batch)
  have hrange := hs.putAll (items batch)
  refine ⟨_, ringStep_produce hops s batch, havailable,
    s.ring.available_le_putAll_iff (Nat.zero_lt_of_lt hs.1) _, ?_⟩
  rw [bufferEmpty, beq_iff_eq, ← Ring.available_eq_zero_iff hrange.1 hrange.2, havailable,
    Nat.dvd_iff_mod_eq_zero]

/-- From the start the unread items are counted modulo `n`, however many batches pile up. -/
theorem available_run_produce (hops : ops.Lawful items) (buffer : Vector α n)
    (batches : List β) :
    ∃ t, run (ringStep ops) (RingState.start buffer) (batches.map .produce) = some t ∧
      t.ring.available = (batches.flatMap items).length % n := by
  refine ⟨_, run_produce hops _ rfl batches, ?_⟩
  rw [Ring.available_putAll]
  simp [Ring.available, RingState.start]

end PiWxRx
