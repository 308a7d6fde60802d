import PiWxRx.FSK.IndexRange
import PiWxRx.Threads.ReceiveNetwork

/-!
# The network never faults and never gets stuck

* `never_faults`: in every interleaving, overruns and spurious wake-ups included, all pointers and
  indices stay inside their arrays, and a thread past its wait can go on.
* `drains`: once the pipe is quiet, the threads can take only so many more steps (`backlog`), and
  if none of them can take one, every sample was demodulated and every byte handed over. So no
  schedule of the threads loses a wake-up or leaves work behind.
* `exists_drained`: there is a schedule that gets them there without overrunning a ring.
-/

namespace PiWxRx

open Blocks CArith Circular Runs

variable {longBits : ℕ} {oscLut : Vector OscValue lutSize}

/-! ## No faults -/

/-- All pointers and indices are inside their arrays. -/
structure InBounds (s : ReceiveState) : Prop where
  samples : PointersInRange s.samples.ring
  bytes : PointersInRange s.bytes.ring
  front : s.dsp.front.InRange

/-- An iteration of the DSP thread past its wait has a result. -/
theorem dspIterate_isSome {s : ReceiveState} (h : InBounds s) (huse : s.samples.consumer = .use)
    (debuglevel : BitVec 32) :
    (receiveStep (.wrap longBits) oscLut s (.dspIterate debuglevel)).isSome = true := by
  obtain ⟨x, hx⟩ := h.samples.use sampleRingOps_lawful huse
  obtain ⟨dsp, out, hdsp, -⟩ :=
    dspSample_wrap longBits oscLut h.front debuglevel x
  have hput : ∃ bytes, byteRx s.bytes out.byteRx = some bytes := by
    cases out.byteRx with
    | none => exact ⟨_, rfl⟩
    | some data => exact ⟨_, ringStep_produce dataBufferOps_lawful s.bytes data⟩
  obtain ⟨bytes, hbytes⟩ := hput
  simp [receiveStep, hx, hdsp, hbytes]

/-- `databuffer_get` past its wait has a result. -/
theorem getUse_isSome {A : Arith} {s : ReceiveState} (h : InBounds s)
    (huse : s.bytes.consumer = .use) : (receiveStep A oscLut s .getUse).isSome = true := by
  obtain ⟨x, hx⟩ := h.bytes.use dataBufferOps_lawful huse
  simp [receiveStep, hx]

/-- One step, whatever it is. -/
theorem InBounds.step {s t : ReceiveState} {a : ReceiveAction} (h : InBounds s)
    (hst : receiveStep (.wrap longBits) oscLut s a = some t) : InBounds t := by
  refine ⟨?_, ?_, ?_⟩
  · rcases samples_receiveStep hst with ⟨-, heq⟩ | ⟨b, -, hring⟩
    · rw [heq]
      exact h.samples
    · exact h.samples.step sampleRingOps_lawful hring
  · rcases bytes_receiveStep hst with heq | ⟨b, hring, -⟩
    · rw [heq]
      exact h.bytes
    · exact h.bytes.step dataBufferOps_lawful hring
  · rcases dsp_receiveStep hst with ⟨debuglevel, rfl⟩ | ⟨-, hdsp, -⟩ | ⟨-, hdsp, -⟩
    · obtain ⟨sample, out, -, -, hdsp, -⟩ := receiveStep_dspIterate hst
      obtain ⟨dsp, out', hdsp', hrange⟩ := dspSample_wrap longBits oscLut h.front debuglevel sample
      rw [hdsp] at hdsp'
      rw [(Prod.mk.inj (Option.some.inj hdsp')).1]
      exact hrange
    · rw [hdsp]
      exact h.front
    · rw [hdsp]
      exact h.front

theorem inBounds_start (buffer : Vector RtlSample sampleBfrsiz) {dsp₀ : DspState}
    (h : dsp₀.front.InRange) : InBounds (ReceiveState.start buffer dsp₀) where
  samples := ⟨Nat.succ_pos 4095, Nat.succ_pos 4095⟩
  bytes := ⟨Nat.succ_pos 127, Nat.succ_pos 127⟩
  front := h

/-- **No faults.** However the threads interleave, even when a ring overruns, a `DSPDemod` call
brings nothing or a wait returns for no reason: all pointers and indices stay inside their arrays,
and a thread past its wait can take its step. -/
theorem never_faults (buffer : Vector RtlSample sampleBfrsiz) {dsp₀ : DspState}
    (hdsp : dsp₀.front.InRange) {as : List ReceiveAction} {t : ReceiveState}
    (ht : run (receiveStep (.wrap longBits) oscLut) (ReceiveState.start buffer dsp₀) as = some t) :
    InBounds t ∧
      (t.samples.consumer = .use → ∀ debuglevel,
        (receiveStep (.wrap longBits) oscLut t (.dspIterate debuglevel)).isSome = true) ∧
      (t.bytes.consumer = .use →
        (receiveStep (.wrap longBits) oscLut t .getUse).isSome = true) := by
  have h : InBounds t :=
    run_invariant (fun _ _ _ hs hst => hs.step hst) (inBounds_start buffer hdsp) ht
  exact ⟨h, fun huse => dspIterate_isSome h huse, getUse_isSome h⟩

/-- One byte through the network, and the DSP thread about to put it. -/
theorem never_faults_oneByte :
    (∃ t, run (receiveStep (.wrap 64) silentTable) oneByteStart oneByte = some t ∧
      t.bytes.consumed = [0xAB] ∧ InBounds t) ∧
    ∃ t, run (receiveStep (.wrap 64) silentTable) oneByteStart (oneByte.take 3) = some t ∧
      (receiveStep (.wrap 64) silentTable t (.dspIterate 0)).isSome = true := by
  have hrange : lastBitDue.front.InRange := FrontEnd.inRange_init
  obtain ⟨⟨t, ht, -, -, -, hbyte⟩, -⟩ := oneByte_run
  refine ⟨⟨t, ht, hbyte, (never_faults (Vector.replicate sampleBfrsiz 0) hrange ht).1⟩, ?_⟩
  have hthree : ∃ u, run (receiveStep (.wrap 64) silentTable) oneByteStart (oneByte.take 3) =
      some u ∧ u.samples.consumer = .use := ⟨_, rfl, rfl⟩
  obtain ⟨u, hu, huse⟩ := hthree
  exact ⟨u, hu, (never_faults (Vector.replicate sampleBfrsiz 0) hrange hu).2.1 huse 0⟩

/-! ## Draining -/

/-- The steps that need nothing from outside. -/
def ReceiveAction.Drains : ReceiveAction → Prop
  | .dspDemod _ => False
  | .dspTest => True
  | .dspSpurious => False
  | .dspIterate _ => True
  | .clearSync => False
  | .getTest => True
  | .getSpurious => False
  | .getUse => True

/-- The threads bring no samples of their own. -/
theorem pipeReads_of_drains {as : List ReceiveAction} (has : ∀ a ∈ as, a.Drains) :
    pipeReads as = [] := by
  rw [pipeReads, List.filterMap_eq_nil_iff]
  intro a ha
  have hdrains := has a ha
  cases a with
  | dspDemod samples => exact hdrains.elim
  | _ => rfl

/-- A test is still due. -/
def ConsumerPc.testsDue : ConsumerPc → ℕ
  | .test => 1
  | .waiting => 0
  | .use => 0

/-- What a ring has left to do, at `cost` a stored item. -/
def ringBacklog {α : Type} {n : ℕ} (cost : ℕ) (s : RingState α n) : ℕ :=
  cost * (s.produced.length - s.consumed.length) + s.consumer.testsDue

/-- The steps left at most: a sample takes a test and an iteration, and so does the byte it may
complete. -/
def backlog (s : ReceiveState) : ℕ := ringBacklog 4 s.samples + ringBacklog 2 s.bytes

section

variable {α β : Type} {n : ℕ} {ops : RingOps β α n} {items : β → List α} {s t : RingState α n}

/-- A test is done with. -/
theorem ringBacklog_test (cost : ℕ) (h : ringStep ops s .test = some t) :
    ringBacklog cost t + 1 = ringBacklog cost s := by
  obtain ⟨hc, rfl⟩ := ringStep_test_eq_some h
  simp only [ringBacklog, hc]
  split <;> simp [ConsumerPc.testsDue]

/-- An item used is paid for, and the next test is due. -/
theorem ringBacklog_use (hops : ops.Lawful items) (cost : ℕ) (hs : Lossless s)
    (h : ringStep ops s .use = some t) : ringBacklog cost t + cost = ringBacklog cost s + 1 := by
  obtain ⟨x, -, hc, rfl⟩ := ringStep_use hops h
  have hlt := hs.use hc
  obtain ⟨k, hk⟩ := Nat.exists_eq_add_of_lt hlt
  have hleft : s.produced.length - (s.consumed.length + 1) = k := by omega
  have hall : s.produced.length - s.consumed.length = k + 1 := by omega
  simp only [ringBacklog, hc, List.length_append, List.length_singleton, ConsumerPc.testsDue,
    hleft, hall]
  ring

/-- An item stored has to be used. -/
theorem ringBacklog_produce_le (hops : ops.Lawful items) (cost : ℕ) {batch : β}
    (hone : (items batch).length = 1) (h : ringStep ops s (.produce batch) = some t) :
    ringBacklog cost t ≤ ringBacklog cost s + cost := by
  rw [ringStep_produce hops] at h
  obtain rfl := Option.some.inj h
  have hsignal : s.consumer.signal.testsDue ≤ s.consumer.testsDue := by
    cases s.consumer <;> decide
  have hleft : s.produced.length + 1 - s.consumed.length ≤
      s.produced.length - s.consumed.length + 1 := by omega
  have hcost := Nat.mul_le_mul_left cost hleft
  rw [Nat.mul_add, Nat.mul_one] at hcost
  simp only [ringBacklog, List.length_append, hone]
  omega

end

variable {A : Arith} {dsp₀ : DspState}

/-- Every step of a thread takes one off the backlog. -/
theorem backlog_receiveStep {s t : ReceiveState} {a : ReceiveAction} (hsamples : Lossless s.samples)
    (hbytes : Lossless s.bytes) (ha : a.Drains) (h : receiveStep A oscLut s a = some t) :
    backlog t + 1 ≤ backlog s := by
  cases a with
  | dspTest =>
    rw [receiveStep, Option.map_eq_some_iff] at h
    obtain ⟨r, hr, rfl⟩ := h
    have htest := ringBacklog_test 4 hr
    simp only [backlog]
    omega
  | dspIterate debuglevel =>
    obtain ⟨sample, out, huse, -, -, hput, -⟩ := receiveStep_dspIterate h
    have hused := ringBacklog_use sampleRingOps_lawful 4 hsamples huse
    -- a sample costs four steps, enough for the two of a byte
    have hstored : ringBacklog 2 t.bytes ≤ ringBacklog 2 s.bytes + 2 := by
      cases hbyte : out.byteRx with
      | none =>
        rw [hbyte] at hput
        rw [← Option.some.inj hput]
        exact Nat.le_add_right _ _
      | some data =>
        rw [hbyte] at hput
        exact ringBacklog_produce_le dataBufferOps_lawful 2 rfl hput
    simp only [backlog]
    omega
  | getTest =>
    rw [receiveStep, Option.map_eq_some_iff] at h
    obtain ⟨r, hr, rfl⟩ := h
    have htest := ringBacklog_test 2 hr
    simp only [backlog]
    omega
  | getUse =>
    rw [receiveStep, Option.map_eq_some_iff] at h
    obtain ⟨r, hr, rfl⟩ := h
    have hused := ringBacklog_use dataBufferOps_lawful 2 hbytes hr
    simp only [backlog]
    omega
  | dspDemod | dspSpurious | clearSync | getSpurious => exact ha.elim

/-- A run of the threads is no longer than the backlog it works off. -/
theorem length_add_backlog_le {s t : ReceiveState} {as : List ReceiveAction}
    (hlossless : AlongStates (receiveStep A oscLut)
      (fun u => Lossless u.samples ∧ Lossless u.bytes) s as)
    (has : ∀ a ∈ as, a.Drains) (h : run (receiveStep A oscLut) s as = some t) :
    as.length + backlog t ≤ backlog s := by
  induction as generalizing s with
  | nil =>
    obtain rfl := Option.some.inj h
    simp
  | cons a as ih =>
    obtain ⟨u, hu, hut⟩ := Option.bind_eq_some_iff.mp h
    obtain ⟨⟨hsamples, hbytes⟩, hrest⟩ := alongStates_cons.mp hlossless
    have hstep := backlog_receiveStep hsamples hbytes (has a List.mem_cons_self) hu
    have htail := ih (hrest u hu) (fun b hb => has b (List.mem_cons_of_mem a hb)) hut
    rw [List.length_cons]
    omega

/-- When no thread can take a step, both consumers wait. -/
theorem waiting_of_stuck {s : ReceiveState} (h : InBounds s)
    (hstuck : ∀ a : ReceiveAction, a.Drains → receiveStep (.wrap longBits) oscLut s a = none) :
    s.samples.consumer = .waiting ∧ s.bytes.consumer = .waiting := by
  constructor
  · cases hc : s.samples.consumer with
    | waiting => rfl
    | test =>
      have hnone := hstuck .dspTest trivial
      rw [receiveStep, ringStep_test _ _ hc] at hnone
      cases hnone
    | use =>
      have hsome : (receiveStep (.wrap longBits) oscLut s (.dspIterate 0)).isSome = true :=
        dspIterate_isSome h hc 0
      rw [hstuck (.dspIterate 0) trivial] at hsome
      cases hsome
  · cases hc : s.bytes.consumer with
    | waiting => rfl
    | test =>
      have hnone := hstuck .getTest trivial
      rw [receiveStep, ringStep_test _ _ hc] at hnone
      cases hnone
    | use =>
      have hsome : (receiveStep (.wrap longBits) oscLut s .getUse).isSome = true :=
        getUse_isSome h hc
      rw [hstuck .getUse trivial] at hsome
      cases hsome

/-- **The network drains.** After any run within the capacity of the rings and without lost
signals, let only the threads take steps. There are at most `backlog` of them, in whatever order,
and when none is possible any more the application has every byte decoded from the events, and the
events have every sample stored. -/
theorem drains {buffer : Vector RtlSample sampleBfrsiz} (hdsp : dsp₀.front.InRange)
    {as bs : List ReceiveAction} (hbs : ∀ b ∈ bs, b.Drains)
    (hsig : Along (receiveStep (.wrap longBits) oscLut) Signalled
      (ReceiveState.start buffer dsp₀) (as ++ bs))
    (hroom : AlongStates (receiveStep (.wrap longBits) oscLut) WithinRings
      (ReceiveState.start buffer dsp₀) (as ++ bs))
    {t u : ReceiveState}
    (ht : run (receiveStep (.wrap longBits) oscLut) (ReceiveState.start buffer dsp₀) as = some t)
    (hu : run (receiveStep (.wrap longBits) oscLut) t bs = some u) :
    bs.length + backlog u ≤ backlog t ∧
      ((∀ b : ReceiveAction, b.Drains → receiveStep (.wrap longBits) oscLut u b = none) →
        u.bytes.consumed = decodedBytes (.wrap longBits) oscLut dsp₀ u.handled ∧
        samplesOf u.handled = (pipeReads as).flatMap (blockMap 2 pairAverage)) := by
  have hrun : run (receiveStep (.wrap longBits) oscLut) (ReceiveState.start buffer dsp₀)
      (as ++ bs) = some u := by
    rw [run_append, ht]
    exact hu
  have hdecodes := decodes_of_run hsig hroom
  constructor
  · refine length_add_backlog_le ?_ hbs hu
    -- the invariant holds all along
    rintro pre post rfl v hv
    have hv' := hdecodes (as ++ pre) post (List.append_assoc _ _ _).symm v (by
      rw [run_append, ht]
      exact hv)
    exact ⟨hv'.samples, hv'.bytes⟩
  · intro hstuck
    have hbounds : InBounds u :=
      run_invariant (fun _ _ _ hs hst => hs.step hst) (inBounds_start buffer hdsp) hrun
    obtain ⟨hdspWaits, hgetWaits⟩ := waiting_of_stuck hbounds hstuck
    have h := hdecodes (as ++ bs) [] (List.append_nil _).symm u hrun
    refine ⟨h.consumed_bytes.2 hgetWaits, (h.handled_samples.2 hdspWaits).trans ?_⟩
    rw [produced_of_start hrun, pipeReads, List.filterMap_append, ← pipeReads, ← pipeReads,
      pipeReads_of_drains hbs, List.append_nil]

/-- The pair and its byte are worked off in four steps. -/
theorem drains_oneByte :
    ∃ t u, run (receiveStep (.wrap 64) silentTable) oneByteStart (oneByte.take 3) = some t ∧
      run (receiveStep (.wrap 64) silentTable) t (oneByte.drop 3) = some u ∧
      (oneByte.drop 3).length + backlog u ≤ backlog t ∧ u.bytes.consumed = [0xAB] ∧
      u.bytes.consumed = decodedBytes (.wrap 64) silentTable lastBitDue u.handled := by
  obtain ⟨⟨u, hu, hdsp, hget, -, hbyte⟩, hsig, hroom⟩ := oneByte_run
  have hrange : lastBitDue.front.InRange := FrontEnd.inRange_init
  have hdrains : ∀ b ∈ oneByte.drop 3, b.Drains := by
    simp [oneByte, ReceiveAction.Drains]
  rw [← List.take_append_drop 3 oneByte] at hu hsig hroom
  rw [run_append, Option.bind_eq_some_iff] at hu
  obtain ⟨t, ht, hut⟩ := hu
  obtain ⟨hsteps, hdone⟩ := drains hrange hdrains hsig hroom ht hut
  -- both consumers wait, so that no thread can step
  have hstuck : ∀ b : ReceiveAction, b.Drains → receiveStep (.wrap 64) silentTable u b = none := by
    intro b hb
    cases b <;> simp [receiveStep, ringStep, hdsp, hget, ReceiveAction.Drains] at hb ⊢
  exact ⟨t, u, ht, hut, hsteps, hbyte, (hdone hstuck).1⟩

/-! ## A schedule that drains -/

theorem signalled_of_drains {s : ReceiveState} {a : ReceiveAction} (ha : a.Drains) :
    Signalled s a := by
  cases a <;> simp [Signalled, ReceiveAction.Drains] at ha ⊢

/-- The threads store no samples. -/
theorem withinCapacity_samples_of_drains {s t : ReceiveState} {a : ReceiveAction} (ha : a.Drains)
    (hroom : WithinCapacity s.samples) (h : receiveStep A oscLut s a = some t) :
    WithinCapacity t.samples := by
  rcases samples_receiveStep h with ⟨-, heq⟩ | ⟨b, hb, hring⟩
  · rwa [heq]
  · obtain ⟨hproduced, hconsumed, -⟩ := ringStep_histories sampleRingOps_lawful hring
    have hnone : b.batch? = none := by
      cases a with
      | dspTest | dspIterate =>
        obtain rfl := Option.some.inj hb
        rfl
      | dspDemod | dspSpurious => exact ha.elim
      | clearSync | getTest | getSpurious | getUse => cases hb
    have hle := hconsumed.length_le
    rw [hnone, Option.toList_none, List.flatMap_nil, List.append_nil] at hproduced
    unfold WithinCapacity at hroom ⊢
    rw [hproduced]
    omega

/-- The byte ring has room for the byte of an iteration when the application waits. -/
theorem withinCapacity_bytes_of_waiting {s t : ReceiveState} {a : ReceiveAction}
    (hbytes : Lossless s.bytes) (hroom : WithinCapacity s.bytes)
    (hturn : ∀ debuglevel, a = .dspIterate debuglevel → s.bytes.consumer = .waiting)
    (h : receiveStep A oscLut s a = some t) : WithinCapacity t.bytes := by
  rcases bytes_receiveStep h with heq | ⟨b, hring, -, hbatch⟩
  · rwa [heq]
  · obtain ⟨hproduced, hconsumed, -⟩ := ringStep_histories dataBufferOps_lawful hring
    have hle := hconsumed.length_le
    have hone : (b.batch?.toList.flatMap fun byterx => [byterx]).length ≤ 1 := by
      cases b.batch? <;> simp
    have hlength := congrArg List.length hproduced
    rw [List.length_append] at hlength
    unfold WithinCapacity at hroom ⊢
    rcases hbatch with hnone | ⟨debuglevel, rfl⟩
    · rw [hnone, Option.toList_none, List.flatMap_nil, List.length_nil] at hlength
      omega
    · have hall := hbytes.waiting (hturn debuglevel rfl)
      simp only [bufferSize] at hroom ⊢
      omega

/-- The application takes its turn first, and the DSP thread while it waits: some thread can step
and keep both rings within capacity, unless both wait. -/
theorem exists_drain_step {s : ReceiveState} (h : Decodes (.wrap longBits) oscLut dsp₀ s)
    (hin : InBounds s) (hroom : WithinRings s) :
    (s.samples.consumer = .waiting ∧ s.bytes.consumer = .waiting) ∨
      ∃ a t, a.Drains ∧ Undisturbed a ∧
        receiveStep (.wrap longBits) oscLut s a = some t ∧ WithinRings t := by
  have hstep : ∀ a : ReceiveAction, a.Drains → Undisturbed a →
      (∀ d, a = .dspIterate d → s.bytes.consumer = .waiting) →
      (receiveStep (.wrap longBits) oscLut s a).isSome = true →
        ∃ a t, a.Drains ∧ Undisturbed a ∧
          receiveStep (.wrap longBits) oscLut s a = some t ∧ WithinRings t := by
    intro a ha hquiet hturn hsome
    obtain ⟨t, ht⟩ := Option.isSome_iff_exists.mp hsome
    exact ⟨a, t, ha, hquiet, ht, withinCapacity_samples_of_drains ha hroom.1 ht,
      withinCapacity_bytes_of_waiting h.bytes hroom.2 hturn ht⟩
  cases hget : s.bytes.consumer with
  | test =>
    refine Or.inr (hstep .getTest trivial (by simp [Undisturbed]) (by simp) ?_)
    simp [receiveStep, ringStep_test _ _ hget]
  | use =>
    exact Or.inr (hstep .getUse trivial (by simp [Undisturbed]) (by simp) (getUse_isSome hin hget))
  | waiting =>
    cases hdsp : s.samples.consumer with
    | waiting => exact Or.inl ⟨rfl, rfl⟩
    | test =>
      refine Or.inr (hstep .dspTest trivial (by simp [Undisturbed]) (by simp) ?_)
      simp [receiveStep, ringStep_test _ _ hdsp]
    | use =>
      exact Or.inr (hstep (.dspIterate 0) trivial (by simp [Undisturbed]) (fun _ _ => hget)
        (dspIterate_isSome hin hdsp 0))

/-- From every state of a lossless run the threads can work off what is left without overrunning a
ring. -/
theorem exists_drained {s : ReceiveState} (h : Decodes (.wrap longBits) oscLut dsp₀ s)
    (hin : InBounds s) (hroom : WithinRings s) :
    ∃ bs t, (∀ b ∈ bs, b.Drains ∧ Undisturbed b) ∧
      run (receiveStep (.wrap longBits) oscLut) s bs = some t ∧
      AlongStates (receiveStep (.wrap longBits) oscLut) WithinRings s bs ∧
      t.samples.consumer = .waiting ∧ t.bytes.consumer = .waiting := by
  -- every step takes one off the backlog
  induction hn : backlog s using Nat.strong_induction_on generalizing s with
  | _ n ih =>
    rcases exists_drain_step h hin hroom with
      ⟨hdsp, hget⟩ | ⟨a, u, ha, hquiet, hu, hroom'⟩
    · exact ⟨[], s, by simp, rfl, alongStates_nil.mpr hroom, hdsp, hget⟩
    · have hless := backlog_receiveStep h.samples h.bytes ha hu
      obtain ⟨bs, t, hbs, ht, halong, hwait⟩ := ih (backlog u) (by omega)
        (h.step (signalled_of_drains ha) hroom' hu) (hin.step hu) hroom' rfl
      refine ⟨a :: bs, t, List.forall_mem_cons.mpr ⟨⟨ha, hquiet⟩, hbs⟩, ?_, ?_, hwait⟩
      · rw [run_cons, hu]
        exact ht
      · refine alongStates_cons.mpr ⟨hroom, fun v hv => ?_⟩
        rw [hu] at hv
        obtain rfl := Option.some.inj hv
        exact halong

end PiWxRx
