import PiWxRx.General.Runs
import PiWxRx.Rings.SampleRing

/-!
# Shutdown

The four threads of a running receiver as a step relation: the thread inside `RunRTL`, the timer
thread and the thread calling `StopRTL` (`rtl.c`), and the DSP thread (`FSKdsp.c`). The critical
sections are atomic, a signal has an effect only on a thread that waits, and a read from the pipe
may return anything.

`StopRTL` sets both exit flags and joins the DSP thread before it wakes `RunRTL`, and `RunRTL`
disarms the timer before it joins the timer thread. Neither wakes the thread it joins, so the join
never ends if that thread waits and its signal can no longer come (`Stuck`).

* `not_stuck_of_orderly`: a run whose steps are all `Orderly` passes no such state.
* `stuck_of_not_orderly`: a step that is not leads to one.
-/

namespace PiWxRx

open Runs

/-! ## States and steps -/

/-- `PIPE_READ_SIZE`: samples read from the pipe at a time. -/
abbrev pipeReadSize : ℕ := 720

/-- The thread inside `RunRTL`. -/
inductive RunPc where
  /-- Before `pthread_create`. -/
  | start
  /-- Before the timer is started. -/
  | arm
  /-- At the test of `exit` in the loop around `pthread_cond_wait`. -/
  | test
  /-- Waiting on `timer_exit_wait_cond`. -/
  | waiting
  /-- Before the timer is stopped. -/
  | disarm
  /-- In `pthread_join` on the timer thread. -/
  | joining
  | done
  deriving DecidableEq, Repr

/-- The timer thread. -/
inductive TimerPc where
  /-- Not created yet. -/
  | absent
  /-- At the test of `exit`. -/
  | test
  /-- Before `pthread_cond_wait`. -/
  | lock
  /-- Waiting on `timer_wait_cond`. -/
  | waiting
  /-- Before `ReadFromPipe`. -/
  | read
  /-- With samples for `DSPDemod`. -/
  | demod (samples : List RtlSample)
  | done
  deriving DecidableEq, Repr

/-- The DSP thread. -/
inductive DspPc where
  /-- At the test of `exit`. -/
  | test
  /-- Before the critical section with the test of `BUFFER_EMPTY`. -/
  | check
  /-- Waiting on `dsp_wait_cond`. -/
  | waiting
  /-- About to use a sample. -/
  | use
  | done
  deriving DecidableEq, Repr

/-- The thread that calls `StopRTL`. -/
inductive StopPc where
  /-- Before the call. -/
  | idle
  /-- At `DSPStop`. -/
  | dspStop
  /-- In `pthread_join` on the DSP thread. -/
  | joining
  /-- At `CloseChildProcess`. -/
  | close
  /-- Before the signal to `RunRTL`. -/
  | signal
  | done
  deriving DecidableEq, Repr

/-- The threads and what they share. -/
structure Rtl where
  /-- `timer_threads.exit`. -/
  timerExit : Bool
  /-- `dsp_threads.exit`. -/
  dspExit : Bool
  /-- The timer is running. -/
  armed : Bool
  ring : SampleRing
  run : RunPc
  timer : TimerPc
  dsp : DspPc
  stop : StopPc

/-- After `InitRTL`: the DSP thread was created, the ring is empty. -/
def Rtl.start (buffer : Vector RtlSample sampleBfrsiz) : Rtl where
  timerExit := false
  dspExit := false
  armed := false
  ring := { buffer, wrptr := 0, rdptr := 0 }
  run := .start
  timer := .absent
  dsp := .test
  stop := .idle

/-- A step of one of the threads, or a tick of the timer. -/
inductive RtlAction where
  | runCreate
  | runArm
  | runTest
  | runDisarm
  | runJoin
  /-- `RTL_timer_signal`. -/
  | tick
  | timerTest
  | timerWait
  /-- `ReadFromPipe` returns these samples, or none and a count that is zero or negative. -/
  | timerRead (samples : List RtlSample)
  /-- `DSPDemod`. -/
  | timerDemod
  | dspTest
  | dspCheck
  | dspUse
  | stopExit
  | stopDsp
  | stopJoin
  | stopClose
  | stopSignal
  deriving DecidableEq, Repr

/-- A signal on `timer_wait_cond`. -/
def TimerPc.signal : TimerPc → TimerPc
  | .waiting => .read
  | pc => pc

/-- A signal on `dsp_wait_cond`. -/
def DspPc.signal : DspPc → DspPc
  | .waiting => .use
  | pc => pc

theorem DspPc.signal_ne_waiting (pc : DspPc) : pc.signal ≠ .waiting := by
  cases pc <;> simp [signal]

/-- A signal on `timer_exit_wait_cond`: `RunRTL` tests `exit` again. -/
def RunPc.signal : RunPc → RunPc
  | .waiting => .test
  | pc => pc

/-- One step. -/
def rtlStep (s : Rtl) : RtlAction → Option Rtl
  -- `RunRTL`
  | .runCreate => if s.run = .start then some { s with run := .arm, timer := .test } else none
  | .runArm => if s.run = .arm then some { s with run := .test, armed := true } else none
  | .runTest =>
    if s.run = .test then
      some { s with run := if s.timerExit then .disarm else .waiting }
    else
      none
  | .runDisarm => if s.run = .disarm then some { s with run := .joining, armed := false } else none
  | .runJoin => if s.run = .joining ∧ s.timer = .done then some { s with run := .done } else none
  -- the timer and the timer thread
  | .tick => if s.armed then some { s with timer := s.timer.signal } else none
  | .timerTest =>
    if s.timer = .test then
      some { s with timer := if s.timerExit then .done else .lock }
    else
      none
  | .timerWait => if s.timer = .lock then some { s with timer := .waiting } else none
  | .timerRead samples =>
    if s.timer = .read ∧ samples.length ≤ pipeReadSize then
      -- `PipeDecimate` leaves up to `PIPE_READ_LEN` samples alone
      some { s with timer := if samples = [] then .test else .demod samples }
    else
      none
  | .timerDemod =>
    match s.timer with
    | .demod samples =>
      some { s with timer := .test, ring := (dspDemod s.ring samples).1, dsp := s.dsp.signal }
    | _ => none
  -- the DSP thread
  | .dspTest =>
    if s.dsp = .test then some { s with dsp := if s.dspExit then .done else .check } else none
  | .dspCheck =>
    if s.dsp = .check then
      some { s with dsp := if bufferEmpty s.ring then .waiting else .use }
    else
      none
  | .dspUse =>
    if s.dsp = .use then some { s with dsp := .test, ring := (dspTake s.ring).2 } else none
  -- `StopRTL`
  | .stopExit =>
    if s.stop = .idle then some { s with stop := .dspStop, timerExit := true } else none
  | .stopDsp =>
    if s.stop = .dspStop then some { s with stop := .joining, dspExit := true } else none
  | .stopJoin => if s.stop = .joining ∧ s.dsp = .done then some { s with stop := .close } else none
  | .stopClose => if s.stop = .close then some { s with stop := .signal } else none
  | .stopSignal =>
    if s.stop = .signal then some { s with stop := .done, run := s.run.signal } else none

theorem rtlStep_timerDemod {s t : Rtl} (h : rtlStep s .timerDemod = some t) :
    ∃ samples, s.timer = .demod samples ∧
      t = { s with
        timer := .test
        ring := (dspDemod s.ring samples).1
        dsp := s.dsp.signal } := by
  cases htimer : s.timer with
  | demod samples => exact ⟨samples, rfl, by simpa [rtlStep, htimer] using h.symm⟩
  | _ => simp [rtlStep, htimer] at h

/-! ## Stuck states -/

/-- The step signals `dsp_wait_cond`. -/
def SignalsDsp (s : Rtl) (a : RtlAction) : Prop := a = .timerDemod ∧ (rtlStep s a).isSome

/-- The step signals `timer_wait_cond`. -/
def SignalsTimer (s : Rtl) (a : RtlAction) : Prop := a = .tick ∧ (rtlStep s a).isSome

/-- No step from `s` on signals. -/
def NeverSignals (signals : Rtl → RtlAction → Prop) (s : Rtl) : Prop :=
  ∀ as t a, run rtlStep s as = some t → ¬ signals t a

/-- A join on a thread that waits for a signal that never comes: `DSPStop` on the DSP thread, or
`RunRTL` on the timer thread. -/
def Stuck (s : Rtl) : Prop :=
  (s.stop = .joining ∧ s.dsp = .waiting ∧ NeverSignals SignalsDsp s) ∨
    (s.run = .joining ∧ s.timer = .waiting ∧ NeverSignals SignalsTimer s)

/-- The steps that do not go wrong.

* `StopRTL` does not set the exit flag while the DSP thread waits and the timer thread is between
  two iterations;
* once the flag is set, no read comes back empty while the DSP thread waits;
* `RunRTL` does not stop the timer while the timer thread waits for it or is about to;
* once the flag is set and the timer thread is out of its last iteration, the DSP thread does not
  find the ring empty. -/
def Orderly (s : Rtl) : RtlAction → Prop
  | .stopExit => s.dsp = .waiting → s.timer ≠ .absent ∧ s.timer ≠ .test
  | .timerRead samples => samples = [] → s.timerExit = true → s.dsp ≠ .waiting
  | .runDisarm => s.timer ≠ .lock ∧ s.timer ≠ .waiting
  | .dspCheck => bufferEmpty s.ring = true → s.timerExit = true →
      s.timer ≠ .absent ∧ s.timer ≠ .test ∧ s.timer ≠ .done
  | _ => True

/-! ## Invariants -/

/-- What holds in every state: how far each thread is tells what it has done. -/
structure Rtl.Consistent (s : Rtl) : Prop where
  timerExit_iff : s.timerExit = true ↔ s.stop ≠ .idle
  absent_iff : s.timer = .absent ↔ s.run = .start
  armed_iff : s.armed = true ↔ s.run = .test ∨ s.run = .waiting ∨ s.run = .disarm
  disarm : s.run = .disarm ∨ s.run = .joining ∨ s.run = .done → s.timerExit = true
  timer_done : s.timer = .done → s.timerExit = true
  joined : s.stop = .close ∨ s.stop = .signal ∨ s.stop = .done → s.dsp = .done

theorem consistent_start (buffer : Vector RtlSample sampleBfrsiz) :
    (Rtl.start buffer).Consistent := by
  constructor <;> simp [Rtl.start]

theorem Rtl.Consistent.step {s t : Rtl} {a : RtlAction} (h : s.Consistent)
    (hst : rtlStep s a = some t) : t.Consistent := by
  obtain ⟨h1, h2, h3, h4, h5, h6⟩ := h
  cases a with
  | timerDemod =>
    obtain ⟨samples, htimer, rfl⟩ := rtlStep_timerDemod hst
    constructor <;> grind [DspPc.signal]
  | _ =>
    -- every other step is a guard and an update
    simp only [rtlStep, Option.ite_none_right_eq_some, Option.some.injEq] at hst
    obtain ⟨hg, rfl⟩ := hst
    constructor <;> grind [TimerPc.signal, RunPc.signal]

theorem consistent_of_run {buffer : Vector RtlSample sampleBfrsiz} {as : List RtlAction} {s : Rtl}
    (h : run rtlStep (Rtl.start buffer) as = some s) : s.Consistent :=
  run_invariant (P := Rtl.Consistent) (fun _ _ _ hs hst => hs.step hst) (consistent_start buffer) h

/-- The exit flag is set and the timer thread does not come to `DSPDemod` any more: it is between
two iterations, or before a tick of the stopped timer. -/
def Dry (s : Rtl) : Prop :=
  s.timerExit = true ∧
    (s.timer = .absent ∨ s.timer = .test ∨ s.timer = .done ∨
      (s.timer = .lock ∨ s.timer = .waiting) ∧ (s.run = .joining ∨ s.run = .done))

/-- Once dry, always dry, and without a `DSPDemod` call. -/
theorem Dry.step {s t : Rtl} {a : RtlAction} (hc : s.Consistent) (h : Dry s)
    (hst : rtlStep s a = some t) : Dry t ∧ a ≠ .timerDemod := by
  obtain ⟨hexit, htimer⟩ := h
  obtain ⟨-, h2, h3, -, -, -⟩ := hc
  cases a with
  | timerDemod =>
    -- the timer thread is not there
    obtain ⟨samples, hdemod, -⟩ := rtlStep_timerDemod hst
    simp [hdemod] at htimer
  | _ =>
    simp only [rtlStep, Option.ite_none_right_eq_some, Option.some.injEq] at hst
    obtain ⟨hg, rfl⟩ := hst
    refine ⟨⟨?_, ?_⟩, ?_⟩ <;> grind [TimerPc.signal, RunPc.signal]

/-- The timer is stopped for good. -/
def Disarmed (s : Rtl) : Prop := s.armed = false ∧ (s.run = .joining ∨ s.run = .done)

theorem Disarmed.step {s t : Rtl} {a : RtlAction} (h : Disarmed s)
    (hst : rtlStep s a = some t) : Disarmed t ∧ a ≠ .tick := by
  obtain ⟨harmed, hrun⟩ := h
  cases a with
  | timerDemod =>
    obtain ⟨samples, -, rfl⟩ := rtlStep_timerDemod hst
    exact ⟨⟨harmed, hrun⟩, by simp⟩
  | _ =>
    simp only [rtlStep, Option.ite_none_right_eq_some, Option.some.injEq] at hst
    obtain ⟨hg, rfl⟩ := hst
    refine ⟨⟨?_, ?_⟩, ?_⟩ <;> grind [RunPc.signal]

/-- In a dry state `dsp_wait_cond` is not signalled any more. -/
theorem Dry.neverSignals {s : Rtl} (hc : s.Consistent) (h : Dry s) :
    NeverSignals SignalsDsp s := by
  rintro as t a hrun ⟨rfl, hsome⟩
  obtain ⟨hct, ht⟩ := run_invariant (P := fun s => s.Consistent ∧ Dry s)
    (fun s a t hs hst => ⟨hs.1.step hst, (hs.2.step hs.1 hst).1⟩) ⟨hc, h⟩ hrun
  obtain ⟨u, hu⟩ := Option.isSome_iff_exists.mp hsome
  exact (ht.step hct hu).2 rfl

/-- With the timer stopped `timer_wait_cond` is not signalled any more. -/
theorem Disarmed.neverSignals {s : Rtl} (h : Disarmed s) : NeverSignals SignalsTimer s := by
  rintro as t a hrun ⟨rfl, hsome⟩
  have ht : Disarmed t := run_invariant (fun s a t hs hst => (hs.step hst).1) h hrun
  obtain ⟨u, hu⟩ := Option.isSome_iff_exists.mp hsome
  exact (ht.step hu).2 rfl

/-! ## Orderly runs -/

/-- What orderly steps keep: the DSP thread waits only while it can be fed, and a timer thread that
waits has a running timer. -/
structure Rtl.Live (s : Rtl) : Prop where
  consistent : s.Consistent
  fed : s.dsp = .waiting → ¬ Dry s
  ticked : s.run = .joining ∨ s.run = .done → s.timer ≠ .lock ∧ s.timer ≠ .waiting

theorem live_start (buffer : Vector RtlSample sampleBfrsiz) : (Rtl.start buffer).Live where
  consistent := consistent_start buffer
  fed h := by simp [Rtl.start] at h
  ticked h := by simp [Rtl.start] at h

theorem Rtl.Live.step {s t : Rtl} {a : RtlAction} (h : s.Live) (ha : Orderly s a)
    (hst : rtlStep s a = some t) : t.Live := by
  refine ⟨h.consistent.step hst, ?_, ?_⟩
  · -- a DSP thread that waits is not left dry: the steps that could are out of order
    obtain ⟨⟨h1, h2, h3, h4, h5, -⟩, hfed, hticked⟩ := h
    cases a with
    | timerDemod =>
      obtain ⟨samples, -, rfl⟩ := rtlStep_timerDemod hst
      -- the call wakes the DSP thread
      exact fun hw => absurd hw s.dsp.signal_ne_waiting
    | _ =>
      simp only [rtlStep, Option.ite_none_right_eq_some, Option.some.injEq] at hst
      obtain ⟨hg, rfl⟩ := hst
      grind [Dry, Orderly, TimerPc.signal, RunPc.signal]
  · -- a timer thread between its test and its wake-up keeps the timer running
    obtain ⟨⟨h1, h2, h3, h4, h5, -⟩, hfed, hticked⟩ := h
    cases a with
    | timerDemod =>
      obtain ⟨samples, -, rfl⟩ := rtlStep_timerDemod hst
      simp
    | _ =>
      simp only [rtlStep, Option.ite_none_right_eq_some, Option.some.injEq] at hst
      obtain ⟨hg, rfl⟩ := hst
      grind [Orderly, TimerPc.signal, RunPc.signal]

theorem NeverSignals.step {signals : Rtl → RtlAction → Prop} {s t : Rtl} {a : RtlAction}
    (h : NeverSignals signals s) (hst : rtlStep s a = some t) : NeverSignals signals t := by
  intro as u b hrun
  apply h (a :: as) u b
  rw [run_cons, hst, Option.bind_some, hrun]

private theorem timer_ne_demod {s : Rtl} (h : NeverSignals SignalsDsp s)
    (samples : List RtlSample) : s.timer ≠ .demod samples := by
  intro htimer
  apply h [] s .timerDemod rfl
  exact ⟨rfl, by simp [rtlStep, htimer]⟩

private theorem timer_ne_read {s : Rtl} (h : NeverSignals SignalsDsp s) : s.timer ≠ .read := by
  intro htimer
  have hst : rtlStep s (.timerRead [0]) = some { s with timer := .demod [0] } := by
    simp [rtlStep, htimer]
  exact timer_ne_demod (h.step hst) [0] rfl

/-- A timer thread that waits for a timer not yet stopped comes to `DSPDemod`: the timer is started
if it is not, a tick wakes the thread, and the read brings samples. -/
private theorem stopped_of_waiting {s : Rtl} (hc : s.Consistent) (h : NeverSignals SignalsDsp s)
    (htimer : s.timer = .waiting) : s.run = .joining ∨ s.run = .done := by
  -- a tick would wake it
  have harmed : s.armed = false := by
    by_contra harmed
    have hst : rtlStep s .tick = some { s with timer := .read } := by
      simp [rtlStep, harmed, htimer, TimerPc.signal]
    exact timer_ne_read (h.step hst) rfl
  -- so would one after the timer is started
  have harm : s.run ≠ .arm := by
    intro hrun
    have hst : rtlStep s .runArm = some { s with run := .test, armed := true } := by
      simp [rtlStep, hrun]
    have hst' : rtlStep { s with run := .test, armed := true } .tick =
        some { s with run := .test, armed := true, timer := .read } := by
      simp [rtlStep, htimer, TimerPc.signal]
    exact timer_ne_read ((h.step hst).step hst') rfl
  have hstart : s.run ≠ .start := by
    rw [Ne, ← hc.absent_iff, htimer]
    decide
  have hrun := mt hc.armed_iff.mpr (by simp [harmed])
  cases hpc : s.run <;> simp_all

/-- A timer thread whose exit flag is set and that never signals is dry. -/
theorem dry_of_neverSignals {s : Rtl} (hc : s.Consistent) (hexit : s.timerExit = true)
    (h : NeverSignals SignalsDsp s) : Dry s := by
  refine ⟨hexit, ?_⟩
  cases htimer : s.timer with
  | absent => simp
  | test => simp
  | done => simp
  | read => exact absurd htimer (timer_ne_read h)
  | demod samples => exact absurd htimer (timer_ne_demod h samples)
  | waiting => simpa using stopped_of_waiting hc h htimer
  | lock =>
    -- one step on it waits
    have hst : rtlStep s .timerWait = some { s with timer := .waiting } := by
      simp [rtlStep, htimer]
    simpa using stopped_of_waiting (hc.step hst) (h.step hst) rfl

/-- No state of a run whose steps are all orderly is stuck. -/
theorem not_stuck_of_orderly (buffer : Vector RtlSample sampleBfrsiz) {as : List RtlAction}
    (h : Along rtlStep Orderly (Rtl.start buffer) as) :
    AlongStates rtlStep (fun s => ¬ Stuck s) (Rtl.start buffer) as := by
  have hlive : AlongStates rtlStep Rtl.Live (Rtl.start buffer) as :=
    run_induction (fun s a t hs ha hst => hs.step ha hst) (live_start buffer) h
  intro pre post hsplit s hs
  have hs := hlive pre post hsplit s hs
  rintro (⟨hstop, hdsp, hnever⟩ | ⟨hrun, htimer, -⟩)
  · have hexit : s.timerExit = true := by
      rw [hs.consistent.timerExit_iff, hstop]
      decide
    exact hs.fed hdsp (dry_of_neverSignals hs.consistent hexit hnever)
  · exact (hs.ticked (Or.inl hrun)).2 htimer

/-! ## Steps out of order -/

/-- Once the exit flag is set, a DSP thread that waits and cannot be fed is joined in vain. -/
theorem exists_stuck_of_dry {s : Rtl} (hc : s.Consistent) (hdsp : s.dsp = .waiting)
    (hdry : Dry s) : ∃ as t, run rtlStep s as = some t ∧ Stuck t := by
  cases hstop : s.stop with
  | joining => exact ⟨[], s, rfl, Or.inl ⟨hstop, hdsp, hdry.neverSignals hc⟩⟩
  | dspStop =>
    -- `DSPStop` is next
    have hst : rtlStep s .stopDsp = some { s with stop := .joining, dspExit := true } := by
      simp [rtlStep, hstop]
    refine ⟨[.stopDsp], { s with stop := .joining, dspExit := true }, ?_,
      Or.inl ⟨rfl, hdsp, ?_⟩⟩
    · rw [run_cons, hst]
      rfl
    · exact (hdry.step hc hst).1.neverSignals (hc.step hst)
  -- before `StopRTL` no exit flag is set, and past `DSPStop` the DSP thread has ended
  | idle => exact absurd (hc.timerExit_iff.mp hdry.1) (by simp [hstop])
  | close => simp [hc.joined (Or.inl hstop)] at hdsp
  | signal => simp [hc.joined (Or.inr (Or.inl hstop))] at hdsp
  | done => simp [hc.joined (Or.inr (Or.inr hstop))] at hdsp

/-- Once the timer is stopped, a timer thread that is going to wait for it is joined in vain. -/
theorem exists_stuck_of_disarmed {s : Rtl} (hrun : s.run = .joining) (harmed : s.armed = false)
    (htimer : s.timer = .lock ∨ s.timer = .waiting) :
    ∃ as t, run rtlStep s as = some t ∧ Stuck t := by
  rcases htimer with htimer | htimer
  · have hst : rtlStep s .timerWait = some { s with timer := .waiting } := by
      simp [rtlStep, htimer]
    refine ⟨[.timerWait], { s with timer := .waiting }, ?_, Or.inr ⟨hrun, rfl, ?_⟩⟩
    · rw [run_cons, hst]
      rfl
    · exact Disarmed.neverSignals ⟨harmed, Or.inl hrun⟩
  · exact ⟨[], s, rfl, Or.inr ⟨hrun, htimer, Disarmed.neverSignals ⟨harmed, Or.inl hrun⟩⟩⟩

/-- A step that is not orderly leads to a stuck state. -/
theorem stuck_of_not_orderly {s t : Rtl} {a : RtlAction} (hc : s.Consistent)
    (ha : ¬ Orderly s a) (hst : rtlStep s a = some t) :
    ∃ as u, run rtlStep t as = some u ∧ Stuck u := by
  have hct := hc.step hst
  cases a with
  -- after a step out of order some thread can come to wait for a signal that no one sends
  | stopExit =>
    simp only [Orderly, Classical.not_imp, not_and_or, not_not] at ha
    simp only [rtlStep, Option.ite_none_right_eq_some, Option.some.injEq] at hst
    obtain ⟨-, rfl⟩ := hst
    exact exists_stuck_of_dry hct ha.1 ⟨rfl, by tauto⟩
  | timerRead samples =>
    simp only [Orderly, Classical.not_imp, not_not] at ha
    obtain ⟨rfl, hexit, hdsp⟩ := ha
    simp only [rtlStep, Option.ite_none_right_eq_some, Option.some.injEq] at hst
    obtain ⟨-, rfl⟩ := hst
    exact exists_stuck_of_dry hct hdsp ⟨hexit, by simp⟩
  | runDisarm =>
    simp only [Orderly, not_and_or, not_not] at ha
    simp only [rtlStep, Option.ite_none_right_eq_some, Option.some.injEq] at hst
    obtain ⟨-, rfl⟩ := hst
    exact exists_stuck_of_disarmed rfl rfl ha
  | dspCheck =>
    simp only [Orderly, Classical.not_imp, not_and_or, not_not] at ha
    obtain ⟨hempty, hexit, htimer⟩ := ha
    simp only [rtlStep, Option.ite_none_right_eq_some, Option.some.injEq] at hst
    obtain ⟨-, rfl⟩ := hst
    exact exists_stuck_of_dry hct (by simp [hempty]) ⟨hexit, by tauto⟩
  | _ => exact absurd trivial ha

theorem Stuck.stop_ne_idle {s : Rtl} (hc : s.Consistent) (h : Stuck s) : s.stop ≠ .idle := by
  rcases h with ⟨hstop, -, -⟩ | ⟨hrun, -, -⟩
  · rw [hstop]
    decide
  · exact hc.timerExit_iff.mp (hc.disarm (Or.inr (Or.inl hrun)))

/-- Shutdown gets stuck through steps out of order, and only through these: a run of orderly steps
passes no stuck state, and after any other step one can be reached. -/
theorem stuck_free_iff_orderly (buffer : Vector RtlSample sampleBfrsiz) :
    (∀ as, Along rtlStep Orderly (Rtl.start buffer) as →
      AlongStates rtlStep (fun s => ¬ Stuck s) (Rtl.start buffer) as) ∧
    (∀ as s a t, run rtlStep (Rtl.start buffer) as = some s → rtlStep s a = some t →
      ¬ Orderly s a → ∃ bs u, run rtlStep t bs = some u ∧ u.stop ≠ .idle ∧ Stuck u) := by
  refine ⟨fun as h => not_stuck_of_orderly buffer h, fun as s a t hs hst ha => ?_⟩
  obtain ⟨bs, u, hu, hstuck⟩ := stuck_of_not_orderly (consistent_of_run hs) ha hst
  have hrun : run rtlStep (Rtl.start buffer) ((as ++ [a]) ++ bs) = some u := by
    rw [run_append, run_concat, hs, Option.bind_some, hst, Option.bind_some, hu]
  exact ⟨bs, u, hu, hstuck.stop_ne_idle (consistent_of_run hrun), hstuck⟩

/-- `StopRTL` before anything else: every thread ends. -/
theorem stuck_free_early_stop :
    AlongStates rtlStep (fun s => ¬ Stuck s) (Rtl.start (Vector.replicate sampleBfrsiz 0))
      [.stopExit, .stopDsp, .dspTest, .stopJoin, .stopClose, .stopSignal, .runCreate, .runArm,
        .runTest, .timerTest, .runDisarm, .runJoin] := by
  apply (stuck_free_iff_orderly (Vector.replicate sampleBfrsiz 0)).1
  simp [along_cons, along_nil, Orderly, rtlStep, Rtl.start, RunPc.signal]

/-- The pipe is at its end when `StopRTL` is called: the last read wakes nobody, and `DSPStop`
waits for the DSP thread for ever. -/
theorem stuck_at_end_of_file :
    ∃ s, run rtlStep (Rtl.start (Vector.replicate sampleBfrsiz 0))
        [.runCreate, .runArm, .runTest, .dspTest, .dspCheck, .timerTest, .timerWait, .stopExit,
          .stopDsp, .tick, .timerRead []] = some s ∧
      s.stop = .joining ∧ s.dsp = .waiting ∧ Stuck s := by
  obtain ⟨s, hs, hstop, hdsp, hdry⟩ : ∃ s, run rtlStep (Rtl.start (Vector.replicate sampleBfrsiz 0))
      [.runCreate, .runArm, .runTest, .dspTest, .dspCheck, .timerTest, .timerWait, .stopExit,
        .stopDsp, .tick, .timerRead []] = some s ∧
      s.stop = .joining ∧ s.dsp = .waiting ∧ Dry s :=
    ⟨_, rfl, rfl, rfl, rfl, Or.inr (Or.inl rfl)⟩
  have hnever := hdry.neverSignals (consistent_of_run hs)
  exact ⟨s, hs, hstop, hdsp, Or.inl ⟨hstop, hdsp, hnever⟩⟩

end PiWxRx
