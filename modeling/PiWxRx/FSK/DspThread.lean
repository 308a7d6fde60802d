import PiWxRx.FSK.FrontEnd
import PiWxRx.FSK.Receiver

/-!
# The demodulator thread

A whole iteration of `dsp_threads_fn` (`FSKdsp.c`): the front end, the DC slicer, and the sync, bit
and byte part behind it. `dspStep` adds the calls that come between samples, `DSPClearSync` and the
pair of `DSPStop` and `DSPInit`, as a Mealy machine over `DspEvent`. Between restarts the part
behind the slicer is the receiver of `rxStep`, fed with the demodulated bits (`rx_dspStep`).

The DC slicer multiplies in `double` and converts the products back to `int`. A factor is given as
an integer over a power of two, and the product is rounded to 53 bits as an integer.
-/

namespace PiWxRx

open CArith

/-! ## DC slicer -/

/-- A positive `double`: `significand / 2 ^ scale`. -/
structure Double where
  significand : ℕ
  scale : ℕ

/-- Round to 53 significant bits, to even in the middle. -/
def roundToDouble (n : ℕ) : ℕ :=
  let excess := n.log2 + 1 - 53
  let kept := n >>> excess
  let lost := n % 2 ^ excess
  let up := 2 ^ excess < 2 * lost ∨ 2 ^ excess = 2 * lost ∧ kept % 2 = 1
  (if up then kept + 1 else kept) <<< excess

/-- `(int)(v * c)`: the rounded product, cut off toward zero. -/
def Double.mulInt (c : Double) (v : ℤ) : ℤ :=
  v.sign * (roundToDouble (v.natAbs * c.significand) >>> c.scale : ℕ)

/-- `0.99985`. -/
def levelDecay : Double := { significand := 9005848174852781, scale := 53 }

/-- `.00015`. -/
def phaseGain : Double := { significand := 5534023222112865, scale := 65 }

/-- The DC slicer: the phase less the new `dcslice_level`, and the level. -/
def dcSlice (A : Arith) (dcsliceLevel phase : ℤ) : Option (ℤ × ℤ) := do
  let sum ← A.int (levelDecay.mulInt dcsliceLevel + phaseGain.mulInt phase)
  -- `dcslice_level` is an `RTL_SAMPLE`
  let dcsliceLevel ← A.short sum
  let phase ← A.int (phase - dcsliceLevel)
  some (phase, dcsliceLevel)

/-! ## One sample -/

/-- `DEBUG_WRITE`. -/
abbrev debugWrite : BitVec 32 := 0x0020

/-- The static variables of the demodulator and the locals of `dsp_threads_fn`. -/
structure DspState where
  front : FrontEnd
  dcsliceLevel : ℤ
  rx : RxState

/-- Program start, after the first `DSPInit`. -/
def DspState.start (demodByte : DemodByte) (bitctr : ℕ) : DspState where
  front := FrontEnd.init
  dcsliceLevel := 0
  rx := RxState.start demodByte bitctr

/-- What one iteration makes visible. -/
structure DspOut where
  /-- The sample written to `stdout`. -/
  written : Option RtlSample
  /-- `demod_bit`. -/
  demodBit : Option DataBit
  /-- `insync` at the end of the iteration. -/
  insync : Bool
  /-- The argument of `byte_rx_func`. -/
  byteRx : Option DemodByte
  deriving DecidableEq, Repr

/-- From the sample to `demod_bit`, with the static variables on the way. -/
def demodulate (A : Arith) (oscLut : Vector OscValue lutSize) (s : DspState) (sample : RtlSample) :
    Option (DataBit × DspState) := do
  let (phase, front) ← frontEnd A oscLut s.front sample
  let (phase, dcsliceLevel) ← dcSlice A s.dcsliceLevel phase
  some (!decide (phase > 0), { s with front, dcsliceLevel })

/-- One iteration of `dsp_threads_fn`. -/
def dspSample (A : Arith) (oscLut : Vector OscValue lutSize) (debuglevel : BitVec 32)
    (s : DspState) (sample : RtlSample) : Option (DspState × DspOut) :=
  if debuglevel &&& debugWrite ≠ 0 then
    some (s, { written := some sample, demodBit := none, insync := s.rx.insync, byteRx := none })
  else do
    let (demodBit, s) ← demodulate A oscLut s sample
    let received := rxSample s.rx demodBit
    some ({ s with rx := received.1 },
      { written := none
        demodBit := some demodBit
        insync := received.1.insync
        byteRx := received.2.byteRx })

/-! ## Sessions -/

/-- `FIRInit` on the data of a channel: the pointers only. -/
def FirData.reset (fir : FirData) : FirData := { fir with wrptr := 0, rdptr := 0 }

/-- `DSPInit`, after the thread of the session before was joined. `InitOsc` fills the table with the
values it has. The locals of the new thread are uninitialised. -/
def dspInit (demodByte : DemodByte) (bitctr : ℕ) (s : DspState) : DspState :=
  { s with
    front :=
      { s.front with
        iChannelFir := s.front.iChannelFir.reset
        qChannelFir := s.front.qChannelFir.reset }
    rx :=
      { s.rx with
        insync := false
        bytes := { s.rx.bytes with demodByte, bitctr } } }

/-- What happens to the demodulator: the thread takes a sample from the ring, `DSPClearSync` is
called, or `DSPStop` and then `DSPInit`. -/
inductive DspEvent where
  | sample (debuglevel : BitVec 32) (sample : RtlSample)
  | clearSync
  | restart (demodByte : DemodByte) (bitctr : ℕ)

/-- One event. There is no state, and no output, from the first value without a result on. -/
def dspStep (A : Arith) (oscLut : Vector OscValue lutSize) (s : Option DspState) :
    DspEvent → Option DspState × Option DspOut
  | .sample debuglevel sample =>
    match s.bind (dspSample A oscLut debuglevel · sample) with
    | none => (none, none)
    | some (s, out) => (some s, some out)
  | .clearSync => (s.map fun s => { s with rx := dspClearSync s.rx }, none)
  | .restart demodByte bitctr => (s.map (dspInit demodByte bitctr), none)

/-! ## The receiver in the thread -/

/-- What the sync, bit and byte part sees of an event with a given output. -/
def rxEvent? : DspEvent × Option DspOut → Option RxEvent
  | (.sample _ _, some out) => out.demodBit.map .sample
  | (.clearSync, _) => some .clearSync
  | _ => none

/-- What the sync, bit and byte part sees of a run from the state `s`. -/
def rxEvents (A : Arith) (oscLut : Vector OscValue lutSize) (s : DspState) (es : List DspEvent) :
    List RxEvent :=
  (es.zip (Mealy.outputs (dspStep A oscLut) (some s) es)).filterMap rxEvent?

/-- A sample moves the sync, bit and byte part by the demodulated bit, if there is one. -/
theorem rx_dspSample {A : Arith} {oscLut : Vector OscValue lutSize} {debuglevel : BitVec 32}
    {s t : DspState} {sample : RtlSample} {out : DspOut}
    (h : dspSample A oscLut debuglevel s sample = some (t, out)) :
    t.rx = Mealy.final rxStep s.rx (out.demodBit.map RxEvent.sample).toList ∧
      out.byteRx.toList =
        bytesReceived (Mealy.outputs rxStep s.rx (out.demodBit.map RxEvent.sample).toList) := by
  unfold dspSample at h
  split at h
  · obtain ⟨rfl, rfl⟩ := Prod.mk.inj (Option.some.inj h)
    exact ⟨rfl, rfl⟩
  · obtain ⟨⟨b, u⟩, hu, hout⟩ := Option.bind_eq_some_iff.mp h
    obtain ⟨rfl, rfl⟩ := Prod.mk.inj (Option.some.inj hout)
    have hrx : u.rx = s.rx := by
      obtain ⟨⟨phase, front⟩, -, hu⟩ := Option.bind_eq_some_iff.mp hu
      obtain ⟨⟨phase', level⟩, -, hu⟩ := Option.bind_eq_some_iff.mp hu
      rw [← (Prod.mk.inj (Option.some.inj hu)).2]
    rw [← hrx]
    refine ⟨rfl, ?_⟩
    change (rxSample u.rx b).2.byteRx.toList = bytesReceived [(rxSample u.rx b).2]
    cases hbyte : (rxSample u.rx b).2.byteRx <;> simp [bytesReceived, hbyte]

/-- There is no way back from a missing state. -/
theorem final_dspStep_none (A : Arith) (oscLut : Vector OscValue lutSize) (es : List DspEvent) :
    Mealy.final (dspStep A oscLut) none es = none := by
  induction es with
  | nil => rfl
  | cons e es ih => cases e <;> exact ih

/-- The thread runs the receiver of `rxStep` over the demodulated bits and the clears: it is in the
state that receiver is in, and has delivered the same bytes. -/
theorem rx_dspStep {A : Arith} {oscLut : Vector OscValue lutSize} {s t : DspState}
    {es : List DspEvent} (hes : ∀ e ∈ es, ∀ demodByte bitctr, e ≠ .restart demodByte bitctr)
    (h : Mealy.final (dspStep A oscLut) (some s) es = some t) :
    t.rx = Mealy.final rxStep s.rx (rxEvents A oscLut s es) ∧
      (Mealy.outputs (dspStep A oscLut) (some s) es).filterMap (·.bind DspOut.byteRx) =
        bytesReceived (Mealy.outputs rxStep s.rx (rxEvents A oscLut s es)) := by
  induction es generalizing s with
  | nil =>
    obtain rfl : s = t := Option.some.inj h
    exact ⟨rfl, rfl⟩
  | cons e es ih =>
    have hes' := fun e' he' => hes e' (List.mem_cons_of_mem e he')
    cases e with
    | sample debuglevel sample =>
      cases hstep : dspSample A oscLut debuglevel s sample with
      | none =>
        simp only [Mealy.final_cons, dspStep, Option.bind_some, hstep, final_dspStep_none] at h
        cases h
      | some sent =>
        obtain ⟨u, out⟩ := sent
        have hdsp : dspStep A oscLut (some s) (.sample debuglevel sample) = (some u, some out) := by
          simp only [dspStep, Option.bind_some, hstep]
        -- with `DEBUG_WRITE` there is no bit, and the receiver does not move
        have hevents : rxEvents A oscLut s (.sample debuglevel sample :: es) =
            (out.demodBit.map RxEvent.sample).toList ++ rxEvents A oscLut u es := by
          rw [rxEvents, Mealy.outputs_cons, hdsp]
          cases hb : out.demodBit <;> simp [rxEvents, rxEvent?, hb]
        rw [Mealy.final_cons, hdsp] at h
        obtain ⟨hrx, hbytes⟩ := ih hes' h
        obtain ⟨hrx₁, hbyte₁⟩ := rx_dspSample hstep
        rw [Mealy.outputs_cons, hdsp, hevents, Mealy.final_append, Mealy.outputs_append,
          bytesReceived_append, ← hrx₁, ← hbyte₁, ← hbytes]
        refine ⟨hrx, ?_⟩
        cases hb : out.byteRx <;> simp [hb]
    | clearSync =>
      obtain ⟨hrx, hbytes⟩ := ih (s := { s with rx := dspClearSync s.rx }) hes' h
      exact ⟨hrx, hbytes⟩
    | restart demodByte bitctr =>
      exact absurd rfl (hes _ List.mem_cons_self demodByte bitctr)

end PiWxRx
