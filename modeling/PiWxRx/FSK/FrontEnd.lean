import PiWxRx.General.Arith
import PiWxRx.General.Runs
import PiWxRx.Rtl

/-!
# The fixed-point front end

The integer part of the demodulator, one sample of `dsp_threads_fn` at a time: the two phases of
the local oscillator (`osc.c`), the mixers, the two low pass filters (`fir.c`) and the phase
discriminator (`demod.c`), up to the value `PhaseDiscrim` returns. The DC slicer behind it is in
`DspThread`.

Every arithmetic operation and every cast is evaluated by an `Arith`. A missing result also stands
for an array access out of bounds.
-/

namespace PiWxRx

open CArith Runs

/-! ## Local oscillator -/

/-- `OSC_VALUE`. -/
abbrev OscValue := BitVec 16

/-- `LUT_SIZE`. -/
abbrev lutSize : ℕ := 2048

/-- `INJ_FREQ`: the phase advance for 1822 Hz. -/
abbrev injFreq : ℕ := 311

/-- The channels `I_CHANNEL` and `Q_CHANNEL`. -/
inductive Channel where
  | I
  | Q
  deriving DecidableEq, Repr

/-- `i_Phase` and `q_Phase`. -/
structure Osc where
  iPhase : ℕ
  qPhase : ℕ
  deriving DecidableEq, Repr

/-- The initial phases, the Q channel 270 degrees ahead. -/
def Osc.init : Osc where
  iPhase := 0
  qPhase := 3 * lutSize / 4

/-- `RunOsc` on the table `oscLut` that `InitOsc` fills. -/
def runOsc (oscLut : Vector OscValue lutSize) (osc : Osc) : Channel → Option (RtlSample × Osc)
  | .I => do
    let oscout ← oscLut[osc.iPhase]?
    some (oscout, { osc with iPhase := (osc.iPhase + injFreq) &&& (lutSize - 1) })
  | .Q => do
    let oscout ← oscLut[osc.qPhase]?
    some (oscout, { osc with qPhase := (osc.qPhase + injFreq) &&& (lutSize - 1) })

/-- The mixer: oscillator times sample, in 16 bits. -/
def mixer (A : Arith) (osc sample : RtlSample) : Option ℤ := do
  let product ← A.int (osc.toInt * sample.toInt)
  A.short (product >>> (15 : ℕ))

/-! ## Low pass filter -/

/-- `FIR_COEFF`. -/
abbrev FirCoeff := BitVec 16

/-- `N_FIR_TAPS`. -/
abbrev nFirTaps : ℕ := 45

/-- `MAC_SHIFT`. -/
abbrev macShift : ℕ := 16

/-- `Fir_Coeffs`: Hann window low pass filter, roll off at 300 Hz. -/
def firCoeffs : Vector FirCoeff nFirTaps := #v[
  0x0018, 0x0055, 0x0097, 0x00D0, 0x00EC, 0x00D9, 0x008A, 0x0000, 0xFF45, 0xFE75, 0xFDB7, 0xFD3D,
  0xFD37, 0xFDCD, 0xFF17, 0x0114, 0x03AC, 0x06AA, 0x09C4, 0x0CA7, 0x0F00, 0x1088, 0x1110, 0x1088,
  0x0F00, 0x0CA7, 0x09C4, 0x06AA, 0x03AC, 0x0114, 0xFF17, 0xFDCD, 0xFD37, 0xFD3D, 0xFDB7, 0xFE75,
  0xFF45, 0x0000, 0x008A, 0x00D9, 0x00EC, 0x00D0, 0x0097, 0x0055, 0x0018]

/-- `FIR_DATA`, without the channel number that only debug output reads. -/
structure FirData where
  wrptr : ℕ
  rdptr : ℕ
  firdata : Vector ℤ nFirTaps

/-- The filter data of a channel at program start. -/
def FirData.init : FirData where
  wrptr := 0
  rdptr := 0
  firdata := Vector.replicate nFirTaps 0

/-- The multiply-accumulate loop of `doFir` over the remaining coefficients: the accumulator and
the read pointer it ends with. -/
def macLoop (A : Arith) (firdata : Vector ℤ nFirTaps) :
    List FirCoeff → (rdptr : ℕ) → (mac : ℤ) → Option (ℤ × ℕ)
  | [], rdptr, mac => some (mac, rdptr)
  | coeff :: coeffs, rdptr, mac => do
    let term1 ← firdata[rdptr]?
    let macin ← A.int (term1 * coeff.toInt)
    let mac ← A.long (mac + macin)
    -- the read pointer moves back and wraps around
    macLoop A firdata coeffs (if rdptr = 0 then nFirTaps - 1 else rdptr - 1) mac

/-- `doFir`. -/
def doFir (A : Arith) (sample : ℤ) (fir : FirData) : Option (ℤ × FirData) :=
  if h : fir.wrptr < nFirTaps then do
    let firdata := fir.firdata.set fir.wrptr sample
    let wrptr := if fir.wrptr = nFirTaps - 1 then 0 else fir.wrptr + 1
    -- the read pointer starts at the sample just written
    let (mac, rdptr) ← macLoop A firdata firCoeffs.toList fir.wrptr 0
    let macout ← A.int (mac >>> macShift)
    some (macout, { wrptr, rdptr, firdata })
  else
    none

/-! ## Phase discriminator -/

/-- `DEMOD_DLY_LEN`. -/
abbrev demodDlyLen : ℕ := 64

/-- The delay lines of the discriminator. -/
structure DemodDly where
  iDemodDly : Vector ℤ demodDlyLen
  qDemodDly : Vector ℤ demodDlyLen
  currIndex : ℕ

/-- The delay lines at program start. -/
def DemodDly.init : DemodDly where
  iDemodDly := Vector.replicate demodDlyLen 0
  qDemodDly := Vector.replicate demodDlyLen 0
  currIndex := 0

/-- `previous_bit_index`: 12 samples back in the delay line, in 32-bit arithmetic. -/
def previousBitIndex (currIndex : ℕ) : ℕ :=
  ((BitVec.ofNat 32 currIndex - 12) &&& BitVec.ofNat 32 (demodDlyLen - 1)).toNat

/-- The masked negative index is 12 cells back in the ring. -/
theorem previousBitIndex_eq {currIndex : ℕ} (h : currIndex < demodDlyLen) :
    previousBitIndex currIndex = (currIndex + (demodDlyLen - 12)) % demodDlyLen := by
  have hall : ∀ c < demodDlyLen,
      previousBitIndex c = (c + (demodDlyLen - 12)) % demodDlyLen := by
    decide
  exact hall currIndex h

/-- `PhaseDiscrim`. -/
def phaseDiscrim (A : Arith) (dly : DemodDly) (iout qout : ℤ) : Option (ℤ × DemodDly) :=
  if h : dly.currIndex < demodDlyLen then do
    -- the delay lines are arrays of `RTL_SAMPLE`
    let iDemodDly := dly.iDemodDly.set dly.currIndex (← A.short iout)
    let qDemodDly := dly.qDemodDly.set dly.currIndex (← A.short qout)
    let iprev ← iDemodDly[previousBitIndex dly.currIndex]?
    let qprev ← qDemodDly[previousBitIndex dly.currIndex]?
    let lphase ← A.long (iprev * qout)
    let lphase ← A.long (lphase - (← A.long (iout * qprev)))
    let phase ← A.int lphase
    some (phase >>> (11 : ℕ),
      { iDemodDly, qDemodDly, currIndex := (dly.currIndex + 1) &&& (demodDlyLen - 1) })
  else
    none

/-! ## One sample -/

/-- The static variables of the front end. -/
structure FrontEnd where
  osc : Osc
  iChannelFir : FirData
  qChannelFir : FirData
  dly : DemodDly

/-- The front end at program start. -/
def FrontEnd.init : FrontEnd where
  osc := Osc.init
  iChannelFir := FirData.init
  qChannelFir := FirData.init
  dly := DemodDly.init

/-- The part of an iteration of `dsp_threads_fn` from `RunOsc` to `PhaseDiscrim`. -/
def frontEnd (A : Arith) (oscLut : Vector OscValue lutSize) (s : FrontEnd) (sample : RtlSample) :
    Option (ℤ × FrontEnd) := do
  let (iosc, osc) ← runOsc oscLut s.osc .I
  let (qosc, osc) ← runOsc oscLut osc .Q
  let imix ← mixer A iosc sample
  let qmix ← mixer A qosc sample
  let (iout, iChannelFir) ← doFir A imix s.iChannelFir
  let (qout, qChannelFir) ← doFir A qmix s.qChannelFir
  let (phase, dly) ← phaseDiscrim A s.dly iout qout
  some (phase, { osc, iChannelFir, qChannelFir, dly })

/-- The front end after the first `n` samples of the stream `x`. -/
def frontEndState (A : Arith) (oscLut : Vector OscValue lutSize) (x : ℕ → RtlSample) (n : ℕ) :
    Option FrontEnd :=
  run (fun s sample => (frontEnd A oscLut s sample).map Prod.snd) FrontEnd.init
    ((List.range n).map x)

/-- What `PhaseDiscrim` returns for sample `n` of the stream `x`. -/
def phaseOutput (A : Arith) (oscLut : Vector OscValue lutSize) (x : ℕ → RtlSample) (n : ℕ) :
    Option ℤ := do
  let s ← frontEndState A oscLut x n
  let (phase, _) ← frontEnd A oscLut s (x n)
  some phase

end PiWxRx
