import PiWxRx.Rtl
import PiWxRx.General.Mealy

/-!
# Edge detector and bit clock

`EdgeDetect` and `RunBitClock` of `FSKdsp.c`, and the two in the order the demodulator thread
calls them, `RunBitClock(EdgeDetect(demod_bit, FALSE))`, as one machine that answers the bit
sampled at a bit time (`sampleStep`).
-/

namespace PiWxRx

/-- `XING_MAX`: the number of samples before a valid zero crossing. -/
abbrev xingMax : ℕ := 3

/-- The globals of `EdgeDetect`. -/
structure EdgeState where
  /-- `current_sense`: the current data sense. -/
  currentSense : DataBit
  /-- `xingcnt`: the samples counted towards the next crossing. -/
  xingcnt : ℕ
  deriving DecidableEq, Repr

/-- `EdgeDetect`. -/
def edgeDetect (e : EdgeState) (demodOut : DataBit) (firstTime : Bool) : EdgeState × Bool :=
  if firstTime then
    ({ currentSense := demodOut, xingcnt := 0 }, false)
  else if demodOut = e.currentSense then
    (e, false)
  else if e.xingcnt + 1 = xingMax then
    ({ currentSense := demodOut, xingcnt := 0 }, true)
  else
    ({ e with xingcnt := e.xingcnt + 1 }, false)

/-- The globals of `RunBitClock`. -/
structure BitClock where
  /-- `divisor`: the outer divisor. -/
  divisor : ℕ
  /-- `swallow_ctr`: the swallow counter. -/
  swallowCtr : ℕ
  deriving DecidableEq, Repr

/-- The clock after an edge: half a bit time to go. -/
def BitClock.midBit : BitClock := { divisor := 1 * bitDivisor / 2, swallowCtr := swallowCtrInit }

/-- `RunBitClock`: the answer is `TRUE` at a bit time. -/
def runBitClock (c : BitClock) (edgedetect : Bool) : BitClock × Bool :=
  if edgedetect then
    -- reset to mid-bit time
    (BitClock.midBit, false)
  else if c.divisor = 0 then
    -- the next bit time is `24` samples away, once in a while `23`
    if c.swallowCtr = 0 then
      ({ divisor := bitDivisor - 1, swallowCtr := swallowCtrInit }, true)
    else
      ({ divisor := bitDivisor, swallowCtr := c.swallowCtr - 1 }, true)
  else
    ({ c with divisor := c.divisor - 1 }, false)

/-- `bit_time = RunBitClock(EdgeDetect(demod_bit, FALSE))`: the answer is the demodulated bit if
this is a bit time. -/
def sampleStep (s : EdgeState × BitClock) (demodBit : DataBit) :
    (EdgeState × BitClock) × Option DataBit :=
  let (edge, isEdge) := edgeDetect s.1 demodBit false
  let (clock, bitTime) := runBitClock s.2 isEdge
  ((edge, clock), if bitTime then some demodBit else none)

/-! ## One call at a time -/

/-- The first call sets the sense and reports no edge. -/
@[simp] theorem edgeDetect_firstTime (e : EdgeState) (b : DataBit) :
    edgeDetect e b true = ({ currentSense := b, xingcnt := 0 }, false) := rfl

@[simp] theorem runBitClock_edge (c : BitClock) : runBitClock c true = (BitClock.midBit, false) :=
  rfl

/-- A sample that carries the current sense leaves the edge detector alone; between bit times
the clock counts down. -/
theorem sampleStep_same (b : DataBit) (x d w : ℕ) :
    sampleStep (⟨b, x⟩, ⟨d + 1, w⟩) b = ((⟨b, x⟩, ⟨d, w⟩), none) := by
  simp [sampleStep, edgeDetect, runBitClock]

/-- At the zero count a sample that carries the current sense is a bit time. -/
theorem sampleStep_bitTime (b : DataBit) (x w : ℕ) :
    sampleStep (⟨b, x⟩, ⟨0, w + 1⟩) b = ((⟨b, x⟩, ⟨bitDivisor, w⟩), some b) := by
  simp [sampleStep, edgeDetect, runBitClock]

/-- A differing sample short of `XING_MAX` is counted; the clock runs on. -/
theorem sampleStep_differs {b c : DataBit} (hbc : b ≠ c) {x : ℕ} (hx : x + 1 ≠ xingMax)
    (d w : ℕ) :
    sampleStep (⟨c, x⟩, ⟨d + 1, w⟩) b = ((⟨c, x + 1⟩, ⟨d, w⟩), none) := by
  simp [sampleStep, edgeDetect, runBitClock, hbc, hx]

/-- The differing sample number `XING_MAX` is an edge and restarts the clock at mid-bit. -/
theorem sampleStep_edge {b c : DataBit} (hbc : b ≠ c) (clock : BitClock) :
    sampleStep (⟨c, xingMax - 1⟩, clock) b = ((⟨b, 0⟩, BitClock.midBit), none) := by
  simp [sampleStep, edgeDetect, hbc]

end PiWxRx
