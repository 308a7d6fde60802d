import PiWxRx.FSK.DspThread

/-!
# Array indices of the demodulator

The oscillator phases, the filter pointers and the index of the delay lines are static variables
that every sample moves on and nothing but the wrap-around of each keeps inside its array.
`FrontEnd.InRange` is the invariant, and with it every event has a result in two's complement
arithmetic: `final_dspStep_inRange` covers all sequences of samples at any debug level, clears and
restarts.
-/

namespace PiWxRx

open CArith

/-- Every index is inside its array. -/
structure FrontEnd.InRange (s : FrontEnd) : Prop where
  iPhase : s.osc.iPhase < lutSize
  qPhase : s.osc.qPhase < lutSize
  iFir : s.iChannelFir.wrptr < nFirTaps
  qFir : s.qChannelFir.wrptr < nFirTaps
  dly : s.dly.currIndex < demodDlyLen

theorem FrontEnd.inRange_init : FrontEnd.init.InRange := by
  constructor <;> decide

variable (longBits : ℕ) (oscLut : Vector OscValue lutSize)

/-- The phases wrap around at the end of the table. -/
theorem runOsc_inRange {osc : Osc} (hi : osc.iPhase < lutSize) (hq : osc.qPhase < lutSize)
    (ch : Channel) : ∃ oscout osc', runOsc oscLut osc ch = some (oscout, osc') ∧
      osc'.iPhase < lutSize ∧ osc'.qPhase < lutSize := by
  have hmask : ∀ phase, (phase + injFreq) &&& (lutSize - 1) < lutSize := fun phase =>
    Nat.and_lt_two_pow _ (by decide : lutSize - 1 < 2 ^ 11)
  cases ch with
  | I =>
    refine ⟨oscLut[osc.iPhase],
      { osc with iPhase := (osc.iPhase + injFreq) &&& (lutSize - 1) }, ?_, hmask osc.iPhase, hq⟩
    simp [runOsc, Vector.getElem?_eq_getElem hi]
  | Q =>
    refine ⟨oscLut[osc.qPhase],
      { osc with qPhase := (osc.qPhase + injFreq) &&& (lutSize - 1) }, ?_, hi, hmask osc.qPhase⟩
    simp [runOsc, Vector.getElem?_eq_getElem hq]

/-- The read pointer walks backwards and wraps around at the first cell. -/
theorem macLoop_wrap (firdata : Vector ℤ nFirTaps) (coeffs : List FirCoeff) {rdptr : ℕ}
    (h : rdptr < nFirTaps) (mac : ℤ) :
    ∃ out, macLoop (.wrap longBits) firdata coeffs rdptr mac = some out := by
  induction coeffs generalizing rdptr mac with
  | nil => exact ⟨_, rfl⟩
  | cons coeff coeffs ih =>
    have hnext : (if rdptr = 0 then nFirTaps - 1 else rdptr - 1) < nFirTaps := by
      split_ifs
      · decide
      · omega
    obtain ⟨out, hout⟩ := ih hnext
      ((mac + (firdata[rdptr] * coeff.toInt).bmod (2 ^ 32)).bmod (2 ^ longBits))
    refine ⟨out, ?_⟩
    simpa [macLoop, Arith.wrap, Vector.getElem?_eq_getElem h] using hout

theorem doFir_wrap {fir : FirData} (h : fir.wrptr < nFirTaps) (sample : ℤ) :
    ∃ macout fir', doFir (.wrap longBits) sample fir = some (macout, fir') ∧
      fir'.wrptr < nFirTaps := by
  obtain ⟨⟨mac, rdptr⟩, hmac⟩ := macLoop_wrap longBits
    (fir.firdata.set fir.wrptr sample) firCoeffs.toList h 0
  refine ⟨(mac >>> macShift).bmod (2 ^ 32),
    { wrptr := if fir.wrptr = nFirTaps - 1 then 0 else fir.wrptr + 1
      rdptr
      firdata := fir.firdata.set fir.wrptr sample }, ?_, ?_⟩
  · simp only [doFir, dif_pos h, hmac, Option.bind_eq_bind, Option.bind_some]
    rfl
  · simp only
    split_ifs with hlast
    · decide
    · simp only [nFirTaps] at h hlast ⊢
      omega

theorem phaseDiscrim_wrap {dly : DemodDly} (h : dly.currIndex < demodDlyLen) (iout qout : ℤ) :
    ∃ phase dly', phaseDiscrim (.wrap longBits) dly iout qout = some (phase, dly') ∧
      dly'.currIndex < demodDlyLen := by
  have hprev : previousBitIndex dly.currIndex < demodDlyLen := by
    rw [previousBitIndex_eq h]
    exact Nat.mod_lt _ (by decide)
  have hnext : (dly.currIndex + 1) &&& (demodDlyLen - 1) < demodDlyLen :=
    Nat.and_lt_two_pow _ (by decide : demodDlyLen - 1 < 2 ^ 6)
  simp only [phaseDiscrim, dif_pos h, Arith.wrap, Option.bind_eq_bind, Option.bind_some,
    Vector.getElem?_eq_getElem hprev, Option.some.injEq, Prod.mk.injEq]
  exact ⟨_, _, ⟨rfl, rfl⟩, hnext⟩

/-- One sample keeps all indices in range. -/
theorem frontEnd_wrap {s : FrontEnd} (h : s.InRange) (sample : RtlSample) :
    ∃ phase t, frontEnd (.wrap longBits) oscLut s sample = some (phase, t) ∧ t.InRange := by
  obtain ⟨iosc, osc, hi, hosc⟩ := runOsc_inRange oscLut h.iPhase h.qPhase .I
  obtain ⟨qosc, osc', hq, hosc'⟩ := runOsc_inRange oscLut hosc.1 hosc.2 .Q
  obtain ⟨imix, himix⟩ : ∃ m, mixer (.wrap longBits) iosc sample = some m := ⟨_, rfl⟩
  obtain ⟨qmix, hqmix⟩ : ∃ m, mixer (.wrap longBits) qosc sample = some m := ⟨_, rfl⟩
  obtain ⟨iout, iFir, hiFir, hiFir'⟩ := doFir_wrap longBits h.iFir imix
  obtain ⟨qout, qFir, hqFir, hqFir'⟩ := doFir_wrap longBits h.qFir qmix
  obtain ⟨phase, dly, hphase, hdly⟩ :=
    phaseDiscrim_wrap longBits h.dly iout qout
  refine ⟨phase, { osc := osc', iChannelFir := iFir, qChannelFir := qFir, dly }, ?_,
    hosc'.1, hosc'.2, hiFir', hqFir', hdly⟩
  simp only [frontEnd, hi, hq, himix, hqmix, hiFir, hqFir, hphase, Option.bind_eq_bind,
    Option.bind_some]

/-- An iteration of the DSP thread has a result and keeps all indices in range. -/
theorem dspSample_wrap {s : DspState} (h : s.front.InRange) (debuglevel : BitVec 32)
    (sample : RtlSample) :
    ∃ t out, dspSample (.wrap longBits) oscLut debuglevel s sample = some (t, out) ∧
      t.front.InRange := by
  unfold dspSample
  split
  · exact ⟨_, _, rfl, h⟩
  · obtain ⟨phase, front, hfront, hrange⟩ :=
      frontEnd_wrap longBits oscLut h sample
    obtain ⟨⟨phase', level⟩, hslice⟩ :
        ∃ p, dcSlice (.wrap longBits) s.dcsliceLevel phase = some p := ⟨_, rfl⟩
    simp only [demodulate, hfront, hslice, Option.bind_eq_bind, Option.bind_some,
      Option.some.injEq, Prod.mk.injEq]
    exact ⟨_, _, ⟨rfl, rfl⟩, hrange⟩

/-- One event. -/
theorem dspStep_inRange {s : DspState} (h : s.front.InRange) (e : DspEvent) :
    ∃ t, (dspStep (.wrap longBits) oscLut (some s) e).1 = some t ∧ t.front.InRange := by
  cases e with
  | sample debuglevel sample =>
    obtain ⟨t, out, ht, hrange⟩ :=
      dspSample_wrap longBits oscLut h debuglevel sample
    exact ⟨t, by simp only [dspStep, Option.bind_some, ht], hrange⟩
  | clearSync => exact ⟨_, rfl, h⟩
  | restart demodByte bitctr =>
    -- the filter pointers start over
    exact ⟨_, rfl, h.iPhase, h.qPhase, Nat.succ_pos 44, Nat.succ_pos 44, h.dly⟩

/-- A run. -/
theorem final_dspStep_of_inRange {s : DspState} (h : s.front.InRange) (es : List DspEvent) :
    ∃ t, Mealy.final (dspStep (.wrap longBits) oscLut) (some s) es = some t ∧
      t.front.InRange := by
  induction es generalizing s with
  | nil => exact ⟨s, rfl, h⟩
  | cons e es ih =>
    obtain ⟨t, ht, hrange⟩ := dspStep_inRange longBits oscLut h e
    rw [Mealy.final_cons, ht]
    exact ih hrange

/-- No sequence of samples, at whatever debug levels, clears and restarts takes an index of the
demodulator out of its array. -/
theorem final_dspStep_inRange (demodByte : DemodByte) (bitctr : ℕ) (es : List DspEvent) :
    ∃ t, Mealy.final (dspStep (.wrap longBits) oscLut) (some (DspState.start demodByte bitctr)) es =
      some t ∧ t.front.InRange :=
  final_dspStep_of_inRange longBits oscLut FrontEnd.inRange_init es

end PiWxRx
