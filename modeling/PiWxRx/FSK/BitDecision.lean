import PiWxRx.FSK.DcSlicer
import PiWxRx.FSK.Demodulator

/-!
# The demodulated bits of a stream

Front end and slicer together, from program start. `slicerLevel` is the level of the slicer in
unbounded integers; while the discriminator output of the exact demodulator stays within `40000`,
the thread decides every bit by it, and within the dead band of the slicer by the sign of the
discriminator output itself (`demodBit_stream`). Samples of up to `3600` keep it in the dead band
(`natAbs_discriminated_le`).
-/

namespace PiWxRx

open CArith

/-- The level of the slicer before phase `n` of a sequence. -/
def slicerLevel (phase : ℕ → ℤ) : ℕ → ℤ
  | 0 => 0
  | n + 1 => levelDecay.mulInt (slicerLevel phase n) + phaseGain.mulInt (phase n)

theorem natAbs_slicerLevel_le {phase : ℕ → ℤ} {n : ℕ} (h : ∀ m < n, (phase m).natAbs ≤ 40000) :
    (slicerLevel phase n).natAbs ≤ 32767 := by
  induction n with
  | zero => exact Nat.zero_le _
  | succ n ih =>
    have hdecay := (levelDecay_bounds (slicerLevel phase n)).2.2
      (ih fun m hm => h m (Nat.lt_succ_of_lt hm))
    have hgain := (phaseGain_bounds (phase n)).2 (h n (Nat.lt_succ_self n))
    rw [slicerLevel]
    omega

/-- In the dead band the level stays zero. -/
theorem slicerLevel_deadBand {phase : ℕ → ℤ} {n : ℕ} (h : ∀ m < n, (phase m).natAbs ≤ 6666) :
    slicerLevel phase n = 0 := by
  induction n with
  | zero => rfl
  | succ n ih =>
    rw [slicerLevel, ih fun m hm => h m (Nat.lt_succ_of_lt hm),
      (phaseGain_bounds (phase n)).1 (h n (Nat.lt_succ_self n))]
    decide

/-! ## Quiet streams -/

/-- Samples of up to `3600` keep the discriminator output in the dead band of the slicer. -/
theorem natAbs_discriminated_le {oscLut : Vector OscValue lutSize}
    (hlut : ∀ i (hi : i < lutSize), -32767 ≤ oscLut[i].toInt ∧ oscLut[i].toInt ≤ 32767)
    {x : ℕ → RtlSample} {n : ℕ} (hquiet : ∀ m ≤ n, (x m).toInt.natAbs ≤ 3600) :
    (discriminated oscLut x n).natAbs ≤ 6666 := by
  have hdelayed : ∀ {f : ℕ → ℤ} {b : ℤ} {m : ℕ}, (∀ k ≤ m, |f k| ≤ b) →
      ∀ i, |delayed f m i| ≤ b := by
    intro f b m hf i
    unfold delayed
    split
    · exact hf _ (Nat.sub_le m i)
    · rw [abs_zero]
      exact (abs_nonneg _).trans (hf m le_rfl)
  -- the bound goes through mixer, filter and cross product
  have hmixed : ∀ ch, ∀ m ≤ n, |mixed oscLut x ch m| ≤ 3600 := by
    intro ch m hm
    refine abs_ediv_le (by decide) ((abs_mul_le (abs_le.mpr (hlut _ _)) ?_).trans
      (by norm_num : (32767 : ℤ) * 3600 ≤ _))
    have := hquiet m hm
    rw [abs_le]
    omega
  have hfiltered : ∀ ch, ∀ m ≤ n, |filtered oscLut x ch m| ≤ 2567 := by
    intro ch m hm
    have hdot := abs_dot_le (hdelayed fun k hk => hmixed ch k (hk.trans hm))
      (firCoeffs.toList.map BitVec.toInt)
    rw [sum_abs_firCoeffs] at hdot
    exact abs_ediv_le (by decide) (hdot.trans (by decide))
  have hpast : ∀ ch, |delayed (filtered oscLut x ch) n 12| ≤ 2567 := fun ch =>
    hdelayed (hfiltered ch) 12
  have hfirst := abs_mul_le (hpast .I) (hfiltered .Q n le_rfl)
  have hsecond := abs_mul_le (hfiltered .I n le_rfl) (hpast .Q)
  rw [abs_le] at hfirst hsecond
  unfold discriminated
  omega

/-! ## The thread -/

section

variable {A : Arith} (hA : A.Exact) {oscLut : Vector OscValue lutSize}
  (hlut : ∀ i (hi : i < lutSize), -32767 ≤ oscLut[i].toInt ∧ oscLut[i].toInt ≤ 32767)
  {x : ℕ → RtlSample} {debuglevel : BitVec 32} (hlevel : debuglevel &&& debugWrite = 0)
include hA hlut hlevel

/-- One sample of the stream. -/
theorem dspSample_stream {s : DspState} {n : ℕ} (hfront : s.front.Holds oscLut x n)
    (hslicer : s.dcsliceLevel = slicerLevel (discriminated oscLut x) n)
    (hphase : ∀ m ≤ n, (discriminated oscLut x m).natAbs ≤ 40000) :
    ∃ t out, dspSample A oscLut debuglevel s (x n) = some (t, out) ∧
      t.front.Holds oscLut x (n + 1) ∧
      t.dcsliceLevel = slicerLevel (discriminated oscLut x) (n + 1) ∧
      out.demodBit = some (!decide (0 < discriminated oscLut x n -
        slicerLevel (discriminated oscLut x) (n + 1))) := by
  obtain ⟨front, hfront', hholds⟩ := frontEnd_eq hA hlut hfront
  have hrange := natAbs_slicerLevel_le (n := n + 1) fun m hm =>
    hphase m (Nat.le_of_lt_succ hm)
  have hfits : CArith.Fits 16 (slicerLevel (discriminated oscLut x) (n + 1)) := by
    constructor <;> omega
  have hslice : dcSlice A (slicerLevel (discriminated oscLut x) n) (discriminated oscLut x n) =
      some (discriminated oscLut x n - slicerLevel (discriminated oscLut x) (n + 1),
        slicerLevel (discriminated oscLut x) (n + 1)) :=
    dcSlice_of_fits hA hfits (hphase n le_rfl)
  simp only [dspSample, hlevel, ne_eq, not_true_eq_false, ↓reduceIte, demodulate, hfront', hslicer,
    hslice, Option.bind_eq_bind, Option.bind_some, Option.some.injEq, Prod.mk.injEq]
  exact ⟨_, _, ⟨rfl, rfl⟩, hholds, rfl, rfl⟩

/-- The samples of the stream as events. -/
theorem final_stream (demodByte : DemodByte) (bitctr : ℕ) {n : ℕ}
    (hphase : ∀ m < n, (discriminated oscLut x m).natAbs ≤ 40000) :
    ∃ s, Mealy.final (dspStep A oscLut) (some (DspState.start demodByte bitctr))
        ((List.range n).map fun m => .sample debuglevel (x m)) = some s ∧
      s.front.Holds oscLut x n ∧
      s.dcsliceLevel = slicerLevel (discriminated oscLut x) n := by
  induction n with
  | zero => exact ⟨_, rfl, FrontEnd.holds_init oscLut x, rfl⟩
  | succ n ih =>
    obtain ⟨s, hs, hfront, hslicer⟩ := ih fun m hm => hphase m (Nat.lt_succ_of_lt hm)
    obtain ⟨t, out, hsample, hfront', hslicer', -⟩ := dspSample_stream hA hlut hlevel hfront hslicer
      fun m hm => hphase m (Nat.lt_succ_of_le hm)
    refine ⟨t, ?_, hfront', hslicer'⟩
    rw [List.range_succ, List.map_append, Mealy.final_append, hs]
    simp only [List.map_cons, List.map_nil, Mealy.final_cons, Mealy.final_nil, dspStep,
      Option.bind_some, hsample]

/-- In the dead band of the slicer the receiver sees the signs of the discriminator output. -/
theorem rxEvents_stream (demodByte : DemodByte) (bitctr : ℕ) {n : ℕ}
    (hweak : ∀ m < n, (discriminated oscLut x m).natAbs ≤ 6666) :
    rxEvents A oscLut (DspState.start demodByte bitctr)
        ((List.range n).map fun m => .sample debuglevel (x m)) =
      ((List.range n).map fun m => !decide (0 < discriminated oscLut x m)).map .sample := by
  induction n with
  | zero => rfl
  | succ n ih =>
    have hphase : ∀ m < n + 1, (discriminated oscLut x m).natAbs ≤ 40000 := fun m hm =>
      (hweak m hm).trans (by decide)
    obtain ⟨s, hs, hfront, hslicer⟩ := final_stream hA hlut hlevel demodByte bitctr (n := n)
      fun m hm => hphase m (Nat.lt_succ_of_lt hm)
    obtain ⟨t, out, hsample, -, -, hbit⟩ := dspSample_stream hA hlut hlevel hfront hslicer
      fun m hm => hphase m (Nat.lt_succ_of_le hm)
    rw [slicerLevel_deadBand fun m hm => hweak m hm, sub_zero] at hbit
    have hlength : ((List.range n).map fun m => DspEvent.sample debuglevel (x m)).length =
        (Mealy.outputs (dspStep A oscLut) (some (DspState.start demodByte bitctr))
          ((List.range n).map fun m => .sample debuglevel (x m))).length := by
      rw [Mealy.length_outputs]
    rw [List.range_succ, List.map_append, List.map_append, List.map_append,
      ← ih fun m hm => hweak m (Nat.lt_succ_of_lt hm), rxEvents, Mealy.outputs_append, hs,
      List.zip_append hlength, List.filterMap_append, rxEvents]
    congr 1
    simp [Mealy.outputs_cons, dspStep, hsample, rxEvent?, hbit]

/-- There the slicer stays at zero, the receiver has run over those bits, and it has delivered what
the thread has. -/
theorem receiver_stream (demodByte : DemodByte) (bitctr : ℕ) {n : ℕ}
    (hweak : ∀ m < n, (discriminated oscLut x m).natAbs ≤ 6666) :
    let es := (List.range n).map fun m => DspEvent.sample debuglevel (x m)
    let bits := (List.range n).map fun m => !decide (0 < discriminated oscLut x m)
    ∃ s, Mealy.final (dspStep A oscLut) (some (DspState.start demodByte bitctr)) es = some s ∧
      s.front.Holds oscLut x n ∧ s.dcsliceLevel = 0 ∧
      s.rx = Mealy.final rxStep (RxState.start demodByte bitctr) (bits.map .sample) ∧
      (Mealy.outputs (dspStep A oscLut) (some (DspState.start demodByte bitctr)) es).filterMap
          (·.bind DspOut.byteRx) =
        bytesReceived (Mealy.outputs rxStep (RxState.start demodByte bitctr)
          (bits.map .sample)) := by
  intro es bits
  obtain ⟨s, hs, hfront, hslicer⟩ := final_stream hA hlut hlevel demodByte bitctr
    fun m hm => (hweak m hm).trans (by decide)
  have hrestart : ∀ e ∈ es, ∀ demodByte bitctr, e ≠ .restart demodByte bitctr := by
    intro e he
    obtain ⟨m, -, rfl⟩ := List.mem_map.mp he
    exact fun _ _ h => DspEvent.noConfusion h
  have hrx := rx_dspStep hrestart hs
  rw [rxEvents_stream hA hlut hlevel demodByte bitctr hweak] at hrx
  exact ⟨s, hs, hfront, hslicer.trans (slicerLevel_deadBand hweak), hrx⟩

/-- The bit of sample `n` among the first `len` of a stream, demodulated from program start. -/
def streamBit (A : Arith) (oscLut : Vector OscValue lutSize) (debuglevel : BitVec 32)
    (demodByte : DemodByte) (bitctr : ℕ) (x : ℕ → RtlSample) (len n : ℕ) : Option DataBit :=
  (Mealy.outputs (dspStep A oscLut) (some (DspState.start demodByte bitctr))
    ((List.range len).map fun m => .sample debuglevel (x m)))[n]?.bind fun out =>
      out.bind DspOut.demodBit

/-- Bit `n` says whether the discriminator output is above the level of the slicer. -/
theorem streamBit_eq (demodByte : DemodByte) (bitctr : ℕ) {len n : ℕ} (hn : n < len)
    (hphase : ∀ m ≤ n, (discriminated oscLut x m).natAbs ≤ 40000) :
    streamBit A oscLut debuglevel demodByte bitctr x len n =
      some (!decide (0 < discriminated oscLut x n -
        slicerLevel (discriminated oscLut x) (n + 1))) := by
  obtain ⟨s, hs, hfront, hslicer⟩ := final_stream hA hlut hlevel demodByte bitctr (n := n)
    fun m hm => hphase m hm.le
  obtain ⟨t, out, hsample, -, -, hbit⟩ :=
    dspSample_stream hA hlut hlevel hfront hslicer hphase
  rw [streamBit, Mealy.getElem?_outputs, List.getElem?_map, List.getElem?_range hn, ← List.map_take,
    List.take_range, Nat.min_eq_left hn.le, hs]
  simp only [Option.map_some, Option.bind_some, dspStep, hsample, hbit]

/-- **The demodulated bits.** From program start and at any debug level but `DEBUG_WRITE`: as long
as the exact discriminator output has stayed within `40000`, bit `n` says whether it is above the
level of the slicer in unbounded integers. While it has stayed within the dead band of the slicer,
the bit is its sign: no offset is taken off. -/
theorem demodBit_stream (demodByte : DemodByte) (bitctr : ℕ) {len n : ℕ} (hn : n < len)
    (hphase : ∀ m ≤ n, (discriminated oscLut x m).natAbs ≤ 40000) :
    streamBit A oscLut debuglevel demodByte bitctr x len n =
        some (!decide (0 < discriminated oscLut x n -
          slicerLevel (discriminated oscLut x) (n + 1))) ∧
      ((∀ m ≤ n, (discriminated oscLut x m).natAbs ≤ 6666) →
        streamBit A oscLut debuglevel demodByte bitctr x len n =
          some (!decide (0 < discriminated oscLut x n))) := by
  have hdecided := streamBit_eq hA hlut hlevel demodByte bitctr hn hphase
  refine ⟨hdecided, fun hweak => ?_⟩
  rw [hdecided, slicerLevel_deadBand fun m hm => hweak m (Nat.le_of_lt_succ hm), sub_zero]

end

/-- The two square waves: a one. -/
theorem demodBit_stream_square :
    discriminated squareTable squareWave 56 = -209 ∧
      streamBit .checked squareTable 0 0 0 squareWave 57 56 = some true := by
  have hweak : ∀ m ≤ 56, (discriminated squareTable squareWave m).natAbs ≤ 6666 := by
    refine fun m _ => natAbs_discriminated_le squareTable_range fun k _ => ?_
    rw [squareWave]
    split <;> decide
  have hdebug : (0 : BitVec 32) &&& debugWrite = 0 := by decide
  have hbit := (demodBit_stream checked_exact squareTable_range hdebug 0 0 (by decide : 56 < 57)
    fun m hm => (hweak m hm).trans (by decide)).2 hweak
  rw [discriminated_square] at hbit
  exact ⟨discriminated_square, hbit⟩

end PiWxRx
