import PiWxRx.FSK.EyeDiagram
import PiWxRx.FSK.Pacing
import PiWxRx.Threads.ReceiveNetwork

/-!
# From the tones to the bytes

A transmission is a string of bits sent as tones at a pace of its own, from any moment on and with
any phase (`Broadcast`). Where it is heard with a small error and nothing before it
(`Broadcast.Heard`), the demodulated bits show an open eye (`eye_of_heard`), and the DSP thread
delivers the message (`decodedBytes_transmission`).
-/

namespace PiWxRx

open CArith Quadrature

/-! ## Bits as tones -/

/-- The tone a bit is sent as. -/
def bitTone : DataBit → Tone
  | true => .mark
  | false => .space

theorem bit_bitTone (b : DataBit) : (bitTone b).bit = b := by
  cases b <;> rfl

/-- The keying of a string of bits, with silence before and after. -/
def bitKeying (bits : List DataBit) : Keying := fun j =>
  if j < 0 then none else bits[j.toNat]?.map bitTone

theorem bitKeying_neg (bits : List DataBit) {j : ℤ} (hj : j < 0) : bitKeying bits j = none :=
  if_pos hj

theorem bitKeying_natCast {bits : List DataBit} {k : ℕ} (hk : k < bits.length) {j : ℤ}
    (hj : j = k) : bitKeying bits j = some (bitTone bits[k]) := by
  subst hj
  rw [bitKeying, if_neg (by omega), Int.toNat_natCast, List.getElem?_eq_getElem hk, Option.map_some]

/-! ## The eye of a transmission -/

section

variable {oscLut : Vector OscValue lutSize} (hcos : CosineTable oscLut) {bits tail : List DataBit}
  (htail : 2 ≤ tail.length) {x : ℕ → RtlSample} {amp φ err : ℝ} (hamp : 2000 ≤ amp)
  (herr : 95 * err ≤ amp) {s : ℕ}
  (hheard : ∀ m : ℕ, 25 * m < 576 * bits.length + 712 + s →
    |((x m).toInt : ℝ) - (bitKeying (bits ++ tail)).signal amp φ (25 * m - s)| ≤ err)

include hheard in
/-- Every sample of the transmission sees a window that was heard. -/
theorem heard_bits {n : ℕ} (hlast : n < bitStart (712 + s) bits.length) :
    (bitKeying (bits ++ tail)).Heard x amp φ err s n := by
  intro m hm _
  refine hheard m ?_
  unfold bitStart at hlast
  omega

include hcos hamp herr hheard

/-- With the last four bits sent, the second or third to last is decided. -/
theorem decided_bits {l n u : ℕ} (hl : l + 3 < (bits ++ tail).length)
    (hlast : n < bitStart (712 + s) bits.length) (hn : 56 ≤ n) (hu : u < 576)
    (hg : 25 * n = s + 576 * (l + 3) + u) :
    (u ≤ 111 ∨ (bits ++ tail)[l + 2] = (bits ++ tail)[l + 1] →
        (!decide (0 < discriminated oscLut x n)) = (bits ++ tail)[l + 1]) ∧
      (137 ≤ u ∨ (bits ++ tail)[l + 2] = (bits ++ tail)[l + 1] →
        (!decide (0 < discriminated oscLut x n)) = (bits ++ tail)[l + 2]) := by
  have hsent : ∀ {m : ℕ} (hm : m < (bits ++ tail).length) {j : ℤ}, j = m →
      bitKeying (bits ++ tail) j = some (bitTone (bits ++ tail)[m]) :=
    fun hm _ hj => bitKeying_natCast hm hj
  have hdecided := decided_inside hcos hamp herr hn (heard_bits hheard hlast) (i := (l + 3 : ℕ)) hu
    (by push_cast; omega) (hsent hl rfl)
    (hsent (m := l + 2) (by omega) (by push_cast; ring))
    (hsent (m := l + 1) (by omega) (by push_cast; ring))
    (hsent (m := l) (by omega) (by push_cast; ring))
  simp only [bit_bitTone] at hdecided
  exact ⟨fun h => hdecided.1 (h.imp_right (congrArg bitTone)),
    fun h => hdecided.2 (h.imp_right (congrArg bitTone))⟩

include htail

/-- Bit `k` is decided in the last part of the bit after it, in the first of the one after that, and
through all of that where the next bit is the same. -/
theorem decided_bit {k n u : ℕ} (hk : k < bits.length) (hlast : n < bitStart (712 + s) bits.length)
    (hn : 56 ≤ n) (hu : u < 576)
    (h : 2 ≤ k ∧ 25 * n = s + 576 * (k + 1) + u ∧ 137 ≤ u ∨
      1 ≤ k ∧ 25 * n = s + 576 * (k + 2) + u ∧
        (u ≤ 111 ∨ ∃ hk' : k + 1 < bits.length, bits[k + 1] = bits[k])) :
    (!decide (0 < discriminated oscLut x n)) = bits[k] := by
  have hlength : (bits ++ tail).length = bits.length + tail.length := List.length_append
  have hbit : (bits ++ tail)[k] = bits[k] := List.getElem_append_left hk
  rw [← hbit]
  rcases h with ⟨h2, hg, hlate⟩ | ⟨h1, hg, hopen⟩
  · obtain ⟨l, rfl⟩ := Nat.exists_eq_add_of_le' h2
    have hdecided := decided_bits hcos hamp herr hheard (l := l) (by omega) hlast hn hu
      (by omega)
    exact hdecided.2 (Or.inl hlate)
  · obtain ⟨l, rfl⟩ := Nat.exists_eq_add_of_le' h1
    have hdecided := decided_bits hcos hamp herr hheard (l := l) (by omega) hlast hn hu
      (by omega)
    refine hdecided.1 (hopen.imp_right ?_)
    rintro ⟨hk', hsame⟩
    rw [hbit, List.getElem_append_left hk', hsame]

/-- **The eye is open.** A transmission that begins with two ones and a zero after silence, with two
bits more at its end, heard with an error of at most the 95th part of the amplitude: its bits are
seen `28` samples late. -/
theorem eye_of_heard (hs : 600 ≤ s) (hfirst : [true, true, false] <+: bits) :
    Eye (712 + s) bits fun n => !decide (0 < discriminated oscLut x n) where
  first n hlo hhi := by
    have hlength : 3 ≤ bits.length := hfirst.length_le
    have hlast : n < bitStart (712 + s) bits.length :=
      Nat.lt_of_lt_of_le hhi (by unfold bitStart; omega)
    have hvalue : ∀ (k : ℕ) (hk : k < 3), bits[k] = [true, true, false][k] := fun k hk =>
      (hfirst.getElem hk).symm
    have hsent : ∀ (k : ℕ) (hk : k < 3), bitKeying (bits ++ tail) k =
        some (bitTone [true, true, false][k]) := by
      intro k hk
      rw [bitKeying_natCast (by rw [List.length_append]; omega) rfl,
        List.getElem_append_left (by omega), hvalue k hk]
    unfold bitStart at hlo hhi
    rcases Nat.lt_or_ge (25 * n) (s + 1728) with hearly | hlate
    · -- in the second and the third bit, after silence
      obtain ⟨i, u, hu, hg, hi⟩ : ∃ i u : ℕ, u < 576 ∧ 25 * n = s + 576 * i + u ∧
          (i = 1 ∧ 287 ≤ u ∨ i = 2) := by
        rcases Nat.lt_or_ge (25 * n) (s + 1152) with hone | htwo
        · exact ⟨1, 25 * n - s - 576, by omega, by omega, by omega⟩
        · exact ⟨2, 25 * n - s - 1152, by omega, by omega, by omega⟩
      exact decided_first hcos hamp herr (by omega) (heard_bits hheard hlast) (i := i) hu
        (by omega) (by omega) (fun j hj => bitKeying_neg _ hj) (hsent 0 (by decide))
        (hsent 1 (by decide)) (hsent 2 (by decide))
    · -- in the fourth
      have hdecided := decided_bit hcos htail hamp herr hheard (k := 1) (n := n)
        (u := 25 * n - s - 1728) (by omega) hlast (by omega) (by omega)
        (Or.inr ⟨le_rfl, by omega, Or.inl (by omega)⟩)
      rw [hdecided, hvalue 1 (by decide)]
      rfl
  inside k hk h2 n hlo hhi := by
    have hlast : n < bitStart (712 + s) bits.length :=
      Nat.lt_of_lt_of_le hhi (by unfold bitStart; omega)
    unfold bitStart at hlo hhi
    rcases Nat.lt_or_ge (25 * n) (s + 576 * (k + 2)) with hearly | hlate
    · exact decided_bit hcos htail hamp herr hheard (u := 25 * n - s - 576 * (k + 1)) hk hlast
        (by omega) (by omega) (Or.inl ⟨h2, by omega, by omega⟩)
    · exact decided_bit hcos htail hamp herr hheard (u := 25 * n - s - 576 * (k + 2)) hk hlast
        (by omega) (by omega) (Or.inr ⟨by omega, by omega, Or.inl (by omega)⟩)
  same k hk h2 hsame := by
    have hlast : bitStart (712 + s) (k + 1) < bitStart (712 + s) bits.length := by
      unfold bitStart
      omega
    refine decided_bit hcos htail hamp herr hheard
      (u := 25 * bitStart (712 + s) (k + 1) - s - 576 * (k + 2)) (Nat.lt_of_succ_lt hk) hlast ?_ ?_
      (Or.inr ⟨by omega, ?_, Or.inr ⟨hk, hsame⟩⟩)
    · unfold bitStart
      omega
    · unfold bitStart
      omega
    · unfold bitStart
      omega

end

/-! ## Silence -/

/-- After silence the receiver searches, with a history of ones. -/
theorem search_ones (demodByte : DemodByte) (bitctr n : ℕ) :
    let s := Mealy.final rxStep (RxState.start demodByte bitctr)
      ((List.replicate n true).map .sample)
    s.insync = false ∧ s.correlator.Holds (List.replicate n true ++ []) ∧
      bytesReceived (Mealy.outputs rxStep (RxState.start demodByte bitctr)
        ((List.replicate n true).map .sample)) = [] := by
  have hsearch := search_of_ones demodByte bitctr (b := fun _ => true) (fun _ _ => rfl) n
  rwa [List.map_const', List.length_range, List.reverse_replicate] at hsearch

/-- From program start, after any number of ones: an open eye is read to the end. -/
theorem message_after_ones (demodByte : DemodByte) (bitctr : ℕ) {k : ℕ} (hk : 3 ≤ k)
    {payload : List DemodByte} (hrun : MaxRun 8 (transmission k payload)) {o : ℕ}
    (ho : bitStart o 0 ≤ 67) {d : ℕ} {b : ℕ → DataBit} (hones : ∀ m < d, b m = true)
    (heye : Eye o (transmission k payload) fun n => b (d + n)) :
    bytesReceived (Mealy.outputs rxStep (RxState.start demodByte bitctr)
      (((List.range (d + bitStart o (transmission k payload).length)).map b).map .sample)) =
        List.replicate (k - 2) syncByte ++ payload := by
  have hsilence : (List.range d).map b = List.replicate d true := by
    rw [List.eq_replicate_iff, List.length_map, List.length_range]
    refine ⟨rfl, fun y hy => ?_⟩
    obtain ⟨m, hm, rfl⟩ := List.mem_map.mp hy
    exact hones m (List.mem_range.mp hm)
  obtain ⟨hsearch, hholds, hnothing⟩ := search_ones demodByte bitctr d
  rw [List.range_add, List.map_append, List.map_map, hsilence, List.map_append,
    Mealy.outputs_append, bytesReceived_append, hnothing, List.nil_append]
  exact message_of_eye hsearch hholds (quiet_nil.ones d) hk hrun ho heye

/-! ## The thread -/

section

variable {A : Arith} (hA : A.Exact) {oscLut : Vector OscValue lutSize}
  (hlut : ∀ i (hi : i < lutSize), -32767 ≤ oscLut[i].toInt ∧ oscLut[i].toInt ≤ 32767)
  {x : ℕ → RtlSample} {debuglevel : BitVec 32} (hdebug : debuglevel &&& debugWrite = 0)
include hA hlut hdebug

/-- From program start: silence for 24 samples or more and then, from whatever twenty-fifth of a
sample on, three preamble bytes or more, a payload without a run of more than eight equal bits, and
two bits more. The thread delivers the message without two of the preamble bytes. -/
theorem message_of_keyed (hcos : CosineTable oscLut) (demodByte : DemodByte) (bitctr : ℕ)
    {k : ℕ} (hk : 3 ≤ k) {payload : List DemodByte} (hrun : MaxRun 8 (transmission k payload))
    {tail : List DataBit} (htail : 2 ≤ tail.length) {amp φ err : ℝ} (hamp : 2000 ≤ amp)
    (herr : 95 * err ≤ amp) {s : ℕ} (hs : 600 ≤ s)
    (hquiet : ∀ m < bitStart (712 + s) (transmission k payload).length,
      (x m).toInt.natAbs ≤ 3600)
    (hsilent : ∀ m, 25 * m < s → x m = 0)
    (hheard : ∀ m : ℕ, 25 * m < 576 * (transmission k payload).length + 712 + s →
      |((x m).toInt : ℝ) -
        (bitKeying (transmission k payload ++ tail)).signal amp φ (25 * m - s)| ≤ err) :
    let es := (List.range (bitStart (712 + s) (transmission k payload).length)).map
      fun m => DspEvent.sample debuglevel (x m)
    (∃ t, Mealy.final (dspStep A oscLut) (some (DspState.start demodByte bitctr)) es = some t) ∧
      decodedBytes A oscLut (DspState.start demodByte bitctr) es =
        List.replicate (k - 2) syncByte ++ payload := by
  intro es
  set bits := transmission k payload with hbits
  have hfirst : [true, true, false] <+: bits := by
    obtain ⟨l, rfl⟩ := Nat.exists_eq_add_of_le' hk
    rw [hbits, transmission_eq]
    exact ⟨_, rfl⟩
  have heye := eye_of_heard hcos htail hamp herr hheard hs hfirst
  -- the events of the receiver
  have hweak : ∀ m < bitStart (712 + s) bits.length, (discriminated oscLut x m).natAbs ≤ 6666 :=
    fun m hm => natAbs_discriminated_le hcos.range fun l hl => hquiet l (Nat.lt_of_le_of_lt hl hm)
  obtain ⟨t, ht, -, -, -, hreceived⟩ := receiver_stream hA hlut hdebug demodByte bitctr hweak
  -- silence and what comes after it
  have hsplit : bitStart (712 + s) bits.length =
      s / 25 + bitStart (712 + s % 25) bits.length := by
    unfold bitStart
    omega
  have hones : ∀ m < s / 25, (!decide (0 < discriminated oscLut x m)) = true := by
    intro m hm
    rw [discriminated_of_silent oscLut fun l hl _ => hsilent l (by omega)]
    rfl
  have hmessage := message_after_ones demodByte bitctr hk hrun (o := 712 + s % 25)
    (by unfold bitStart; omega) hones (heye.shift (by omega))
  refine ⟨⟨t, ht⟩, ?_⟩
  rw [decodedBytes, hreceived, hsplit]
  exact hmessage

end

/-! ## From any moment on -/

/-- The signal of a transmission that starts at any moment, in samples. -/
noncomputable def Keying.wave (sent : Keying) (amp φ start : ℝ) (m : ℕ) : ℝ :=
  (sent ⌊25 * (m - start) / 576⌋).elim 0 fun tone =>
    amp * Real.cos (tone.angle * (m - start) + φ)

/-- The bit that is sent at a sample does not change up to the next twenty-fifth. -/
theorem floor_bit_eq (m : ℕ) (start : ℝ) :
    ⌊25 * (m - start) / 576⌋ = (25 * m - ⌈25 * start⌉) / 576 := by
  have hlo := Int.le_ceil (25 * start)
  have hhi := Int.ceil_lt_add_one (25 * start)
  set s := ⌈25 * start⌉
  obtain ⟨q, hq⟩ : ∃ q, (25 * m - s) / 576 = q := ⟨_, rfl⟩
  have hge : ((576 * q : ℤ) : ℝ) ≤ (25 * m - s : ℤ) := by
    exact_mod_cast (by omega : 576 * q ≤ 25 * m - s)
  have hlt : ((25 * m - s + 1 : ℤ) : ℝ) ≤ (576 * (q + 1) : ℤ) := by
    exact_mod_cast (by omega : 25 * m - s + 1 ≤ 576 * (q + 1))
  push_cast at hge hlt
  rw [hq, Int.floor_eq_iff]
  constructor
  · rw [le_div_iff₀ (by norm_num)]
    linarith
  · rw [div_lt_iff₀ (by norm_num)]
    linarith

/-- It is close to that of one that starts at the next twenty-fifth, with another phase. -/
theorem abs_wave_sub_signal_le (sent : Keying) {amp : ℝ} (hamp : 0 ≤ amp) (φ start : ℝ) (m : ℕ) :
    |sent.wave amp φ start m - sent.signal amp
        (φ + 7 * Real.pi / 576 * (⌈25 * start⌉ - 25 * start)) (25 * m - ⌈25 * start⌉)| ≤
      amp * (Real.pi / 576) := by
  have hlo := Int.le_ceil (25 * start)
  have hhi := Int.ceil_lt_add_one (25 * start)
  have hpi := Real.pi_pos
  rw [Keying.wave, Keying.signal, floor_bit_eq]
  set s := ⌈25 * start⌉
  cases sent ((25 * m - s) / 576) with
  | none =>
    rw [Option.elim_none, Option.elim_none, sub_zero, abs_zero]
    positivity
  | some tone =>
    simp only [Option.elim_some]
    rw [← mul_sub, abs_mul, abs_of_nonneg hamp]
    refine mul_le_mul_of_nonneg_left ((Real.abs_cos_sub_cos_le _ _).trans ?_) hamp
    -- the tones are `16` parts of a turn on either side of `112`
    have hphase : tone.angle * (m - start) + φ - (partAngle (tone.units * (25 * m - s)) +
        (φ + 7 * Real.pi / 576 * (s - 25 * start))) =
          Real.pi / 576 * ((tone.units - 112) / 16 * (s - 25 * start)) := by
      rw [Tone.angle, tone.turns_eq]
      unfold partAngle
      push_cast
      ring
    rw [hphase, abs_mul, abs_of_pos (by positivity)]
    refine mul_le_of_le_one_right (by positivity) ?_
    rw [abs_le]
    cases tone <;> simp only [Tone.units] <;> push_cast <;> constructor <;> linarith

/-- What a station sends, in samples of the receiver from program start. -/
structure Broadcast where
  preambles : ℕ
  payload : List DemodByte
  /-- What is sent after the message. -/
  tail : List DataBit
  amp : ℝ
  phase : ℝ
  start : ℝ
  three_le : 3 ≤ preambles
  maxRun : MaxRun 8 (transmission preambles payload)
  two_le : 2 ≤ tail.length
  amp_ge : 2000 ≤ amp
  start_ge : 24 ≤ start

namespace Broadcast

/-- The bits of the message. -/
def bits (w : Broadcast) : List DataBit := transmission w.preambles w.payload

/-- What a receiver can deliver of the message: sync takes two preamble bytes. -/
def message (w : Broadcast) : List DemodByte :=
  List.replicate (w.preambles - 2) syncByte ++ w.payload

/-- The tones of the message and of the bits after it. -/
def keying (w : Broadcast) : Keying := bitKeying (w.bits ++ w.tail)

/-- The number of samples up to the end of the message. -/
noncomputable def duration (w : Broadcast) : ℕ :=
  bitStart (712 + ⌈25 * w.start⌉₊) w.bits.length

/-- Samples in which the transmission is heard: nothing before it, then within half a percent of the
amplitude, and never outside the dead band of the slicer. -/
structure Heard (w : Broadcast) (x : ℕ → RtlSample) : Prop where
  silent : ∀ m : ℕ, m < w.start → x m = 0
  near : ∀ m : ℕ, w.start ≤ m → m < w.start + 576 / 25 * (w.bits ++ w.tail).length →
    |((x m).toInt : ℝ) - w.keying.wave w.amp w.phase w.start m| ≤ w.amp / 200
  weak : ∀ m < w.duration, (x m).toInt.natAbs ≤ 3600

end Broadcast

section

variable {A : Arith} (hA : A.Exact) {oscLut : Vector OscValue lutSize}
  (hcos : CosineTable oscLut) {debuglevel : BitVec 32} (hdebug : debuglevel &&& debugWrite = 0)
  {w : Broadcast} {x : ℕ → RtlSample} (h : w.Heard x)
include hA hcos hdebug h

/-- The samples of a transmission give its message. -/
theorem message_of_heard (demodByte : DemodByte) (bitctr : ℕ) :
    let es := (List.range w.duration).map fun m => DspEvent.sample debuglevel (x m)
    (∃ t, Mealy.final (dspStep A oscLut) (some (DspState.start demodByte bitctr)) es = some t) ∧
      decodedBytes A oscLut (DspState.start demodByte bitctr) es = w.message := by
  have hpi := Real.pi_lt_d2
  have hstart := w.start_ge
  have hamp := w.amp_ge
  -- the beginning is put off to the next twenty-fifth of a sample
  have hceil : ((⌈25 * w.start⌉₊ : ℕ) : ℤ) = ⌈25 * w.start⌉ :=
    Int.natCast_ceil_eq_ceil (by linarith)
  have hlo := Nat.le_ceil (25 * w.start)
  have hhi := Nat.ceil_lt_add_one (a := 25 * w.start) (by linarith)
  have hsilent : ∀ m, 25 * m < ⌈25 * w.start⌉₊ → x m = 0 := by
    intro m hm
    refine h.silent m ?_
    have hlt := Nat.lt_ceil.mp hm
    push_cast at hlt
    linarith
  refine message_of_keyed hA hcos.range hdebug hcos demodByte bitctr w.three_le w.maxRun w.two_le
    hamp (φ := w.phase + 7 * Real.pi / 576 * (⌈25 * w.start⌉ - 25 * w.start))
    (s := ⌈25 * w.start⌉₊) (show 95 * (w.amp / 200 + w.amp * (Real.pi / 576)) ≤ w.amp by nlinarith)
    ?_ h.weak hsilent ?_
  · have : (600 : ℝ) ≤ ⌈25 * w.start⌉₊ := by linarith
    exact_mod_cast this
  · intro m hm
    have hclose := abs_wave_sub_signal_le w.keying (by linarith : 0 ≤ w.amp) w.phase w.start m
    rw [← hceil] at hclose ⊢
    rcases Nat.lt_or_ge (25 * m) ⌈25 * w.start⌉₊ with hearly | hlate
    · -- silence
      rw [hsilent m hearly, Keying.signal, bitKeying_neg _ (by omega), Option.elim_none,
        toInt_silent, Int.cast_zero, sub_zero, abs_zero]
      have := Real.pi_pos
      positivity
    · -- from there on the signal is close to the one that was sent
      have hbegun : w.start ≤ m := by
        have : (⌈25 * w.start⌉₊ : ℝ) ≤ 25 * m := by exact_mod_cast hlate
        linarith
      have hlasting : (m : ℝ) < w.start + 576 / 25 * (w.bits ++ w.tail).length := by
        have hm' : (25 * m : ℝ) < 576 * w.bits.length + 712 + ⌈25 * w.start⌉₊ := by
          exact_mod_cast hm
        have htail := w.two_le
        have hlength : (w.bits.length : ℝ) + 2 ≤ (w.bits ++ w.tail).length := by
          exact_mod_cast (by rw [List.length_append]; omega :
            w.bits.length + 2 ≤ (w.bits ++ w.tail).length)
        linarith
      exact (abs_sub_le _ _ _).trans (add_le_add (h.near m hbegun hlasting) hclose)

/-- **A transmission is received.** The samples of a transmission, after whatever time and with
whatever phase it begins, give its message without two of the preamble bytes, and more only if more
events follow. -/
theorem decodedBytes_transmission (demodByte : DemodByte) (bitctr : ℕ) (es : List DspEvent) :
    ∃ more, decodedBytes A oscLut (DspState.start demodByte bitctr)
        (((List.range w.duration).map fun m => .sample debuglevel (x m)) ++ es) =
          w.message ++ more ∧
      (es = [] → more = []) := by
  obtain ⟨⟨t, ht⟩, hmessage⟩ := message_of_heard hA hcos hdebug h demodByte bitctr
  refine ⟨decodedBytes A oscLut t es, ?_, ?_⟩
  · rw [decodedBytes_append ht, hmessage]
  · rintro rfl
    rfl

end

/-! ## A short transmission -/

/-- Four preamble bytes and one `Z`, from sample 24 on. -/
def broadcastZ : Broadcast where
  preambles := 4
  payload := [0x5A]
  tail := [true, true]
  amp := 2000
  phase := 0
  start := 24
  three_le := by decide
  maxRun := by
    unfold MaxRun
    decide
  two_le := le_rfl
  amp_ge := le_rfl
  start_ge := le_rfl

/-- A transmission of amplitude `2000` from sample 24 on, rounded down. -/
noncomputable def keyedSamples (sent : Keying) (m : ℕ) : RtlSample :=
  BitVec.ofInt 16 ⌊sent.wave 2000 0 24 m⌋

theorem keyedSamples_bounds (sent : Keying) (m : ℕ) :
    |((keyedSamples sent m).toInt : ℝ) - sent.wave 2000 0 24 m| ≤ 1 ∧
      (keyedSamples sent m).toInt.natAbs ≤ 3600 := by
  have hwave : |sent.wave 2000 0 24 m| ≤ 2000 := by
    rw [Keying.wave]
    cases sent ⌊25 * ((m : ℝ) - 24) / 576⌋ with
    | none => simp
    | some tone =>
      rw [Option.elim_some, abs_mul, abs_of_pos (by norm_num)]
      exact mul_le_of_le_one_right (by norm_num) (Real.abs_cos_le_one _)
  rw [abs_le] at hwave
  have hfloor := Int.floor_le (sent.wave 2000 0 24 m)
  have hlow : (-2000 : ℤ) ≤ ⌊sent.wave 2000 0 24 m⌋ := Int.le_floor.mpr (by exact_mod_cast hwave.1)
  have hhigh : ⌊sent.wave 2000 0 24 m⌋ ≤ 2000 := by exact_mod_cast hfloor.trans hwave.2
  have hvalue : (keyedSamples sent m).toInt = ⌊sent.wave 2000 0 24 m⌋ :=
    (toInt_ofInt_eq_iff (by decide)).mpr (by constructor <;> omega)
  rw [hvalue]
  refine ⟨?_, by omega⟩
  rw [abs_le]
  constructor <;> linarith [Int.lt_floor_add_one (sent.wave 2000 0 24 m)]

theorem heard_broadcastZ : broadcastZ.Heard (keyedSamples broadcastZ.keying) where
  silent m hm := by
    have hnegative : ⌊25 * ((m : ℝ) - 24) / 576⌋ < 0 := by
      have hm' : (m : ℝ) < 24 := hm
      rw [Int.floor_lt]
      push_cast
      linarith
    rw [keyedSamples, Keying.wave, Broadcast.keying, bitKeying_neg _ hnegative, Option.elim_none,
      Int.floor_zero]
    rfl
  near m _ _ := by
    have hnear := (keyedSamples_bounds broadcastZ.keying m).1
    change _ ≤ (2000 : ℝ) / 200
    exact hnear.trans (by norm_num)
  weak m _ := (keyedSamples_bounds broadcastZ.keying m).2

/-- The message of `broadcastZ`. -/
theorem decodedBytes_transmission_Z :
    decodedBytes .checked (initOsc Real.cos) (DspState.start 0 0)
      (((List.range broadcastZ.duration).map fun m =>
        .sample 0 (keyedSamples broadcastZ.keying m)) ++ []) = [syncByte, syncByte, 0x5A] := by
  have hcos : CosineTable (initOsc Real.cos) := cosineTable_initOsc (by simp)
  obtain ⟨more, hmore, hnone⟩ := decodedBytes_transmission checked_exact hcos
    (show (0 : BitVec 32) &&& debugWrite = 0 by decide) heard_broadcastZ 0 0 []
  rw [hmore, hnone rfl]
  rfl

end PiWxRx
