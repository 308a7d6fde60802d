import Mathlib.Data.List.ReduceOption
import PiWxRx.FSK.SyncCorrelator
import PiWxRx.FSK.BitClock

/-!
# The sync, bit and byte part of the demodulator thread

The part of `dsp_threads_fn` (`FSKdsp.c`) that turns demodulated bits into received bytes: the
sync correlator runs until it finds the preamble, then the bit clock samples one bit in about
23, and `receiveBit` shifts the sampled bits into bytes. `DSPClearSync` may be called between
any two samples.

`rxStep` is one iteration of the thread's loop or one call of `DSPClearSync`, as a Mealy machine
over `RxEvent`. While in sync the machine splits into the bit sampler and the byte assembler
(`run_inSync`); while searching it only moves the correlator (`rxSample_search`).
-/

namespace PiWxRx

/-- The variables of the byte assembler: the global `bytesync` and the locals `demod_byte` and
`bitctr`. -/
structure ByteAssembler where
  /-- `bytesync`: byte level sync. -/
  bytesync : Bool
  /-- `demod_byte`: the demodulated byte. -/
  demodByte : DemodByte
  /-- `bitctr`: the bit counter. -/
  bitctr : ℕ
  deriving DecidableEq, Repr

/-- The assembler right after sync was declared. -/
def ByteAssembler.fresh : ByteAssembler := { bytesync := false, demodByte := 0, bitctr := 0 }

/-- `demod_byte = (demod_byte >> 1) | ((demod_bit & 1) << 7)`. -/
def shiftIn (demodByte : DemodByte) (demodBit : DataBit) : DemodByte :=
  (demodByte >>> 1) ||| (BitVec.ofNat 8 demodBit.toNat &&& 1) <<< 7

/-- The body of `if (bit_time)`: receive the bit and sync to the data. The answer is the
argument of `byte_rx_func`, if it is called. -/
def receiveBit (a : ByteAssembler) (demodBit : DataBit) : ByteAssembler × Option DemodByte :=
  let demodByte := shiftIn a.demodByte demodBit
  if a.bytesync = false then
    if demodByte = syncByte then
      ({ bytesync := true, demodByte, bitctr := 0 }, some demodByte)
    else
      ({ a with demodByte }, none)
  else if a.bitctr = bitsPerByte - 1 then
    ({ a with demodByte, bitctr := 0 }, some demodByte)
  else
    ({ a with demodByte, bitctr := a.bitctr + 1 }, none)

/-- The receiver variables of `dsp_threads_fn` behind the demodulator. -/
structure RxState where
  /-- `insync`: the receiver is in sync. -/
  insync : Bool
  /-- The correlator of `SyncCorrelator`. -/
  correlator : Correlator
  /-- The globals of `EdgeDetect`. -/
  edge : EdgeState
  /-- The globals of `RunBitClock`. -/
  clock : BitClock
  /-- The variables of the byte assembler. -/
  bytes : ByteAssembler

/-- Program start. The locals `demod_byte` and `bitctr` are uninitialised. -/
def RxState.start (demodByte : DemodByte) (bitctr : ℕ) : RxState where
  insync := false
  correlator := Correlator.zero
  edge := { currentSense := false, xingcnt := 0 }
  clock := { divisor := 0, swallowCtr := 0 }
  bytes := { bytesync := false, demodByte, bitctr }

/-- What one event makes visible: the bit sampled, if the event is a bit time, and the byte
passed to `byte_rx_func`, if it is called. -/
structure RxOut where
  /-- The bit sampled at a bit time. -/
  bitTime : Option DataBit
  /-- The argument of `byte_rx_func`. -/
  byteRx : Option DemodByte
  deriving DecidableEq, Repr

/-- One iteration of the loop of `dsp_threads_fn`, from the demodulated bit on. -/
def rxSample (s : RxState) (demodBit : DataBit) : RxState × RxOut :=
  if s.insync = false then
    -- not in sync yet
    let s := { s with bytes := { s.bytes with bytesync := false } }
    let (insync, correlator) := syncCorrelator s.correlator demodBit
    let s := { s with insync, correlator }
    if insync then
      -- initialize edge detector and bit clock
      ({ s with
          edge := (edgeDetect s.edge demodBit true).1
          clock := (runBitClock s.clock true).1
          bytes := { s.bytes with demodByte := 0, bitctr := 0 } },
        { bitTime := none, byteRx := none })
    else
      (s, { bitTime := none, byteRx := none })
  else
    -- we are in sync, gather the bits up
    let ((edge, clock), bitTime) := sampleStep (s.edge, s.clock) demodBit
    let s := { s with edge, clock }
    match bitTime with
    | none => (s, { bitTime := none, byteRx := none })
    | some bit =>
      let (bytes, byteRx) := receiveBit s.bytes bit
      ({ s with bytes }, { bitTime := some bit, byteRx })

/-- `DSPClearSync`. -/
def dspClearSync (s : RxState) : RxState := { s with insync := false }

/-- What happens to the receiver: a demodulated bit arrives, or `DSPClearSync` is called. -/
inductive RxEvent where
  | sample (demodBit : DataBit)
  | clearSync
  deriving DecidableEq, Repr

/-- One event. -/
def rxStep (s : RxState) : RxEvent → RxState × RxOut
  | .sample demodBit => rxSample s demodBit
  | .clearSync => (dspClearSync s, { bitTime := none, byteRx := none })

/-- The demodulated bits among the events. -/
def RxEvent.demodBit? : RxEvent → Option DataBit
  | .sample demodBit => some demodBit
  | .clearSync => none

/-- The demodulated bits fed to the receiver by a run of events. -/
def demodBits (es : List RxEvent) : List DataBit := es.filterMap RxEvent.demodBit?

/-- The bits sampled at bit times. -/
def sampledBits (outs : List RxOut) : List DataBit := outs.filterMap RxOut.bitTime

/-- The bytes passed to `byte_rx_func`. -/
def bytesReceived (outs : List RxOut) : List DemodByte := outs.filterMap RxOut.byteRx

/-! ## One event -/

/-- Searching, a bit that completes the pattern starts an episode. -/
theorem rxSample_sync {s : RxState} (hs : s.insync = false) {b : DataBit}
    (hb : (syncCorrelator s.correlator b).1 = true) :
    rxSample s b =
      ({ insync := true
         correlator := s.correlator.push b
         edge := { currentSense := b, xingcnt := 0 }
         clock := BitClock.midBit
         bytes := ByteAssembler.fresh },
        { bitTime := none, byteRx := none }) := by
  rw [syncCorrelator_fst] at hb
  simp [rxSample, hs, syncCorrelator, hb, ByteAssembler.fresh]

/-- Searching, any other bit only moves the correlator. -/
theorem rxSample_search {s : RxState} (hs : s.insync = false) {b : DataBit}
    (hb : (syncCorrelator s.correlator b).1 = false) :
    rxSample s b =
      ({ s with
          correlator := s.correlator.push b
          bytes := { s.bytes with bytesync := false } },
        { bitTime := none, byteRx := none }) := by
  rw [syncCorrelator_fst] at hb
  simp [rxSample, hs, syncCorrelator, hb]

/-- In sync, a bit moves the edge detector and the clock, and the byte assembler at bit times. -/
theorem rxSample_inSync {s : RxState} (hs : s.insync = true) (b : DataBit) :
    rxSample s b =
      ({ s with
          edge := (sampleStep (s.edge, s.clock) b).1.1
          clock := (sampleStep (s.edge, s.clock) b).1.2
          bytes := Mealy.final receiveBit s.bytes (sampleStep (s.edge, s.clock) b).2.toList },
        { bitTime := (sampleStep (s.edge, s.clock) b).2
          byteRx := (sampleStep (s.edge, s.clock) b).2.bind fun bit =>
            (receiveBit s.bytes bit).2 }) := by
  simp only [rxSample, hs, Bool.true_eq_false, ↓reduceIte]
  cases (sampleStep (s.edge, s.clock) b).2 <;> simp

/-- The insync flag after a sample. -/
theorem insync_rxSample (s : RxState) (b : DataBit) :
    (rxSample s b).1.insync = (s.insync || (syncCorrelator s.correlator b).1) := by
  cases hs : s.insync with
  | true => rw [rxSample_inSync hs, hs]; rfl
  | false =>
    cases hb : (syncCorrelator s.correlator b).1 with
    | true => rw [rxSample_sync hs hb]; rfl
    | false => rw [rxSample_search hs hb]; exact hs

/-- A byte is only ever delivered by a sample that arrives in sync. -/
theorem insync_of_byteRx {s : RxState} {e : RxEvent} {x : DemodByte}
    (h : (rxStep s e).2.byteRx = some x) : s.insync = true ∧ ∃ b, e = .sample b := by
  cases e with
  | clearSync => simp [rxStep] at h
  | sample b =>
    refine ⟨?_, b, rfl⟩
    by_contra hs
    rw [Bool.not_eq_true] at hs
    cases hb : (syncCorrelator s.correlator b).1 with
    | true => simp [rxStep, rxSample_sync hs hb] at h
    | false => simp [rxStep, rxSample_search hs hb] at h

/-- Clearing sync while searching changes nothing. -/
theorem dspClearSync_of_search {s : RxState} (hs : s.insync = false) : dspClearSync s = s := by
  rw [dspClearSync, ← hs]

/-! ## Runs -/

@[simp] theorem demodBits_nil : demodBits [] = [] := rfl

@[simp] theorem demodBits_cons_sample (b : DataBit) (es : List RxEvent) :
    demodBits (.sample b :: es) = b :: demodBits es := rfl

@[simp] theorem demodBits_append (es fs : List RxEvent) :
    demodBits (es ++ fs) = demodBits es ++ demodBits fs := List.filterMap_append

@[simp] theorem demodBits_map_sample (bs : List DataBit) :
    demodBits (bs.map .sample) = bs := by
  induction bs with
  | nil => rfl
  | cons b bs ih => rw [List.map_cons, demodBits_cons_sample, ih]

@[simp] theorem bytesReceived_append (os ps : List RxOut) :
    bytesReceived (os ++ ps) = bytesReceived os ++ bytesReceived ps := List.filterMap_append

/-- A searching receiver stays in search and delivers nothing as long as no bit completes the
pattern; its correlator then holds the new bits in front of the old history. -/
theorem search_of_no_match {s : RxState} (hs : s.insync = false) {hist : List DataBit}
    (hc : s.correlator.Holds hist) {es : List RxEvent}
    (h : ∀ n, 1 ≤ n → n ≤ (demodBits es).length →
      ¬ TapsMatch (((demodBits es).take n).reverse ++ hist)) :
    (Mealy.final rxStep s es).insync = false ∧
      (Mealy.final rxStep s es).correlator.Holds ((demodBits es).reverse ++ hist) ∧
      bytesReceived (Mealy.outputs rxStep s es) = [] := by
  -- a sample moves into the history, and the bits before it shrink by one
  induction es generalizing s hist with
  | nil => exact ⟨hs, hc, rfl⟩
  | cons e es ih =>
    cases e with
    | clearSync =>
      rw [Mealy.final_cons, Mealy.outputs_cons]
      change (Mealy.final rxStep (dspClearSync s) es).insync = false ∧ _
      simp only [rxStep, dspClearSync_of_search hs]
      exact ih hs hc h
    | sample b =>
      have hb : (syncCorrelator s.correlator b).1 = false := by
        rw [← Bool.not_eq_true, syncCorrelator_eq_true_iff hc]
        simpa using h 1 le_rfl (by simp)
      have hc' : (rxSample s b).1.correlator.Holds (b :: hist) := by
        rw [rxSample_search hs hb]
        exact Correlator.holds_push hc b
      have hrun := ih (by rw [rxSample_search hs hb]; exact hs) hc'
        (fun n h1 hn => by simpa using h (n + 1) (by omega) (by simpa using hn))
      refine ⟨hrun.1, ?_, ?_⟩
      · simpa [rxStep] using hrun.2.1
      · rw [Mealy.outputs_cons, rxStep, bytesReceived, List.filterMap_cons_none]
        · exact hrun.2.2
        · rw [rxSample_search hs hb]

/-- From program start, a receiver that gets ones from sample 322 on stays in search. -/
theorem search_of_ones (demodByte : DemodByte) (bitctr : ℕ) {b : ℕ → DataBit}
    (hones : ∀ m, 322 ≤ m → b m = true) (n : ℕ) :
    let es := ((List.range n).map b).map RxEvent.sample
    let s := Mealy.final rxStep (RxState.start demodByte bitctr) es
    s.insync = false ∧ s.correlator.Holds (((List.range n).map b).reverse ++ []) ∧
      bytesReceived (Mealy.outputs rxStep (RxState.start demodByte bitctr) es) = [] := by
  intro es s
  have hbits : demodBits es = (List.range n).map b := demodBits_map_sample _
  rw [← hbits]
  refine search_of_no_match rfl Correlator.holds_zero fun m _ _ => ?_
  rw [hbits, ← List.map_take, List.take_range, List.append_nil]
  exact not_tapsMatch_of_ones hones _

/-- Conversely, while the receiver stays in search no bit completes the pattern. -/
theorem no_match_of_search {s : RxState} {hist : List DataBit} (hc : s.correlator.Holds hist)
    {es : List RxEvent} (h : ∀ p, p <+: es → (Mealy.final rxStep s p).insync = false) :
    ∀ n, 1 ≤ n → n ≤ (demodBits es).length →
      ¬ TapsMatch (((demodBits es).take n).reverse ++ hist) := by
  induction es generalizing s hist with
  | nil =>
    intro n h1 hn
    simp only [demodBits_nil, List.length_nil] at hn
    omega
  | cons e es ih =>
    have hs : s.insync = false := h [] List.nil_prefix
    have htail : ∀ p, p <+: es → (Mealy.final rxStep (rxStep s e).1 p).insync = false :=
      fun p hp => h (e :: p) (List.cons_prefix_cons.mpr ⟨rfl, hp⟩)
    cases e with
    | clearSync =>
      simp only [rxStep, dspClearSync_of_search hs] at htail
      exact ih hc htail
    | sample b =>
      have hb : (syncCorrelator s.correlator b).1 = false := by
        have hnext := htail [] List.nil_prefix
        rw [Mealy.final_nil, rxStep, insync_rxSample, hs, Bool.false_or] at hnext
        exact hnext
      intro n h1 hn
      obtain ⟨n, rfl⟩ := Nat.exists_eq_add_of_le' h1
      rcases Nat.eq_zero_or_pos n with rfl | hpos
      · -- the first bit: the correlator answered `FALSE`
        rw [← Bool.not_eq_true, syncCorrelator_eq_true_iff hc] at hb
        simpa using hb
      · have hc' : (rxStep s (.sample b)).1.correlator.Holds (b :: hist) := by
          rw [rxStep, rxSample_search hs hb]
          exact Correlator.holds_push hc b
        simpa using ih hc' htail n hpos (by simpa using hn)

/-- In sync, a run of samples stays in sync and splits into the bit sampler and the byte
assembler: the sampler sees every demodulated bit, the assembler sees the bits sampled. -/
theorem run_inSync {s : RxState} (hs : s.insync = true) (bs : List DataBit) :
    (Mealy.final rxStep s (bs.map .sample)).insync = true ∧
      sampledBits (Mealy.outputs rxStep s (bs.map .sample)) =
        (Mealy.outputs sampleStep (s.edge, s.clock) bs).reduceOption ∧
      bytesReceived (Mealy.outputs rxStep s (bs.map .sample)) =
        (Mealy.outputs receiveBit s.bytes
          (Mealy.outputs sampleStep (s.edge, s.clock) bs).reduceOption).reduceOption := by
  induction bs generalizing s with
  | nil => exact ⟨hs, rfl, rfl⟩
  | cons b bs ih =>
    have hstep := rxSample_inSync hs b
    have hs' : (rxSample s b).1.insync = true := by rw [hstep]; exact hs
    have hrun := ih hs'
    rw [List.map_cons, Mealy.final_cons, Mealy.outputs_cons, Mealy.outputs_cons]
    refine ⟨hrun.1, ?_, ?_⟩
    · -- the bits sampled: this one, if it is a bit time, and those of the rest
      have h := hrun.2.1
      rw [hstep] at h
      cases hbit : (sampleStep (s.edge, s.clock) b).2 with
      | none => simpa [rxStep, hstep, hbit, sampledBits] using h
      | some bit => simpa [rxStep, hstep, hbit, sampledBits] using h
    · -- the bytes: the assembler only moves at a bit time
      have h := hrun.2.2
      rw [hstep] at h
      cases hbit : (sampleStep (s.edge, s.clock) b).2 with
      | none => simpa [rxStep, hstep, hbit, bytesReceived] using h
      | some bit =>
        rw [hbit] at h
        cases hbyte : (receiveBit s.bytes bit).2 with
        | none => simpa [rxStep, hstep, hbit, hbyte, bytesReceived] using h
        | some x => simpa [rxStep, hstep, hbit, hbyte, bytesReceived] using h

end PiWxRx
