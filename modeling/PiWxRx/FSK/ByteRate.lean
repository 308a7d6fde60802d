import PiWxRx.General.Spacing
import PiWxRx.FSK.Framing

/-!
# The byte rate under noise

How fast the receiver can deliver, whatever bits the demodulator produces and whenever
`DSPClearSync` is called. An edge and a new sync both put the clock to mid-bit time, so after
either the next bit time is `13` samples from the sample before it (`bitTimeSpacing`). A delivered
byte needs eight fresh bits: `bitctr` counts them in byte sync, and before byte sync the zeros of
the cleared register have to be shifted out first (`bitsToGo`). Together a byte takes at least
`104` samples (`byteRxSpacing`).
-/

namespace PiWxRx

open Mealy

/-- The samples an event consumes: `DSPClearSync` consumes none. -/
def RxEvent.samples : RxEvent → ℕ
  | .sample _ => 1
  | .clearSync => 0

/-- Event `i` is a bit time. -/
def BitTimeAt (s : RxState) (es : List RxEvent) (i : ℕ) : Prop :=
  MarkedAt rxStep (fun out => out.bitTime.isSome) s es i

/-- Event `i` calls `byte_rx_func`. -/
def ByteRxAt (s : RxState) (es : List RxEvent) (i : ℕ) : Prop :=
  MarkedAt rxStep (fun out => out.byteRx.isSome) s es i

instance (s : RxState) (es : List RxEvent) (i : ℕ) : Decidable (BitTimeAt s es i) :=
  inferInstanceAs (Decidable (MarkedAt _ _ _ _ _))

instance (s : RxState) (es : List RxEvent) (i : ℕ) : Decidable (ByteRxAt s es i) :=
  inferInstanceAs (Decidable (MarkedAt _ _ _ _ _))

/-- The samples consumed after event `i`, up to and with event `j`. -/
def samplesBetween (es : List RxEvent) (i j : ℕ) : ℕ :=
  (demodBits ((es.take (j + 1)).drop (i + 1))).length

theorem sum_map_samples (es : List RxEvent) :
    (es.map RxEvent.samples).sum = (demodBits es).length := by
  induction es with
  | nil => rfl
  | cons e es ih =>
    rw [List.map_cons, List.sum_cons, ih]
    cases e with
    | sample b =>
      rw [demodBits_cons_sample, List.length_cons, RxEvent.samples, Nat.add_comm]
    | clearSync => exact Nat.zero_add _

/-! ## From one bit time to the next -/

/-- The calls of `RunBitClock` up to the next bit time, counted to `13` at most: an edge may come
at any of them. -/
def BitClock.callsToGo (clock : BitClock) : ℕ := min (clock.divisor + 1) 13

theorem BitClock.callsToGo_le (clock : BitClock) : clock.callsToGo ≤ 13 := Nat.min_le_right _ _

theorem callsToGo_midBit : BitClock.midBit.callsToGo = 12 := by decide

/-- A call takes off one at most. -/
theorem callsToGo_runBitClock (clock : BitClock) (isEdge : Bool) :
    clock.callsToGo ≤ 1 + (runBitClock clock isEdge).1.callsToGo := by
  cases isEdge with
  | true =>
    rw [runBitClock_edge, callsToGo_midBit]
    exact clock.callsToGo_le
  | false =>
    simp only [runBitClock, BitClock.callsToGo, Bool.false_eq_true, ↓reduceIte]
    split_ifs with hd hw
    · omega
    · omega
    · simp only
      omega

/-- A bit time is the last call of the count, and the count starts over. -/
theorem callsToGo_of_bitTime {clock : BitClock} {isEdge : Bool}
    (h : (runBitClock clock isEdge).2 = true) :
    clock.callsToGo = 1 ∧ (runBitClock clock isEdge).1.callsToGo = 13 := by
  cases isEdge with
  | true => simp at h
  | false =>
    have hd : clock.divisor = 0 := by
      by_contra hd
      simp [runBitClock, hd] at h
    simp only [runBitClock, BitClock.callsToGo, Bool.false_eq_true, hd, ↓reduceIte]
    split_ifs with hw
    · exact ⟨rfl, rfl⟩
    · exact ⟨rfl, rfl⟩

/-- One sample in sync, seen from the clock. -/
theorem callsToGo_sampleStep (edge : EdgeState) (clock : BitClock) (b : DataBit) :
    clock.callsToGo ≤ 1 + (sampleStep (edge, clock) b).1.2.callsToGo ∧
      ((sampleStep (edge, clock) b).2.isSome →
        clock.callsToGo = 1 ∧ (sampleStep (edge, clock) b).1.2.callsToGo = 13) := by
  refine ⟨callsToGo_runBitClock clock _, fun h => ?_⟩
  have hbit : (runBitClock clock (edgeDetect edge b false).2).2 = true := by
    simpa [sampleStep] using h
  exact callsToGo_of_bitTime hbit

/-! ## From one byte to the next -/

/-- The bits the assembler needs before it can deliver the next byte. Before byte sync these are
the zeros at the bottom of the register: `SYNC_BYTE` ends in a one. -/
def ByteAssembler.bitsToGo (a : ByteAssembler) : ℕ :=
  if a.bytesync = false then (lsbFirst a.demodByte).findIdx id else bitsPerByte - a.bitctr

theorem ByteAssembler.bitsToGo_le (a : ByteAssembler) : a.bitsToGo ≤ bitsPerByte := by
  unfold bitsToGo
  split_ifs
  · exact List.findIdx_le_length.trans_eq (length_lsbFirst _)
  · exact Nat.sub_le _ _

/-- A bit shifted in takes one zero off the bottom of the register. -/
theorem findIdx_lsbFirst_shiftIn (r : DemodByte) (b : DataBit) :
    (lsbFirst r).findIdx id ≤ 1 + (lsbFirst (shiftIn r b)).findIdx id := by
  rw [lsbFirst_shiftIn]
  cases lsbFirst r with
  | nil => simp
  | cons x xs =>
    rw [List.drop_one, List.tail_cons, List.findIdx_append, List.findIdx_cons]
    have hle : xs.findIdx id ≤ xs.length := List.findIdx_le_length
    cases x with
    | true => simp
    | false =>
      simp only [id, cond_false]
      split_ifs <;> omega

/-- A bit takes off one at most, and a byte is delivered on the last one; then eight more bits
are needed. -/
theorem bitsToGo_receiveBit (a : ByteAssembler) (b : DataBit) :
    a.bitsToGo ≤ 1 + (receiveBit a b).1.bitsToGo ∧
      ((receiveBit a b).2.isSome → a.bitsToGo ≤ 1 ∧
        (receiveBit a b).1.bitsToGo = bitsPerByte) := by
  have hshift := findIdx_lsbFirst_shiftIn a.demodByte b
  simp only [receiveBit]
  split_ifs with hsync hbyte hctr
  · -- byte sync is found: the register ends in a one
    rw [hbyte, show (lsbFirst syncByte).findIdx id = 0 by decide] at hshift
    simp only [ByteAssembler.bitsToGo, hsync, ↓reduceIte]
    exact ⟨by omega, fun _ => ⟨hshift, rfl⟩⟩
  · simpa [ByteAssembler.bitsToGo, hsync] using hshift
  · simp only [ByteAssembler.bitsToGo, if_neg hsync, hctr, bitsPerByte]
    exact ⟨by omega, fun _ => ⟨by omega, trivial⟩⟩
  · simp only [ByteAssembler.bitsToGo, if_neg hsync]
    exact ⟨by omega, fun h => absurd h (by simp)⟩

/-- The assembler keeps its bytes eight bits apart. -/
def bitSpacing : Spacing receiveBit (fun _ => 1) Option.isSome bitsPerByte where
  toGo := ByteAssembler.bitsToGo
  toGo_le a b := (bitsToGo_receiveBit a b).1
  toGo_le_of_mark a b h := ((bitsToGo_receiveBit a b).2 h).1
  le_toGo_of_mark a b h := ((bitsToGo_receiveBit a b).2 h).2.ge

/-! ## The receiver -/

/-- The samples the receiver needs up to an event that comes `k` bit times apart at least. -/
def RxState.samplesToGo (bitsToGo : ByteAssembler → ℕ) (k : ℕ) (s : RxState) : ℕ :=
  if s.insync then 13 * (bitsToGo s.bytes - 1) + s.clock.callsToGo else 13 * k

section

variable {mark : Option DemodByte → Bool} {markRx : RxOut → Bool} {k : ℕ}

/-- An event takes off no more than the samples it consumes, and a marked one leaves nothing. A
new sync clears the assembler, so it costs `k` bits again. -/
theorem samplesToGo_rxStep (hk : 0 < k) (sp : Spacing receiveBit (fun _ => 1) mark k)
    (hle : ∀ a, sp.toGo a ≤ k) (hfresh : sp.toGo ByteAssembler.fresh = k)
    (hnone : markRx { bitTime := none, byteRx := none } = false)
    (hsome : ∀ b byte, markRx { bitTime := some b, byteRx := byte } = mark byte)
    (s : RxState) (e : RxEvent) :
    s.samplesToGo sp.toGo k ≤ e.samples + (rxStep s e).1.samplesToGo sp.toGo k ∧
      (markRx (rxStep s e).2 = true → s.samplesToGo sp.toGo k ≤ e.samples ∧
        13 * k ≤ (rxStep s e).1.samplesToGo sp.toGo k) := by
  have htop : s.samplesToGo sp.toGo k ≤ 13 * k := by
    have hbits := hle s.bytes
    have hcalls := s.clock.callsToGo_le
    unfold RxState.samplesToGo
    split_ifs <;> omega
  cases e with
  | clearSync =>
    refine ⟨?_, fun h => absurd h (by simp [rxStep, hnone])⟩
    simpa [rxStep, dspClearSync, RxState.samplesToGo, RxEvent.samples] using htop
  | sample b =>
    rw [rxStep, RxEvent.samples]
    cases hs : s.insync with
    | false =>
      cases hb : (syncCorrelator s.correlator b).1 with
      | false =>
        -- still searching
        rw [rxSample_search hs hb]
        refine ⟨?_, fun h => absurd h (by simp [hnone])⟩
        simp only [RxState.samplesToGo, hs, Bool.false_eq_true, ↓reduceIte]
        omega
      | true =>
        -- the assembler starts afresh, at mid-bit time
        rw [rxSample_sync hs hb]
        refine ⟨htop.trans ?_, fun h => absurd h (by simp [hnone])⟩
        simp only [RxState.samplesToGo, ↓reduceIte, hfresh, callsToGo_midBit]
        omega
    | true =>
      obtain ⟨hcalls, hbitTime⟩ := callsToGo_sampleStep s.edge s.clock b
      rw [rxSample_inSync hs]
      simp only [RxState.samplesToGo, hs, ↓reduceIte]
      cases hbit : (sampleStep (s.edge, s.clock) b).2 with
      | none =>
        refine ⟨?_, fun h => absurd h (by simp [hnone])⟩
        simp only [Option.toList_none, final_nil]
        omega
      | some bit =>
        obtain ⟨hone, hnext⟩ := hbitTime (by rw [hbit]; rfl)
        have hbits := sp.toGo_le s.bytes bit
        simp only [Option.toList_some, final_cons, final_nil, Option.bind_some, hsome]
        refine ⟨by omega, fun h => ?_⟩
        have hlast := sp.toGo_le_of_mark s.bytes bit h
        have hagain := sp.le_toGo_of_mark s.bytes bit h
        exact ⟨by omega, by omega⟩

/-- What the assembler keeps `k` bits apart, the receiver keeps `13 * k` samples apart. -/
def rxSpacing (hk : 0 < k) (sp : Spacing receiveBit (fun _ => 1) mark k)
    (hle : ∀ a, sp.toGo a ≤ k) (hfresh : sp.toGo ByteAssembler.fresh = k)
    (hnone : markRx { bitTime := none, byteRx := none } = false)
    (hsome : ∀ b byte, markRx { bitTime := some b, byteRx := byte } = mark byte) :
    Spacing rxStep RxEvent.samples markRx (13 * k) where
  toGo := RxState.samplesToGo sp.toGo k
  toGo_le s e := (samplesToGo_rxStep hk sp hle hfresh hnone hsome s e).1
  toGo_le_of_mark s e h := ((samplesToGo_rxStep hk sp hle hfresh hnone hsome s e).2 h).1
  le_toGo_of_mark s e h := ((samplesToGo_rxStep hk sp hle hfresh hnone hsome s e).2 h).2

end

/-- Every bit counts. -/
def everyBitSpacing : Spacing receiveBit (fun _ => 1) (fun _ => true) 1 where
  toGo _ := 1
  toGo_le _ _ := Nat.le_add_right 1 1
  toGo_le_of_mark _ _ _ := le_rfl
  le_toGo_of_mark _ _ _ := le_rfl

/-- Bit times are `13` samples apart. -/
def bitTimeSpacing :
    Spacing rxStep RxEvent.samples (fun out => out.bitTime.isSome) (13 * 1) :=
  rxSpacing Nat.one_pos everyBitSpacing (fun _ => le_rfl) rfl rfl fun _ _ => rfl

/-- Bytes are eight bit times apart. -/
def byteRxSpacing :
    Spacing rxStep RxEvent.samples (fun out => out.byteRx.isSome) (13 * bitsPerByte) :=
  rxSpacing (by decide) bitSpacing ByteAssembler.bitsToGo_le (by decide) rfl fun _ _ => rfl

/-- **Bounded byte rate.** Whatever the receiver demodulates and wherever sync is cleared, two
bit times are at least `13` samples apart and two calls of `byte_rx_func` at least `104`. -/
theorem byteRate_bounded (s : RxState) (es : List RxEvent) {i j : ℕ} (hij : i < j) :
    (BitTimeAt s es i → BitTimeAt s es j → 13 ≤ samplesBetween es i j) ∧
      (ByteRxAt s es i → ByteRxAt s es j → 104 ≤ samplesBetween es i j) := by
  rw [samplesBetween, ← sum_map_samples]
  exact ⟨bitTimeSpacing.le_weight hij, byteRxSpacing.le_weight hij⟩

/-- Two bytes in a row, the second one all zeros. -/
theorem byteRate_bounded_two_bytes :
    let s : RxState :=
      { RxState.start 0 7 with insync := true, bytes := ⟨true, 0, 7⟩ }
    let es : List RxEvent := List.replicate 192 (.sample false)
    (BitTimeAt s es 0 ∧ BitTimeAt s es 191 ∧ 13 ≤ samplesBetween es 0 191) ∧
      ByteRxAt s es 0 ∧ ByteRxAt s es 191 ∧ 104 ≤ samplesBetween es 0 191 := by
  intro s es
  obtain ⟨hbits, hbytes⟩ := byteRate_bounded s es (show 0 < 191 by decide)
  have hbit : BitTimeAt s es 0 ∧ BitTimeAt s es 191 := by decide +kernel
  have hbyte : ByteRxAt s es 0 ∧ ByteRxAt s es 191 := by decide +kernel
  exact ⟨⟨hbit.1, hbit.2, hbits hbit.1 hbit.2⟩, hbyte.1, hbyte.2, hbytes hbyte.1 hbyte.2⟩

end PiWxRx
