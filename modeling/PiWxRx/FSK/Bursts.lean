import PiWxRx.FSK.Decoding

/-!
# A session of several transmissions

The application clears sync after a message to get ready for the next one. What the receiver has in
its correlator, its byte assembler and its clock by then depends on all that came before, but a
gap of `345` quiet samples, fifteen bit times, hides it from the taps: then every burst is decoded
as the first one was (`bytesReceived_bursts`), whatever noise the receiver picked up between the end
of a message and the clear.
-/

namespace PiWxRx

/-! ## Behind a quiet gap -/

/-- Behind a gap as long as the taps reach, only the newer bits count. -/
theorem tapsMatch_append_gap {bits hist : List DataBit} {gap : ℕ} (hgap : bitDivisor * 15 ≤ gap)
    (hbits : bits ≠ []) :
    TapsMatch (bits ++ (List.replicate gap false ++ hist)) ↔ TapsMatch bits := by
  have hpos := List.length_pos_iff.mpr hbits
  refine forall₂_congr fun i hi => ?_
  have htap : bitDivisor * i ≤ bitDivisor * 15 := Nat.mul_le_mul_left _ (Nat.le_of_lt_succ hi)
  rcases Nat.lt_or_ge (bitDivisor * i) bits.length with hlt | hge
  · rw [List.getD_append _ _ _ _ hlt]
  · -- a tap in the gap reads the zero a tap before the first bit reads
    rw [List.getD_append_right _ _ _ _ hge,
      List.getD_append _ _ _ _ (by rw [List.length_replicate]; omega),
      List.getD_eq_default _ _ hge, List.getD_replicate _ (by omega)]

/-- A searching receiver stays in search through a gap and delivers nothing. -/
theorem search_gap {s : RxState} (hs : s.insync = false) {hist : List DataBit}
    (hc : s.correlator.Holds hist) (gap : ℕ) :
    let t := Mealy.final rxStep s ((List.replicate gap false).map .sample)
    t.insync = false ∧ t.correlator.Holds (List.replicate gap false ++ hist) ∧
      bytesReceived (Mealy.outputs rxStep s ((List.replicate gap false).map .sample)) = [] := by
  have hno : ∀ n, 1 ≤ n → n ≤ (demodBits ((List.replicate gap false).map .sample)).length →
      ¬ TapsMatch (((demodBits ((List.replicate gap false).map .sample)).take n).reverse ++
        hist) := by
    intro n h1 hn hmatch
    rw [demodBits_map_sample, List.length_replicate] at hn
    obtain ⟨n, rfl⟩ := Nat.exists_eq_add_of_le' h1
    rw [demodBits_map_sample, List.take_replicate, List.reverse_replicate, Nat.min_eq_left hn,
      List.replicate_succ, List.cons_append] at hmatch
    -- the newest bit is a zero
    exact absurd hmatch.head (by decide)
  have hrun := search_of_no_match hs hc hno
  rw [demodBits_map_sample, List.reverse_replicate] at hrun
  exact hrun

/-- Behind a gap the receiver searches through fifteen preamble bits and finds sync at the first
sample of the sixteenth. -/
theorem sync_after_gap {s : RxState} (hs : s.insync = false) {gap : ℕ} {hist : List DataBit}
    (hc : s.correlator.Holds (List.replicate gap false ++ hist)) (hgap : bitDivisor * 15 ≤ gap)
    {L : List (DataBit × ℕ)} (hL : L.map Prod.fst = preamble15) (hj : Jitter L) :
    let t := Mealy.final rxStep s ((held L).map .sample)
    bytesReceived (Mealy.outputs rxStep s ((held L).map .sample)) = [] ∧
      rxSample t true =
        ({ insync := true
           correlator := t.correlator.push true
           edge := { currentSense := true, xingcnt := 0 }
           clock := BitClock.midBit
           bytes := ByteAssembler.fresh },
          { bitTime := none, byteRx := none }) := by
  have hno : ∀ n, 1 ≤ n → n ≤ (demodBits ((held L).map .sample)).length →
      ¬ TapsMatch (((demodBits ((held L).map .sample)).take n).reverse ++
        (List.replicate gap false ++ hist)) := by
    intro n h1 hn
    rw [demodBits_map_sample] at hn ⊢
    rw [tapsMatch_append_gap hgap]
    · exact no_match_preamble hL hj n hn
    · rw [← List.length_pos_iff, List.length_reverse, List.length_take]
      omega
  obtain ⟨hsearch, hholds, hquiet⟩ := search_of_no_match hs hc hno
  refine ⟨hquiet, ?_⟩
  apply rxSample_sync hsearch
  rw [syncCorrelator_eq_true_iff hholds, demodBits_map_sample, ← List.cons_append,
    tapsMatch_append_gap hgap (List.cons_ne_nil _ _)]
  exact match_preamble hL hj (Nat.zero_le 8)

/-! ## In sync -/

theorem bytesReceived_cons_none (bitTime : Option DataBit) (outs : List RxOut) :
    bytesReceived ({ bitTime, byteRx := none } :: outs) = bytesReceived outs := rfl

/-- From the sample that found sync on: the rest of the sixteenth bit and the bits after it give
the bytes after the first one, and whatever comes then may give more. -/
theorem bytesReceived_after_sync {s : RxState} (hs : s.insync = true)
    (hedge : s.edge = { currentSense := true, xingcnt := 0 }) (hclock : s.clock = BitClock.midBit)
    (hbytes : s.bytes = ByteAssembler.fresh) {n : ℕ} (hn : n = 22 ∨ n = 23)
    {M : List (DataBit × ℕ)} (hjM : Jitter M) {xs : List DemodByte}
    (hM : M.map Prod.fst = bitString (syncByte :: xs)) (hrun : MaxRun 9 (true :: M.map Prod.fst))
    (noise : List DataBit) :
    ∃ more, bytesReceived (Mealy.outputs rxStep s
        ((List.replicate n true ++ held M ++ noise).map .sample)) = syncByte :: xs ++ more ∧
      (noise = [] → more = []) := by
  obtain ⟨-, -, hdelivered⟩ := run_inSync hs (List.replicate n true ++ held M ++ noise)
  -- the sampler answers each bit once, and the noise as it comes
  have hmid := sampler_same true (d := 11) (w := 22) (n := n) (by omega) (by omega)
  have hlock : Locked true 0 (⟨true, 0⟩, ⟨11 + 24 - n, 22⟩) :=
    ⟨rfl, by simp only; omega, by simp only; omega, rfl⟩
  have hsampled := sampled_held hlock hjM hrun
  have hstart : (s.edge, s.clock) = ((⟨true, 0⟩, ⟨11, 22 + 1⟩) : EdgeState × BitClock) := by
    rw [hedge, hclock]
    rfl
  rw [hdelivered, hstart, hbytes, Mealy.outputs_append, Mealy.outputs_append,
    List.reduceOption_append, List.reduceOption_append, hmid.1, hmid.2, hsampled, hM,
    List.singleton_append, Mealy.outputs_append, List.reduceOption_append, receiveBit_fresh]
  refine ⟨_, rfl, ?_⟩
  rintro rfl
  rfl

/-! ## Bursts -/

/-- What happens from one clear to the next: a quiet gap, a transmission, and any noise. -/
structure Burst where
  /-- The samples of the gap. -/
  gap : ℕ
  /-- The number of preamble bytes. -/
  preamble : ℕ
  payload : List DemodByte
  /-- The bits sent, each with the number of samples it is held for. -/
  bits : List (DataBit × ℕ)
  /-- The samples between the last bit and the next clear. -/
  noise : List DataBit
  reach : bitDivisor * 15 ≤ gap
  three_le : 3 ≤ preamble
  bits_eq : bits.map Prod.fst = transmission preamble payload
  jitter : Jitter bits
  maxRun : MaxRun 9 (transmission preamble payload)

/-- The events of a burst. -/
def Burst.events (b : Burst) : List RxEvent :=
  .clearSync :: (List.replicate b.gap false ++ held b.bits ++ b.noise).map .sample

/-- The bytes of a burst that reach the application: two preamble bytes are used up. -/
def Burst.message (b : Burst) : List DemodByte :=
  List.replicate (b.preamble - 2) syncByte ++ b.payload

/-- One burst, whatever the receiver was doing before. -/
theorem bytesReceived_burst (s : RxState) (b : Burst) :
    ∃ more, bytesReceived (Mealy.outputs rxStep s b.events) = b.message ++ more ∧
      (b.noise = [] → more = []) := by
  obtain ⟨gap, k, payload, L, noise, hgap, hk, hL, hj, hrun⟩ := b
  obtain ⟨k, rfl⟩ := Nat.exists_eq_add_of_le' hk
  simp only [Burst.events, Burst.message]
  rw [transmission_eq] at hL hrun
  -- fifteen bits, the sixteenth, and the others
  obtain ⟨L15, L', rfl, hL15, hL'⟩ := List.map_eq_append_iff.mp hL
  obtain ⟨⟨b, n⟩, M, rfl, hb, hM⟩ := List.map_eq_cons_iff.mp hL'
  simp only at hb
  subst hb
  obtain ⟨hj15, hj'⟩ := hj.of_append
  obtain ⟨hn, hjM⟩ := hj'.of_cons
  obtain ⟨n, rfl⟩ := Nat.exists_eq_add_of_le' (show 1 ≤ n by omega)
  -- after the clear the receiver searches, through the gap and fifteen bits
  obtain ⟨hsearch, hholds, hgapQuiet⟩ := search_gap (s := dspClearSync s) rfl
    (DelayLine.holds_toList false s.correlator) gap
  obtain ⟨hquiet, hsync⟩ := sync_after_gap hsearch hholds hgap hL15 hj15
  have hrun' : MaxRun 9 (true :: M.map Prod.fst) := by
    rw [hM]
    exact hrun.of_infix (List.suffix_append _ _).isInfix
  obtain ⟨more, hmore, hnone⟩ := bytesReceived_after_sync (s := (rxSample (Mealy.final rxStep
      (Mealy.final rxStep (dspClearSync s) ((List.replicate gap false).map .sample))
      ((held L15).map .sample)) true).1) (by rw [hsync]) (by rw [hsync]) (by rw [hsync])
    (by rw [hsync]) (n := n) (by omega) hjM hM hrun' noise
  refine ⟨more, ?_, hnone⟩
  have hsplit : (List.replicate gap false ++ held (L15 ++ (true, n + 1) :: M) ++ noise).map
      RxEvent.sample = (List.replicate gap false).map .sample ++ ((held L15).map .sample ++
        .sample true :: (List.replicate n true ++ held M ++ noise).map .sample) := by
    simp [List.replicate_succ]
  rw [hsync] at hmore
  rw [hsplit, Mealy.outputs_cons, rxStep, bytesReceived_cons_none, Mealy.outputs_append,
    bytesReceived_append, hgapQuiet, List.nil_append, Mealy.outputs_append, bytesReceived_append,
    hquiet, List.nil_append, Mealy.outputs_cons, rxStep, hsync, bytesReceived_cons_none, hmore]
  rfl

/-- **Session decoding.** From any state of the receiver on, every burst delivers its message, and
after it at most what the receiver makes of the noise before the next clear. -/
theorem bytesReceived_bursts (s : RxState) (bursts : List Burst) :
    ∃ parts : List (List DemodByte),
      bytesReceived (Mealy.outputs rxStep s (bursts.flatMap Burst.events)) = parts.flatten ∧
        List.Forall₂ (fun b part => b.message <+: part ∧ (b.noise = [] → part = b.message))
          bursts parts := by
  induction bursts generalizing s with
  | nil => exact ⟨[], rfl, .nil⟩
  | cons b bursts ih =>
    obtain ⟨more, hmore, hnone⟩ := bytesReceived_burst s b
    obtain ⟨parts, hparts, hmessages⟩ := ih (Mealy.final rxStep s b.events)
    refine ⟨(b.message ++ more) :: parts, ?_, .cons ⟨List.prefix_append _ _, ?_⟩ hmessages⟩
    · rw [List.flatMap_cons, Mealy.outputs_append, bytesReceived_append, hmore, hparts,
        List.flatten_cons]
    · intro hnoise
      rw [hnone hnoise, List.append_nil]

/-- Three preamble bytes and one `Z` after a gap, the bits held for `23` and `24` samples in
turn. -/
instance : Inhabited Burst where
  default :=
    { gap := 345
      preamble := 3
      payload := [0x5A]
      bits := (transmission 3 [0x5A]).zipIdx.map fun p => (p.1, 23 + p.2 % 2)
      noise := []
      reach := le_rfl
      three_le := le_rfl
      bits_eq := by decide
      jitter := by unfold Jitter; decide
      maxRun := by unfold MaxRun; decide }

end PiWxRx
