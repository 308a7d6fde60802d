import PiWxRx.FSK.Preamble

/-!
# Decoding a transmission

Given a bit string held for `23` or `24` samples a bit, the bit sampler answers each bit exactly
once. After an edge the clock samples `14` samples into the bit; without an edge it runs at `24`
samples a bit, so the sampling point can drift by one sample a bit against bits of `23`
(`Locked`). In a run of at most nine equal bits it stays inside the bit it samples
(`sampled_held`).

Together with `sync_preamble` and the byte assembler this decodes a whole transmission
(`bytesReceived_transmission`).
-/

namespace PiWxRx

/-- No more than `n` equal bits in a row. -/
def MaxRun (n : ℕ) (bits : List DataBit) : Prop :=
  ∀ b, ¬ List.replicate (n + 1) b <:+: bits

theorem MaxRun.of_infix {n : ℕ} {bits bits' : List DataBit} (h : MaxRun n bits)
    (hinf : bits' <:+: bits) : MaxRun n bits' :=
  fun b hb => h b (hb.trans hinf)

/-- A run at the head is one of the runs `MaxRun` bounds. -/
theorem MaxRun.replicate_le {n m : ℕ} {b : DataBit} {bits : List DataBit}
    (h : MaxRun n (List.replicate m b ++ bits)) : m ≤ n := by
  by_contra hlt
  have hsplit : List.replicate m b =
      List.replicate (n + 1) b ++ List.replicate (m - (n + 1)) b := by
    rw [← List.replicate_add]
    congr 1
    omega
  refine h b ⟨[], List.replicate (m - (n + 1)) b ++ bits, ?_⟩
  rw [hsplit, List.nil_append, List.append_assoc]

/-! ## The bit sampler on one held bit -/

/-- Between bit times, samples that carry the current sense only count the divisor down. -/
theorem sampler_countdown (b : DataBit) (d w n : ℕ) :
    Mealy.final sampleStep (⟨b, 0⟩, ⟨d + n, w⟩) (List.replicate n b) = (⟨b, 0⟩, ⟨d, w⟩) ∧
      (Mealy.outputs sampleStep (⟨b, 0⟩, ⟨d + n, w⟩) (List.replicate n b)).reduceOption = [] := by
  induction n with
  | zero => exact ⟨rfl, rfl⟩
  | succ n ih =>
    rw [List.replicate_succ, Mealy.final_cons, Mealy.outputs_cons, ← Nat.add_assoc,
      sampleStep_same]
    exact ⟨ih.1, by rw [List.reduceOption_cons_of_none]; exact ih.2⟩

/-- A bit that carries the current sense and reaches past the zero count, but not past the next
one, is sampled once. -/
theorem sampler_same (b : DataBit) {d w n : ℕ} (hd : d < n) (hn : n ≤ d + 24) :
    Mealy.final sampleStep (⟨b, 0⟩, ⟨d, w + 1⟩) (List.replicate n b) =
        (⟨b, 0⟩, ⟨d + 24 - n, w⟩) ∧
      (Mealy.outputs sampleStep (⟨b, 0⟩, ⟨d, w + 1⟩) (List.replicate n b)).reduceOption = [b] := by
  -- `d` samples down to zero, the bit time, and `m` samples of the next count
  obtain ⟨m, rfl⟩ : ∃ m, n = d + (1 + m) := ⟨n - d - 1, by omega⟩
  have hdown := sampler_countdown b 0 (w + 1) d
  have hup := sampler_countdown b (23 - m) w m
  rw [Nat.zero_add] at hdown
  rw [Nat.sub_add_cancel (by omega)] at hup
  rw [List.replicate_add, List.replicate_add, Mealy.final_append, Mealy.outputs_append,
    List.reduceOption_append, hdown.1, hdown.2, List.nil_append]
  simp only [List.replicate_one, List.cons_append, List.nil_append, Mealy.final_cons,
    Mealy.outputs_cons, sampleStep_bitTime, bitDivisor, List.reduceOption_cons_of_some]
  exact ⟨by rw [hup.1]; congr 2; omega, by rw [hup.2]⟩

/-- A bit that differs from the current sense is an edge at its third sample and is sampled
once, `14` samples in. -/
theorem sampler_differs {b c : DataBit} (hbc : b ≠ c) {d w n : ℕ} (hd : 2 ≤ d) (h15 : 15 ≤ n)
    (hn : n ≤ 38) :
    Mealy.final sampleStep (⟨c, 0⟩, ⟨d, w⟩) (List.replicate n b) = (⟨b, 0⟩, ⟨38 - n, 22⟩) ∧
      (Mealy.outputs sampleStep (⟨c, 0⟩, ⟨d, w⟩) (List.replicate n b)).reduceOption = [b] := by
  -- three samples to the edge, and `m` samples from mid-bit time on
  obtain ⟨m, rfl⟩ := Nat.exists_eq_add_of_le' (show 3 ≤ n by omega)
  obtain ⟨d, rfl⟩ := Nat.exists_eq_add_of_le' hd
  have hrest := sampler_same b (d := 11) (w := 22) (n := m) (by omega) (by omega)
  simp only [List.replicate_succ, Mealy.final_cons, Mealy.outputs_cons,
    sampleStep_differs hbc (show (0 : ℕ) + 1 ≠ xingMax by decide),
    sampleStep_differs hbc (show (0 : ℕ) + 1 + 1 ≠ xingMax by decide),
    show sampleStep (⟨c, 0 + 1 + 1⟩, ⟨d, w⟩) b = ((⟨b, 0⟩, ⟨11, 23⟩), none) from
      sampleStep_edge hbc ⟨d, w⟩, List.reduceOption_cons_of_none]
  exact ⟨by rw [hrest.1]; congr 2; omega, hrest.2⟩

/-! ## The bit sampler on a held bit string -/

/-- The sampler at a bit boundary: the last bit carried the sense `c` and was the `j`-th (from
`0`) of its run. The next sampling point is `divisor` samples away. -/
structure Locked (c : DataBit) (j : ℕ) (s : EdgeState × BitClock) : Prop where
  edge : s.1 = ⟨c, 0⟩
  lower : 12 ≤ s.2.divisor
  upper : s.2.divisor ≤ 15 + j
  swallow : s.2.swallowCtr + j = 22

/-- One held bit: it is sampled once and the sampler is locked at the next boundary. -/
theorem Locked.bit {c : DataBit} {j : ℕ} {s : EdgeState × BitClock} (h : Locked c j s)
    {b : DataBit} {n : ℕ} (hn : n = 23 ∨ n = 24) (hj : b = c → j ≤ 7) :
    Locked b (if b = c then j + 1 else 0) (Mealy.final sampleStep s (List.replicate n b)) ∧
      (Mealy.outputs sampleStep s (List.replicate n b)).reduceOption = [b] := by
  obtain ⟨edge, ⟨d, w⟩⟩ := s
  obtain ⟨rfl, hlo, hup, hw⟩ := h
  simp only at hlo hup hw
  by_cases hbc : b = c
  · -- no edge: a bit of `23` samples lets the sampling point drift by one
    subst hbc
    have hj7 := hj rfl
    obtain ⟨w, rfl⟩ := Nat.exists_eq_add_of_le' (show 1 ≤ w by omega)
    have hrun := sampler_same b (d := d) (w := w) (n := n) (by omega) (by omega)
    rw [hrun.1, hrun.2, if_pos rfl]
    exact ⟨⟨rfl, by simp only; omega, by simp only; omega, by simp only; omega⟩, rfl⟩
  · -- an edge takes the drift back
    have hrun := sampler_differs hbc (d := d) (w := w) (n := n) (by omega) (by omega) (by omega)
    rw [hrun.1, hrun.2, if_neg hbc]
    exact ⟨⟨rfl, by simp only; omega, by simp only; omega, rfl⟩, rfl⟩

/-- Held bits without a run of more than nine are sampled once each, in order. -/
theorem sampled_held {c : DataBit} {j : ℕ} {s : EdgeState × BitClock} (h : Locked c j s)
    {L : List (DataBit × ℕ)} (hL : Jitter L)
    (hrun : MaxRun 9 (List.replicate (j + 1) c ++ L.map Prod.fst)) :
    (Mealy.outputs sampleStep s (held L)).reduceOption = L.map Prod.fst := by
  induction L generalizing c j s with
  | nil => rfl
  | cons p L ih =>
    obtain ⟨b, n⟩ := p
    obtain ⟨hn, hL⟩ := hL.of_cons
    -- the run that ends with this bit
    have hrun' : MaxRun 9
        (List.replicate ((if b = c then j + 1 else 0) + 1) b ++ L.map Prod.fst) := by
      split_ifs with hbc
      · subst hbc
        rw [List.replicate_succ', List.append_assoc]
        exact hrun
      · exact hrun.of_infix (List.suffix_append _ _).isInfix
    -- without an edge the run has `j + 2` bits by now
    have hj : b = c → j ≤ 7 := by
      intro hbc
      rw [if_pos hbc] at hrun'
      have := hrun'.replicate_le
      omega
    obtain ⟨hlock, hout⟩ := h.bit hn hj
    rw [held_cons, Mealy.outputs_append, List.reduceOption_append, hout, List.map_cons,
      ih hlock hL hrun']
    rfl

/-! ## The byte assembler on whole bytes -/

/-- The register after any bits: the old register with the bits shifted in. -/
theorem lsbFirst_foldl_shiftIn (r : DemodByte) (bits : List DataBit) :
    lsbFirst (bits.foldl shiftIn r) = (lsbFirst r ++ bits).drop bits.length := by
  induction bits generalizing r with
  | nil => simp
  | cons b bits ih =>
    have hshift : (lsbFirst r).drop 1 ++ [b] ++ bits = (lsbFirst r ++ b :: bits).drop 1 := by
      rw [List.drop_append_of_le_length (by simp), List.append_assoc]
      rfl
    rw [List.foldl_cons, ih, lsbFirst_shiftIn, hshift, List.drop_drop, List.length_cons,
      Nat.add_comm]

/-- In byte sync with an empty bit counter, the eight bits of a byte deliver that byte. -/
theorem receiveBit_byte (r x : DemodByte) :
    Mealy.final receiveBit ⟨true, r, 0⟩ (lsbFirst x) = ⟨true, x, 0⟩ ∧
      (Mealy.outputs receiveBit ⟨true, r, 0⟩ (lsbFirst x)).reduceOption = [x] := by
  have hx : (lsbFirst x).foldl shiftIn r = x := by
    apply lsbFirst_injective
    rw [lsbFirst_foldl_shiftIn, List.drop_append, List.drop_eq_nil_of_le (by simp)]
    simp
  -- eight bits, named so that the run can be unrolled
  obtain ⟨b0, b1, b2, b3, b4, b5, b6, b7, hbits⟩ :
      ∃ b0 b1 b2 b3 b4 b5 b6 b7, lsbFirst x = [b0, b1, b2, b3, b4, b5, b6, b7] :=
    ⟨_, _, _, _, _, _, _, _, by simp only [lsbFirst, List.ofFn_succ, List.ofFn_zero]; rfl⟩
  rw [hbits] at hx ⊢
  simp only [List.foldl_cons, List.foldl_nil] at hx
  simp [receiveBit, List.reduceOption, hx]

/-- In byte sync with an empty bit counter, the bits of a byte list deliver that list. -/
theorem receiveBit_bytes (r : DemodByte) (xs : List DemodByte) :
    (Mealy.outputs receiveBit ⟨true, r, 0⟩ (bitString xs)).reduceOption = xs := by
  induction xs generalizing r with
  | nil => rfl
  | cons x xs ih =>
    obtain ⟨hfinal, hout⟩ := receiveBit_byte r x
    rw [bitString, List.flatMap_cons, Mealy.outputs_append, List.reduceOption_append, hout,
      hfinal]
    exact congrArg (x :: ·) (ih x)

/-- A fresh assembler that receives the last bit of a preamble byte, another preamble byte and
any bytes delivers the second preamble byte and those bytes. -/
theorem receiveBit_fresh (xs : List DemodByte) :
    (Mealy.outputs receiveBit ByteAssembler.fresh
      (true :: bitString (syncByte :: xs))).reduceOption = syncByte :: xs := by
  have hfinal : Mealy.final receiveBit ByteAssembler.fresh (true :: lsbFirst syncByte) =
      ⟨true, syncByte, 0⟩ := by decide
  have hout : (Mealy.outputs receiveBit ByteAssembler.fresh
      (true :: lsbFirst syncByte)).reduceOption = [syncByte] := by decide
  rw [bitString, List.flatMap_cons, ← List.cons_append, Mealy.outputs_append,
    List.reduceOption_append, hfinal, hout]
  exact congrArg (syncByte :: ·) (receiveBit_bytes syncByte xs)

/-! ## A whole transmission -/

/-- A transmission: `k` preamble bytes and the payload. -/
def transmission (k : ℕ) (payload : List DemodByte) : List DataBit :=
  bitString (List.replicate k syncByte ++ payload)

/-- The bits of a transmission around the point where sync is found. -/
theorem transmission_eq (k : ℕ) (payload : List DemodByte) :
    transmission (k + 3) payload =
      preamble15 ++ true :: bitString (syncByte :: (List.replicate k syncByte ++ payload)) := by
  have hpre : lsbFirst syncByte ++ lsbFirst syncByte = preamble15 ++ [true] := by decide
  rw [transmission, List.replicate_succ, List.replicate_succ, List.replicate_succ, bitString,
    List.cons_append, List.cons_append, List.cons_append, List.flatMap_cons, List.flatMap_cons,
    ← List.append_assoc, hpre, List.append_assoc]
  rfl

/-- The sampler after the sixteenth preamble bit, of which `n` more samples follow the one that
declared sync: the bit is sampled and the sampler is locked. -/
private theorem locked_of_midBit {n : ℕ} (hn : n = 22 ∨ n = 23) :
    Locked true 0 (Mealy.final sampleStep (⟨true, 0⟩, BitClock.midBit) (List.replicate n true)) ∧
      (Mealy.outputs sampleStep (⟨true, 0⟩, BitClock.midBit)
        (List.replicate n true)).reduceOption = [true] := by
  have hrun := sampler_same true (d := 11) (w := 22) (n := n) (by omega) (by omega)
  change Locked true 0 (Mealy.final sampleStep (⟨true, 0⟩, ⟨11, 22 + 1⟩) _) ∧
    (Mealy.outputs sampleStep (⟨true, 0⟩, ⟨11, 22 + 1⟩) _).reduceOption = _
  rw [hrun.1, hrun.2]
  exact ⟨⟨rfl, by simp only; omega, by simp only; omega, rfl⟩, rfl⟩

/-- End-to-end decoding. Let a transmission of `k ≥ 3` preamble bytes and a payload have no run
of more than nine equal bits, and let each bit be held for `23` or `24` samples. From program
start and without a clear, the receiver delivers `k - 2` preamble bytes and the payload. -/
theorem bytesReceived_transmission {k : ℕ} (hk : 3 ≤ k) (payload : List DemodByte)
    (hrun : MaxRun 9 (transmission k payload)) {L : List (DataBit × ℕ)}
    (hL : L.map Prod.fst = transmission k payload) (hj : Jitter L)
    (demodByte : DemodByte) (bitctr : ℕ) :
    bytesReceived (Mealy.outputs rxStep (RxState.start demodByte bitctr)
      ((held L).map .sample)) = List.replicate (k - 2) syncByte ++ payload := by
  obtain ⟨k, rfl⟩ := Nat.exists_eq_add_of_le' hk
  rw [transmission_eq] at hL hrun
  -- fifteen bits, the sixteenth, and the others
  obtain ⟨L15, L', rfl, hL15, hL'⟩ := List.map_eq_append_iff.mp hL
  obtain ⟨⟨b, n⟩, M, rfl, hb, hM⟩ := List.map_eq_cons_iff.mp hL'
  simp only at hb
  subst hb
  obtain ⟨hj15, hj'⟩ := hj.of_append
  obtain ⟨hn, hjM⟩ := hj'.of_cons
  obtain ⟨n, rfl⟩ := Nat.exists_eq_add_of_le' (show 1 ≤ n by omega)
  obtain ⟨-, -, hquiet⟩ := search_preamble hL15 hj15 demodByte bitctr
  have hsync := sync_preamble hL15 hj15 demodByte bitctr
  simp only at hquiet hsync
  -- the rest of the sixteenth bit and everything after it arrives in sync
  obtain ⟨-, -, hbytes⟩ := run_inSync (s := (rxSample (Mealy.final rxStep
    (RxState.start demodByte bitctr) ((held L15).map .sample)) true).1)
    (by rw [hsync]) (List.replicate n true ++ held M)
  -- the sampler is locked after the sixteenth bit and answers every bit once
  obtain ⟨hlock, hout⟩ := locked_of_midBit (n := n) (by omega)
  have hrun' : MaxRun 9 (List.replicate (0 + 1) true ++ M.map Prod.fst) := by
    rw [hM]
    exact hrun.of_infix (List.suffix_append _ _).isInfix
  have hsampled := sampled_held hlock hjM hrun'
  rw [hsync, Mealy.outputs_append, List.reduceOption_append, hout, hsampled, hM,
    List.singleton_append, receiveBit_fresh] at hbytes
  rw [held_append, held_cons, List.replicate_succ, List.map_append, Mealy.outputs_append,
    bytesReceived_append, hquiet, List.nil_append, List.cons_append, List.map_cons,
    Mealy.outputs_cons, rxStep, hsync]
  simp only [bytesReceived, List.filterMap_cons_none] at hbytes ⊢
  rw [hbytes]
  rfl

/-- Three preamble bytes and one `Z`, the bits held for `23` and `24` samples in turn. -/
theorem bytesReceived_transmission_Z :
    bytesReceived (Mealy.outputs rxStep (RxState.start 0 0)
      ((held ((transmission 3 [0x5A]).zipIdx.map fun p => (p.1, 23 + p.2 % 2))).map .sample)) =
      [syncByte, 0x5A] :=
  bytesReceived_transmission (k := 3) (by decide) [0x5A] (by unfold MaxRun; decide) (by decide)
    (by unfold Jitter; decide) 0 0

end PiWxRx
