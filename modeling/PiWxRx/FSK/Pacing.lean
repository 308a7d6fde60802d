import PiWxRx.FSK.Bursts

/-!
# Bits at their own pace

A transmitter sends a bit every `23.04` samples, `576` parts out of `25` to a sample, and the
demodulated bits change within one sample of where the bits do. `Eye` says so of a stream of
demodulated bits: each bit is right between the first sample of its own and the first sample of the
next, and where neighbours agree it is right there too.

The sampler follows such a stream from edge to edge (`Timed`, `sampled_eye`), with runs of up to
eight equal bits. Sync is found within eight samples of the sixteenth preamble bit, whatever was
received in the last `67` samples before the transmission (`no_match_before`, `match_at`), so the
whole message is decoded (`bytesReceived_eye`).
-/

namespace PiWxRx

/-! ## Where bits begin -/

/-- The first sample that may belong to bit `k`, when the transmission starts `o` parts late. -/
def bitStart (o k : ℕ) : ℕ := (576 * k + o) / 25

theorem bitStart_add (o k i : ℕ) : bitStart o (k + i) = (576 * k + o + i) / 25 + 23 * i := by
  unfold bitStart
  omega

/-- Over a bit time the beginning moves by `23` or `24` samples, over many by as many times `23` and
at most one more. -/
theorem bitStart_bounds (o k : ℕ) {i : ℕ} (hi : i ≤ 25) :
    bitStart o k + 23 * i ≤ bitStart o (k + i) ∧
      bitStart o (k + i) ≤ bitStart o k + 23 * i + 1 := by
  rw [bitStart_add]
  unfold bitStart
  omega

/-- A stream of demodulated bits that shows the bits of a transmission. -/
structure Eye (o : ℕ) (bits : List DataBit) (b : ℕ → DataBit) : Prop where
  /-- From a third into the first bit to the end of the second. -/
  first : ∀ n, bitStart o 0 + 7 ≤ n → n < bitStart o 2 → b n = true
  /-- Between the first sample of a bit and that of the next. -/
  inside : ∀ k (hk : k < bits.length), 2 ≤ k →
    ∀ n, bitStart o k < n → n < bitStart o (k + 1) → b n = bits[k]
  /-- Where a bit is the same as the one before. -/
  same : ∀ k (hk : k + 1 < bits.length), 2 ≤ k → bits[k + 1] = bits[k] →
    b (bitStart o (k + 1)) = bits[k]

theorem bitStart_shift (o d k : ℕ) : bitStart (o + 25 * d) k = d + bitStart o k := by
  unfold bitStart
  omega

/-- The stream from sample `d` on. -/
theorem Eye.shift {o o' d : ℕ} {bits : List DataBit} {b : ℕ → DataBit} (h : Eye o bits b)
    (ho : o = o' + 25 * d) : Eye o' bits fun n => b (d + n) := by
  subst ho
  refine ⟨fun n hlo hhi => ?_, fun k hk h2 n hlo hhi => ?_, fun k hk h2 hsame => ?_⟩
  · apply h.first <;> rw [bitStart_shift] <;> omega
  · apply h.inside k hk h2 <;> rw [bitStart_shift] <;> omega
  · rw [← bitStart_shift]
    exact h.same k hk h2 hsame

/-- The first sample that shows bit `k`. -/
def crossing (o : ℕ) (bits : List DataBit) (b : ℕ → DataBit) (k : ℕ) : ℕ :=
  if bits[k]?.all (· = b (bitStart o k)) then bitStart o k else bitStart o k + 1

theorem crossing_bounds (o : ℕ) (bits : List DataBit) (b : ℕ → DataBit) (k : ℕ) :
    bitStart o k ≤ crossing o bits b k ∧ crossing o bits b k ≤ bitStart o k + 1 := by
  unfold crossing
  split <;> omega

theorem crossing_length (o : ℕ) (bits : List DataBit) (b : ℕ → DataBit) :
    crossing o bits b bits.length = bitStart o bits.length := by
  simp [crossing]

/-- Between two crossings the stream shows one bit. -/
theorem Eye.shows {o : ℕ} {bits : List DataBit} {b : ℕ → DataBit} (h : Eye o bits b) {k : ℕ}
    (hk : k < bits.length) (h2 : 2 ≤ k) {n : ℕ} (hlo : crossing o bits b k ≤ n)
    (hhi : n < crossing o bits b (k + 1)) : b n = bits[k] := by
  have hbounds := crossing_bounds o bits b k
  have hbounds' := crossing_bounds o bits b (k + 1)
  rcases Nat.lt_trichotomy n (bitStart o (k + 1)) with hlt | rfl | hgt
  · rcases Nat.lt_or_ge (bitStart o k) n with hinside | hle
    · exact h.inside k hk h2 n hinside hlt
    · -- the first sample, if it already shows the bit
      obtain rfl : n = bitStart o k := by omega
      have hfirst : bits[k]?.all (· = b (bitStart o k)) = true := by
        by_contra hne
        rw [crossing, if_neg hne] at hlo
        omega
      rw [List.getElem?_eq_getElem hk] at hfirst
      exact (of_decide_eq_true hfirst).symm
  · -- the first sample of the next bit, if it does not show that bit yet
    have hnext : ¬ bits[k + 1]?.all (· = b (bitStart o (k + 1))) = true := by
      intro heq
      rw [crossing, if_pos heq] at hhi
      omega
    have hk' : k + 1 < bits.length := by
      by_contra hge
      rw [List.getElem?_eq_none (by omega)] at hnext
      exact hnext rfl
    rw [List.getElem?_eq_getElem hk', Option.all_some, decide_eq_true_eq] at hnext
    by_cases hsame : bits[k + 1] = bits[k]
    · exact h.same k hk' h2 hsame
    · have htwo : ∀ x y z : Bool, ¬ x = z → ¬ x = y → z = y := by decide
      exact htwo _ _ _ hnext hsame
  · omega

/-! ## The sampler -/

/-- The sampler at sample `n`, the first that shows bit `k`: the last bit carried the sense `c` and
ended a run of `j + 1`. The next sampling point is `divisor` samples away, in bit `k`. -/
structure Timed (o k j n : ℕ) (c : DataBit) (s : EdgeState × BitClock) : Prop where
  edge : s.1 = ⟨c, 0⟩
  lower : bitStart o k + 12 ≤ n + s.2.divisor
  upper : n + s.2.divisor ≤ bitStart o k + 16 + j
  swallow : 22 ≤ s.2.swallowCtr + j

/-- One bit: it is sampled once and the sampler is timed at the next one. -/
theorem Timed.bit {o k j n : ℕ} {c : DataBit} {s : EdgeState × BitClock} (h : Timed o k j n c s)
    (hlo : bitStart o k ≤ n) (hhi : n ≤ bitStart o k + 1) {b : DataBit} {len : ℕ}
    (hlo' : bitStart o (k + 1) ≤ n + len) (hhi' : n + len ≤ bitStart o (k + 1) + 1)
    (hj : b = c → j ≤ 6) :
    Timed o (k + 1) (if b = c then j + 1 else 0) (n + len) b
        (Mealy.final sampleStep s (List.replicate len b)) ∧
      (Mealy.outputs sampleStep s (List.replicate len b)).reduceOption = [b] := by
  obtain ⟨edge, ⟨d, w⟩⟩ := s
  obtain ⟨rfl, hlower, hupper, hswallow⟩ := h
  simp only at hlower hupper hswallow
  obtain ⟨hpace, hpace'⟩ := bitStart_bounds o k (show 1 ≤ 25 by decide)
  by_cases hbc : b = c
  · -- no edge: the sampling point drifts by up to one sample
    subst hbc
    have hj6 := hj rfl
    obtain ⟨w, rfl⟩ := Nat.exists_eq_add_of_le' (show 1 ≤ w by omega)
    have hrun := sampler_same b (d := d) (w := w) (n := len) (by omega) (by omega)
    rw [hrun.1, hrun.2, if_pos rfl]
    exact ⟨⟨rfl, by simp only; omega, by simp only; omega, by simp only; omega⟩, rfl⟩
  · -- an edge puts it back
    have hrun := sampler_differs hbc (d := d) (w := w) (n := len) (by omega) (by omega) (by omega)
    rw [hrun.1, hrun.2, if_neg hbc]
    exact ⟨⟨rfl, by simp only; omega, by simp only; omega, le_rfl⟩, rfl⟩

/-- The samples from one crossing to the next. -/
theorem Eye.map_range' {o : ℕ} {bits : List DataBit} {b : ℕ → DataBit} (h : Eye o bits b) {k : ℕ}
    (hk : k < bits.length) (h2 : 2 ≤ k) :
    (List.range' (crossing o bits b k) (crossing o bits b (k + 1) - crossing o bits b k)).map b =
      List.replicate (crossing o bits b (k + 1) - crossing o bits b k) bits[k] := by
  rw [List.eq_replicate_iff, List.length_map, List.length_range']
  refine ⟨rfl, fun x hx => ?_⟩
  obtain ⟨n, hn, rfl⟩ := List.mem_map.mp hx
  obtain ⟨i, hi, rfl⟩ := List.mem_range'.mp hn
  exact h.shows hk h2 (by omega) (by omega)

theorem crossing_le_succ (o : ℕ) (bits : List DataBit) (b : ℕ → DataBit) (k : ℕ) :
    crossing o bits b k ≤ crossing o bits b (k + 1) := by
  have hbounds := crossing_bounds o bits b k
  have hbounds' := crossing_bounds o bits b (k + 1)
  obtain ⟨hpace, -⟩ := bitStart_bounds o k (show 1 ≤ 25 by decide)
  omega

theorem crossing_mono (o : ℕ) (bits : List DataBit) (b : ℕ → DataBit) :
    Monotone (crossing o bits b) := monotone_nat_of_le_succ (crossing_le_succ o bits b)

private theorem range'_cut {m n k : ℕ} (hmn : m ≤ n) (hnk : n ≤ k) :
    List.range' m (k - m) = List.range' m (n - m) ++ List.range' n (k - n) := by
  obtain ⟨i, rfl⟩ := Nat.exists_eq_add_of_le hmn
  obtain ⟨j, rfl⟩ := Nat.exists_eq_add_of_le hnk
  have hcut : List.range' m i ++ List.range' (m + 1 * i) j = List.range' m (i + j) :=
    List.range'_append
  rw [Nat.one_mul] at hcut
  rw [Nat.add_sub_cancel_left, Nat.add_sub_cancel_left, hcut, Nat.add_assoc,
    Nat.add_sub_cancel_left]

/-- The bits from bit `k` on are sampled once each, in order. -/
theorem sampled_eye {o : ℕ} {bits : List DataBit} {b : ℕ → DataBit} (h : Eye o bits b)
    {k j : ℕ} (hk : k ≤ bits.length) (h2 : 2 ≤ k) {c : DataBit} {s : EdgeState × BitClock}
    (ht : Timed o k j (crossing o bits b k) c s)
    (hrun : MaxRun 8 (List.replicate (j + 1) c ++ bits.drop k)) :
    (Mealy.outputs sampleStep s ((List.range' (crossing o bits b k)
      (bitStart o bits.length - crossing o bits b k)).map b)).reduceOption = bits.drop k := by
  -- induction on the bits that are left
  induction hm : bits.length - k generalizing k j c s with
  | zero =>
    obtain rfl : k = bits.length := by omega
    rw [crossing_length, Nat.sub_self, List.drop_eq_nil_of_le le_rfl]
    rfl
  | succ m ih =>
    have hlt : k < bits.length := by omega
    have hnext := crossing_le_succ o bits b k
    have hend := crossing_mono o bits b (show k + 1 ≤ bits.length from hlt)
    rw [crossing_length] at hend
    have hbounds := crossing_bounds o bits b k
    have hbounds' := crossing_bounds o bits b (k + 1)
    rw [List.drop_eq_getElem_cons hlt] at hrun ⊢
    -- the run that ends with this bit
    have hrun' : MaxRun 8 (List.replicate ((if bits[k] = c then j + 1 else 0) + 1) bits[k] ++
        bits.drop (k + 1)) := by
      split_ifs with hbc
      · rw [hbc] at hrun ⊢
        rw [List.replicate_succ', List.append_assoc]
        exact hrun
      · exact hrun.of_infix (List.suffix_append _ _).isInfix
    have hj : bits[k] = c → j ≤ 6 := by
      intro hbc
      rw [if_pos hbc] at hrun'
      have := hrun'.replicate_le
      omega
    obtain ⟨len, hlen⟩ := Nat.exists_eq_add_of_le hnext
    rw [hlen] at hbounds'
    obtain ⟨htimed, hout⟩ := ht.bit hbounds.1 hbounds.2 hbounds'.1 hbounds'.2 hj
    rw [← hlen] at htimed
    rw [range'_cut hnext hend, List.map_append, Mealy.outputs_append, List.reduceOption_append,
      h.map_range' hlt h2, hlen, Nat.add_sub_cancel_left, hout, ← hlen,
      ih hlt (Nat.le_succ_of_le h2) htimed hrun' (by omega), List.singleton_append]

/-! ## The search -/

/-- A history that does not match together with the end of a preamble: where tap 13 can read it,
it reads a one, or tap 15 reads a zero. -/
def Quiet (hist : List DataBit) : Prop :=
  ∀ m < 299, hist.getD m false = true ∨ hist.getD (m + 46) false = false

/-- Nothing received. -/
theorem quiet_nil : Quiet [] := fun _ _ => Or.inr rfl

/-- Ones in front of a quiet history. -/
theorem Quiet.ones {hist : List DataBit} (h : Quiet hist) (m : ℕ) :
    Quiet (List.replicate m true ++ hist) := by
  intro i hi
  rcases Nat.lt_or_ge i m with hlt | hge
  · rw [List.getD_append _ _ _ _ (by rwa [List.length_replicate]), List.getD_replicate _ hlt]
    exact Or.inl rfl
  · have hrest := h (i - m) (by omega)
    rw [List.getD_append_right _ _ _ _ (by rwa [List.length_replicate]),
      List.getD_append_right _ _ _ _ (by rw [List.length_replicate]; omega), List.length_replicate,
      show i + 46 - m = i - m + 46 by omega]
    exact hrest

/-- The history after sample `p` of the stream. -/
def historyAt (b : ℕ → DataBit) (hist : List DataBit) (p : ℕ) : List DataBit :=
  ((List.range (p + 1)).map b).reverse ++ hist

theorem getD_historyAt (b : ℕ → DataBit) (hist : List DataBit) {p m : ℕ} (h : m ≤ p) :
    (historyAt b hist p).getD m false = b (p - m) := by
  rw [historyAt, List.getD_append _ _ _ _ (by simp; omega),
    List.getD_eq_getElem _ _ (by simp; omega), List.getElem_reverse]
  simp

theorem getD_historyAt_old (b : ℕ → DataBit) (hist : List DataBit) {p m : ℕ} (h : p < m) :
    (historyAt b hist p).getD m false = hist.getD (m - (p + 1)) false := by
  rw [historyAt, List.getD_append_right _ _ _ _ (by simp; omega)]
  simp

section

variable {o : ℕ} {bits : List DataBit} {b : ℕ → DataBit} (h : Eye o bits b)
  (hbits : preamble15 ++ [true] <+: bits)
include hbits

/-- The bits up to the sixteenth. -/
theorem getElem_of_preamble {k : ℕ} (hk : k < 16) :
    ∃ hlt : k < bits.length, bits[k] = (preamble15 ++ [true]).getD k false := by
  have hlength : (preamble15 ++ [true]).length = 16 := by decide
  have hlt : k < bits.length := by
    have := hbits.length_le
    omega
  refine ⟨hlt, ?_⟩
  rw [List.getD_eq_getElem _ _ (by omega)]
  exact (hbits.getElem (by omega)).symm

include h

/-- Three ones in the middle of the two bytes. -/
theorem Eye.ones {n : ℕ} (hlo : bitStart o 7 < n) (hhi : n < bitStart o 10) : b n = true := by
  have hcross := crossing_bounds o bits b
  have hbit : ∀ k, 7 ≤ k → k ≤ 9 → crossing o bits b k ≤ n → n < crossing o bits b (k + 1) →
      b n = true := by
    intro k h7 h9 hle hlt
    obtain ⟨hk, hvalue⟩ := getElem_of_preamble hbits (show k < 16 by omega)
    rw [h.shows hk (by omega) hle hlt, hvalue]
    interval_cases k <;> decide
  have h7 := hcross 7
  have h10 := hcross (9 + 1)
  rcases Nat.lt_or_ge n (crossing o bits b 8) with h8 | h8
  · exact hbit 7 le_rfl (by decide) (by omega) h8
  rcases Nat.lt_or_ge n (crossing o bits b 9) with h9 | h9
  · exact hbit 8 (by decide) (by decide) h8 h9
  · exact hbit 9 (by decide) le_rfl h9 (Nat.lt_of_lt_of_le hhi h10.1)

/-- Before the sixteenth bit the pattern is not complete. -/
theorem no_match_before (ho : bitStart o 0 ≤ 67) {hist : List DataBit} (hquiet : Quiet hist) {p : ℕ}
    (hp : p < bitStart o 15) : ¬ TapsMatch (historyAt b hist p) := by
  intro hmatch
  -- where the bits 7, 10 and 15 begin
  obtain ⟨hlo7, hhi7⟩ := bitStart_bounds o 0 (show 7 ≤ 25 by decide)
  obtain ⟨hlo10, -⟩ := bitStart_bounds o 7 (show 3 ≤ 25 by decide)
  obtain ⟨-, hhi15⟩ := bitStart_bounds o 10 (show 5 ≤ 25 by decide)
  obtain ⟨hlo15, -⟩ := bitStart_bounds o 14 (show 1 ≤ 25 by decide)
  simp only [Nat.zero_add, Nat.reduceAdd, Nat.reduceMul] at hlo7 hhi7 hlo10 hhi15 hlo15
  rcases Nat.lt_or_ge p 299 with hnew | hold
  · -- tap 13 or tap 15 reads the old history
    rcases hquiet (298 - p) (by omega) with hone | hzero
    · have htap := hmatch 13 (by decide)
      rw [getD_historyAt_old _ _ (by simp only [bitDivisor]; omega),
        show bitDivisor * 13 - (p + 1) = 298 - p by simp only [bitDivisor]; omega, hone] at htap
      exact absurd htap (by decide)
    · have htap := hmatch 15 (by decide)
      rw [getD_historyAt_old _ _ (by simp only [bitDivisor]; omega),
        show bitDivisor * 15 - (p + 1) = 298 - p + 46 by simp only [bitDivisor]; omega,
        hzero] at htap
      exact absurd htap (by decide)
  rcases Nat.lt_or_ge p (bitStart o 10 + 69) with h3 | h3
  · -- tap 3 reads the three ones
    have htap := hmatch 3 (by decide)
    rw [getD_historyAt _ _ (by simp only [bitDivisor]; omega),
      h.ones hbits (by simp only [bitDivisor]; omega) (by simp only [bitDivisor]; omega)] at htap
    exact absurd htap (by decide)
  rcases Nat.lt_or_ge p (bitStart o 10 + 115) with h5 | h5
  · -- tap 5 reads the three ones
    have htap := hmatch 5 (by decide)
    rw [getD_historyAt _ _ (by simp only [bitDivisor]; omega),
      h.ones hbits (by simp only [bitDivisor]; omega) (by simp only [bitDivisor]; omega)] at htap
    exact absurd htap (by decide)
  · -- the last sample of the fifteenth bit, a zero
    have htap := hmatch 0 (by decide)
    obtain ⟨hk, hvalue⟩ := getElem_of_preamble hbits (show 14 < 16 by decide)
    rw [Nat.mul_zero, getD_historyAt _ _ (Nat.zero_le p), Nat.sub_zero,
      h.inside 14 hk (by decide) p (by omega) hp, hvalue] at htap
    exact absurd htap (by decide)

/-- By the eighth sample of the sixteenth bit it is. -/
theorem match_at (hist : List DataBit) : TapsMatch (historyAt b hist (bitStart o 15 + 7)) := by
  intro i hi
  have hi15 : i ≤ 15 := Nat.lt_succ_iff.mp hi
  obtain ⟨hlo0, -⟩ := bitStart_bounds o 0 (show 15 ≤ 25 by decide)
  obtain ⟨hlo1, hhi1⟩ := bitStart_bounds o 1 (show 14 ≤ 25 by decide)
  obtain ⟨hlo2, -⟩ := bitStart_bounds o 1 (show 1 ≤ 25 by decide)
  simp only [Nat.zero_add, Nat.reduceAdd, Nat.reduceMul] at hlo0 hlo1 hhi1 hlo2
  rw [getD_historyAt _ _ (by simp only [bitDivisor]; omega)]
  simp only [bitDivisor]
  rcases Nat.lt_or_ge i 14 with hlt | hge
  · -- the tap reads bit `15 - i` of the two bytes
    obtain ⟨hlo, hhi⟩ := bitStart_bounds o (15 - i) (show i ≤ 25 by omega)
    obtain ⟨hnext, -⟩ := bitStart_bounds o (15 - i) (show 1 ≤ 25 by decide)
    rw [Nat.sub_add_cancel hi15] at hlo hhi
    obtain ⟨hk, hvalue⟩ := getElem_of_preamble hbits (show 15 - i < 16 by omega)
    rw [h.inside (15 - i) hk (by omega) _ (by omega) (by omega), hvalue]
    have htaps : ∀ i (hi : i < nCorrBits), (preamble15 ++ [true]).getD (15 - i) false =
      syncBits[i] := by decide
    exact htaps i hi
  · -- or one of the first two
    rw [h.first _ (by omega) (by omega)]
    have htaps : ∀ i (hi : i < nCorrBits), 14 ≤ i → true = syncBits[i] := by decide
    exact htaps i hi hge

end

/-! ## The message -/

theorem historyAt_eq (b : ℕ → DataBit) (hist : List DataBit) (p : ℕ) :
    historyAt b hist p = b p :: (((List.range p).map b).reverse ++ hist) := by
  simp [historyAt, List.range_succ]

/-- The receiver searches up to the first sample that completes the pattern, delivers nothing, and
is in sync after it. -/
theorem search_until {s : RxState} (hs : s.insync = false) {hist : List DataBit}
    (hc : s.correlator.Holds hist) {b : ℕ → DataBit} {p : ℕ}
    (hmatch : TapsMatch (historyAt b hist p)) (hno : ∀ q < p, ¬ TapsMatch (historyAt b hist q)) :
    let t := Mealy.final rxStep s (((List.range p).map b).map .sample)
    bytesReceived (Mealy.outputs rxStep s (((List.range p).map b).map .sample)) = [] ∧
      rxSample t (b p) =
        ({ insync := true
           correlator := t.correlator.push (b p)
           edge := { currentSense := b p, xingcnt := 0 }
           clock := BitClock.midBit
           bytes := ByteAssembler.fresh },
          { bitTime := none, byteRx := none }) := by
  have hsearch : ∀ n, 1 ≤ n → n ≤ (demodBits (((List.range p).map b).map .sample)).length →
      ¬ TapsMatch (((demodBits (((List.range p).map b).map .sample)).take n).reverse ++ hist) := by
    intro n h1 hn
    rw [demodBits_map_sample] at hn ⊢
    rw [List.length_map, List.length_range] at hn
    obtain ⟨n, rfl⟩ := Nat.exists_eq_add_of_le' h1
    rw [← List.map_take, List.take_range, Nat.min_eq_left hn]
    exact hno n hn
  obtain ⟨hstill, hholds, hquiet⟩ := search_of_no_match hs hc hsearch
  refine ⟨hquiet, rxSample_sync hstill ?_⟩
  rw [syncCorrelator_eq_true_iff hholds, demodBits_map_sample, ← historyAt_eq]
  exact hmatch

/-- A run in front of a different bit. -/
theorem MaxRun.replicate_append {n m : ℕ} {c d : DataBit} (hcd : c ≠ d) (hm : m ≤ n)
    {bits : List DataBit} (h : MaxRun n (d :: bits)) :
    MaxRun n (List.replicate m c ++ d :: bits) := by
  induction m with
  | zero => exact h
  | succ m ih =>
    intro b hinfix
    have hcons :
        List.replicate (m + 1) c ++ d :: bits = c :: (List.replicate m c ++ d :: bits) := rfl
    rw [hcons, List.infix_cons_iff, ← hcons] at hinfix
    rcases hinfix with hprefix | hinfix
    · -- it would have to reach beyond the run
      have hfirst := hprefix.getElem (i := 0) (by simp)
      have hnext := hprefix.getElem (i := m + 1) (by simp; omega)
      simp only [List.getElem_replicate] at hfirst hnext
      rw [List.getElem_append_left (by simp), List.getElem_replicate] at hfirst
      rw [List.getElem_append_right (by simp)] at hnext
      simp only [List.length_replicate, Nat.sub_self, List.getElem_cons_zero] at hnext
      exact hcd (hfirst.symm.trans hnext)
    · exact ih (Nat.le_of_succ_le hm) b hinfix

/-- What comes after sample `p` of the sixteenth bit: the rest of its ones, and the other bits. -/
theorem Eye.samples_after {o : ℕ} {bits : List DataBit} {b : ℕ → DataBit} (h : Eye o bits b)
    (hbits : preamble15 ++ [true] <+: bits) {p : ℕ} (hlo : bitStart o 15 ≤ p)
    (hhi : p < crossing o bits b 16) :
    (List.range (bitStart o bits.length)).map b =
      (List.range p).map b ++ b p :: (List.replicate (crossing o bits b 16 - (p + 1)) true ++
        (List.range' (crossing o bits b 16)
          (bitStart o bits.length - crossing o bits b 16)).map b) := by
  have hend := crossing_mono o bits b (show 16 ≤ bits.length from hbits.length_le)
  rw [crossing_length] at hend
  have hcross := crossing_bounds o bits b 15
  obtain ⟨h15, hvalue⟩ := getElem_of_preamble hbits (show 15 < 16 by decide)
  have hones : (List.range' (p + 1) (crossing o bits b 16 - (p + 1))).map b =
      List.replicate (crossing o bits b 16 - (p + 1)) true := by
    rw [List.eq_replicate_iff, List.length_map, List.length_range']
    refine ⟨rfl, fun x hx => ?_⟩
    obtain ⟨n, hn, rfl⟩ := List.mem_map.mp hx
    obtain ⟨i, hi, rfl⟩ := List.mem_range'.mp hn
    have hbefore : p + 1 + 1 * i < crossing o bits b (15 + 1) := by
      change _ < crossing o bits b 16
      omega
    rw [h.shows h15 (by decide) (by omega) hbefore, hvalue]
    decide
  have hrange : List.range (bitStart o bits.length) =
      List.range p ++ p :: (List.range' (p + 1) (crossing o bits b 16 - (p + 1)) ++
        List.range' (crossing o bits b 16) (bitStart o bits.length - crossing o bits b 16)) := by
    have hcut := range'_cut (Nat.zero_le p) (show p ≤ bitStart o bits.length by omega)
    rw [Nat.sub_zero, Nat.sub_zero, ← List.range_eq_range', ← List.range_eq_range'] at hcut
    rw [← range'_cut (by omega) hend, hcut, show bitStart o bits.length - p =
      bitStart o bits.length - (p + 1) + 1 by omega, List.range'_succ]
  rw [hrange, List.map_append, List.map_cons, List.map_append, hones]

/-- The five ones before a preamble byte join no run longer than the byte's own seven. -/
theorem maxRun_of_preamble {xs : List DemodByte}
    (h : MaxRun 8 (preamble15 ++ [true] ++ bitString (syncByte :: xs))) :
    MaxRun 8 (List.replicate 5 true ++ bitString (syncByte :: xs)) := by
  have hfirst : bitString (syncByte :: xs) =
      true :: true :: false :: ((lsbFirst syncByte).drop 3 ++ bitString xs) := by
    rw [bitString, List.flatMap_cons]
    rfl
  rw [hfirst] at h ⊢
  refine MaxRun.replicate_append (m := 7) (by decide) (by decide) (h.of_infix ?_)
  exact ⟨preamble15 ++ [true] ++ [true, true], [], by simp⟩

/-- Taken into sync in the middle of the sixteenth bit, the receiver samples each bit of an open eye
once: it delivers the bytes of the bits that are left. -/
theorem delivered_after_sync {s : RxState} (hs : s.insync = true) (hedge : s.edge = ⟨true, 0⟩)
    (hclock : s.clock = BitClock.midBit) (hfresh : s.bytes = ByteAssembler.fresh) {o : ℕ}
    {bits : List DataBit} {b : ℕ → DataBit} (heye : Eye o bits b) {xs : List DemodByte}
    (hbits : bits = preamble15 ++ [true] ++ bitString (syncByte :: xs)) (hrun : MaxRun 8 bits)
    {p : ℕ} (hlo : bitStart o 15 ≤ p) (hhi : p ≤ bitStart o 15 + 7) :
    bytesReceived (Mealy.outputs rxStep s
      ((List.replicate (crossing o bits b 16 - (p + 1)) true ++
        (List.range' (crossing o bits b 16)
          (bitStart o bits.length - crossing o bits b 16)).map b).map .sample)) =
        syncByte :: xs := by
  have hlength : 16 ≤ bits.length := by
    rw [hbits, List.length_append]
    exact Nat.le_add_right 16 _
  have hdrop : bits.drop 16 = bitString (syncByte :: xs) := by
    rw [hbits, List.drop_left' (by decide)]
  -- what is left of the sixteenth bit is half a bit time or more
  obtain ⟨hpace, hpace'⟩ := bitStart_bounds o 15 (show 1 ≤ 25 by decide)
  simp only [Nat.reduceAdd, Nat.reduceMul] at hpace hpace'
  have hcross := crossing_bounds o bits b 16
  obtain ⟨len, hlen⟩ : ∃ len, crossing o bits b 16 - (p + 1) = len := ⟨_, rfl⟩
  rw [hlen]
  have hmid := sampler_same true (d := 11) (w := 22) (n := len) (by omega) (by omega)
  have htimed : Timed o 16 4 (crossing o bits b 16) true (⟨true, 0⟩, ⟨11 + 24 - len, 22⟩) := by
    refine ⟨rfl, ?_, ?_, Nat.le_add_right 22 4⟩
    · simp only
      omega
    · simp only
      omega
  have hrun' : MaxRun 8 (List.replicate (4 + 1) true ++ bits.drop 16) := by
    rw [hdrop]
    exact maxRun_of_preamble (hbits ▸ hrun)
  have hsampled := sampled_eye heye hlength (by decide) htimed hrun'
  have hdelivered := (run_inSync hs (List.replicate len true ++
    (List.range' (crossing o bits b 16) (bitStart o bits.length - crossing o bits b 16)).map b)).2.2
  have hstart : (s.edge, s.clock) = ((⟨true, 0⟩, ⟨11, 22 + 1⟩) : EdgeState × BitClock) := by
    rw [hedge, hclock]
    rfl
  rw [hstart, hfresh, Mealy.outputs_append, List.reduceOption_append, hmid.1, hmid.2, hsampled,
    hdrop, List.singleton_append, receiveBit_fresh] at hdelivered
  exact hdelivered

section

variable {s : RxState} (hs : s.insync = false) {hist : List DataBit} (hc : s.correlator.Holds hist)
  (hquiet : Quiet hist) {k : ℕ} (hk : 3 ≤ k) {payload : List DemodByte}
  (hrun : MaxRun 8 (transmission k payload)) {o : ℕ} (ho : bitStart o 0 ≤ 67) {b : ℕ → DataBit}
  (heye : Eye o (transmission k payload) b)
include hs hc hquiet hk hrun ho heye

/-- A searching receiver with a quiet history finds sync in an open eye and delivers the message
without two of its preamble bytes. -/
theorem message_of_eye :
    bytesReceived (Mealy.outputs rxStep s
      (((List.range (bitStart o (transmission k payload).length)).map b).map .sample)) =
        List.replicate (k - 2) syncByte ++ payload := by
  obtain ⟨k, rfl⟩ := Nat.exists_eq_add_of_le' hk
  set bits := transmission (k + 3) payload with hbits
  have hsplit : bits =
      preamble15 ++ [true] ++ bitString (syncByte :: (List.replicate k syncByte ++ payload)) := by
    rw [hbits, transmission_eq, List.append_assoc]
    rfl
  have hprefix : preamble15 ++ [true] <+: bits := ⟨_, hsplit.symm⟩
  -- the first sample that completes the pattern
  have hexists : ∃ p, TapsMatch (historyAt b hist p) := ⟨_, match_at heye hprefix hist⟩
  classical
  set p := Nat.find hexists with hp
  have hmatch : TapsMatch (historyAt b hist p) := Nat.find_spec hexists
  have hhi : p ≤ bitStart o 15 + 7 := Nat.find_min' hexists (match_at heye hprefix hist)
  have hlo : bitStart o 15 ≤ p := by
    by_contra hlt
    exact no_match_before heye hprefix ho hquiet (Nat.lt_of_not_le hlt) hmatch
  have hone : b p = true := by
    rw [historyAt_eq] at hmatch
    exact hmatch.head
  obtain ⟨hsilent, hsync⟩ := search_until hs hc hmatch fun q hq => Nat.find_min hexists hq
  set t := Mealy.final rxStep s (((List.range p).map b).map .sample)
  have hafter := delivered_after_sync (s := (rxSample t (b p)).1)
    (by rw [hsync]) (by rw [hsync, hone]) (by rw [hsync]) (by rw [hsync]) heye hsplit hrun hlo hhi
  have hbefore : p < crossing o bits b 16 := by
    have hpace := (bitStart_bounds o 15 (show 1 ≤ 25 by decide)).1
    have hcross := (crossing_bounds o bits b 16).1
    simp only [Nat.reduceAdd, Nat.reduceMul] at hpace
    omega
  rw [heye.samples_after hprefix hlo hbefore, List.map_append, List.map_cons, Mealy.outputs_append,
    bytesReceived_append, hsilent, List.nil_append, Mealy.outputs_cons]
  have hnothing : (rxStep t (.sample (b p))).2 = { bitTime := none, byteRx := none } := by
    rw [rxStep, hsync]
  rw [hnothing, bytesReceived_cons_none]
  exact hafter

/-- **The message of an open eye.** A searching receiver with a quiet history gets a stream that
shows a transmission of at least three preamble bytes without a run of more than eight equal bits,
and then anything: it delivers the message, without two of the preamble bytes, and more only if
something follows. -/
theorem bytesReceived_eye (rest : List DataBit) :
    ∃ more, bytesReceived (Mealy.outputs rxStep s
        (((List.range (bitStart o (transmission k payload).length)).map b ++ rest).map .sample)) =
          List.replicate (k - 2) syncByte ++ payload ++ more ∧
      (rest = [] → more = []) := by
  have hmessage := message_of_eye hs hc hquiet hk hrun ho heye
  rw [List.map_append, Mealy.outputs_append, bytesReceived_append, hmessage]
  refine ⟨_, rfl, ?_⟩
  rintro rfl
  rfl

end

/-! ## The ideal stream -/

/-- The stream that shows bit `k` from its first sample on. -/
def idealStream (o : ℕ) (bits : List DataBit) (n : ℕ) : DataBit :=
  bits.getD ((25 * n + 24 - o) / 576) true

theorem idealStream_eq {o : ℕ} {bits : List DataBit} {k : ℕ} (hk : k < bits.length) {n : ℕ}
    (hlo : bitStart o k ≤ n) (hhi : n < bitStart o (k + 1)) : idealStream o bits n = bits[k] := by
  have hindex : (25 * n + 24 - o) / 576 = k := by
    unfold bitStart at hlo hhi
    omega
  rw [idealStream, hindex, List.getD_eq_getElem _ _ hk]

/-- Its eye is open. -/
theorem eye_idealStream {o : ℕ} {bits : List DataBit} (hfirst : [true, true] <+: bits) :
    Eye o bits (idealStream o bits) where
  first n hlo hhi := by
    have hlength : 2 ≤ bits.length := hfirst.length_le
    have hone : ∀ k (hk : k < 2), bits[k] = true := by
      intro k hk
      rw [← hfirst.getElem hk]
      interval_cases k <;> rfl
    rcases Nat.lt_or_ge n (bitStart o 1) with hlt | hge
    · rw [idealStream_eq (k := 0) (by omega) (by omega) hlt, hone 0 (by decide)]
    · rw [idealStream_eq (k := 1) (by omega) hge hhi, hone 1 (by decide)]
  inside k hk _ n hlo hhi := idealStream_eq hk hlo.le hhi
  same k hk _ heq := by
    obtain ⟨hpace, -⟩ := bitStart_bounds o (k + 1) (show 1 ≤ 25 by decide)
    rw [idealStream_eq hk le_rfl (by omega), heq]

/-- Three preamble bytes and one `Z`. -/
theorem bytesReceived_eye_Z :
    bytesReceived (Mealy.outputs rxStep (RxState.start 0 0)
      (((List.range (bitStart 0 (transmission 3 [0x5A]).length)).map
        (idealStream 0 (transmission 3 [0x5A])) ++ []).map .sample)) = [syncByte, 0x5A] := by
  have hfirst : [true, true] <+: transmission 3 [0x5A] := by decide
  have hrun : MaxRun 8 (transmission 3 [0x5A]) := by
    unfold MaxRun
    decide
  obtain ⟨more, hmore, hnone⟩ := bytesReceived_eye (s := RxState.start 0 0) rfl
    Correlator.holds_zero quiet_nil le_rfl hrun (by decide) (eye_idealStream (o := 0) hfirst) []
  rw [hmore, hnone rfl]
  decide

end PiWxRx
