import PiWxRx.FSK.Preamble

/-!
# Clearing sync

`DSPClearSync` only resets the `insync` flag. The correlator was frozen while the receiver was in
sync and keeps the bits from before the clear; the search goes on with the new bits shifted in
front of them. So the next sync is justified by bits received after the clear exactly if no mix
of new and stale bits matches the taps (`justified_iff_no_stale_match`), and right after a clean
preamble one more bit is enough to break that (`stale_sync`).
-/

namespace PiWxRx

/-- The run `fs` ends with the event that first brings the receiver into sync. -/
def FirstSync (s : RxState) (fs : List RxEvent) : Prop :=
  (Mealy.final rxStep s fs).insync = true ∧
    ∀ p, p <+: fs → p ≠ fs → (Mealy.final rxStep s p).insync = false

/-- Sync at the end of `bits` is justified by them alone: they span all sixteen taps, and the
bits `23` apart ending at the newest one are the expected ones. -/
def Justified (bits : List DataBit) : Prop :=
  bitDivisor * 15 + 1 ≤ bits.length ∧
    ∀ i (hi : i < nCorrBits), bits.reverse[bitDivisor * i]? = some syncBits[i]

/-- Some of the first `345` bits, in front of the correlator contents `stale`, complete the
pattern with at least one tap in the stale bits. -/
def StaleMatch (stale : List DataBit) (bits : List DataBit) : Prop :=
  ∃ n, 1 ≤ n ∧ n ≤ bitDivisor * 15 ∧ n ≤ bits.length ∧
    TapsMatch ((bits.take n).reverse ++ stale)

/-- A searching receiver that finds sync does so at a sample that completes the pattern. -/
theorem FirstSync.tapsMatch {s : RxState} (hs : s.insync = false) {hist : List DataBit}
    (hc : s.correlator.Holds hist) {fs : List RxEvent} (h : FirstSync s fs) :
    1 ≤ (demodBits fs).length ∧ TapsMatch ((demodBits fs).reverse ++ hist) := by
  obtain ⟨hsync, hfirst⟩ := h
  induction fs using List.reverseRecOn with
  | nil =>
    rw [Mealy.final_nil, hs] at hsync
    exact absurd hsync (by decide)
  | append_singleton fs e _ =>
    -- up to the last event the receiver searches
    have hsearch : ∀ p, p <+: fs → (Mealy.final rxStep s p).insync = false := by
      intro p hp
      refine hfirst p (hp.trans (List.prefix_append _ _)) fun heq => ?_
      have := hp.length_le
      rw [heq, List.length_append, List.length_singleton] at this
      omega
    obtain ⟨hq, hholds, -⟩ := search_of_no_match hs hc (no_match_of_search hc hsearch)
    cases e with
    | clearSync => simp [rxStep, dspClearSync] at hsync
    | sample b =>
      rw [Mealy.final_append, Mealy.final_cons, Mealy.final_nil, rxStep, insync_rxSample, hq,
        Bool.false_or, syncCorrelator_eq_true_iff hholds] at hsync
      exact ⟨by simp, by simpa using hsync⟩

/-- A bit that completes the pattern at once is a first sync. -/
theorem firstSync_singleton {s : RxState} (hs : s.insync = false) {hist : List DataBit}
    (hc : s.correlator.Holds hist) {b : DataBit} (hmatch : TapsMatch (b :: hist)) :
    FirstSync s [.sample b] := by
  refine ⟨?_, fun p hp hne => ?_⟩
  · rw [Mealy.final_cons, Mealy.final_nil, rxStep, insync_rxSample, hs, Bool.false_or,
      syncCorrelator_eq_true_iff hc]
    exact hmatch
  · rcases p with _ | ⟨e, p⟩
    · exact hs
    · obtain ⟨rfl, hp'⟩ := List.cons_prefix_cons.mp hp
      rw [List.prefix_nil.mp hp'] at hne
      exact absurd rfl hne

/-- A match that is the first one brings a searching receiver into sync for the first time. -/
theorem exists_firstSync {s : RxState} (hs : s.insync = false) {hist : List DataBit}
    (hc : s.correlator.Holds hist) {fs : List RxEvent} {n : ℕ} (h1 : 1 ≤ n)
    (hn : n ≤ (demodBits fs).length) (hmatch : TapsMatch (((demodBits fs).take n).reverse ++ hist))
    (hfirst : ∀ m, 1 ≤ m → m < n → ¬ TapsMatch (((demodBits fs).take m).reverse ++ hist)) :
    ∃ p, p <+: fs ∧ FirstSync s p ∧ (demodBits p).length = n := by
  induction fs generalizing s hist n with
  | nil =>
    simp only [demodBits_nil, List.length_nil] at hn
    omega
  | cons e fs ih =>
    -- a first sync of the rest is one of the whole run: here the receiver still searches
    have hextend : ∀ p, FirstSync (rxStep s e).1 p → FirstSync s (e :: p) := by
      rintro p ⟨hp, hq⟩
      refine ⟨hp, fun q hqp hne => ?_⟩
      rcases q with _ | ⟨e', q⟩
      · exact hs
      · obtain ⟨rfl, hqp'⟩ := List.cons_prefix_cons.mp hqp
        exact hq q hqp' fun heq => hne (by rw [heq])
    cases e with
    | clearSync =>
      obtain ⟨p, hp, hfs, hlen⟩ := ih hs hc h1 hn hmatch hfirst
      refine ⟨.clearSync :: p, List.cons_prefix_cons.mpr ⟨rfl, hp⟩, hextend p ?_, hlen⟩
      rw [rxStep, dspClearSync_of_search hs]
      exact hfs
    | sample b =>
      rcases Nat.eq_or_lt_of_le h1 with rfl | hlt
      · -- the first bit completes the pattern
        exact ⟨[.sample b], List.cons_prefix_cons.mpr ⟨rfl, List.nil_prefix⟩,
          firstSync_singleton hs hc (by simpa using hmatch), rfl⟩
      · obtain ⟨n, rfl⟩ := Nat.exists_eq_add_of_le' h1
        have hb : (syncCorrelator s.correlator b).1 = false := by
          rw [← Bool.not_eq_true, syncCorrelator_eq_true_iff hc]
          simpa using hfirst 1 le_rfl hlt
        have hstep := rxSample_search hs hb
        have hc' : (rxSample s b).1.correlator.Holds (b :: hist) := by
          rw [hstep]
          exact Correlator.holds_push hc b
        obtain ⟨p, hp, hfs, hlen⟩ := ih (n := n) (by rw [hstep]; exact hs) hc' (by omega)
          (by simpa using hn) (by simpa using hmatch)
          (fun m hm1 hm => by simpa using hfirst (m + 1) (by omega) (by omega))
        exact ⟨.sample b :: p, List.cons_prefix_cons.mpr ⟨rfl, hp⟩, hextend p hfs, by simp [hlen]⟩

/-- When sync is cleared in any run, every first sync after the clear is justified by bits
received after it exactly if no mix of these bits with the stale correlator contents matches. -/
theorem justified_iff_no_stale_match (demodByte : DemodByte) (bitctr : ℕ) (es fs : List RxEvent) :
    (∀ p, p <+: fs →
      FirstSync (dspClearSync (Mealy.final rxStep (RxState.start demodByte bitctr) es)) p →
        Justified (demodBits p)) ↔
      ¬ StaleMatch
        (Mealy.final rxStep (RxState.start demodByte bitctr) es).correlator.toList
        (demodBits fs) := by
  set s := Mealy.final rxStep (RxState.start demodByte bitctr) es
  have hc : (dspClearSync s).correlator.Holds s.correlator.toList := DelayLine.holds_toList _ _
  constructor
  · rintro hall ⟨n, h1, h345, hn, hmatch⟩
    -- the earliest match is a first sync
    classical
    have hex : ∃ m, 1 ≤ m ∧ TapsMatch (((demodBits fs).take m).reverse ++ s.correlator.toList) :=
      ⟨n, h1, hmatch⟩
    have hle : Nat.find hex ≤ n := Nat.find_le ⟨h1, hmatch⟩
    obtain ⟨p, hp, hfs, hlen⟩ := exists_firstSync (s := dspClearSync s) rfl hc
      (Nat.find_spec hex).1 (hle.trans hn) (Nat.find_spec hex).2
      (fun m hm1 hm hmm => Nat.find_min hex hm ⟨hm1, hmm⟩)
    have hspan := (hall p hp hfs).1
    omega
  · intro hno p hp hfs
    obtain ⟨h1, hmatch⟩ := hfs.tapsMatch rfl hc
    have hbits : demodBits p <+: demodBits fs := hp.filterMap _
    -- fewer bits would make the match a stale one
    have hspan : bitDivisor * 15 < (demodBits p).length := by
      by_contra hle
      refine hno ⟨(demodBits p).length, h1, by omega, hbits.length_le, ?_⟩
      rw [← List.prefix_iff_eq_take.mp hbits]
      exact hmatch
    refine ⟨hspan, fun i hi => ?_⟩
    -- so every tap reads a bit received after the clear
    have htap : bitDivisor * i < (demodBits p).reverse.length := by
      have := Nat.mul_le_mul_left bitDivisor (show i ≤ 15 from Nat.le_of_lt_succ hi)
      rw [List.length_reverse]
      omega
    have hi' := hmatch i hi
    rw [List.getD_append _ _ _ _ htap, List.getD_eq_getElem _ _ htap] at hi'
    rw [List.getElem?_eq_getElem htap, hi']

/-- Sync is found on two preamble bytes, cleared, and found again with the very next bit: all but
one of the sixteen taps read bits from before the clear. -/
theorem stale_sync :
    (Mealy.final rxStep (RxState.start 0 0)
      ((held (preamble15.map (·, 23)) ++ [true]).map .sample)).insync = true ∧
    FirstSync (dspClearSync (Mealy.final rxStep (RxState.start 0 0)
      ((held (preamble15.map (·, 23)) ++ [true]).map .sample))) [.sample true] ∧
    ¬ Justified (demodBits [.sample true]) := by
  have hL : (preamble15.map (·, 23)).map Prod.fst = preamble15 := by decide
  have hj : Jitter (preamble15.map (·, 23)) := by unfold Jitter; decide
  obtain ⟨-, hc, -⟩ := search_preamble hL hj 0 0
  have hsync := sync_preamble hL hj 0 0
  simp only at hc hsync
  have hfinal : Mealy.final rxStep (RxState.start 0 0)
      ((held (preamble15.map (·, 23)) ++ [true]).map .sample) =
      (rxSample (Mealy.final rxStep (RxState.start 0 0)
        ((held (preamble15.map (·, 23))).map .sample)) true).1 := by
    rw [List.map_append, Mealy.final_append, List.map_cons, List.map_nil, Mealy.final_cons,
      Mealy.final_nil, rxStep]
  rw [hfinal, hsync]
  refine ⟨rfl, ?_, fun h => absurd h.1 (by decide)⟩
  exact firstSync_singleton rfl (Correlator.holds_push hc true)
    (match_preamble hL hj (e := 1) (by decide))

end PiWxRx
