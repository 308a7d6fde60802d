import PiWxRx.FSK.Framing

/-!
# Finding the preamble

A transmitted bit string as the demodulator sees it: each bit is held for `23` or `24` samples
(`Jitter`, `held`). Read backwards from a bit boundary, the correlator taps `23` samples apart hit
one bit each (`getD_held`), because over sixteen bits the drift stays below a bit. So on two
preamble bytes the receiver finds sync at the first sample of the sixteenth bit and not before
(`search_preamble`, `sync_preamble`).
-/

namespace PiWxRx

/-- The samples of a list of bits, each held for the given number of samples. -/
def held (L : List (DataBit × ℕ)) : List DataBit := L.flatMap fun p => List.replicate p.2 p.1

/-- Every bit is held for `23` or `24` samples. -/
def Jitter (L : List (DataBit × ℕ)) : Prop := ∀ p ∈ L, p.2 = 23 ∨ p.2 = 24

/-- The bit string of a list of bytes, each sent least significant bit first. -/
def bitString (bytes : List DemodByte) : List DataBit := bytes.flatMap lsbFirst

@[simp] theorem held_nil : held [] = [] := rfl

@[simp] theorem held_cons (p : DataBit × ℕ) (L : List (DataBit × ℕ)) :
    held (p :: L) = List.replicate p.2 p.1 ++ held L := rfl

@[simp] theorem held_append (L M : List (DataBit × ℕ)) : held (L ++ M) = held L ++ held M :=
  List.flatMap_append

theorem held_reverse (L : List (DataBit × ℕ)) : (held L).reverse = held L.reverse := by
  induction L with
  | nil => rfl
  | cons p L ih => simp [ih]

theorem Jitter.of_append {L M : List (DataBit × ℕ)} (h : Jitter (L ++ M)) :
    Jitter L ∧ Jitter M :=
  ⟨fun p hp => h p (List.mem_append_left M hp), fun p hp => h p (List.mem_append_right L hp)⟩

theorem Jitter.of_cons {p : DataBit × ℕ} {L : List (DataBit × ℕ)} (h : Jitter (p :: L)) :
    (p.2 = 23 ∨ p.2 = 24) ∧ Jitter L :=
  ⟨h p List.mem_cons_self, fun q hq => h q (List.mem_cons_of_mem p hq)⟩

theorem length_held_le {L : List (DataBit × ℕ)} (h : Jitter L) :
    (held L).length ≤ 24 * L.length := by
  induction L with
  | nil => simp
  | cons p L ih =>
    obtain ⟨hp, hL⟩ := h.of_cons
    have := ih hL
    simp only [held_cons, List.length_append, List.length_replicate, List.length_cons]
    omega

/-- Position `23 * m + 22 - e` of a held bit string lies in bit `m`, as long as the drift
allowance `e + m` stays below a bit. -/
theorem getD_held {L : List (DataBit × ℕ)} (h : Jitter L) {m e : ℕ} (hm : m < L.length)
    (he : e + m ≤ 22) : (held L).getD (23 * m + 22 - e) false = L[m].1 := by
  induction L generalizing m e with
  | nil => simp at hm
  | cons p L ih =>
    obtain ⟨hp, hL⟩ := h.of_cons
    rw [held_cons]
    -- every bit held for `24` samples takes one off the allowance
    cases m with
    | zero =>
      rw [List.getD_append _ _ _ _ (by rw [List.length_replicate]; omega)]
      simp only [List.getD_eq_getElem?_getD, List.getElem?_replicate, List.getElem_cons_zero]
      rw [if_pos (by omega), Option.getD_some]
    | succ m =>
      rw [List.getD_append_right _ _ _ _ (by rw [List.length_replicate]; omega),
        List.length_replicate, List.getElem_cons_succ]
      rcases hp with hp | hp
      · rw [hp, show 23 * (m + 1) + 22 - e - 23 = 23 * m + 22 - e by omega]
        exact ih hL (by simpa using hm) (by omega)
      · rw [hp, show 23 * (m + 1) + 22 - e - 24 = 23 * m + 22 - (e + 1) by omega]
        exact ih hL (by simpa using hm) (by omega)

/-- The first fifteen bits of two preamble bytes. -/
def preamble15 : List DataBit := (bitString [syncByte, syncByte]).take 15

/-- On the first fifteen bits of the preamble no sample completes the pattern: the taps either
reach back before the first sample or end in the fifteenth bit, which is a zero. -/
theorem no_match_preamble {L : List (DataBit × ℕ)} (hL : L.map Prod.fst = preamble15)
    (hj : Jitter L) (n : ℕ) (hn : n ≤ (held L).length) :
    ¬ TapsMatch ((held L).take n).reverse := by
  intro hmatch
  have hlen := hmatch.length_lt
  rw [List.length_reverse, List.length_take, Nat.min_eq_left hn, bitDivisor] at hlen
  -- split off the fifteenth bit
  obtain ⟨M, N, rfl, hM, hN⟩ := List.map_eq_append_iff.mp
    (hL.trans (show preamble15 = preamble15.take 14 ++ [false] by decide))
  obtain ⟨p, rfl, hp⟩ := List.map_eq_singleton_iff.mp hN
  have hM14 : M.length = 14 := by
    rw [← List.length_map (f := Prod.fst), hM]
    decide
  have hbound := length_held_le hj.of_append.1
  rw [hM14] at hbound
  simp only [held_append, held_cons, held_nil, List.append_nil, List.length_append,
    List.length_replicate] at hn hmatch
  -- fourteen bits are at most `336` samples, so the newest of `346` or more is one of that bit
  obtain ⟨r, hr⟩ : ∃ r, n - (held M).length = r + 1 :=
    ⟨n - (held M).length - 1, by omega⟩
  rw [List.take_append, List.take_replicate, List.reverse_append, List.reverse_replicate,
    Nat.min_eq_left (by omega), hr, List.replicate_succ, List.cons_append] at hmatch
  rw [hp] at hmatch
  exact absurd hmatch.head (by decide)

/-- With fifteen preamble bits behind it, a one completes the pattern, and so do up to eight more
samples of it. -/
theorem match_preamble {L : List (DataBit × ℕ)} (hL : L.map Prod.fst = preamble15)
    (hj : Jitter L) {e : ℕ} (he : e ≤ 8) :
    TapsMatch (List.replicate (e + 1) true ++ (held L).reverse) := by
  have hlen : L.length = 15 := by
    rw [← List.length_map (f := Prod.fst), hL]
    decide
  intro i hi
  cases i with
  | zero => simp [syncBits, List.replicate_succ]
  | succ i =>
    have hi15 : i < 15 := Nat.lt_of_succ_lt_succ hi
    have hlt : i < L.reverse.length := by simpa [hlen] using hi15
    -- tap `i + 1` reads bit `i` from the end
    have hbit : L.reverse[i].1 = syncBits[i + 1] := by
      have hrev : (L.reverse.map Prod.fst)[i]? = preamble15.reverse[i]? := by
        rw [List.map_reverse, hL]
      rw [List.getElem?_map, List.getElem?_eq_getElem hlt, Option.map_some] at hrev
      have htap : ∀ m < 15, preamble15.reverse[m]? = syncBits[m + 1]? := by decide
      rw [htap i hi15, Vector.getElem?_eq_getElem hi] at hrev
      exact Option.some.inj hrev
    have hidx : bitDivisor * (i + 1) - (e + 1) = 23 * i + 22 - e := by
      simp only [bitDivisor]
      omega
    rw [List.getD_append_right _ _ _ _ (by simp only [List.length_replicate, bitDivisor]; omega),
      List.length_replicate, hidx, held_reverse,
      getD_held (fun p hp => hj p (List.mem_reverse.mp hp)) hlt (by omega)]
    exact hbit

/-- From program start the receiver searches through the first fifteen preamble bits, delivers
nothing, and has exactly them in its correlator. -/
theorem search_preamble {L : List (DataBit × ℕ)} (hL : L.map Prod.fst = preamble15)
    (hj : Jitter L) (demodByte : DemodByte) (bitctr : ℕ) :
    let s := Mealy.final rxStep (RxState.start demodByte bitctr) ((held L).map .sample)
    s.insync = false ∧ s.correlator.Holds (held L).reverse ∧
      bytesReceived (Mealy.outputs rxStep (RxState.start demodByte bitctr)
        ((held L).map .sample)) = [] := by
  have hno : ∀ n, 1 ≤ n → n ≤ (demodBits ((held L).map .sample)).length →
      ¬ TapsMatch (((demodBits ((held L).map .sample)).take n).reverse ++ []) := by
    intro n h1 hn
    simp only [demodBits_map_sample, List.append_nil] at hn ⊢
    exact no_match_preamble hL hj n hn
  have hrun := search_of_no_match (s := RxState.start demodByte bitctr) rfl
    Correlator.holds_zero hno
  simpa using hrun

/-- The first sample of the sixteenth preamble bit brings the receiver into sync. -/
theorem sync_preamble {L : List (DataBit × ℕ)} (hL : L.map Prod.fst = preamble15)
    (hj : Jitter L) (demodByte : DemodByte) (bitctr : ℕ) :
    let s := Mealy.final rxStep (RxState.start demodByte bitctr) ((held L).map .sample)
    rxSample s true =
      ({ insync := true
         correlator := s.correlator.push true
         edge := { currentSense := true, xingcnt := 0 }
         clock := BitClock.midBit
         bytes := ByteAssembler.fresh },
        { bitTime := none, byteRx := none }) := by
  obtain ⟨hs, hc, -⟩ := search_preamble hL hj demodByte bitctr
  apply rxSample_sync hs
  rw [syncCorrelator_eq_true_iff hc]
  exact match_preamble hL hj (Nat.zero_le 8)

end PiWxRx
