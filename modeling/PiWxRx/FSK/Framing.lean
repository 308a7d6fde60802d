import PiWxRx.FSK.Receiver

/-!
# Byte framing

What the byte assembler makes of the bits sampled in one sync episode, whatever they are. The
register of `receiveBit` is the last eight sampled bits, zero-filled at the start of the episode
(`lsbFirst_final_receiveBit`). So nothing is delivered before the last eight bits sampled spell
`SYNC_BYTE`, least significant bit first; that byte is delivered, and from there on the sampled
bits are cut into bytes without a gap.

* `Framed S D` states this relation between the bits `S` sampled and the bytes `D` delivered;
  `framed_receiveBit` is the run lemma of the assembler.
* `Episode` cuts a run of the receiver at the sample where sync is declared;
  `exists_episode` shows that a receiver in sync is inside one.
-/

namespace PiWxRx

/-- The bits of a byte in the order of transmission, least significant bit first. -/
def lsbFirst (x : DemodByte) : List DataBit := List.ofFn fun i : Fin bitsPerByte => x.getLsbD i

@[simp] theorem length_lsbFirst (x : DemodByte) : (lsbFirst x).length = 8 := by
  simp [lsbFirst]

theorem getElem_lsbFirst (x : DemodByte) (i : ℕ) (hi : i < (lsbFirst x).length) :
    (lsbFirst x)[i] = x.getLsbD i := by
  simp only [lsbFirst, List.getElem_ofFn]

theorem lsbFirst_injective : Function.Injective lsbFirst := by
  intro x y h
  refine BitVec.eq_of_getLsbD_eq fun i hi => ?_
  rw [← getElem_lsbFirst x i (by simpa using hi), ← getElem_lsbFirst y i (by simpa using hi)]
  simp only [h]

theorem getLsbD_shiftIn (r : DemodByte) (b : DataBit) {i : ℕ} (hi : i < 8) :
    (shiftIn r b).getLsbD i = if i = 7 then b else r.getLsbD (i + 1) := by
  cases b <;> interval_cases i <;> simp [shiftIn]

/-- Shifting a bit in drops the oldest bit of the register and appends the new one. -/
theorem lsbFirst_shiftIn (r : DemodByte) (b : DataBit) :
    lsbFirst (shiftIn r b) = (lsbFirst r).drop 1 ++ [b] := by
  refine List.ext_getElem (by simp) fun i h1 h2 => ?_
  have hi : i < 8 := by simpa using h1
  rw [getElem_lsbFirst, getLsbD_shiftIn r b hi]
  -- the new bit is the most significant one, the others move down
  rcases Nat.lt_or_ge i 7 with hlt | hge
  · rw [if_neg (by omega), List.getElem_append_left (by simpa using hlt), List.getElem_drop,
      getElem_lsbFirst, Nat.add_comm]
  · obtain rfl : i = 7 := by omega
    rw [if_pos rfl, List.getElem_append_right (by simp)]
    simp

/-! ## The register -/

/-- The last eight bits of a zero-filled register that `S` was shifted into. -/
def register (S : List DataBit) : List DataBit := (List.replicate 8 false ++ S).drop S.length

/-- The last eight of the first `n` bits of `S`. -/
def window (S : List DataBit) (n : ℕ) : List DataBit := (S.take n).drop (n - 8)

theorem register_concat (S : List DataBit) (b : DataBit) :
    register (S ++ [b]) = (register S).drop 1 ++ [b] := by
  rw [register, register, List.drop_drop, ← List.append_assoc, List.length_append,
    List.drop_append_of_le_length (by simp)]
  simp

/-- Once eight bits were shifted in, the register is the window at the end. -/
theorem register_eq_window {S : List DataBit} (h : 8 ≤ S.length) :
    register S = window S S.length := by
  rw [register, window, List.take_length, List.drop_append, List.drop_eq_nil_of_le (by simpa),
    List.length_replicate, List.nil_append]

/-- A register that spells `SYNC_BYTE` has no fill bits left: its oldest bit is a one. -/
theorem eight_le_of_register_eq {S : List DataBit} (h : register S = lsbFirst syncByte) :
    8 ≤ S.length := by
  by_contra hlt
  have h0 := congrArg (fun l => l[0]?) h
  simp only [register, List.getElem?_drop, Nat.add_zero] at h0
  rw [List.getElem?_append_left (by simp; omega), List.getElem?_replicate, if_pos (by omega)] at h0
  exact absurd h0 (by decide)

theorem window_append (S T : List DataBit) {n : ℕ} (hn : n ≤ S.length) :
    window (S ++ T) n = window S n := by
  rw [window, window, List.take_append_of_le_length hn]

/-! ## The framing relation -/

/-- `n` bits into `S` the last eight bits are `SYNC_BYTE`, for the first time. -/
structure IsFirstSync (S : List DataBit) (n : ℕ) : Prop where
  eight_le : 8 ≤ n
  le_length : n ≤ S.length
  window_eq : window S n = lsbFirst syncByte
  first : ∀ m, 8 ≤ m → m < n → window S m ≠ lsbFirst syncByte

/-- `D` is the framing of the sampled bits `S`: nothing until the first `SYNC_BYTE`, then that
byte, then the following bits eight by eight. -/
def Framed (S : List DataBit) (D : List DemodByte) : Prop :=
  ((∀ n, 8 ≤ n → n ≤ S.length → window S n ≠ lsbFirst syncByte) ∧ D = []) ∨
  ∃ n, IsFirstSync S n ∧ D.length = 1 + (S.length - n) / 8 ∧ D[0]? = some syncByte ∧
    ∀ j, 1 ≤ j → j ≤ (S.length - n) / 8 →
      D[j]?.map lsbFirst = some ((S.drop (n + 8 * (j - 1))).take 8)

/-- The register of the assembler is `register` of the bits received. -/
theorem lsbFirst_final_receiveBit (S : List DataBit) :
    lsbFirst (Mealy.final receiveBit ByteAssembler.fresh S).demodByte = register S := by
  induction S using List.reverseRecOn with
  | nil => decide
  | append_singleton S b ih =>
    rw [Mealy.final_append, Mealy.final_cons, Mealy.final_nil, register_concat, ← ih,
      ← lsbFirst_shiftIn]
    simp only [receiveBit]
    split_ifs <;> rfl

/-- What the assembler knows after the bits `S`: either no sync byte was seen and nothing was
delivered, or byte sync was found `n` bits in and `bitctr` counts the bits of the open byte. -/
private def Assembled (S : List DataBit) (a : ByteAssembler) (D : List DemodByte) : Prop :=
  (a.bytesync = false ∧
    (∀ n, 8 ≤ n → n ≤ S.length → window S n ≠ lsbFirst syncByte) ∧ D = []) ∨
  ∃ n, a.bytesync = true ∧ a.bitctr = (S.length - n) % 8 ∧ IsFirstSync S n ∧
    D.length = 1 + (S.length - n) / 8 ∧ D[0]? = some syncByte ∧
    ∀ j, 1 ≤ j → j ≤ (S.length - n) / 8 →
      D[j]?.map lsbFirst = some ((S.drop (n + 8 * (j - 1))).take 8)

private theorem IsFirstSync.append {S : List DataBit} {n : ℕ} (h : IsFirstSync S n)
    (T : List DataBit) : IsFirstSync (S ++ T) n where
  eight_le := h.eight_le
  le_length := by have := h.le_length; simp; omega
  window_eq := by rw [window_append S T h.le_length]; exact h.window_eq
  first m h8 hm := by
    have := h.le_length
    rw [window_append S T (by omega)]
    exact h.first m h8 hm

/-- A bit before byte sync either completes the first `SYNC_BYTE` or leaves things as they
are. -/
private theorem assembled_search {S : List DataBit} {a : ByteAssembler}
    (hreg : lsbFirst a.demodByte = register S) (hsync : a.bytesync = false)
    (hno : ∀ n, 8 ≤ n → n ≤ S.length → window S n ≠ lsbFirst syncByte) (b : DataBit) :
    Assembled (S ++ [b]) (receiveBit a b).1 (receiveBit a b).2.toList := by
  have hreg' : lsbFirst (shiftIn a.demodByte b) = register (S ++ [b]) := by
    rw [lsbFirst_shiftIn, hreg, register_concat]
  -- windows that end before the new bit are as before
  have hold : ∀ n, 8 ≤ n → n ≤ S.length → window (S ++ [b]) n ≠ lsbFirst syncByte := by
    intro n h8 hn
    rw [window_append S [b] hn]
    exact hno n h8 hn
  have hlen : (S ++ [b]).length = S.length + 1 := by simp
  by_cases hbyte : shiftIn a.demodByte b = syncByte
  · -- byte sync, at the end of the bits received
    have h8 := eight_le_of_register_eq (hreg'.symm.trans (congrArg lsbFirst hbyte))
    right
    refine ⟨(S ++ [b]).length, ?_⟩
    have hstep : receiveBit a b = ({ bytesync := true, demodByte := syncByte, bitctr := 0 },
        some syncByte) := by
      simp [receiveBit, hsync, hbyte]
    rw [hstep]
    refine ⟨rfl, by simp, ⟨h8, le_rfl, ?_, ?_⟩, by simp, by simp, ?_⟩
    · rw [← register_eq_window h8, ← hreg', hbyte]
    · intro m hm8 hm
      exact hold m hm8 (by omega)
    · intro j h1 hj
      simp only [Nat.sub_self, Nat.zero_div] at hj
      omega
  · -- the only new window is the one at the end, and it is not `SYNC_BYTE`
    left
    have hstep : receiveBit a b = ({ a with demodByte := shiftIn a.demodByte b }, none) := by
      simpa [receiveBit, hsync] using hbyte
    rw [hstep]
    refine ⟨hsync, ?_, rfl⟩
    intro n h8 hn
    rcases Nat.lt_or_ge S.length n with hlt | hge
    · obtain rfl : n = (S ++ [b]).length := by omega
      rw [← register_eq_window h8, ← hreg']
      exact fun h => hbyte (lsbFirst_injective h)
    · exact hold n h8 hge

/-- After byte sync a bit either closes the open byte, which is the last eight bits, or is
counted into it. -/
private theorem assembled_synced {S : List DataBit} {a : ByteAssembler} {D : List DemodByte}
    (hreg : lsbFirst a.demodByte = register S) (hsync : a.bytesync = true) {n : ℕ}
    (hctr : a.bitctr = (S.length - n) % 8) (hn : IsFirstSync S n)
    (hlen : D.length = 1 + (S.length - n) / 8) (h0 : D[0]? = some syncByte)
    (hj : ∀ j, 1 ≤ j → j ≤ (S.length - n) / 8 →
      D[j]?.map lsbFirst = some ((S.drop (n + 8 * (j - 1))).take 8)) (b : DataBit) :
    Assembled (S ++ [b]) (receiveBit a b).1 (D ++ (receiveBit a b).2.toList) := by
  have hle := hn.le_length
  have h8 := hn.eight_le
  have hSb : (S ++ [b]).length - n = S.length - n + 1 := by simp; omega
  -- the bytes delivered before are cut from the same bits
  have hold : ∀ j, 1 ≤ j → j ≤ (S.length - n) / 8 →
      ((S ++ [b]).drop (n + 8 * (j - 1))).take 8 = (S.drop (n + 8 * (j - 1))).take 8 := by
    intro j h1 hjle
    rw [List.drop_append_of_le_length (by omega),
      List.take_append_of_le_length (by rw [List.length_drop]; omega)]
  right
  refine ⟨n, ?_⟩
  rw [hSb]
  by_cases h7 : a.bitctr = 7
  · -- the open byte is full
    have hstep : receiveBit a b =
        ({ a with demodByte := shiftIn a.demodByte b, bitctr := 0 },
          some (shiftIn a.demodByte b)) := by
      simp [receiveBit, hsync, h7]
    rw [hstep, Option.toList_some]
    refine ⟨hsync, by simp only; omega, hn.append [b], by simp [hlen]; omega, ?_, ?_⟩
    · rw [List.getElem?_append_left (by omega), h0]
    · intro j h1 hjle
      rcases Nat.lt_or_ge ((S.length - n) / 8) j with hlt | hge
      · -- the byte just closed
        obtain rfl : j = D.length := by omega
        have hlast : register (S ++ [b]) = ((S ++ [b]).drop (n + 8 * (D.length - 1))).take 8 := by
          rw [register_eq_window (by simp; omega), window, List.take_length,
            show n + 8 * (D.length - 1) = (S ++ [b]).length - 8 by simp; omega,
            List.take_of_length_le (by rw [List.length_drop]; omega)]
        rw [List.getElem?_concat_length, ← hlast, Option.map_some, lsbFirst_shiftIn, hreg,
          register_concat]
      · rw [List.getElem?_append_left (by omega), hold j h1 hge]
        exact hj j h1 hge
  · -- one more bit in the open byte
    have hstep : receiveBit a b =
        ({ a with demodByte := shiftIn a.demodByte b, bitctr := a.bitctr + 1 }, none) := by
      simp [receiveBit, hsync, h7]
    rw [hstep, Option.toList_none, List.append_nil]
    have hdiv : (S.length - n + 1) / 8 = (S.length - n) / 8 := by omega
    rw [hdiv]
    refine ⟨hsync, by simp only; omega, hn.append [b], hlen, h0, ?_⟩
    intro j h1 hjle
    rw [hold j h1 hjle]
    exact hj j h1 hjle

private theorem assembled_receiveBit (S : List DataBit) :
    Assembled S (Mealy.final receiveBit ByteAssembler.fresh S)
      (Mealy.outputs receiveBit ByteAssembler.fresh S).reduceOption := by
  induction S using List.reverseRecOn with
  | nil =>
    refine Or.inl ⟨rfl, ?_, rfl⟩
    intro n h8 hn
    simp only [List.length_nil] at hn
    omega
  | append_singleton S b ih =>
    have hreg := lsbFirst_final_receiveBit S
    rw [Mealy.final_append, Mealy.outputs_append, List.reduceOption_append]
    simp only [Mealy.final_cons, Mealy.final_nil, Mealy.outputs_cons, Mealy.outputs_nil,
      List.reduceOption_singleton]
    rcases ih with ⟨hsync, hno, hD⟩ | ⟨n, hsync, hctr, hn, hlen, h0, hj⟩
    · rw [hD, List.nil_append]
      exact assembled_search hreg hsync hno b
    · exact assembled_synced hreg hsync hctr hn hlen h0 hj b

/-- Run lemma of the byte assembler: from a fresh start, the bytes delivered are the framing of
the bits received. -/
theorem framed_receiveBit (S : List DataBit) :
    Framed S (Mealy.outputs receiveBit ByteAssembler.fresh S).reduceOption := by
  rcases assembled_receiveBit S with ⟨-, hno, hD⟩ | ⟨n, -, -, hn⟩
  · exact Or.inl ⟨hno, hD⟩
  · exact Or.inr ⟨n, hn⟩

/-! ## Sync episodes -/

/-- The run `es` from `s₀` ends inside a sync episode: after the events `pre` the receiver is
searching, the bit `b` brings it into sync, and the bits `mid` follow without a clear. -/
structure Episode (s₀ : RxState) (es pre : List RxEvent) (b : DataBit) (mid : List DataBit) :
    Prop where
  split : es = pre ++ .sample b :: mid.map .sample
  search : (Mealy.final rxStep s₀ pre).insync = false
  sync : (Mealy.final rxStep s₀ (pre ++ [.sample b])).insync = true

/-- A receiver that started out of sync and is in sync is inside an episode. -/
theorem exists_episode {s₀ : RxState} (h₀ : s₀.insync = false) {es : List RxEvent}
    (h : (Mealy.final rxStep s₀ es).insync = true) : ∃ pre b mid, Episode s₀ es pre b mid := by
  induction es using List.reverseRecOn with
  | nil =>
    rw [Mealy.final_nil, h₀] at h
    exact absurd h (by decide)
  | append_singleton es e ih =>
    cases e with
    | clearSync => simp [rxStep, dspClearSync] at h
    | sample c =>
      -- either this sample declares sync, or the episode was open before it
      cases hs : (Mealy.final rxStep s₀ es).insync with
      | false => exact ⟨es, c, [], by simp, hs, h⟩
      | true =>
        obtain ⟨pre, b, mid, hsplit, hsearch, hsync⟩ := ih hs
        exact ⟨pre, b, mid ++ [c], by simp [hsplit], hsearch, hsync⟩

/-- Within an episode the clock samples bits from the first sample on, and a fresh assembler makes
bytes of them. -/
theorem Episode.outputs {s₀ : RxState} {es pre : List RxEvent} {b : DataBit} {mid : List DataBit}
    (h : Episode s₀ es pre b mid) :
    sampledBits (Mealy.outputs rxStep (Mealy.final rxStep s₀ pre)
        (.sample b :: mid.map .sample)) =
        (Mealy.outputs sampleStep (⟨b, 0⟩, BitClock.midBit) mid).reduceOption ∧
      bytesReceived (Mealy.outputs rxStep (Mealy.final rxStep s₀ pre)
        (.sample b :: mid.map .sample)) =
        (Mealy.outputs receiveBit ByteAssembler.fresh
          (Mealy.outputs sampleStep (⟨b, 0⟩, BitClock.midBit) mid).reduceOption).reduceOption := by
  have hsync := h.sync
  rw [Mealy.final_append, Mealy.final_cons, Mealy.final_nil, rxStep, insync_rxSample, h.search,
    Bool.false_or] at hsync
  have hstep := rxSample_sync h.search hsync
  obtain ⟨-, hbits, hbytes⟩ :=
    run_inSync (s := (rxSample (Mealy.final rxStep s₀ pre) b).1) (by rw [hstep]) mid
  rw [hstep] at hbits hbytes
  -- the sample that declares sync is neither sampled nor delivered
  rw [Mealy.outputs_cons, rxStep, hstep]
  simp only [sampledBits, bytesReceived, List.filterMap_cons_none] at hbits hbytes ⊢
  exact ⟨hbits, hbytes⟩

/-- Within an episode the bytes delivered are the framing of the bits sampled. -/
theorem Episode.framed {s₀ : RxState} {es pre : List RxEvent} {b : DataBit} {mid : List DataBit}
    (h : Episode s₀ es pre b mid) :
    Framed
      (sampledBits (Mealy.outputs rxStep (Mealy.final rxStep s₀ pre)
        (.sample b :: mid.map .sample)))
      (bytesReceived (Mealy.outputs rxStep (Mealy.final rxStep s₀ pre)
        (.sample b :: mid.map .sample))) := by
  obtain ⟨hbits, hbytes⟩ := h.outputs
  rw [hbits, hbytes]
  exact framed_receiveBit _

/-- Byte framing under any noise and any clears. In every run from program start `byte_rx_func`
is called only inside a sync episode, and within an episode the bytes delivered are the framing
of the bits sampled since the episode began. -/
theorem byteRx_framing (demodByte : DemodByte) (bitctr : ℕ) (es : List RxEvent) :
    (∀ (n : ℕ) (x : DemodByte),
      ((Mealy.outputs rxStep (RxState.start demodByte bitctr) es)[n]?.bind RxOut.byteRx = some x →
        ∃ pre b mid c, Episode (RxState.start demodByte bitctr) (es.take n) pre b mid ∧
          es[n]? = some (.sample c))) ∧
    (∀ pre b mid, Episode (RxState.start demodByte bitctr) es pre b mid →
      Framed
        (sampledBits (Mealy.outputs rxStep (Mealy.final rxStep (RxState.start demodByte bitctr) pre)
          (.sample b :: mid.map .sample)))
        (bytesReceived (Mealy.outputs rxStep
          (Mealy.final rxStep (RxState.start demodByte bitctr) pre)
          (.sample b :: mid.map .sample)))) := by
  refine ⟨?_, fun pre b mid h => h.framed⟩
  intro n x hx
  rw [Mealy.getElem?_outputs] at hx
  cases he : es[n]? with
  | none => simp [he] at hx
  | some e =>
    simp only [he, Option.map_some, Option.bind_some] at hx
    obtain ⟨hsync, c, rfl⟩ := insync_of_byteRx hx
    obtain ⟨pre, b, mid, hepisode⟩ := exists_episode rfl hsync
    exact ⟨pre, b, mid, c, hepisode, rfl⟩

/-- The bits of two sync bytes but for the last one, 23 samples each. -/
def untilSync : List DataBit :=
  ((lsbFirst syncByte ++ lsbFirst syncByte).take 15).flatMap (List.replicate bitDivisor)

/-- The rest of the last one, a sync byte and another byte. -/
def afterSync : List DataBit :=
  List.replicate (bitDivisor - 1) true ++
    (lsbFirst syncByte ++ lsbFirst 0x5A).flatMap (List.replicate bitDivisor)

theorem episode_afterSync :
    Episode (RxState.start 0 0)
      (untilSync.map .sample ++ .sample true :: afterSync.map .sample) (untilSync.map .sample) true
      afterSync := by
  have hno : ∀ n, 1 ≤ n → n ≤ (demodBits (untilSync.map .sample)).length →
      ¬ TapsMatch (((demodBits (untilSync.map .sample)).take n).reverse ++ []) := by
    intro n _ _ hmatch
    have hshort : untilSync.length = bitDivisor * 15 := by decide +kernel
    -- no match before the taps are filled
    have hlong := hmatch.length_lt
    rw [demodBits_map_sample, List.append_nil, List.length_reverse, List.length_take] at hlong
    omega
  obtain ⟨hsearch, hholds, -⟩ :=
    search_of_no_match (s := RxState.start 0 0) rfl Correlator.holds_zero hno
  refine ⟨rfl, hsearch, ?_⟩
  rw [Mealy.final_append, Mealy.final_cons, Mealy.final_nil, rxStep, insync_rxSample, hsearch,
    Bool.false_or, syncCorrelator_eq_true_iff hholds, demodBits_map_sample]
  decide +kernel

/-- An episode with a sync byte and a byte after it. -/
theorem byteRx_framing_two_bytes :
    bytesReceived (Mealy.outputs rxStep
        (Mealy.final rxStep (RxState.start 0 0) (untilSync.map .sample))
        (.sample true :: afterSync.map .sample)) = [syncByte, 0x5A] ∧
      Framed
        (sampledBits (Mealy.outputs rxStep
          (Mealy.final rxStep (RxState.start 0 0) (untilSync.map .sample))
          (.sample true :: afterSync.map .sample)))
        [syncByte, 0x5A] := by
  have hbytes := episode_afterSync.outputs.2
  have hsent : (Mealy.outputs receiveBit ByteAssembler.fresh (Mealy.outputs sampleStep
      (⟨true, 0⟩, BitClock.midBit) afterSync).reduceOption).reduceOption = [syncByte, 0x5A] := by
    decide +kernel
  have hframed := (byteRx_framing 0 0 _).2 _ _ _ episode_afterSync
  rw [hbytes, hsent] at hframed
  exact ⟨hbytes.trans hsent, hframed⟩

end PiWxRx
