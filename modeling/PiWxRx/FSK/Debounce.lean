import PiWxRx.FSK.BitClock

/-!
# Debouncing of the edge detector

`XING_MAX` is the number of stable samples before a valid zero crossing: a call of `EdgeDetect`
should report an edge when it and the two calls before it carried a bit different from the
current sense, and excursions shorter than that should neither be reported nor reset the bit
clock (`Debounces`).

`EdgeDetect` leaves `xingcnt` alone on a sample that carries the current sense, so it counts the
differing samples since the last edge and not the consecutive ones. The two agree on the streams
in which no interrupted excursion is completed later (`Steady`, `debounces_iff_steady`).
-/

namespace PiWxRx

/-- `EdgeDetect(bit, FALSE)`. -/
def edgeStep (e : EdgeState) (demodBit : DataBit) : EdgeState × Bool := edgeDetect e demodBit false

/-- `current_sense` before call `n`. -/
def senseAt (e : EdgeState) (bits : List DataBit) (n : ℕ) : DataBit :=
  (Mealy.final edgeStep e (bits.take n)).currentSense

/-- Call `n` carries a bit different from the current sense. -/
def DiffersAt (e : EdgeState) (bits : List DataBit) (n : ℕ) : Prop :=
  bits[n]? = some (!senseAt e bits n)

/-- What debouncing means for the calls `bits` from `e`. -/
structure Debounces (e : EdgeState) (bits : List DataBit) : Prop where
  /-- A call reports an edge when it and the two calls before it, with no edge in between, carry a
  bit different from the current sense, and only then. -/
  reports : ∀ n, (Mealy.outputs edgeStep e bits)[n]? = some true ↔
    ∃ m, n = m + 2 ∧ (Mealy.outputs edgeStep e bits)[m]? = some false ∧
      (Mealy.outputs edgeStep e bits)[m + 1]? = some false ∧
      DiffersAt e bits m ∧ DiffersAt e bits (m + 1) ∧ DiffersAt e bits (m + 2)
  /-- A stream without three differing samples in a row produces no edge and does not reset the
  bit clock. -/
  glitches : (∀ m : ℕ, ¬ ∀ k ∈ [m, m + 1, m + 2], bits[k]? = some (!e.currentSense)) →
    (∀ n : ℕ, (Mealy.outputs edgeStep e bits)[n]? ≠ some true) ∧
      ∀ clock, (Mealy.final sampleStep (e, clock) bits).2 =
        Mealy.final runBitClock clock (List.replicate bits.length false)

/-- No excursion from the sense is interrupted and completed later: where `run < XING_MAX`
differing samples are followed by one that carries the sense, the rest of the stream has too few
differing samples to make up `XING_MAX`. The third differing sample in a row changes the sense. -/
def Steady (sense : DataBit) (run : ℕ) : List DataBit → Prop
  | [] => True
  | b :: bits =>
    if b = sense then
      if run = 0 then Steady sense 0 bits else run + bits.count (!sense) < xingMax
    else if run + 1 = xingMax then Steady b 0 bits
    else Steady sense (run + 1) bits

instance Steady.decidable (sense : DataBit) (run : ℕ) (bits : List DataBit) :
    Decidable (Steady sense run bits) :=
  match bits with
  | [] => inferInstanceAs (Decidable True)
  | b :: bits =>
    have := Steady.decidable sense 0 bits
    have := Steady.decidable b 0 bits
    have := Steady.decidable sense (run + 1) bits
    inferInstanceAs (Decidable (if b = sense then
      if run = 0 then Steady sense 0 bits else run + bits.count (!sense) < xingMax
      else if run + 1 = xingMax then Steady b 0 bits else Steady sense (run + 1) bits))

/-- A call reports an edge on the differing sample number `XING_MAX`. -/
theorem edgeStep_snd (e : EdgeState) (b : DataBit) :
    (edgeStep e b).2 = true ↔ b ≠ e.currentSense ∧ e.xingcnt + 1 = xingMax := by
  rcases eq_or_ne b e.currentSense with hb | hb
  · simp [edgeStep, edgeDetect, hb]
  · rcases eq_or_ne (e.xingcnt + 1) xingMax with hx | hx <;> simp [edgeStep, edgeDetect, hb, hx]

/-- Only an edge changes the sense. -/
theorem edgeStep_currentSense {e : EdgeState} {b : DataBit} (h : (edgeStep e b).2 = false) :
    (edgeStep e b).1.currentSense = e.currentSense := by
  rw [← Bool.not_eq_true, edgeStep_snd, not_and_or, not_not] at h
  rcases h with h | h
  · simp [edgeStep, edgeDetect, h]
  · rcases eq_or_ne b e.currentSense with hb | hb <;> simp [edgeStep, edgeDetect, h, hb]

/-! ## The length of the current excursion -/

/-- `EdgeDetect` together with the number of differing samples in a row up to this call. -/
def excursionStep (s : EdgeState × ℕ) (b : DataBit) : (EdgeState × ℕ) × Bool :=
  let (e, edge) := edgeStep s.1 b
  ((e, if edge ∨ b = s.1.currentSense then 0 else s.2 + 1), edge)

/-- The excursion counter is only looked at. -/
theorem fst_final_excursionStep (s : EdgeState × ℕ) (bits : List DataBit) :
    (Mealy.final excursionStep s bits).1 = Mealy.final edgeStep s.1 bits := by
  induction bits generalizing s with
  | nil => rfl
  | cons b bits ih => exact ih _

/-- A sample that carries the sense ends the excursion. -/
theorem excursionStep_same (x r : ℕ) (s : DataBit) :
    excursionStep (⟨s, x⟩, r) s = ((⟨s, x⟩, 0), false) := by
  simp [excursionStep, edgeStep, edgeDetect]

/-- A differing sample short of `XING_MAX` counts for both. -/
theorem excursionStep_differs {x r : ℕ} (hx : x + 1 ≠ xingMax) {b s : DataBit} (hb : b ≠ s) :
    excursionStep (⟨s, x⟩, r) b = ((⟨s, x + 1⟩, r + 1), false) := by
  simp [excursionStep, edgeStep, edgeDetect, hb, hx]

/-- The differing sample number `XING_MAX` is an edge. -/
theorem excursionStep_edge {x r : ℕ} (hx : x + 1 = xingMax) {b s : DataBit} (hb : b ≠ s) :
    excursionStep (⟨s, x⟩, r) b = ((⟨b, 0⟩, 0), true) := by
  simp [excursionStep, edgeStep, edgeDetect, hb, hx]

/-- The excursion is never longer than `xingcnt`, and `xingcnt` stays below `XING_MAX`. -/
def Counted (s : EdgeState × ℕ) : Prop := s.2 ≤ s.1.xingcnt ∧ s.1.xingcnt < xingMax

theorem Counted.step {s : EdgeState × ℕ} (hs : Counted s) (b : DataBit) :
    Counted (excursionStep s b).1 := by
  obtain ⟨⟨sense, x⟩, r⟩ := s
  obtain ⟨hr, hx⟩ := hs
  rcases eq_or_ne b sense with rfl | hb
  · rw [excursionStep_same]
    exact ⟨Nat.zero_le _, hx⟩
  · rcases eq_or_ne (x + 1) xingMax with hx3 | hx3
    · rw [excursionStep_edge hx3 hb]
      exact ⟨le_rfl, Nat.succ_pos 2⟩
    · rw [excursionStep_differs hx3 hb]
      exact ⟨Nat.succ_le_succ hr, lt_of_le_of_ne hx hx3⟩

theorem Counted.final {s : EdgeState × ℕ} (hs : Counted s) (bits : List DataBit) :
    Counted (Mealy.final excursionStep s bits) := by
  induction bits generalizing s with
  | nil => exact hs
  | cons b bits ih => exact ih (hs.step b)

/-! ## What a report means -/

section Reports

variable {e : EdgeState} {bits : List DataBit} {n : ℕ}

/-- The edge detector and the length of the excursion before call `n`. -/
def excursionAt (e : EdgeState) (bits : List DataBit) (n : ℕ) : EdgeState × ℕ :=
  Mealy.final excursionStep (e, 0) (bits.take n)

theorem senseAt_eq : senseAt e bits n = (excursionAt e bits n).1.currentSense := by
  rw [senseAt, excursionAt, fst_final_excursionStep]

theorem counted_excursionAt (he : e.xingcnt < xingMax) : Counted (excursionAt e bits n) :=
  Counted.final (s := (e, 0)) ⟨Nat.zero_le _, he⟩ _

/-- The answer of call `n`. -/
theorem getElem?_edges :
    (Mealy.outputs edgeStep e bits)[n]? =
      bits[n]?.map fun b => (edgeStep (excursionAt e bits n).1 b).2 := by
  rw [Mealy.getElem?_outputs, excursionAt, fst_final_excursionStep]

theorem excursionAt_succ {b : DataBit} (hb : bits[n]? = some b) :
    excursionAt e bits (n + 1) = (excursionStep (excursionAt e bits n) b).1 := by
  rw [excursionAt, List.take_add_one, hb, Option.toList_some, Mealy.final_append]
  rfl

/-- A call reports an edge when it differs and is the `XING_MAX`-th since the last edge. -/
theorem edge_iff : (Mealy.outputs edgeStep e bits)[n]? = some true ↔
    DiffersAt e bits n ∧ (excursionAt e bits n).1.xingcnt + 1 = xingMax := by
  rw [getElem?_edges, DiffersAt, senseAt_eq]
  cases bits[n]? with
  | none => simp
  | some b => simp [edgeStep_snd, Bool.eq_not]

/-- A differing call without a report makes the excursion longer by one, any other ends it. -/
theorem excursionAt_succ_snd {b : DataBit} (hb : bits[n]? = some b) :
    ((Mealy.outputs edgeStep e bits)[n]? = some false ∧ DiffersAt e bits n ∧
        (excursionAt e bits (n + 1)).2 = (excursionAt e bits n).2 + 1) ∨
      (¬ ((Mealy.outputs edgeStep e bits)[n]? = some false ∧ DiffersAt e bits n) ∧
        (excursionAt e bits (n + 1)).2 = 0) := by
  rw [excursionAt_succ hb, getElem?_edges, DiffersAt, senseAt_eq, hb]
  obtain ⟨⟨s, x⟩, r⟩ := excursionAt e bits n
  rcases eq_or_ne b s with rfl | hbs
  · rw [excursionStep_same]
    simp
  · rcases eq_or_ne (x + 1) xingMax with hx | hx
    · rw [excursionStep_edge hx hbs]
      simp [edgeStep, edgeDetect, hbs, hx]
    · rw [excursionStep_differs hx hbs]
      simp [edgeStep, edgeDetect, hx, Bool.eq_not.mpr hbs]

/-- The excursion is two samples long when the two calls before differed without a report. -/
theorem two_le_excursionAt {b : DataBit} (hb : bits[n]? = some b) :
    2 ≤ (excursionAt e bits n).2 ↔
      ∃ m, n = m + 2 ∧ (Mealy.outputs edgeStep e bits)[m]? = some false ∧
        (Mealy.outputs edgeStep e bits)[m + 1]? = some false ∧
        DiffersAt e bits m ∧ DiffersAt e bits (m + 1) := by
  have hlt := (List.getElem?_eq_some_iff.mp hb).1
  have hstep : ∀ k < n, _ := fun k hk => excursionAt_succ_snd (e := e)
    (List.getElem?_eq_getElem (show k < bits.length by omega))
  rcases n with _ | _ | m
  · simp [excursionAt]
  · have h0 : (excursionAt e bits 0).2 = 0 := rfl
    have h := hstep 0 (by omega)
    rw [h0] at h
    constructor
    · omega
    · rintro ⟨m, hm, -⟩
      omega
  · have h1 := hstep m (by omega)
    have h2 := hstep (m + 1) (by omega)
    constructor
    · -- counting back: two counts since the last report
      intro h
      obtain ⟨o2, d2, h2⟩ := h2.resolve_right (by omega)
      obtain ⟨o1, d1, -⟩ := h1.resolve_right (by omega)
      exact ⟨m, rfl, o1, o2, d1, d2⟩
    · rintro ⟨m', hm, o1, o2, d1, d2⟩
      obtain rfl : m = m' := by omega
      have h1 := (h1.resolve_right fun h => h.1 ⟨o1, d1⟩).2.2
      have h2 := (h2.resolve_right fun h => h.1 ⟨o2, d2⟩).2.2
      omega

/-- The reports are those of a debounced edge when every completed count is an excursion. -/
theorem reports_iff (he : e.xingcnt < xingMax) :
    (∀ n, (Mealy.outputs edgeStep e bits)[n]? = some true ↔
      ∃ m, n = m + 2 ∧ (Mealy.outputs edgeStep e bits)[m]? = some false ∧
        (Mealy.outputs edgeStep e bits)[m + 1]? = some false ∧
        DiffersAt e bits m ∧ DiffersAt e bits (m + 1) ∧ DiffersAt e bits (m + 2)) ↔
    ∀ n, DiffersAt e bits n → (excursionAt e bits n).1.xingcnt + 1 = xingMax →
      2 ≤ (excursionAt e bits n).2 := by
  constructor
  · intro h n hdiff hx
    obtain ⟨m, rfl, o1, o2, d1, d2, -⟩ := (h n).mp (edge_iff.mpr ⟨hdiff, hx⟩)
    exact (two_le_excursionAt hdiff).mpr ⟨m, rfl, o1, o2, d1, d2⟩
  · intro h n
    rw [edge_iff]
    constructor
    · rintro ⟨hdiff, hx⟩
      obtain ⟨m, rfl, o1, o2, d1, d2⟩ := (two_le_excursionAt hdiff).mp (h n hdiff hx)
      exact ⟨m, rfl, o1, o2, d1, d2, hdiff⟩
    · rintro ⟨m, rfl, o1, o2, d1, d2, hdiff⟩
      -- the count is at least the excursion, and below `XING_MAX`
      have hr := (two_le_excursionAt hdiff).mpr ⟨m, rfl, o1, o2, d1, d2⟩
      obtain ⟨hle, hlt⟩ := @counted_excursionAt e bits (m + 2) he
      refine ⟨hdiff, ?_⟩
      simp only [xingMax] at hlt ⊢
      omega

end Reports

/-! ## Streams without interrupted excursions -/

/-- A sample that completes the count ends an excursion of `XING_MAX` samples. -/
def Completes (s : EdgeState × ℕ) (b : DataBit) : Prop :=
  b ≠ s.1.currentSense → s.1.xingcnt + 1 = xingMax → 2 ≤ s.2

/-- Whether every count that is completed is an excursion is decided by the stream: as long as the
count is the current excursion the stream has to stay steady; once an excursion was interrupted, the
count must not be completed. -/
theorem everyStep_completes_iff {s : DataBit} {x r : ℕ} (hr : r ≤ x) (hx : x < xingMax)
    (bits : List DataBit) :
    Mealy.EveryStep excursionStep Completes (⟨s, x⟩, r) bits ↔
      if r = x then Steady s r bits else x + bits.count (!s) < xingMax := by
  -- the counter of the code and the excursion move together until a sample carries the sense
  induction bits generalizing s x r with
  | nil => simp [Mealy.everyStep_nil, Steady, hx]
  | cons b bits ih =>
    rw [Mealy.everyStep_cons, Completes]
    rcases eq_or_ne b s with rfl | hb
    · -- the excursion ends, the count stays
      rw [excursionStep_same, ih (Nat.zero_le x) hx, Steady, if_pos rfl,
        List.count_cons_of_ne (by simp)]
      rcases eq_or_ne r x with rfl | hrx
      · simp [eq_comm (a := 0)]
      · simp [hrx, show (0 : ℕ) ≠ x by omega]
    · rcases eq_or_ne (x + 1) xingMax with hx3 | hx3
      · -- the count is complete
        rw [excursionStep_edge hx3 hb, ih le_rfl (Nat.succ_pos 2), if_pos rfl, Steady, if_neg hb,
          Bool.eq_not.mpr hb, List.count_cons_self]
        simp only [xingMax] at hx3
        rcases eq_or_ne r x with rfl | hrx
        · simp [hx3]
          omega
        · -- the excursion was shorter than the count
          rw [if_neg hrx]
          refine iff_of_false (fun h => ?_) (by simp only [xingMax]; omega)
          have := h.1 (Bool.not_ne_self s) (by simp only [xingMax]; omega)
          omega
      · rw [excursionStep_differs hx3 hb,
          ih (Nat.succ_le_succ hr) (lt_of_le_of_ne (Nat.succ_le_of_lt hx) hx3), Steady, if_neg hb,
          Bool.eq_not.mpr hb, List.count_cons_self]
        rcases eq_or_ne r x with rfl | hrx
        · simp [hx3]
        · simp only [Nat.succ_eq_add_one, Nat.add_right_cancel_iff, hrx, if_false]
          omega

/-! ## Streams without three differing samples in a row -/

/-- Without an edge the sense stays what it was. -/
theorem senseAt_of_no_edge {e : EdgeState} {bits : List DataBit} {n : ℕ}
    (h : ∀ k < n, (Mealy.outputs edgeStep e bits)[k]? ≠ some true) :
    senseAt e bits n = e.currentSense := by
  induction n with
  | zero => rfl
  | succ n ih =>
    have hsense := ih fun k hk => h k (Nat.lt_succ_of_lt hk)
    have hn := h n (Nat.lt_succ_self n)
    rw [Mealy.getElem?_outputs] at hn
    rw [← hsense, senseAt, senseAt, List.take_add_one]
    cases hb : bits[n]? with
    | none => rw [Option.toList_none, List.append_nil]
    | some b =>
      rw [hb, Option.map_some, ne_eq, Option.some_inj, Bool.not_eq_true] at hn
      rw [Option.toList_some, Mealy.final_append]
      exact edgeStep_currentSense hn

/-- An edge is the end of three differing samples in a row. -/
theorem Debounces.no_edge {e : EdgeState} {bits : List DataBit}
    (hreports : ∀ n, (Mealy.outputs edgeStep e bits)[n]? = some true →
      ∃ m, n = m + 2 ∧ DiffersAt e bits m ∧ DiffersAt e bits (m + 1) ∧ DiffersAt e bits (m + 2))
    (h : ∀ m : ℕ, ¬ ∀ k ∈ [m, m + 1, m + 2], bits[k]? = some (!e.currentSense)) (n : ℕ) :
    (Mealy.outputs edgeStep e bits)[n]? ≠ some true := by
  -- the first edge comes from samples that differ from the initial sense
  induction n using Nat.strong_induction_on with
  | _ n ih =>
    intro hedge
    obtain ⟨m, rfl, d0, d1, d2⟩ := hreports n hedge
    have hsense : ∀ k ≤ m + 2, senseAt e bits k = e.currentSense := fun k hk =>
      senseAt_of_no_edge fun j hj => ih j (by omega)
    rw [DiffersAt, hsense _ (by omega)] at d0 d1 d2
    exact h m (by simp [d0, d1, d2])

/-- Without an edge the bit clock runs free. -/
theorem snd_final_sampleStep {e : EdgeState} {bits : List DataBit}
    (h : ∀ n : ℕ, (Mealy.outputs edgeStep e bits)[n]? ≠ some true) (clock : BitClock) :
    (Mealy.final sampleStep (e, clock) bits).2 =
      Mealy.final runBitClock clock (List.replicate bits.length false) := by
  induction bits generalizing e clock with
  | nil => rfl
  | cons b bits ih =>
    have hb : (edgeStep e b).2 = false := by simpa using h 0
    have hstep : (sampleStep (e, clock) b).1 = ((edgeStep e b).1, (runBitClock clock false).1) := by
      rw [← hb]
      rfl
    rw [Mealy.final_cons, hstep]
    exact ih (fun n => h (n + 1)) _

/-- **Debouncing.** After `EdgeDetect(b, TRUE)` in any state, the calls `bits` are debounced
exactly when no interrupted excursion is completed later. -/
theorem debounces_iff_steady (e : EdgeState) (b : DataBit) (bits : List DataBit) :
    Debounces (edgeDetect e b true).1 bits ↔ Steady b 0 bits := by
  rw [edgeDetect_firstTime]
  have hsteady := everyStep_completes_iff (s := b) (le_refl 0) (Nat.succ_pos 2) bits
  rw [if_pos rfl] at hsteady
  rw [← hsteady]
  have hcompletes : Mealy.EveryStep excursionStep Completes (⟨b, 0⟩, 0) bits ↔
      ∀ n, DiffersAt ⟨b, 0⟩ bits n →
      (excursionAt ⟨b, 0⟩ bits n).1.xingcnt + 1 = xingMax →
      2 ≤ (excursionAt ⟨b, 0⟩ bits n).2 := by
    simp only [DiffersAt, senseAt_eq]
    constructor
    · exact fun h n hn => h n _ hn (by simp [excursionAt])
    · exact fun h n c hc hne => h n (by rw [hc, Bool.eq_not.mpr hne]; rfl)
  rw [hcompletes, ← reports_iff (Nat.succ_pos 2)]
  refine ⟨fun h => h.reports, fun h => ⟨h, fun hshort => ?_⟩⟩
  have hedge : ∀ n : ℕ, (Mealy.outputs edgeStep ⟨b, 0⟩ bits)[n]? ≠ some true := by
    refine Debounces.no_edge (fun n hn => ?_) hshort
    obtain ⟨m, rfl, -, -, d⟩ := (h n).mp hn
    exact ⟨m, rfl, d⟩
  exact ⟨hedge, snd_final_sampleStep hedge⟩

/-- Three isolated glitches, each one sample long, make an edge. -/
theorem glitches_make_edge :
    ¬ ∀ (e : EdgeState) (b : DataBit) (bits : List DataBit),
      Debounces (edgeDetect e b true).1 bits := by
  intro h
  have hedges := ((h ⟨false, 0⟩ false [true, false, true, false, true]).glitches
    (fun m hm => ?_)).1 4
  · exact hedges rfl
  · -- no two neighbours differ from the sense
    have h0 := hm m (by simp)
    have h1 := hm (m + 1) (by simp)
    rcases m with _ | _ | _ | _ | m <;> simp at h0 h1

example : ¬ Steady false 0 [true, false, true, false, true] := by decide

end PiWxRx
