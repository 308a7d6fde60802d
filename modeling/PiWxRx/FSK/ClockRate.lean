import PiWxRx.FSK.BitClock

/-!
# The rate of the bit clock between edges

`RunBitClock(TRUE)` puts the clock at mid-bit time, and without further edges every call is a
`RunBitClock(FALSE)`. The nominal bit time is `BIT_TIME` samples, and once in `DUAL_MODULUS` bits
it is one sample longer (`NominalRate`).

The reload value `BIT_DIVISOR` is counted down to zero, so a bit time lasts `24` calls, and only
the reload `BIT_DIVISOR - 1` of an exhausted swallow counter makes one of `23`: bit time `m` falls
on call `bitTimeAt m` (`freeRun_state`), and `24` bit times span `575` calls.
-/

namespace PiWxRx

/-- `BIT_TIME`: the nominal bit time in samples. -/
abbrev bitTime : ℕ := 23

/-- `DUAL_MODULUS`: the interval for the dual modulus prescaler. -/
abbrev dualModulus : ℕ := 24

/-- The answers of `n` calls of `RunBitClock(FALSE)` after one call of `RunBitClock(TRUE)`. -/
def freeRun (c : BitClock) (n : ℕ) : List Bool :=
  Mealy.outputs runBitClock (runBitClock c true).1 (List.replicate n false)

/-- The calls that answer `TRUE`, by their position. -/
def bitTimes (answers : List Bool) : List ℕ := answers.findIdxs id

/-- The rate of the header: every period between two consecutive bit times is `BIT_TIME` or one
more, and `DUAL_MODULUS` consecutive periods have one of the longer ones. -/
structure NominalRate (times : List ℕ) : Prop where
  /-- A period is `23` or `24` calls. -/
  period : ∀ m i j, times[m]? = some i → times[m + 1]? = some j →
    j = i + bitTime ∨ j = i + bitTime + 1
  /-- `24` consecutive periods span `23 * 23 + 24` calls. -/
  span : ∀ m i j, times[m]? = some i → times[m + dualModulus]? = some j →
    j = i + ((dualModulus - 1) * bitTime + (bitTime + 1))

/-- The call on which bit time number `m` falls. -/
def bitTimeAt (m : ℕ) : ℕ := 11 + 24 * m - m / 24

/-- The state before call `n`, if `m` bit times have passed: the divisor counts the calls to the
next bit time, the swallow counter the bit times to the next short period. -/
def clockBefore (m n : ℕ) : BitClock :=
  { divisor := bitTimeAt m - n, swallowCtr := swallowCtrInit - m % 24 }

/-- Before its bit time is due, a call takes the clock to the next call. -/
theorem runBitClock_between {m n : ℕ} (h : n < bitTimeAt m) :
    runBitClock (clockBefore m n) false = (clockBefore m (n + 1), false) := by
  have hd : bitTimeAt m - n ≠ 0 := by omega
  simp only [runBitClock, clockBefore, Bool.false_eq_true, ↓reduceIte, hd, Nat.sub_add_eq]

/-- The call on which bit time `m` falls answers `TRUE` and loads the period to the next. -/
theorem runBitClock_bitTime (m : ℕ) :
    runBitClock (clockBefore m (bitTimeAt m)) false =
      (clockBefore (m + 1) (bitTimeAt m + 1), true) := by
  simp only [runBitClock, clockBefore, Nat.sub_self, Bool.false_eq_true, ↓reduceIte]
  split
  · -- the swallow counter is used up: a period of `23`
    simp only [swallowCtrInit, bitDivisor, bitTimeAt, Prod.mk.injEq, BitClock.mk.injEq, and_true]
      at *
    omega
  · simp only [swallowCtrInit, bitDivisor, bitTimeAt, Prod.mk.injEq, BitClock.mk.injEq, and_true]
      at *
    omega

/-- One more call: the state moves on, and the answer is added to the run. -/
theorem freeRun_succ (c : BitClock) (n : ℕ) {s : BitClock}
    (hs : Mealy.final runBitClock (runBitClock c true).1 (List.replicate n false) = s) :
    Mealy.final runBitClock (runBitClock c true).1 (List.replicate (n + 1) false) =
        (runBitClock s false).1 ∧
      freeRun c (n + 1) = freeRun c n ++ [(runBitClock s false).2] := by
  rw [freeRun, List.replicate_succ', Mealy.final_append, Mealy.outputs_append, hs]
  exact ⟨rfl, rfl⟩

theorem length_freeRun (c : BitClock) (n : ℕ) : (freeRun c n).length = n := by
  rw [freeRun, Mealy.length_outputs, List.length_replicate]

/-- What `n` calls without an edge lead to: some number `m` of bit times have passed, each on its
call, and the next falls on call `n` or later. -/
theorem freeRun_state (c : BitClock) (n : ℕ) :
    ∃ m, Mealy.final runBitClock (runBitClock c true).1 (List.replicate n false) =
        clockBefore m n ∧
      bitTimes (freeRun c n) = (List.range m).map bitTimeAt ∧
      n ≤ bitTimeAt m ∧ ∀ k < m, bitTimeAt k < n := by
  induction n with
  | zero => exact ⟨0, rfl, rfl, Nat.zero_le _, fun k hk => absurd hk (Nat.not_lt_zero k)⟩
  | succ n ih =>
    obtain ⟨m, hfinal, htimes, hn, hlt⟩ := ih
    obtain ⟨hfinal', hrun⟩ := freeRun_succ c n hfinal
    rw [hfinal', hrun, bitTimes, List.findIdxs_append, length_freeRun, Nat.zero_add]
    rcases hn.lt_or_eq with hn | rfl
    · -- between two bit times
      rw [runBitClock_between hn]
      refine ⟨m, rfl, ?_, hn, fun k hk => Nat.lt_succ_of_lt (hlt k hk)⟩
      rw [List.findIdxs_singleton, if_neg (by simp), List.append_nil]
      exact htimes
    · -- bit time `m`
      rw [runBitClock_bitTime]
      refine ⟨m + 1, rfl, ?_, by simp only [bitTimeAt]; omega, fun k hk => ?_⟩
      · rw [List.findIdxs_singleton, id_eq, if_pos rfl, List.range_succ, List.map_append]
        exact congrArg (· ++ [bitTimeAt m]) htimes
      · rcases Nat.lt_succ_iff_lt_or_eq.mp hk with hk | rfl
        · exact Nat.lt_succ_of_lt (hlt k hk)
        · exact Nat.lt_succ_self _

/-- Two bit times of the run lie where `bitTimeAt` puts them. -/
theorem getElem?_range_map_bitTimeAt {m k i : ℕ} :
    ((List.range m).map bitTimeAt)[k]? = some i ↔ k < m ∧ bitTimeAt k = i := by
  simp [List.getElem?_eq_some_iff]

/-- **Nominal rate.** After `RunBitClock(TRUE)` in any state, the run of `n` calls without an edge
keeps the rate of the header exactly when it ends before call `586`, on which the twenty-fifth
bit time falls. -/
theorem nominalRate_iff_short (c : BitClock) (n : ℕ) :
    NominalRate (bitTimes (freeRun c n)) ↔ n < 587 := by
  obtain ⟨m, -, htimes, hn, hlt⟩ := freeRun_state c n
  rw [htimes]
  constructor
  · intro h
    by_contra hlong
    have hm : 24 < m := by
      by_contra hm
      simp only [bitTimeAt] at hn
      omega
    -- the first and the twenty-fifth bit time are `575` calls apart
    have hspan := h.span 0 _ _ (getElem?_range_map_bitTimeAt.mpr ⟨by omega, rfl⟩)
      (getElem?_range_map_bitTimeAt.mpr ⟨hm, rfl⟩)
    exact absurd hspan (by decide)
  · intro hshort
    have hm : m ≤ 24 := by
      by_contra hm
      have := hlt 24 (by omega)
      simp only [bitTimeAt] at this
      omega
    refine ⟨fun k i j hi hj => ?_, fun k i j _ hj => ?_⟩
    · obtain ⟨-, rfl⟩ := getElem?_range_map_bitTimeAt.mp hi
      obtain ⟨-, rfl⟩ := getElem?_range_map_bitTimeAt.mp hj
      simp only [bitTimeAt, bitTime]
      omega
    · -- `24` periods need `25` bit times
      obtain ⟨hk, -⟩ := getElem?_range_map_bitTimeAt.mp hj
      simp only [dualModulus] at hk
      omega

/-- The first `24` periods of every long enough run span `575` calls. -/
theorem not_nominalRate : ¬ ∀ (c : BitClock) (n : ℕ), NominalRate (bitTimes (freeRun c n)) := by
  intro h
  exact absurd ((h ⟨0, 0⟩ 587).span 0 11 586 (by decide +kernel) (by decide +kernel)) (by decide)

end PiWxRx
