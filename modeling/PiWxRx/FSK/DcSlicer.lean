import PiWxRx.FSK.DspThread

/-!
# The DC slicer

The slicer low-passes the phase into `dcslice_level` and takes it off, so that a constant offset of
the phase does not decide the bit. It works in `int`, and both products are cut off toward zero.

* `dcSlice_range_iff`: the level is a 16-bit variable. It keeps its value over every run exactly if
  the phases stay within `40000`; larger ones of one sign drive it past `32767`.
* `sliceAll_deadBand`: phases within `6666` add nothing to the level. They take it to zero, one step
  at least with each phase, and from then on the slicer is the identity, whatever their mean.

The bounds on the products go through `roundToDouble_bounds`, the relative error of a `double`.
-/

namespace PiWxRx

open CArith

/-! ## Products -/

/-- Rounding to 53 bits has a relative error of at most one part in `2 ^ 53`. -/
theorem roundToDouble_bounds (n : ℕ) :
    n * (2 ^ 53 - 1) ≤ roundToDouble n * 2 ^ 53 ∧ roundToDouble n * 2 ^ 53 ≤ n * (2 ^ 53 + 1) := by
  rcases Nat.eq_zero_or_pos (n.log2 + 1 - 53) with hzero | hpos
  · -- `n` has no more bits than are kept
    have hround : roundToDouble n = n := by
      simp [roundToDouble, hzero, Nat.mod_one]
    rw [hround]
    exact ⟨Nat.mul_le_mul_left n (by decide), Nat.mul_le_mul_left n (by decide)⟩
  · have hn : n ≠ 0 := by
      rintro rfl
      simp at hpos
    obtain ⟨e, he⟩ := Nat.exists_eq_add_of_le' hpos
    -- half a unit in the last place is below one part in `2 ^ 53`
    have hlarge : 2 ^ 53 * 2 ^ e ≤ n := by
      have hlog := Nat.log2_self_le hn
      rw [← Nat.pow_add]
      exact (Nat.pow_le_pow_right (by decide) (by omega)).trans hlog
    have hunit : 2 ^ (e + 1) = 2 * 2 ^ e := Nat.pow_succ'
    have hdiv := Nat.div_add_mod' n (2 ^ (e + 1))
    have hmod := Nat.mod_lt n (show 0 < 2 ^ (e + 1) by positivity)
    simp only [roundToDouble, he, Nat.shiftRight_eq_div_pow, Nat.shiftLeft_eq]
    rw [hunit] at hdiv hmod ⊢
    split_ifs with hup
    · rw [Nat.succ_mul]
      omega
    · rw [not_or] at hup
      omega

/-- The magnitude of a product is that of the rounded product of the magnitudes. -/
theorem Double.natAbs_mulInt (c : Double) (v : ℤ) :
    (c.mulInt v).natAbs = roundToDouble (v.natAbs * c.significand) / 2 ^ c.scale := by
  rw [Double.mulInt, Int.natAbs_mul, Int.natAbs_natCast, Nat.shiftRight_eq_div_pow]
  rcases eq_or_ne v 0 with rfl | hv
  · rw [Int.natAbs_zero, Nat.zero_mul, show roundToDouble 0 = 0 by decide, Nat.zero_div,
      Nat.mul_zero]
  · rw [Int.natAbs_sign_of_ne_zero hv, Nat.one_mul]

/-- The product in `double`, cut off, against the exact product. -/
theorem Double.natAbs_mulInt_bounds (c : Double) (v : ℤ) :
    (c.mulInt v).natAbs * 2 ^ c.scale * 2 ^ 53 ≤ v.natAbs * c.significand * (2 ^ 53 + 1) ∧
      v.natAbs * c.significand * (2 ^ 53 - 1) <
        ((c.mulInt v).natAbs + 1) * 2 ^ c.scale * 2 ^ 53 := by
  obtain ⟨hlower, hupper⟩ := roundToDouble_bounds (v.natAbs * c.significand)
  rw [Double.natAbs_mulInt]
  constructor
  · exact (Nat.mul_le_mul_right _ (Nat.div_mul_le_self _ _)).trans hupper
  · refine hlower.trans_lt (Nat.mul_lt_mul_of_pos_right ?_ (by positivity))
    rw [Nat.add_one_mul]
    exact Nat.lt_div_mul_add (by positivity)

/-- The decay takes at least one off, and of a 16-bit level at most five. -/
theorem levelDecay_bounds (v : ℤ) :
    (levelDecay.mulInt v).natAbs ≤ v.natAbs - 1 ∧
      (v.natAbs ≤ 32767 → v.natAbs ≤ (levelDecay.mulInt v).natAbs + 5) ∧
      (v.natAbs ≤ 32767 → (levelDecay.mulInt v).natAbs ≤ 32762) := by
  obtain ⟨hupper, hlower⟩ := levelDecay.natAbs_mulInt_bounds v
  simp only [levelDecay] at hupper hlower ⊢
  omega

/-- The gain of a phase: nothing up to `6666`, five at most up to `40000`. -/
theorem phaseGain_bounds (v : ℤ) :
    (v.natAbs ≤ 6666 → phaseGain.mulInt v = 0) ∧
      (v.natAbs ≤ 40000 → (phaseGain.mulInt v).natAbs ≤ 5) := by
  obtain ⟨hupper, -⟩ := phaseGain.natAbs_mulInt_bounds v
  simp only [phaseGain] at hupper
  refine ⟨fun hv => Int.natAbs_eq_zero.mp ?_, fun hv => ?_⟩
  · simp only [phaseGain]
    omega
  · rcases Nat.lt_or_eq_of_le hv with hlt | heq
    · simp only [phaseGain]
      omega
    · -- at the bound the product is rounded down
      rcases Int.natAbs_eq_iff.mp heq with rfl | rfl <;> decide

theorem phaseGain_40001 : phaseGain.mulInt 40001 = 6 := by decide

/-! ## Runs -/

/-- The slicer on a list of phases: what it leaves of each, and the level afterwards. -/
def sliceAll (A : Arith) (dcsliceLevel : ℤ) : List ℤ → Option (List ℤ × ℤ)
  | [] => some ([], dcsliceLevel)
  | phase :: phases => do
    let (sliced, dcsliceLevel) ← dcSlice A dcsliceLevel phase
    let (rest, dcsliceLevel) ← sliceAll A dcsliceLevel phases
    some (sliced :: rest, dcsliceLevel)

theorem sliceAll_cons {A : Arith} {level level' phase sliced : ℤ}
    (h : dcSlice A level phase = some (sliced, level')) (phases : List ℤ) :
    sliceAll A level (phase :: phases) =
      (sliceAll A level' phases).map fun p => (sliced :: p.1, p.2) := by
  simp only [sliceAll, h, Option.bind_eq_bind, Option.bind_some]
  cases sliceAll A level' phases <;> rfl

/-- One step in exact arithmetic. -/
theorem dcSlice_of_fits {A : Arith} (hA : A.Exact) {level phase : ℤ}
    (hlevel : CArith.Fits 16 (levelDecay.mulInt level + phaseGain.mulInt phase))
    (hphase : phase.natAbs ≤ 40000) :
    dcSlice A level phase =
      some (phase - (levelDecay.mulInt level + phaseGain.mulInt phase),
        levelDecay.mulInt level + phaseGain.mulInt phase) := by
  have hlevel' := hlevel
  simp only [CArith.Fits] at hlevel'
  have hint : CArith.Fits 32 (levelDecay.mulInt level + phaseGain.mulInt phase) := by
    constructor <;> omega
  have hsliced : CArith.Fits 32 (phase - (levelDecay.mulInt level + phaseGain.mulInt phase)) := by
    constructor <;> omega
  simp [dcSlice, hA.int _ hint, hA.short _ hlevel, hA.int _ hsliced]

/-- Phases within `40000` keep the level in its 16 bits. -/
theorem sliceAll_of_le {A : Arith} (hA : A.Exact) {phases : List ℤ}
    (hphases : ∀ phase ∈ phases, phase.natAbs ≤ 40000) {level : ℤ} (hlevel : level.natAbs ≤ 32767) :
    ∃ sliced level', sliceAll A level phases = some (sliced, level') ∧ level'.natAbs ≤ 32767 := by
  induction phases generalizing level with
  | nil => exact ⟨[], level, rfl, hlevel⟩
  | cons phase phases ih =>
    have hphase := hphases phase List.mem_cons_self
    have hdecay := (levelDecay_bounds level).2.2 hlevel
    have hgain := (phaseGain_bounds phase).2 hphase
    have hnext : (levelDecay.mulInt level + phaseGain.mulInt phase).natAbs ≤ 32767 := by
      omega
    have hfits : CArith.Fits 16 (levelDecay.mulInt level + phaseGain.mulInt phase) := by
      constructor <;> omega
    obtain ⟨sliced, level', hrun, hlevel'⟩ :=
      ih (fun p hp => hphases p (List.mem_cons_of_mem phase hp)) hnext
    rw [sliceAll_cons (dcSlice_of_fits hA hfits hphase), hrun]
    exact ⟨_, level', rfl, hlevel'⟩

/-- A constant phase of `40001` drives the level up, until it no longer fits. -/
theorem le_level_of_sliceAll {n : ℕ} {level : ℤ} (hlo : 0 ≤ level) (hhi : level ≤ 32767)
    {sliced : List ℤ} {level' : ℤ}
    (h : sliceAll .checked level (List.replicate n 40001) = some (sliced, level')) :
    level + n ≤ level' ∧ level' ≤ 32767 := by
  induction n generalizing level sliced with
  | zero =>
    obtain ⟨-, rfl⟩ := Prod.mk.inj (Option.some.inj h)
    exact ⟨by simp, hhi⟩
  | succ n ih =>
    have hsign : 0 ≤ levelDecay.mulInt level := by
      rw [Double.mulInt]
      exact mul_nonneg (Int.sign_nonneg_iff.mpr hlo) (Int.natCast_nonneg _)
    have hdecay := (levelDecay_bounds level).2.1 (by omega)
    rw [List.replicate_succ, sliceAll, Option.bind_eq_bind, Option.bind_eq_some_iff] at h
    obtain ⟨⟨first, next⟩, hstep, hrest⟩ := h
    -- the new level was stored in 16 bits
    simp only [dcSlice, Arith.checked, phaseGain_40001, Option.bind_eq_bind,
      Option.bind_eq_some_iff, Option.ite_none_right_eq_some, Option.some.injEq] at hstep
    obtain ⟨sum, ⟨-, rfl⟩, level₁, ⟨hfits, rfl⟩, phase, -, hnext⟩ := hstep
    obtain ⟨-, rfl⟩ := Prod.mk.inj hnext
    simp only [Option.bind_eq_bind, Option.bind_eq_some_iff] at hrest
    obtain ⟨⟨rest, last⟩, hrun, hlast⟩ := hrest
    obtain ⟨-, rfl⟩ := Prod.mk.inj (Option.some.inj hlast)
    have hfits' := hfits.2
    have := ih (by omega) (by omega) hrun
    push_cast
    omega

/-- **The range of the level.** From program start on, every run of phases within `bound` keeps the
level in its 16-bit variable exactly if `bound` is at most `40000`. -/
theorem dcSlice_range_iff (bound : ℕ) :
    (∀ phases : List ℤ, (∀ phase ∈ phases, phase.natAbs ≤ bound) →
        (sliceAll .checked 0 phases).isSome = true) ↔
      bound ≤ 40000 := by
  constructor
  · intro h
    by_contra hbound
    have hphases : ∀ phase ∈ List.replicate 32768 (40001 : ℤ), phase.natAbs ≤ bound := by
      intro phase hphase
      rw [List.eq_of_mem_replicate hphase]
      omega
    obtain ⟨⟨sliced, level⟩, hrun⟩ := Option.isSome_iff_exists.mp (h _ hphases)
    have hlevel := le_level_of_sliceAll (n := 32768) le_rfl (by decide) hrun
    omega
  · intro hbound phases hphases
    have hstart : (0 : ℤ).natAbs ≤ 32767 := by decide
    obtain ⟨sliced, level, hrun, -⟩ := sliceAll_of_le checked_exact
      (fun phase hphase => (hphases phase hphase).trans hbound) hstart
    rw [hrun]
    rfl

/-! ## The dead band -/

/-- A phase in the dead band leaves a smaller level. -/
theorem dcSlice_deadBand {A : Arith} (hA : A.Exact) {level phase : ℤ}
    (hlevel : level.natAbs ≤ 32768) (hphase : phase.natAbs ≤ 6666) :
    dcSlice A level phase = some (phase - levelDecay.mulInt level, levelDecay.mulInt level) ∧
      (levelDecay.mulInt level).natAbs ≤ level.natAbs - 1 := by
  have hdecay := (levelDecay_bounds level).1
  have hgain := (phaseGain_bounds phase).1 hphase
  have hfits : CArith.Fits 16 (levelDecay.mulInt level + phaseGain.mulInt phase) := by
    rw [hgain]
    constructor <;> omega
  refine ⟨?_, hdecay⟩
  rw [dcSlice_of_fits hA hfits (hphase.trans (by decide)), hgain, add_zero]

/-- **The dead band.** While the phases stay within `6666`, the level reaches zero after as many of
them as its magnitude at the latest, and from there on the slicer leaves every phase as it is. -/
theorem sliceAll_deadBand {A : Arith} (hA : A.Exact) {level : ℤ} (hlevel : level.natAbs ≤ 32768)
    {phases : List ℤ} (hphases : ∀ phase ∈ phases, phase.natAbs ≤ 6666) :
    ∃ sliced level', sliceAll A level phases = some (sliced, level') ∧
      level'.natAbs ≤ level.natAbs - phases.length ∧
      sliced.drop level.natAbs = phases.drop level.natAbs := by
  induction phases generalizing level with
  | nil => exact ⟨[], level, rfl, by simp, rfl⟩
  | cons phase phases ih =>
    obtain ⟨hstep, hdecay⟩ := dcSlice_deadBand hA hlevel (hphases phase List.mem_cons_self)
    have hnext : (levelDecay.mulInt level).natAbs ≤ 32768 := by omega
    obtain ⟨sliced, level', hrun, hlevel', hdrop⟩ := ih hnext
      fun p hp => hphases p (List.mem_cons_of_mem phase hp)
    refine ⟨(phase - levelDecay.mulInt level) :: sliced, level', ?_, ?_, ?_⟩
    · rw [sliceAll_cons hstep, hrun]
      rfl
    · rw [List.length_cons]
      omega
    · rcases Nat.eq_zero_or_pos level.natAbs with hzero | hpos
      · -- the level is zero already
        have hsame : levelDecay.mulInt level = 0 := by omega
        rw [hsame, Int.natAbs_zero, List.drop_zero, List.drop_zero] at hdrop
        rw [hzero, List.drop_zero, List.drop_zero, hdrop, hsame, sub_zero]
      · obtain ⟨k, hk⟩ := Nat.exists_eq_add_of_le' hpos
        rw [hk, List.drop_succ_cons, List.drop_succ_cons]
        have hle : (levelDecay.mulInt level).natAbs ≤ k := by omega
        obtain ⟨j, hj⟩ := Nat.exists_eq_add_of_le hle
        rw [hj, ← List.drop_drop, hdrop, List.drop_drop]

/-- A level of `2` is gone after two phases. -/
theorem sliceAll_deadBand_offset :
    ∃ sliced level', sliceAll .checked 2 (List.replicate 4 6666) = some (sliced, level') ∧
      level'.natAbs ≤ (2 : ℤ).natAbs - (List.replicate 4 (6666 : ℤ)).length ∧
      sliced.drop (2 : ℤ).natAbs = (List.replicate 4 6666).drop (2 : ℤ).natAbs :=
  sliceAll_deadBand checked_exact (by decide) (by decide)

end PiWxRx
