import Mathlib.Tactic

/-!
# Quantising to a few significant bits

A natural number is replaced by the middle of the cell it lies in. Cells are `2 ^ emin` wide up to
`2 ^ (emin + p)`, and from there on they double in width with every binade, so that `p` significant
bits are kept: `cellExp` is the exponent of the width and `cellMid` the middle.

* `cellExp_eq_of_cell`: the numbers of a cell have the same cell;
* `cellMid_cellMid`: quantising twice is quantising once, also with up to half a cell taken off in
  between (`cellMid_cellMid_sub`);
* `cellMid_mono`: quantising is monotone;
* `dist_cellMid_le`, `pow_mul_dist_cellMid_le`: the error is half a cell, that is one part in
  `2 ^ p` above the smallest cells.

`signed` takes a quantiser of magnitudes to one of integers, with the same properties.
-/

namespace Quantizer

variable {emin p m n : ℕ}

/-- The exponent of the width of the cell `m` lies in. -/
def cellExp (emin p m : ℕ) : ℕ := max emin (Nat.log 2 m + 1 - p)

/-- The middle of the cell `m` lies in. -/
def cellMid (emin p m : ℕ) : ℕ :=
  m / 2 ^ cellExp emin p m * 2 ^ cellExp emin p m + 2 ^ (cellExp emin p m - 1)

/-- A cell has `p` bits in front of it at most. -/
theorem lt_two_pow_cellExp (emin p m : ℕ) : m < 2 ^ (cellExp emin p m + p) := by
  refine (Nat.lt_pow_succ_log_self Nat.one_lt_two m).trans_le ?_
  refine Nat.pow_le_pow_right (by decide) ?_
  unfold cellExp
  omega

/-- Above the smallest cells, `p` bits are in front of it. -/
theorem two_pow_cellExp_le (hp : 0 < p) (h : emin < cellExp emin p m) :
    2 ^ (cellExp emin p m + (p - 1)) ≤ m := by
  have hexp : cellExp emin p m = Nat.log 2 m + 1 - p := by
    unfold cellExp at h ⊢
    omega
  have hm : m ≠ 0 := by
    rintro rfl
    unfold cellExp at h
    simp only [Nat.log_zero_right] at h
    omega
  have hsum : cellExp emin p m + (p - 1) = Nat.log 2 m := by
    omega
  rw [hsum]
  exact Nat.pow_log_le_self 2 hm

theorem div_cellExp_lt (emin p m : ℕ) : m / 2 ^ cellExp emin p m < 2 ^ p := by
  rw [Nat.div_lt_iff_lt_mul (by positivity), ← Nat.pow_add, Nat.add_comm]
  exact lt_two_pow_cellExp emin p m

/-- Larger numbers do not lie in smaller cells. -/
theorem cellExp_mono (h : m ≤ n) : cellExp emin p m ≤ cellExp emin p n := by
  have hlog := Nat.log_mono_right (b := 2) h
  unfold cellExp
  omega

/-- The numbers of a cell have the same cell. -/
theorem cellExp_eq_of_cell (hp : 0 < p)
    (h : n / 2 ^ cellExp emin p m = m / 2 ^ cellExp emin p m) :
    cellExp emin p n = cellExp emin p m := by
  have hlt : n < 2 ^ (cellExp emin p m + p) := by
    have hcell := div_cellExp_lt emin p m
    rw [← h, Nat.div_lt_iff_lt_mul (by positivity), ← Nat.pow_add, Nat.add_comm] at hcell
    exact hcell
  rcases Nat.eq_or_lt_of_le (Nat.le_max_left emin (Nat.log 2 m + 1 - p)) with hmin | hmin
  · -- a cell of least width
    change emin = cellExp emin p m at hmin
    rw [← hmin] at hlt ⊢
    have hlog : Nat.log 2 n < emin + p := Nat.log_lt_of_lt_pow' (by omega) hlt
    unfold cellExp
    omega
  · -- a cell with `p` bits in front of it
    change emin < cellExp emin p m at hmin
    have hle : 2 ^ (cellExp emin p m + (p - 1)) ≤ n := by
      have hbits := two_pow_cellExp_le hp hmin
      rw [Nat.pow_add, Nat.mul_comm, ← Nat.le_div_iff_mul_le (by positivity)] at hbits ⊢
      rw [h]
      exact hbits
    have hlower := Nat.le_log_of_pow_le Nat.one_lt_two hle
    have hupper : Nat.log 2 n < cellExp emin p m + p := Nat.log_lt_of_lt_pow' (by omega) hlt
    rw [cellExp]
    omega

/-- The lower half of a cell, up to the middle, lies in it. -/
theorem cellMid_sub_div (he : 0 < emin) (m : ℕ) {r : ℕ} (hr : r ≤ 2 ^ (cellExp emin p m - 1)) :
    (cellMid emin p m - r) / 2 ^ cellExp emin p m = m / 2 ^ cellExp emin p m := by
  have hpos : 0 < cellExp emin p m := he.trans_le (Nat.le_max_left _ _)
  have hhalf : 2 ^ (cellExp emin p m - 1) < 2 ^ cellExp emin p m :=
    Nat.pow_lt_pow_right (by decide) (by omega)
  rw [cellMid, Nat.add_sub_assoc hr, Nat.mul_comm, Nat.mul_add_div (by positivity),
    Nat.div_eq_of_lt ((Nat.sub_le _ _).trans_lt hhalf), Nat.add_zero]

/-- A number quantised and then lowered by no more than half a cell is quantised to the same. -/
theorem cellMid_cellMid_sub (he : 0 < emin) (hp : 0 < p) (m : ℕ) {r : ℕ}
    (hr : r ≤ 2 ^ (cellExp emin p m - 1)) :
    cellMid emin p (cellMid emin p m - r) = cellMid emin p m := by
  have hcell := cellMid_sub_div he m hr
  conv_lhs => rw [cellMid, cellExp_eq_of_cell hp hcell, hcell]
  rfl

/-- Quantising twice is quantising once. -/
theorem cellMid_cellMid (he : 0 < emin) (hp : 0 < p) (m : ℕ) :
    cellMid emin p (cellMid emin p m) = cellMid emin p m :=
  cellMid_cellMid_sub he hp m (Nat.zero_le _)

/-- The middle is half a cell away at most. -/
theorem dist_cellMid_le (he : 0 < emin) (m : ℕ) :
    m ≤ cellMid emin p m + 2 ^ (cellExp emin p m - 1) ∧
      cellMid emin p m ≤ m + 2 ^ (cellExp emin p m - 1) := by
  have hpos : 0 < cellExp emin p m := he.trans_le (Nat.le_max_left _ _)
  have hhalf : 2 ^ cellExp emin p m = 2 * 2 ^ (cellExp emin p m - 1) := by
    rw [← Nat.pow_succ']
    congr 1
    omega
  have hdiv := Nat.div_add_mod' m (2 ^ cellExp emin p m)
  have hmod := Nat.mod_lt m (show 0 < 2 ^ cellExp emin p m by positivity)
  unfold cellMid
  omega

/-- Half a cell is one part in `2 ^ p` of the number, above the smallest cells. -/
theorem pow_mul_half_cell_le (he : 0 < emin) (hp : 0 < p) (m : ℕ) :
    2 ^ p * 2 ^ (cellExp emin p m - 1) ≤ max (2 ^ (p + emin - 1)) m := by
  have hpos : 0 < cellExp emin p m := he.trans_le (Nat.le_max_left _ _)
  rw [← Nat.pow_add]
  rcases Nat.eq_or_lt_of_le (Nat.le_max_left emin (Nat.log 2 m + 1 - p)) with hmin | hmin
  · change emin = cellExp emin p m at hmin
    refine (Nat.le_of_eq ?_).trans (Nat.le_max_left _ _)
    rw [← hmin]
    congr 1
    omega
  · change emin < cellExp emin p m at hmin
    refine le_trans (Nat.le_of_eq ?_) ((two_pow_cellExp_le hp hmin).trans (Nat.le_max_right _ _))
    congr 1
    omega

/-- The relative error is one part in `2 ^ p`, above the smallest cells. -/
theorem pow_mul_dist_cellMid_le (he : 0 < emin) (hp : 0 < p) (m : ℕ) :
    2 ^ p * ((m : ℤ) - cellMid emin p m).natAbs ≤ max (2 ^ (p + emin - 1)) m := by
  obtain ⟨hlower, hupper⟩ := dist_cellMid_le (p := p) he m
  refine le_trans (Nat.mul_le_mul_left _ ?_) (pow_mul_half_cell_le he hp m)
  omega

/-- Quantising is monotone. -/
theorem cellMid_mono (hp : 0 < p) (h : m ≤ n) : cellMid emin p m ≤ cellMid emin p n := by
  have hexp : cellExp emin p m ≤ cellExp emin p n := cellExp_mono h
  rcases Nat.eq_or_lt_of_le hexp with heq | hlt
  · -- cells of one width
    rw [cellMid, cellMid, heq]
    gcongr
  · -- all of the cell of `m` lies below the binade of `n`
    have hle : cellMid emin p m ≤ 2 ^ (cellExp emin p m + p) := by
      have hcell := Nat.mul_le_mul_right (2 ^ cellExp emin p m) (div_cellExp_lt emin p m)
      rw [← Nat.pow_add, Nat.add_comm p, Nat.succ_mul] at hcell
      have hhalf : 2 ^ (cellExp emin p m - 1) ≤ 2 ^ cellExp emin p m :=
        Nat.pow_le_pow_right (by decide) (by omega)
      unfold cellMid
      omega
    have hmin : emin < cellExp emin p n := (Nat.le_max_left _ _).trans_lt hlt
    have hge : 2 ^ (cellExp emin p n + (p - 1)) ≤ cellMid emin p n := by
      have hbits := two_pow_cellExp_le hp hmin
      rw [Nat.pow_add, Nat.mul_comm, ← Nat.le_div_iff_mul_le (by positivity)] at hbits
      have hfloor := Nat.mul_le_mul_right (2 ^ cellExp emin p n) hbits
      rw [← Nat.pow_add, Nat.add_comm] at hfloor
      exact hfloor.trans (Nat.le_add_right _ _)
    calc cellMid emin p m ≤ 2 ^ (cellExp emin p m + p) := hle
      _ ≤ 2 ^ (cellExp emin p n + (p - 1)) := Nat.pow_le_pow_right (by decide) (by omega)
      _ ≤ cellMid emin p n := hge

/-! ## Signed numbers -/

/-- Quantise the magnitude and keep the sign. -/
def signed (f : ℕ → ℕ) (v : ℤ) : ℤ := v.sign * f v.natAbs

theorem signed_of_nonneg (f : ℕ → ℕ) (h0 : f 0 = 0) {v : ℤ} (h : 0 ≤ v) :
    signed f v = f v.natAbs := by
  rcases h.lt_or_eq with hpos | rfl
  · rw [signed, Int.sign_eq_one_of_pos hpos, one_mul]
  · simp [signed, h0]

theorem signed_of_neg (f : ℕ → ℕ) {v : ℤ} (h : v < 0) : signed f v = -f v.natAbs := by
  rw [signed, Int.sign_eq_neg_one_of_neg h, neg_one_mul]

theorem signed_mono {f : ℕ → ℕ} (hf : Monotone f) : Monotone (signed f) := by
  intro v w h
  rcases lt_trichotomy v 0 with hv | rfl | hv
  · rw [signed_of_neg f hv]
    rcases lt_trichotomy w 0 with hw | rfl | hw
    · rw [signed_of_neg f hw]
      have := hf (show w.natAbs ≤ v.natAbs by omega)
      omega
    · simp [signed]
    · rw [signed, Int.sign_eq_one_of_pos hw]
      omega
  · have hw : 0 ≤ w.sign := Int.sign_nonneg_iff.mpr h
    simp only [signed, Int.sign_zero, zero_mul]
    positivity
  · rw [signed, signed, Int.sign_eq_one_of_pos hv, Int.sign_eq_one_of_pos (hv.trans_le h)]
    have := hf (show v.natAbs ≤ w.natAbs by omega)
    omega

theorem signed_signed {f : ℕ → ℕ} (hf : ∀ n, f (f n) = f n) (v : ℤ) :
    signed f (signed f v) = signed f v := by
  rcases lt_trichotomy v 0 with hv | rfl | hv
  · rw [signed_of_neg f hv]
    rcases Nat.eq_zero_or_pos (f v.natAbs) with h0 | hpos
    · simp [h0, signed]
    · rw [signed_of_neg f (by omega), Int.natAbs_neg, Int.natAbs_natCast, hf]
  · simp [signed]
  · rw [signed, signed, Int.sign_eq_one_of_pos hv, one_mul, Int.natAbs_natCast, hf]
    rcases Nat.eq_zero_or_pos (f v.natAbs) with h0 | hpos
    · simp [h0]
    · rw [Int.sign_eq_one_of_pos (by omega), one_mul]

/-- The error is that of the magnitude. -/
theorem natAbs_sub_signed {f : ℕ → ℕ} (h0 : f 0 = 0) (v : ℤ) :
    (v - signed f v).natAbs = ((v.natAbs : ℤ) - f v.natAbs).natAbs := by
  rcases lt_or_ge v 0 with hv | hv
  · rw [signed_of_neg f hv]
    omega
  · rw [signed_of_nonneg f h0 hv]
    omega

end Quantizer
