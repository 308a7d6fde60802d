import Mathlib.Tactic

/-!
# C integer arithmetic

The code of a fixed-point computation is read with an evaluation of the C integer types: what the
mathematical value of an operation or a cast becomes in the type it has in the program.

* `Arith.checked` has no result for a value that does not fit its type, with a `long` as narrow as
  an `int`. Code that returns a value under it overflows nowhere.
* `Arith.wrap longBits` is two's complement with a `long` of `longBits` bits.
* `Arith.Exact` is what both have in common: a value that fits is kept. Results about exact
  evaluations hold for each of them at once.

Code embedded with bit vectors is read the same way: an operation on `BitVec w` gives the value of
the mathematical operation if that fits `w` bits, and a conversion keeps a value exactly if it fits
(`toInt_ofInt_eq_iff`).

The bounds that make values fit go through `abs_ediv_le` (a shift to the right) and `abs_dot_le`
(a sum of products with fixed coefficients).
-/

namespace CArith

/-- `v` is a value of the signed type of `bits` bits. -/
def Fits (bits : ℕ) (v : ℤ) : Prop := -2 ^ (bits - 1) ≤ v ∧ v < 2 ^ (bits - 1)

instance (bits : ℕ) (v : ℤ) : Decidable (Fits bits v) := inferInstanceAs (Decidable (_ ∧ _))

/-- An evaluation of the C integer types: what a mathematical value becomes as a value of the
type, if it has one. -/
structure Arith where
  /-- The 16-bit type. -/
  short : ℤ → Option ℤ
  /-- The 32-bit type. -/
  int : ℤ → Option ℤ
  /-- The type `long`, 32 or 64 bits wide on the machines in question. -/
  long : ℤ → Option ℤ

/-- No result on overflow, the `long` being 32 bits wide. -/
def Arith.checked : Arith where
  short v := if Fits 16 v then some v else none
  int v := if Fits 32 v then some v else none
  long v := if Fits 32 v then some v else none

/-- Two's complement, the `long` being `longBits` wide. -/
def Arith.wrap (longBits : ℕ) : Arith where
  short v := some (v.bmod (2 ^ 16))
  int v := some (v.bmod (2 ^ 32))
  long v := some (v.bmod (2 ^ longBits))

/-- Values that fit are kept. -/
structure Arith.Exact (A : Arith) : Prop where
  short : ∀ v, Fits 16 v → A.short v = some v
  int : ∀ v, Fits 32 v → A.int v = some v
  long : ∀ v, Fits 32 v → A.long v = some v

theorem checked_exact : Arith.checked.Exact where
  short _ h := if_pos h
  int _ h := if_pos h
  long _ h := if_pos h

theorem bmod_of_fits {bits : ℕ} (hbits : 0 < bits) {v : ℤ} (h : Fits bits v) :
    v.bmod (2 ^ bits) = v := by
  obtain ⟨k, rfl⟩ := Nat.exists_eq_add_of_le' hbits
  obtain ⟨hlo, hhi⟩ := h
  -- with `bits = k + 1` both bounds are `2 ^ k`, half the modulus
  rw [Nat.add_sub_cancel] at hlo hhi
  apply Int.bmod_eq_of_le
  · push_cast [pow_succ]
    omega
  · push_cast [pow_succ]
    omega

theorem Fits.mono {a b : ℕ} (hab : a ≤ b) {v : ℤ} (h : Fits a v) : Fits b v := by
  have hpow : (2 : ℤ) ^ (a - 1) ≤ 2 ^ (b - 1) := by
    gcongr
    exact one_le_two
  exact ⟨(neg_le_neg hpow).trans h.1, h.2.trans_le hpow⟩

/-- Two's complement keeps what fits 32 bits, whatever the wider `long`. -/
theorem wrap_exact {longBits : ℕ} (h : 32 ≤ longBits) : (Arith.wrap longBits).Exact where
  short _ hv := congrArg some (bmod_of_fits (by decide) hv)
  int _ hv := congrArg some (bmod_of_fits (by decide) hv)
  long _ hv := congrArg some (bmod_of_fits (by omega) (hv.mono h))

/-! ## Bit vectors -/

section BitVectors

variable {w : ℕ} {x y : BitVec w}

theorem fits_toInt (x : BitVec w) : Fits w x.toInt := ⟨BitVec.le_toInt x, BitVec.toInt_lt⟩

/-- A conversion to `w` bits keeps a value exactly if it fits. -/
theorem toInt_ofInt_eq_iff (hw : 0 < w) {v : ℤ} : (BitVec.ofInt w v).toInt = v ↔ Fits w v := by
  refine ⟨fun h => h ▸ fits_toInt _, fun h => ?_⟩
  rw [BitVec.toInt_ofInt, bmod_of_fits hw h]

/-- Cutting off the high bits keeps a value exactly if it fits. -/
theorem toInt_truncate_eq_iff {v : ℕ} (hv : 0 < v) (h : v ≤ w) (x : BitVec w) :
    (x.truncate v).toInt = x.toInt ↔ Fits v x.toInt := by
  rw [BitVec.truncate, ← BitVec.signExtend_eq_setWidth_of_le x h]
  exact toInt_ofInt_eq_iff hv

theorem toInt_add_of_fits (hw : 0 < w) (h : Fits w (x.toInt + y.toInt)) :
    (x + y).toInt = x.toInt + y.toInt := by
  rw [BitVec.toInt_add, bmod_of_fits hw h]

theorem toInt_mul_of_fits (hw : 0 < w) (h : Fits w (x.toInt * y.toInt)) :
    (x * y).toInt = x.toInt * y.toInt := by
  rw [BitVec.toInt_mul, bmod_of_fits hw h]

theorem toInt_shiftLeft_of_fits (hw : 0 < w) {n : ℕ} (h : Fits w (x.toInt * 2 ^ n)) :
    (x <<< n).toInt = x.toInt * 2 ^ n := by
  rw [BitVec.toInt_shiftLeft, Nat.shiftLeft_eq, ← bmod_of_fits hw h, BitVec.toInt_eq_toNat_bmod,
    Int.bmod_mul_bmod]
  push_cast
  rfl

end BitVectors

/-! ## Bounds -/

theorem fits_of_abs_lt {bits : ℕ} {v : ℤ} (h : |v| < 2 ^ (bits - 1)) : Fits bits v :=
  ⟨(abs_lt.mp h).1.le, (abs_lt.mp h).2⟩

/-- A shift to the right is a division, rounded down. -/
theorem shiftRight_eq_ediv (v : ℤ) (k : ℕ) : v >>> k = v / 2 ^ k := by
  rw [Int.shiftRight_eq_div_pow, Nat.cast_pow, Nat.cast_ofNat]

/-- Dividing by `c`, rounded down, divides a bound that is a multiple of `c`. -/
theorem abs_ediv_le {v b c : ℤ} (hc : 0 < c) (h : |v| ≤ b * c) : |v / c| ≤ b := by
  obtain ⟨hlo, hhi⟩ := abs_le.mp h
  rw [abs_le]
  refine ⟨?_, Int.ediv_le_of_le_mul hc hhi⟩
  rw [Int.le_ediv_iff_mul_le hc, neg_mul]
  exact hlo

theorem abs_mul_le {a b v w : ℤ} (hv : |v| ≤ a) (hw : |w| ≤ b) : |v * w| ≤ a * b := by
  rw [abs_mul]
  have := abs_nonneg v
  have := abs_nonneg w
  gcongr
  omega

/-- The sum of products of coefficients and values: `cs[0] * f 0 + cs[1] * f 1 + …`. -/
def dot (cs : List ℤ) (f : ℕ → ℤ) : ℤ := (cs.mapIdx fun i c => c * f i).sum

@[simp] theorem dot_nil (f : ℕ → ℤ) : dot [] f = 0 := rfl

@[simp] theorem dot_cons (c : ℤ) (cs : List ℤ) (f : ℕ → ℤ) :
    dot (c :: cs) f = c * f 0 + dot cs fun i => f (i + 1) := by
  simp [dot, List.mapIdx_cons]

theorem dot_eq_sum (cs : List ℤ) (f : ℕ → ℤ) :
    dot cs f = ∑ k ∈ Finset.range cs.length, cs.getD k 0 * f k := by
  induction cs generalizing f with
  | nil => rfl
  | cons c cs ih =>
    rw [dot_cons, ih, List.length_cons, Finset.sum_range_succ', add_comm]
    rfl

/-- A sum of products is bounded by the absolute coefficient sum times the bound on the values. -/
theorem abs_dot_le {f : ℕ → ℤ} {b : ℤ} (hf : ∀ i, |f i| ≤ b) (cs : List ℤ) :
    |dot cs f| ≤ (cs.map fun c => |c|).sum * b := by
  induction cs generalizing f with
  | nil => simp
  | cons c cs ih =>
    rw [dot_cons, List.map_cons, List.sum_cons, add_mul]
    calc |c * f 0 + dot cs fun i => f (i + 1)|
        ≤ |c * f 0| + |dot cs fun i => f (i + 1)| := abs_add_le _ _
      _ ≤ |c| * b + (cs.map fun c => |c|).sum * b := by
          gcongr
          · exact abs_mul_le le_rfl (hf 0)
          · exact ih fun i => hf (i + 1)

end CArith
