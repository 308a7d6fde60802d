import Mathlib.Data.List.GetD
import Mathlib.Tactic

/-!
# Delay lines

Two ways of keeping the last `n` values of a stream in `n` cells.

* A *shift register* moves every cell one place up and writes the newest value into cell `0`.
  `shiftFrom` is the in-place loop, and `Holds` says that the cells are the history, newest
  first. `holds_push` is the step rule.
* A *circular line* leaves the cells where they are and moves the write position.
  `RingHolds` says which cell holds the value written `i` steps ago, and `ringHolds_set` is the
  step rule. The cell count need not be a power of two.

Values from before the start of the stream are the initial cell contents `z`.
-/

namespace DelayLine

variable {α : Type*} {n : ℕ}

/-! ## Shift registers -/

/-- The loop `for (j = i; j > 0; j--) v[j] = v[j - 1];`. -/
@[irreducible]
def shiftFrom (v : Vector α n) : (i : ℕ) → i < n → Vector α n
  | 0, _ => v
  | i + 1, h => shiftFrom (v.set (i + 1) v[i]) i (by omega)

/-- The loop reads every cell before it overwrites it: cells `1, …, i` receive their lower
neighbour and the others keep their value. -/
theorem getElem_shiftFrom (v : Vector α n) (i : ℕ) (hi : i < n) (j : ℕ) (hj : j < n) :
    (shiftFrom v i hi)[j] = if 1 ≤ j ∧ j ≤ i then v[j - 1] else v[j] := by
  induction i generalizing v with
  | zero =>
    rw [shiftFrom, if_neg (by omega)]
  | succ i ih =>
    rw [shiftFrom, ih]
    rcases Nat.lt_trichotomy j (i + 1) with hlt | rfl | hgt
    · -- left to the rest of the loop, which still finds the old lower neighbour
      have hne : i + 1 ≠ j := by omega
      have hne' : i + 1 ≠ j - 1 := by omega
      by_cases h1 : 1 ≤ j
      · rw [if_pos ⟨h1, by omega⟩, if_pos ⟨h1, by omega⟩, Vector.getElem_set_ne _ _ hne']
      · rw [if_neg (by omega), if_neg (by omega), Vector.getElem_set_ne _ _ hne]
    · -- written in this round
      rw [if_neg (by omega), if_pos ⟨by omega, le_rfl⟩, Vector.getElem_set_self]
      rfl
    · -- above the range of the loop
      rw [if_neg (by omega), if_neg (by omega), Vector.getElem_set_ne _ _ (by omega)]

/-- The cells of `v` are the values of `hist`, newest first, then `z`. -/
def Holds (z : α) (v : Vector α n) (hist : List α) : Prop :=
  ∀ i (hi : i < n), v[i] = hist.getD i z

theorem holds_replicate (z : α) : Holds z (Vector.replicate n z) [] := by
  intro i hi
  simp

/-- Cells always hold a history: their own contents. -/
theorem holds_toList (z : α) (v : Vector α n) : Holds z v v.toList := by
  intro i hi
  simp [List.getD_eq_getElem?_getD, hi]

/-- Shifting and writing cell `0` pushes the new value in front of the history. -/
theorem holds_push {z : α} {v : Vector α n} {hist : List α} (h : Holds z v hist) (x : α)
    (hn : n - 1 < n) :
    Holds z ((shiftFrom v (n - 1) hn).set 0 x) (x :: hist) := by
  intro i hi
  cases i with
  | zero => simp
  | succ i =>
    rw [Vector.getElem_set_ne _ _ (by omega), getElem_shiftFrom, if_pos ⟨by omega, by omega⟩]
    simpa using h i (by omega)

/-! ## Circular lines -/

/-- The value `x` takes `i` steps before step `t`, or `z` if the stream is not that old: the
most recent of the first `t` values is `past z x t 0`. -/
def past (z : α) (x : ℕ → α) (t i : ℕ) : α := if i < t then x (t - 1 - i) else z

@[simp] theorem past_succ_zero (z : α) (x : ℕ → α) (t : ℕ) : past z x (t + 1) 0 = x t := by
  simp [past]

@[simp] theorem past_succ_succ (z : α) (x : ℕ → α) (t i : ℕ) :
    past z x (t + 1) (i + 1) = past z x t i := by
  simp only [past, Nat.add_lt_add_iff_right]
  congr 2
  omega

/-- The history of a finite stream up to position `n`, newest value first. -/
theorem getD_reverse_take (z : α) (xs : List α) {n : ℕ} (hn : n < xs.length) (k : ℕ) :
    (xs.take (n + 1)).reverse.getD k z = past z (fun m => xs.getD m z) (n + 1) k := by
  have hlen : (xs.take (n + 1)).length = n + 1 := by
    rw [List.length_take, Nat.min_eq_left hn]
  rw [past]
  split_ifs with hk
  · rw [List.getD_eq_getElem?_getD, List.getElem?_reverse (by rwa [hlen]), hlen,
      List.getElem?_take_of_lt (by omega), List.getD_eq_getElem?_getD]
  · exact List.getD_eq_default _ _ (by rw [List.length_reverse, hlen]; omega)

/-- After the first `t` values of `x` were written to the positions `0, 1, …` modulo `n`, the
value written `i` steps ago is still in its cell. -/
def RingHolds (z : α) (v : Vector α n) (x : ℕ → α) (t : ℕ) : Prop :=
  ∀ i < n, v[(t + (n - 1 - i)) % n]? = some (past z x t i)

theorem ringHolds_replicate (z : α) (x : ℕ → α) :
    RingHolds z (Vector.replicate n z) x 0 := by
  intro i hi
  rw [Vector.getElem?_replicate, if_pos (Nat.mod_lt _ (by omega))]
  rfl

/-- Writing value `t` at position `t % n` advances the circular line by one step. -/
theorem ringHolds_set {z : α} {v : Vector α n} {x : ℕ → α} {t : ℕ} (h : RingHolds z v x t)
    (ht : t % n < n) : RingHolds z (v.set (t % n) (x t)) x (t + 1) := by
  intro i hi
  cases i with
  | zero =>
    have hidx : (t + 1 + (n - 1 - 0)) % n = t % n := by
      rw [show t + 1 + (n - 1 - 0) = t + n by omega, Nat.add_mod_right]
    rw [hidx, past_succ_zero]
    simp [ht]
  | succ i =>
    have hidx : t + 1 + (n - 1 - (i + 1)) = t + (n - 1 - i) := by omega
    rw [hidx, past_succ_succ, ← h i (by omega)]
    -- the cell read is `i + 1 < n` steps behind the cell written
    have hne : t % n ≠ (t + (n - 1 - i)) % n := by
      intro heq
      have hmod : t ≡ t + (n - 1 - i) [MOD n] := heq
      have heq' := hmod.eq_of_abs_lt (by
        rw [abs_lt]
        omega)
      omega
    rw [Vector.getElem?_set_ne _ hne]

end DelayLine
