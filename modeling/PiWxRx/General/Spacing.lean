import PiWxRx.General.Mealy

/-!
# Spacing of marked outputs

A Mealy machine whose inputs have a weight and some of whose outputs are marked. A `Spacing n` is
a potential that bounds the weight still to come before the next mark: one step uses up at most
the weight of its input, a mark needs the potential used up, and each mark raises it to `n` again.
Then any two marks of any run are at least `n` apart (`Spacing.le_weight`), and a run has no more
marks than its weight pays for (`Spacing.toGo_add_marks_le`).
-/

namespace Mealy

variable {σ ι ο : Type*}

/-- Output `j` of the run is a marked one. -/
def MarkedAt (step : σ → ι → σ × ο) (mark : ο → Bool) (s : σ) (is : List ι) (j : ℕ) : Prop :=
  (outputs step s is)[j]?.any mark = true

instance (step : σ → ι → σ × ο) (mark : ο → Bool) (s : σ) (is : List ι) (j : ℕ) :
    Decidable (MarkedAt step mark s is j) :=
  inferInstanceAs (Decidable (_ = true))

/-- A potential that keeps marks `n` apart. -/
structure Spacing (step : σ → ι → σ × ο) (weight : ι → ℕ) (mark : ο → Bool) (n : ℕ) where
  /-- The weight that has to pass up to the next mark. -/
  toGo : σ → ℕ
  /-- A step takes off at most its weight. -/
  toGo_le : ∀ s i, toGo s ≤ weight i + toGo (step s i).1
  /-- At a mark nothing is left to go. -/
  toGo_le_of_mark : ∀ s i, mark (step s i).2 = true → toGo s ≤ weight i
  /-- After a mark it starts over. -/
  le_toGo_of_mark : ∀ s i, mark (step s i).2 = true → n ≤ toGo (step s i).1

section

variable {step : σ → ι → σ × ο} {weight : ι → ℕ} {mark : ο → Bool} {n : ℕ}

@[simp] theorem markedAt_cons_zero {s : σ} {i : ι} {is : List ι} :
    MarkedAt step mark s (i :: is) 0 ↔ mark (step s i).2 = true := by
  simp [MarkedAt]

@[simp] theorem markedAt_cons_succ {s : σ} {i : ι} {is : List ι} {j : ℕ} :
    MarkedAt step mark s (i :: is) (j + 1) ↔ MarkedAt step mark (step s i).1 is j := by
  simp [MarkedAt]

theorem not_markedAt_nil {s : σ} {j : ℕ} : ¬ MarkedAt step mark s [] j := by
  simp [MarkedAt]

/-- Up to the first mark a run uses up the potential of its initial state. -/
theorem Spacing.toGo_le_weight (sp : Spacing step weight mark n) {s : σ} {is : List ι} {j : ℕ}
    (hj : MarkedAt step mark s is j) : sp.toGo s ≤ ((is.take (j + 1)).map weight).sum := by
  induction is generalizing s j with
  | nil => exact absurd hj not_markedAt_nil
  | cons i is ih =>
    cases j with
    | zero =>
      rw [markedAt_cons_zero] at hj
      simpa using sp.toGo_le_of_mark s i hj
    | succ j =>
      rw [markedAt_cons_succ] at hj
      rw [List.take_succ_cons, List.map_cons, List.sum_cons]
      exact (sp.toGo_le s i).trans (Nat.add_le_add_left (ih hj) _)

/-- Two marks of a run are at least `n` apart. -/
theorem Spacing.le_weight (sp : Spacing step weight mark n) {s : σ} {is : List ι} {i j : ℕ}
    (hij : i < j) (hi : MarkedAt step mark s is i) (hj : MarkedAt step mark s is j) :
    n ≤ (((is.take (j + 1)).drop (i + 1)).map weight).sum := by
  induction is generalizing s i j with
  | nil => exact absurd hi not_markedAt_nil
  | cons a is ih =>
    obtain ⟨j, rfl⟩ : ∃ k, j = k + 1 := ⟨j - 1, by omega⟩
    rw [markedAt_cons_succ] at hj
    rw [List.take_succ_cons, List.drop_succ_cons]
    cases i with
    | zero =>
      -- the potential is `n` right after the first mark
      rw [markedAt_cons_zero] at hi
      exact (sp.le_toGo_of_mark s a hi).trans (sp.toGo_le_weight hj)
    | succ i =>
      rw [markedAt_cons_succ] at hi
      exact ih (Nat.lt_of_succ_lt_succ hij) hi hj

/-- One step pays for its mark. -/
theorem Spacing.toGo_add_mark_le (sp : Spacing step weight mark n) (s : σ) (i : ι) :
    sp.toGo s + n * [(step s i).2].countP mark ≤ weight i + sp.toGo (step s i).1 := by
  cases hmark : mark (step s i).2 with
  | false => simpa [hmark] using sp.toGo_le s i
  | true =>
    have hbefore := sp.toGo_le_of_mark s i hmark
    have hafter := sp.le_toGo_of_mark s i hmark
    simp only [List.countP_singleton, hmark, ↓reduceIte, Nat.mul_one]
    omega

/-- A run pays `n` for each of its marks, out of its weight and the potential it ends with. -/
theorem Spacing.toGo_add_marks_le (sp : Spacing step weight mark n) (s : σ) (is : List ι) :
    sp.toGo s + n * (outputs step s is).countP mark ≤
      (is.map weight).sum + sp.toGo (final step s is) := by
  induction is generalizing s with
  | nil => simp
  | cons i is ih =>
    have hfirst := sp.toGo_add_mark_le s i
    have hrest := ih (step s i).1
    have hcount : (outputs step s (i :: is)).countP mark =
        [(step s i).2].countP mark + (outputs step (step s i).1 is).countP mark := by
      rw [← List.countP_append]
      rfl
    rw [hcount, Nat.mul_add, List.map_cons, List.sum_cons, final_cons]
    omega

end

end Mealy
