import Mathlib.Tactic

/-!
# Overwriting a stretch of a buffer

A loop that stores one value after the other through an advancing pointer overwrites a stretch of
the buffer. `overwrite_cons` is its loop rule: storing the first value and going on one place
further overwrites the whole stretch.
-/

namespace Buffer

variable {α : Type*}

/-- `buffer` with the entries from `i` on overwritten by `values`. -/
def overwrite (buffer : List α) (i : ℕ) (values : List α) : List α :=
  buffer.take i ++ (values ++ buffer.drop (i + values.length))

@[simp] theorem overwrite_nil (buffer : List α) (i : ℕ) : overwrite buffer i [] = buffer := by
  simp [overwrite]

/-- Storing the first value and going on behind it. -/
theorem overwrite_cons {buffer : List α} {i : ℕ} (hi : i < buffer.length) (v : α)
    (values : List α) :
    overwrite (buffer.set i v) (i + 1) values = overwrite buffer i (v :: values) := by
  have hi' : i < (buffer.set i v).length := by rwa [List.length_set]
  have htake : (buffer.set i v).take (i + 1) = buffer.take i ++ [v] := by
    rw [← List.take_append_getElem hi', List.take_set_of_le le_rfl, List.getElem_set_self]
  unfold overwrite
  rw [htake, List.drop_set_of_lt (by omega), List.append_assoc,
    List.length_cons, Nat.add_right_comm, Nat.add_assoc]
  rfl

theorem length_overwrite {buffer : List α} {i : ℕ} {values : List α}
    (h : i + values.length ≤ buffer.length) :
    (overwrite buffer i values).length = buffer.length := by
  simp only [overwrite, List.length_append, List.length_take, List.length_drop]
  omega

/-- The values are found where the stretch begins. -/
theorem take_overwrite_zero (buffer values : List α) :
    (overwrite buffer 0 values).take values.length = values := by
  simp [overwrite]

theorem getElem?_overwrite_zero (buffer : List α) {values : List α} {j : ℕ}
    (hj : j < values.length) : (overwrite buffer 0 values)[j]? = values[j]? := by
  rw [overwrite, List.take_zero, List.nil_append, List.getElem?_append_left hj]

end Buffer
