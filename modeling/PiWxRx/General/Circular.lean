import Mathlib.Tactic

/-!
# Circular buffers

A buffer of `n` cells with a write and a read pointer that wrap around, and no full test: `put`
overwrites whatever the write pointer has come round to.

* `available` is the number of items the reader can take before the pointers meet.
  `available_putAll` gives it after any number of writes: the count wraps at `n`, which is where
  items are lost.
* `Tracks` ties the buffer to the lists of all items ever written and ever read. While fewer than
  `n` items are unread, the buffer is a lossless queue (`Tracks.putAll`, `Tracks.take`) and the
  pointers meet only when it is empty (`Tracks.rdptr_eq_wrptr_iff`). A writer that comes round
  passes the reader over the items lost (`Tracks.putAll_lap`).
-/

namespace Circular

variable {α : Type*} {n : ℕ}

/-- The cells and the two pointers. -/
structure Ring (α : Type*) (n : ℕ) where
  /-- The cells. -/
  buffer : Vector α n
  /-- The write pointer. -/
  wrptr : ℕ
  /-- The read pointer. -/
  rdptr : ℕ

/-- Write one item and advance the write pointer. -/
def Ring.put (r : Ring α n) (x : α) : Ring α n :=
  { r with buffer := r.buffer.setIfInBounds r.wrptr x, wrptr := (r.wrptr + 1) % n }

/-- Write items one after another. -/
def Ring.putAll (r : Ring α n) (xs : List α) : Ring α n := xs.foldl Ring.put r

/-- Move the read pointer past the cell it is at. -/
def Ring.drop (r : Ring α n) : Ring α n := { r with rdptr := (r.rdptr + 1) % n }

/-- The number of items between the read and the write pointer. -/
def Ring.available (r : Ring α n) : ℕ := (r.wrptr + (n - r.rdptr)) % n

@[simp] theorem Ring.putAll_nil (r : Ring α n) : r.putAll [] = r := rfl

@[simp] theorem Ring.putAll_cons (r : Ring α n) (x : α) (xs : List α) :
    r.putAll (x :: xs) = (r.put x).putAll xs := rfl

@[simp] theorem Ring.putAll_append (r : Ring α n) (xs ys : List α) :
    r.putAll (xs ++ ys) = (r.putAll xs).putAll ys := List.foldl_append

/-! ## Items available -/

theorem Ring.available_lt (r : Ring α n) (hn : 0 < n) : r.available < n := Nat.mod_lt _ hn

theorem Ring.available_put (r : Ring α n) (x : α) :
    (r.put x).available = (r.available + 1) % n := by
  simp only [available, put, Nat.mod_add_mod]
  congr 1
  omega

theorem Ring.available_putAll (r : Ring α n) (xs : List α) :
    (r.putAll xs).available = (r.available + xs.length) % n := by
  induction xs generalizing r with
  | nil => simp [available]
  | cons x xs ih =>
    rw [putAll_cons, ih, available_put, Nat.mod_add_mod, List.length_cons, Nat.add_assoc,
      Nat.add_comm 1]

/-- The pointers meet exactly when nothing is available. -/
theorem Ring.available_eq_zero_iff {r : Ring α n} (hw : r.wrptr < n) (hr : r.rdptr < n) :
    r.available = 0 ↔ r.rdptr = r.wrptr := by
  rw [available]
  rcases Nat.lt_or_ge r.wrptr r.rdptr with h | h
  · rw [Nat.mod_eq_of_lt (by omega)]
    omega
  · rw [Nat.mod_eq_sub_mod (by omega), Nat.mod_eq_of_lt (by omega)]
    omega

/-- Writing items keeps all unread items readable exactly if they fit below the wrap. -/
theorem Ring.available_le_putAll_iff (r : Ring α n) (hn : 0 < n) (xs : List α) :
    r.available ≤ (r.putAll xs).available ↔ r.available + xs.length % n < n := by
  have hlt := r.available_lt hn
  have hm := Nat.mod_lt xs.length hn
  rw [available_putAll, ← Nat.add_mod_mod]
  -- the count wraps at most once
  rcases Nat.lt_or_ge (r.available + xs.length % n) n with h | h
  · rw [Nat.mod_eq_of_lt h]
    omega
  · rw [Nat.mod_eq_sub_mod h, Nat.mod_eq_of_lt (by omega)]
    omega

/-! ## The buffer as a queue -/

/-- The buffer after the items `produced` were written and the items `consumed` were read, with
fewer than `n` items unread. -/
structure Tracks (r : Ring α n) (produced consumed : List α) : Prop where
  consumed_prefix : consumed <+: produced
  room : produced.length < consumed.length + n
  wrptr_eq : r.wrptr = produced.length % n
  rdptr_eq : r.rdptr = consumed.length % n
  cells : ∀ k, consumed.length ≤ k → k < produced.length → r.buffer[k % n]? = produced[k]?

theorem tracks_nil (r : Ring α n) (hn : 0 < n) (hw : r.wrptr = 0) (hr : r.rdptr = 0) :
    Tracks r [] [] where
  consumed_prefix := List.prefix_rfl
  room := by simpa using hn
  wrptr_eq := by simpa using hw
  rdptr_eq := by simpa using hr
  cells k _ hk := absurd hk (Nat.not_lt_zero k)

/-- The pointers meet exactly when every item written was read. -/
theorem Tracks.rdptr_eq_wrptr_iff {r : Ring α n} {produced consumed : List α}
    (h : Tracks r produced consumed) :
    r.rdptr = r.wrptr ↔ consumed.length = produced.length := by
  have hle := h.consumed_prefix.length_le
  have hroom := h.room
  rw [h.wrptr_eq, h.rdptr_eq]
  refine ⟨fun heq => ?_, fun heq => by rw [heq]⟩
  -- two positions less than `n` apart
  have hmod : consumed.length ≡ produced.length [MOD n] := heq
  refine hmod.eq_of_abs_lt ?_
  rw [abs_lt]
  omega

theorem Tracks.put {r : Ring α n} {produced consumed : List α} (h : Tracks r produced consumed)
    (x : α) (hroom : produced.length + 1 < consumed.length + n) :
    Tracks (r.put x) (produced ++ [x]) consumed where
  consumed_prefix := h.consumed_prefix.trans (List.prefix_append _ _)
  room := by simpa using hroom
  wrptr_eq := by simp [Ring.put, h.wrptr_eq]
  rdptr_eq := h.rdptr_eq
  cells k hk hlt := by
    have hle := h.consumed_prefix.length_le
    have hn : 0 < n := by omega
    simp only [Ring.put, h.wrptr_eq]
    rw [List.length_append, List.length_singleton] at hlt
    rcases Nat.lt_or_ge k produced.length with hk' | hk'
    · -- an older item, in another cell
      have hne : produced.length % n ≠ k % n := by
        intro heq
        have hmod : produced.length ≡ k [MOD n] := heq
        refine hk'.ne' (hmod.eq_of_abs_lt ?_)
        rw [abs_lt]
        omega
      rw [Vector.getElem?_setIfInBounds_ne hne, List.getElem?_append_left hk']
      exact h.cells k hk hk'
    · -- the new item
      obtain rfl : k = produced.length := by omega
      rw [Vector.getElem?_setIfInBounds_self_of_lt (Nat.mod_lt _ hn), List.getElem?_concat_length]

theorem Tracks.putAll {r : Ring α n} {produced consumed : List α}
    (h : Tracks r produced consumed) (xs : List α)
    (hroom : produced.length + xs.length < consumed.length + n) :
    Tracks (r.putAll xs) (produced ++ xs) consumed := by
  induction xs generalizing r produced with
  | nil => simpa using h
  | cons x xs ih =>
    rw [List.length_cons] at hroom
    rw [Ring.putAll_cons, List.append_cons]
    exact ih (h.put x (by omega)) (by simp; omega)

/-- The cell at the read pointer of a nonempty queue is the next item, and reading it moves on. -/
theorem Tracks.take {r : Ring α n} {produced consumed : List α} (h : Tracks r produced consumed)
    (hlt : consumed.length < produced.length) :
    ∃ x, r.buffer[r.rdptr]? = some x ∧ Tracks r.drop produced (consumed ++ [x]) := by
  refine ⟨produced[consumed.length], ?_, ?_⟩
  · rw [h.rdptr_eq, h.cells _ le_rfl hlt, List.getElem?_eq_getElem hlt]
  · refine ⟨?_, by have := h.room; simp; omega, h.wrptr_eq, ?_, fun k hk hk' => ?_⟩
    · rw [List.prefix_iff_eq_take, List.length_append, List.length_singleton,
        ← List.take_concat_get' _ _ hlt, ← List.prefix_iff_eq_take.mp h.consumed_prefix]
    · simp [Ring.drop, h.rdptr_eq]
    · rw [List.length_append, List.length_singleton] at hk
      exact h.cells k (by omega) hk'

/-- With one more item the writer stays ahead of the reader, or comes round to it; then the
pointers meet as if every item was read. -/
theorem Tracks.put_lap {r : Ring α n} {produced passed : List α} (h : Tracks r produced passed)
    (x : α) : ∃ passed', passed <+: passed' ∧ Tracks (r.put x) (produced ++ [x]) passed' := by
  have hroom := h.room
  have hle := h.consumed_prefix.length_le
  rcases Nat.lt_or_ge (produced.length + 1) (passed.length + n) with hlt | hge
  · exact ⟨passed, List.prefix_rfl, h.put x hlt⟩
  · refine ⟨produced ++ [x], h.consumed_prefix.trans (List.prefix_append _ _),
      List.prefix_rfl, by omega, ?_, ?_, fun k hk hlt => by omega⟩
    · simp [Ring.put, h.wrptr_eq]
    · have hlen : (produced ++ [x]).length = passed.length + n := by
        rw [List.length_append, List.length_singleton]
        omega
      rw [hlen, Nat.add_mod_right]
      exact h.rdptr_eq

/-- However many items are written, the cells ahead of the reader hold the last items written; the
reader may have been passed over some. -/
theorem Tracks.putAll_lap {r : Ring α n} {produced passed : List α} (h : Tracks r produced passed)
    (xs : List α) :
    ∃ passed', passed <+: passed' ∧ Tracks (r.putAll xs) (produced ++ xs) passed' := by
  induction xs generalizing r produced passed with
  | nil => exact ⟨passed, List.prefix_rfl, by simpa using h⟩
  | cons x xs ih =>
    obtain ⟨passed₁, hpre₁, h₁⟩ := h.put_lap x
    obtain ⟨passed₂, hpre₂, h₂⟩ := ih h₁
    rw [List.append_assoc] at h₂
    exact ⟨passed₂, hpre₁.trans hpre₂, h₂⟩

end Circular
