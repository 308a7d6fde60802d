import Mathlib.Data.List.Basic
import Mathlib.Logic.Function.Basic
import Mathlib.Order.Basic
import Mathlib.Tactic.Common

/-!
# Descriptor tables

The file descriptors of a process: a table says what each number refers to, and an opening call
takes the lowest number not in use below a limit. `freeNumbers` lists the numbers not in use in
ascending order. Opening takes its head (`openLowest_eq`), a pipe its first two
(`openPipe_eq`), and closing a number below all of them puts it in front (`freeNumbers_close`), so a
sequence of openings and closings is read off the list.
-/

namespace Descriptors

variable {α : Type*} {limit : ℕ} {t : ℕ → Option α}

/-- The numbers below the limit that are not in use. -/
def freeNumbers (limit : ℕ) (t : ℕ → Option α) : List ℕ :=
  (List.range limit).filter fun fd => (t fd).isNone

/-- An opening call: the lowest number not in use refers to `x` now. -/
def openLowest (limit : ℕ) (t : ℕ → Option α) (x : α) : Option (ℕ × (ℕ → Option α)) :=
  (freeNumbers limit t).head?.map fun fd => (fd, Function.update t fd (some x))

/-- A closing call; on a number not in use it has no effect. -/
def close (t : ℕ → Option α) (fd : ℕ) : ℕ → Option α := Function.update t fd none

/-- A pipe takes two numbers, first that of the end to read from, or none at all. -/
def openPipe (limit : ℕ) (t : ℕ → Option α) (readEnd writeEnd : α) :
    Option ((ℕ × ℕ) × (ℕ → Option α)) := do
  let (fd, t) ← openLowest limit t readEnd
  let (fd', t) ← openLowest limit t writeEnd
  return ((fd, fd'), t)

theorem mem_freeNumbers {fd : ℕ} : fd ∈ freeNumbers limit t ↔ fd < limit ∧ t fd = none := by
  simp [freeNumbers]

theorem pairwise_freeNumbers (limit : ℕ) (t : ℕ → Option α) :
    (freeNumbers limit t).Pairwise (· < ·) :=
  List.pairwise_lt_range.filter _

/-- A list of the numbers not in use, in ascending order, is the list. -/
theorem eq_freeNumbers {fds : List ℕ} (hsorted : fds.Pairwise (· < ·))
    (hmem : ∀ fd, fd ∈ fds ↔ fd < limit ∧ t fd = none) : freeNumbers limit t = fds := by
  refine List.Perm.eq_of_pairwise (fun a b _ _ hab hba => absurd hba (Nat.lt_asymm hab))
    (pairwise_freeNumbers limit t) hsorted ?_
  rw [List.perm_ext_iff_of_nodup ((pairwise_freeNumbers limit t).imp fun h => Nat.ne_of_lt h)
    (hsorted.imp fun h => Nat.ne_of_lt h)]
  intro fd
  rw [mem_freeNumbers, hmem]

theorem freeNumbers_update {fd : ℕ} {fds : List ℕ} (h : freeNumbers limit t = fd :: fds) (x : α) :
    freeNumbers limit (Function.update t fd (some x)) = fds := by
  have hsorted := h ▸ pairwise_freeNumbers limit t
  rw [List.pairwise_cons] at hsorted
  refine eq_freeNumbers hsorted.2 fun k => ?_
  have hmem : k ∈ freeNumbers limit t ↔ k < limit ∧ t k = none := mem_freeNumbers
  rw [h, List.mem_cons] at hmem
  rcases eq_or_ne k fd with rfl | hne
  · have hlast : k ∉ fds := fun hk => Nat.lt_irrefl k (hsorted.1 k hk)
    simp [hlast]
  · rw [Function.update_of_ne hne, ← hmem]
    simp [hne]

theorem openLowest_eq {fd : ℕ} {fds : List ℕ} (h : freeNumbers limit t = fd :: fds) (x : α) :
    openLowest limit t x = some (fd, Function.update t fd (some x)) := by
  rw [openLowest, h]
  rfl

theorem openLowest_eq_none (h : freeNumbers limit t = []) (x : α) :
    openLowest limit t x = none := by
  rw [openLowest, h]
  rfl

theorem openPipe_eq {fd fd' : ℕ} {fds : List ℕ} (h : freeNumbers limit t = fd :: fd' :: fds)
    (x y : α) :
    openPipe limit t x y =
      some ((fd, fd'), Function.update (Function.update t fd (some x)) fd' (some y)) := by
  rw [openPipe, openLowest_eq h]
  simp only [Option.bind_eq_bind, Option.bind_some, openLowest_eq (freeNumbers_update h x)]
  rfl

theorem freeNumbers_pipe {fd fd' : ℕ} {fds : List ℕ} (h : freeNumbers limit t = fd :: fd' :: fds)
    (x y : α) :
    freeNumbers limit (Function.update (Function.update t fd (some x)) fd' (some y)) = fds :=
  freeNumbers_update (freeNumbers_update h x) y

/-- Without two numbers left there is no pipe. -/
theorem openPipe_eq_none (h : (freeNumbers limit t).length < 2) (x y : α) :
    openPipe limit t x y = none := by
  match hfds : freeNumbers limit t, h with
  | [], _ =>
    rw [openPipe, openLowest_eq_none hfds]
    rfl
  | [fd], _ =>
    rw [openPipe, openLowest_eq hfds]
    simp only [Option.bind_eq_bind, Option.bind_some,
      openLowest_eq_none (freeNumbers_update hfds x), Option.bind_none]

@[simp]
theorem close_self (t : ℕ → Option α) (fd : ℕ) : close t fd fd = none := Function.update_self ..

theorem close_of_ne {fd k : ℕ} (h : k ≠ fd) : close t fd k = t k := Function.update_of_ne h ..

/-- Closing a number not in use. -/
theorem close_eq_self {fd : ℕ} (h : t fd = none) : close t fd = t :=
  Function.update_eq_self_iff.mpr h.symm

/-- A number below all that are not in use comes in front when it is closed. -/
theorem freeNumbers_close {fd : ℕ} (hfd : fd < limit) (h : ∀ k ∈ freeNumbers limit t, fd < k) :
    freeNumbers limit (close t fd) = fd :: freeNumbers limit t := by
  refine eq_freeNumbers (List.pairwise_cons.mpr ⟨h, pairwise_freeNumbers limit t⟩) fun k => ?_
  rw [List.mem_cons, mem_freeNumbers]
  rcases eq_or_ne k fd with rfl | hne
  · simp [hfd]
  · rw [close_of_ne hne]
    simp [hne]

end Descriptors
