import Mathlib.Tactic

/-!
# Runs of a transition system

A system is a partial step function: `step s a = some t` when action `a` is enabled in `s` and
leads to `t`. The file fixes the vocabulary of runs and the rules that lift facts about one step
to runs:

* `run` follows a list of actions, `run_append` cuts it;
* `Along` states a property of every step of a run, given the state it starts in, and
  `AlongStates` of every state passed;
* `run_induction` is the invariant rule under a condition on the steps.
-/

namespace Runs

variable {σ α : Type*} (step : σ → α → Option σ)

/-- The state reached from `s` by the actions `as`, if all of them are enabled in turn. -/
def run (s : σ) : List α → Option σ
  | [] => some s
  | a :: as => (step s a).bind fun t => run t as

@[simp] theorem run_nil (s : σ) : run step s [] = some s := rfl

@[simp] theorem run_cons (s : σ) (a : α) (as : List α) :
    run step s (a :: as) = (step s a).bind fun t => run step t as := rfl

theorem run_append (s : σ) (as bs : List α) :
    run step s (as ++ bs) = (run step s as).bind fun t => run step t bs := by
  induction as generalizing s with
  | nil => rfl
  | cons a as ih => simp [ih, Option.bind_assoc]

/-- One more step at the end of a run. -/
theorem run_concat (s : σ) (as : List α) (a : α) :
    run step s (as ++ [a]) = (run step s as).bind fun t => step t a := by
  simp [run_append]

/-- Every step of the run `as` from `s` satisfies `G` (of the state before it and its action). -/
def Along (G : σ → α → Prop) (s : σ) (as : List α) : Prop :=
  ∀ pre a post, as = pre ++ a :: post → ∀ t, run step s pre = some t → G t a

/-- Every state the run `as` from `s` passes satisfies `P`, the first and the last included. -/
def AlongStates (P : σ → Prop) (s : σ) (as : List α) : Prop :=
  ∀ pre post, as = pre ++ post → ∀ t, run step s pre = some t → P t

variable {step}

/-- The steps of a run are its first step and those of the run after it. -/
theorem along_cons {G : σ → α → Prop} {s : σ} {a : α} {as : List α} :
    Along step G s (a :: as) ↔ G s a ∧ ∀ t, step s a = some t → Along step G t as := by
  constructor
  · intro h
    refine ⟨h [] a as rfl s rfl, fun t ht pre b post hsplit u hu => ?_⟩
    exact h (a :: pre) b post (by rw [hsplit]; rfl) u (by rw [run_cons, ht]; exact hu)
  · rintro ⟨ha, h⟩ pre b post hsplit u hu
    rcases pre with _ | ⟨c, pre⟩
    · obtain rfl : s = u := Option.some.inj hu
      obtain ⟨rfl, -⟩ := List.cons.inj hsplit
      exact ha
    · obtain ⟨rfl, rfl⟩ := List.cons.inj hsplit
      obtain ⟨t, ht, hu⟩ := Option.bind_eq_some_iff.mp hu
      exact h t ht pre b post rfl u hu

theorem along_nil {G : σ → α → Prop} {s : σ} : Along step G s [] := by
  intro pre a post hsplit
  exact absurd hsplit (by simp)

/-- The steps of a run with one step more. -/
theorem along_concat {G : σ → α → Prop} {s : σ} {as : List α} {a : α} :
    Along step G s (as ++ [a]) ↔ Along step G s as ∧ ∀ t, run step s as = some t → G t a := by
  induction as generalizing s with
  | nil =>
    simp only [List.nil_append, along_cons, along_nil, run_nil, Option.some.injEq, forall_eq',
      implies_true, and_true, true_and]
  | cons b as ih =>
    simp only [List.cons_append, along_cons, ih, run_cons, Option.bind_eq_some_iff]
    constructor
    · rintro ⟨hb, h⟩
      exact ⟨⟨hb, fun t ht => (h t ht).1⟩, fun u ⟨t, ht, hu⟩ => (h t ht).2 u hu⟩
    · rintro ⟨⟨hb, h⟩, hlast⟩
      exact ⟨hb, fun t ht => ⟨h t ht, fun u hu => hlast u ⟨t, ht, hu⟩⟩⟩

/-- A run passes its first state and the states of the run after the first step. -/
theorem alongStates_cons {P : σ → Prop} {s : σ} {a : α} {as : List α} :
    AlongStates step P s (a :: as) ↔
      P s ∧ ∀ t, step s a = some t → AlongStates step P t as := by
  constructor
  · intro h
    refine ⟨h [] _ rfl s rfl, fun t ht pre post hsplit u hu => ?_⟩
    exact h (a :: pre) post (by rw [hsplit]; rfl) u (by rw [run_cons, ht]; exact hu)
  · rintro ⟨hs, h⟩ pre post hsplit u hu
    rcases pre with _ | ⟨b, pre⟩
    · obtain rfl : s = u := Option.some.inj hu
      exact hs
    · obtain ⟨rfl, rfl⟩ := List.cons.inj hsplit
      obtain ⟨t, ht, hu⟩ := Option.bind_eq_some_iff.mp hu
      exact h t ht pre post rfl u hu

theorem alongStates_nil {P : σ → Prop} {s : σ} : AlongStates step P s [] ↔ P s := by
  constructor
  · exact fun h => h [] [] rfl s rfl
  · intro hs pre post hsplit t ht
    rw [(List.nil_eq_append_iff.mp hsplit).1] at ht
    obtain rfl : s = t := Option.some.inj ht
    exact hs

/-- What holds along two runs, one after the other, holds along both. -/
theorem Along.append {G : σ → α → Prop} {s : σ} {as bs : List α} (has : Along step G s as)
    (hbs : ∀ t, run step s as = some t → Along step G t bs) : Along step G s (as ++ bs) := by
  induction as generalizing s with
  | nil => exact hbs s rfl
  | cons a as ih =>
    obtain ⟨ha, has⟩ := along_cons.mp has
    refine along_cons.mpr ⟨ha, fun t ht => ih (has t ht) fun u hu => hbs u ?_⟩
    rw [run_cons, ht]
    exact hu

theorem AlongStates.append {P : σ → Prop} {s : σ} {as bs : List α}
    (has : AlongStates step P s as)
    (hbs : ∀ t, run step s as = some t → AlongStates step P t bs) :
    AlongStates step P s (as ++ bs) := by
  induction as generalizing s with
  | nil => exact hbs s rfl
  | cons a as ih =>
    obtain ⟨ha, has⟩ := alongStates_cons.mp has
    refine alongStates_cons.mpr ⟨ha, fun t ht => ih (has t ht) fun u hu => hbs u ?_⟩
    rw [run_cons, ht]
    exact hu

/-- Invariant rule: what every step satisfying `G` preserves holds in every state a run passes
whose steps satisfy `G`. -/
theorem run_induction {P : σ → Prop} {G : σ → α → Prop}
    (hstep : ∀ s a t, P s → G s a → step s a = some t → P t) {s : σ} (hs : P s) {as : List α}
    (hG : Along step G s as) : AlongStates step P s as := by
  intro pre
  -- induction on the part of the run passed, by its last step
  induction pre using List.reverseRecOn with
  | nil =>
    intro post _ t ht
    obtain rfl : s = t := Option.some.inj ht
    exact hs
  | append_singleton pre a ih =>
    intro post hsplit t ht
    rw [run_concat, Option.bind_eq_some_iff] at ht
    obtain ⟨u, hu, hut⟩ := ht
    rw [List.append_assoc] at hsplit
    exact hstep u a t (ih _ hsplit u hu) (hG pre a post hsplit u hu) hut

/-- What every step preserves, every run preserves. -/
theorem run_invariant {P : σ → Prop} (hstep : ∀ s a t, P s → step s a = some t → P t) {s t : σ}
    (hs : P s) {as : List α} (h : run step s as = some t) : P t :=
  run_induction (G := fun _ _ => True) (fun s a t hP _ => hstep s a t hP) hs
    (fun _ _ _ _ _ _ => trivial) as [] (List.append_nil as).symm t h

/-- A run that passes only states satisfying `P` satisfies it before and after each step. -/
theorem AlongStates.along {P : σ → Prop} {s : σ} {as : List α} (h : AlongStates step P s as) :
    Along step (fun u a => P u ∧ ∀ t, step u a = some t → P t) s as := by
  intro pre a post hsplit u hu
  refine ⟨h pre _ hsplit u hu, fun t ht => ?_⟩
  refine h (pre ++ [a]) post (by rw [hsplit, List.append_assoc]; rfl) t ?_
  rw [run_concat, hu]
  exact ht

end Runs
