import Mathlib

/-!
# Labelled transition systems

A `Machine` is an initial state and a partial step function: `step s a` is the state after action
`a`, or `none` when `a` is not enabled in `s`. An action is one atomic section of a program, so a
list of actions is one interleaving of any number of threads.

`Reach C` holds of the states at the end of the runs whose every step meets the side condition
`C` in the state before it. `Always` is the condition that every step meets.

**Rule (`Reach.invariant`).** A predicate that holds initially and is kept by every step that
meets `C` holds in every state that `Reach C` holds of.

**Rule (`reach_of_runIf`).** A list of actions that evaluates under `runIf` is such a run. This is
how concrete runs are exhibited.
-/

/-- A deterministic labelled transition system. -/
structure Machine (σ α : Type*) where
  init : σ
  step : σ → α → Option σ

namespace Machine

variable {σ α : Type*} (M : Machine σ α)

/-- The side condition that allows every step. -/
def Always : σ → α → Prop := fun _ _ => True

instance : DecidableRel (Always : σ → α → Prop) := fun _ _ => inferInstanceAs (Decidable True)

/-- The states reached by runs whose steps all meet `C`. -/
inductive Reach (C : σ → α → Prop) : σ → Prop
  | init : Reach C M.init
  | step {s s' : σ} (a : α) : Reach C s → C s a → M.step s a = some s' → Reach C s'

variable {M} {C D : σ → α → Prop}

/-- **The invariant rule.** Facts already known of reachable states may be used in the step. -/
theorem Reach.invariant {P : σ → Prop} (h₀ : P M.init)
    (hstep : ∀ s a s', M.Reach C s → P s → C s a → M.step s a = some s' → P s') {s : σ}
    (h : M.Reach C s) : P s := by
  induction h with
  | init => exact h₀
  | step a hr hc hs ih => exact hstep _ a _ hr ih hc hs

/-- A weaker side condition admits more runs. -/
theorem Reach.mono (hCD : ∀ s a, C s a → D s a) {s : σ} (h : M.Reach C s) : M.Reach D s := by
  induction h with
  | init => exact .init
  | step a _ hc hs ih => exact .step a ih (hCD _ a hc) hs

/-- The machine started in another state. -/
def startAt (M : Machine σ α) (s : σ) : Machine σ α := { M with init := s }

/-! ## Concrete runs -/

variable (M)

/-- Run a list of actions, each of which must be enabled and meet `C`. -/
def runIf (C : σ → α → Prop) [DecidableRel C] : σ → List α → Option σ
  | s, [] => some s
  | s, a :: as =>
    if C s a then
      match M.step s a with
      | some s' => runIf C s' as
      | none => none
    else none

variable {M}

theorem Reach.runIf [DecidableRel C] {s s' : σ} {as : List α} (hs : M.Reach C s)
    (h : M.runIf C s as = some s') : M.Reach C s' := by
  induction as generalizing s with
  | nil =>
    cases h
    exact hs
  | cons a as ih =>
    rw [Machine.runIf] at h
    split at h
    · rename_i hc
      split at h
      · rename_i s₁ h₁
        exact ih (.step a hs hc h₁) h
      · cases h
    · cases h

theorem reach_of_runIf [DecidableRel C] {s : σ} {as : List α}
    (h : M.runIf C M.init as = some s) : M.Reach C s :=
  Reach.init.runIf h

/-- A run that ends in a state where `p` holds. -/
theorem exists_reach_of_runIf [DecidableRel C] {p : σ → Prop} [DecidablePred p] (as : List α)
    (h : (M.runIf C M.init as).any (fun s => decide (p s)) = true) : ∃ s, M.Reach C s ∧ p s := by
  cases hs : M.runIf C M.init as with
  | none => simp [hs] at h
  | some s =>
    rw [hs] at h
    exact ⟨s, reach_of_runIf hs, of_decide_eq_true h⟩

end Machine
