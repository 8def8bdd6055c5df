import Mathlib.Logic.Function.Basic

/-!
# Labelled systems and their runs

A system is a set of initial states and a partial step function: the step is `none` where
the action is not enabled. Every choice of the environment (which process moves, which
answer a call gets, which fresh name is drawn) sits in the action, so a step is a function
and a finite run is a list of actions.

Statements about "every run whose steps meet a condition" are statements about
`Reach M P`: the states reached from an initial state by steps that meet `P`, a condition
on the state before the step and the action taken there. The invariant rule is proved once.
-/

namespace DouyinCaption.Runs

universe u v

/-- A labelled system with a partial, deterministic step. -/
structure System (σ : Type u) (α : Type v) where
  /-- the states a run may start in -/
  init : σ → Prop
  /-- one step; `none` when the action is not enabled -/
  step : σ → α → Option σ

variable {σ : Type u} {α : Type v} {M : System σ α} {P Q : σ → α → Prop}

/-- The states reached by runs all of whose steps meet `P`. -/
inductive Reach (M : System σ α) (P : σ → α → Prop) : σ → Prop where
  | init {s : σ} : M.init s → Reach M P s
  | step {s s' : σ} {a : α} : Reach M P s → P s a → M.step s a = some s' → Reach M P s'

/-- The states reached from `s` by steps that meet `P`. -/
inductive Steps (M : System σ α) (P : σ → α → Prop) (s : σ) : σ → Prop where
  | refl : Steps M P s s
  | tail {s' s'' : σ} {a : α} :
      Steps M P s s' → P s' a → M.step s' a = some s'' → Steps M P s s''

/-- **The invariant rule.** What holds initially and is kept by every step that meets the
condition holds of every reached state. The step may use that its source is reached. -/
theorem Reach.invariant {I : σ → Prop} (hinit : ∀ s, M.init s → I s)
    (hstep : ∀ s a s', Reach M P s → I s → P s a → M.step s a = some s' → I s')
    {s : σ} (hs : Reach M P s) : I s := by
  induction hs with
  | init h => exact hinit _ h
  | step hr hp ha ih => exact hstep _ _ _ hr ih hp ha

/-- A stronger condition on the steps reaches fewer states. -/
theorem Reach.mono (hPQ : ∀ s a, P s a → Q s a) {s : σ} (hs : Reach M P s) :
    Reach M Q s := by
  induction hs with
  | init h => exact .init h
  | step _ hp ha ih => exact .step ih (hPQ _ _ hp) ha

/-- Continuing a run. -/
theorem Reach.append {s s' : σ} (hs : Reach M P s) (h : Steps M P s s') : Reach M P s' := by
  induction h with
  | refl => exact hs
  | tail _ hp ha ih => exact .step ih hp ha

theorem Steps.mono (hPQ : ∀ s a, P s a → Q s a) {s s' : σ} (h : Steps M P s s') :
    Steps M Q s s' := by
  induction h with
  | refl => exact .refl
  | tail _ hp ha ih => exact .tail ih (hPQ _ _ hp) ha

/-- The invariant rule for a run that starts anywhere. -/
theorem Steps.invariant {I : σ → Prop} {s₀ : σ} (h₀ : I s₀)
    (hstep : ∀ s a s', I s → P s a → M.step s a = some s' → I s')
    {s : σ} (hs : Steps M P s₀ s) : I s := by
  induction hs with
  | refl => exact h₀
  | tail _ hp ha ih => exact hstep _ _ _ ih hp ha

/-- Run a list of actions, stopping at the first that is not enabled. -/
def System.run (M : System σ α) : σ → List α → Option σ
  | s, [] => some s
  | s, a :: rest => (M.step s a).bind fun s' => M.run s' rest

/-- A list of actions that runs, each of them meeting the condition wherever it is taken,
leads to a reached state. -/
theorem reach_of_run :
    ∀ {s s' : σ} {l : List α}, Reach M P s → (∀ a ∈ l, ∀ t, P t a) →
      M.run s l = some s' → Reach M P s'
  | s, s', [], hs, _, h => by
      obtain rfl : s = s' := Option.some.inj h
      exact hs
  | s, s', a :: rest, hs, hl, h => by
      obtain ⟨s₁, h₁, h₂⟩ := Option.bind_eq_some_iff.mp h
      exact reach_of_run (.step hs (hl a (by simp) s) h₁) (fun b hb => hl b (by simp [hb])) h₂

/-- A run of a list of actions whose end state passes a check reaches such a state. -/
theorem exists_reach_of_run {s : σ} {l : List α} {p : σ → Bool} (hs : M.init s)
    (hl : ∀ a ∈ l, ∀ t, P t a) (h : (M.run s l).map p = some true) :
    ∃ s', Reach M P s' ∧ p s' = true := by
  rcases hr : M.run s l with _ | s'
  · rw [hr] at h
    cases h
  · rw [hr] at h
    exact ⟨s', reach_of_run (.init hs) hl hr, Option.some.inj h⟩

/-- Run a list of actions, stopping at the first that is not enabled or fails a check. -/
def System.runIf (M : System σ α) (p : σ → α → Bool) : σ → List α → Option σ
  | s, [] => some s
  | s, a :: rest => if p s a then (M.step s a).bind fun s' => M.runIf p s' rest else none

/-- Steps can be put in front of a run. -/
theorem Steps.trans {s s' s'' : σ} (h : Steps M P s s') (h' : Steps M P s' s'') :
    Steps M P s s'' := by
  induction h' with
  | refl => exact h
  | tail _ hp ha ih => exact .tail ih hp ha

/-- A list of actions that runs under a check for the condition is a run. -/
theorem steps_of_runIf {p : σ → α → Bool} (hp : ∀ s a, p s a = true → P s a) :
    ∀ {s s' : σ} {l : List α}, M.runIf p s l = some s' → Steps M P s s'
  | s, s', [], h => by
      obtain rfl : s = s' := Option.some.inj h
      exact .refl
  | s, s', a :: rest, h => by
      rw [System.runIf] at h
      split at h
      · rename_i hc
        obtain ⟨s₁, h₁, h₂⟩ := Option.bind_eq_some_iff.mp h
        exact (Steps.tail .refl (hp s a hc) h₁).trans (steps_of_runIf hp h₂)
      · cases h

end DouyinCaption.Runs
