import Mathlib.Logic.Basic

/-!
# Runs of a transition system

Both components of the model are transition systems: the GPU memory pool, whose steps are the
atomic operations of the workers' calls, and the health-check ticks, whose steps are the tasks'
clock readings and lock accesses and the clock's own moves.  Their runs are defined here once,
over the step relation.  A run carries a condition `P` that every one of its states satisfies:
what the callers of a component promise about every state, `fun _ => True` when nothing.

* `Reachable next P s₀` — the states of the runs from `s₀` by `next` within `P`.
* `Reachable.mono`, `Reachable.trans` — a weaker condition; a run followed by a run.
-/

namespace FhevmEngine

/-- The states of the runs from `s₀` by the step relation `next` all of whose states satisfy
`P`.  With `P` true this is plain reachability; a caller's promise about every state of a run is
a `P`. -/
inductive Reachable {σ : Type} (next : σ → σ → Prop) (P : σ → Prop) (s₀ : σ) : σ → Prop
  | init (h : P s₀) : Reachable next P s₀ s₀
  | step {s s' : σ} (hs : Reachable next P s₀ s) (h : next s s') (hP : P s') :
      Reachable next P s₀ s'

namespace Reachable

variable {σ : Type} {next : σ → σ → Prop} {P Q : σ → Prop} {s₀ s₁ s₂ s : σ}

/-- Every state of a run satisfies its condition. -/
theorem prop (hs : Reachable next P s₀ s) : P s := by
  cases hs with
  | init h => exact h
  | step _ _ hP => exact hP

theorem mono (hs : Reachable next P s₀ s) (hPQ : ∀ s, P s → Q s) : Reachable next Q s₀ s := by
  induction hs with
  | init h => exact .init (hPQ _ h)
  | step _ h hP ih => exact ih.step h (hPQ _ hP)

/-- A run from `s₀` to `s₁` followed by a run from `s₁`. -/
theorem trans (h₁ : Reachable next P s₀ s₁) (h₂ : Reachable next P s₁ s₂) :
    Reachable next P s₀ s₂ := by
  induction h₂ with
  | init => exact h₁
  | step _ h hP ih => exact ih.step h hP

end Reachable

end FhevmEngine
