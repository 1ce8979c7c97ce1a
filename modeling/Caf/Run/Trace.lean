import Mathlib.Data.List.Basic

/-!
# Traces

A system with labelled steps, and its traces from a first state. `allowed` is what is assumed of the steps; the rule
for invariants is `Trace.invariant`.
-/

namespace Run

variable {σ ℓ : Type*}

/-- `Trace step allowed s₀ tr s`: from `s₀`, allowed steps with the labels `tr` lead to `s`. -/
inductive Trace (step : σ → ℓ → σ → Prop) (allowed : σ → ℓ → Prop) (s₀ : σ) : List ℓ → σ → Prop
  | start : Trace step allowed s₀ [] s₀
  | next {tr s l t} : Trace step allowed s₀ tr s → allowed s l → step s l t → Trace step allowed s₀ (tr ++ [l]) t

namespace Trace

variable {step : σ → ℓ → σ → Prop} {allowed allowed' : σ → ℓ → Prop} {s₀ s : σ} {tr : List ℓ}

/-- **What holds at first and is kept by every allowed step holds in every state reached.** -/
theorem invariant {I : List ℓ → σ → Prop} (hstart : I [] s₀)
    (hnext : ∀ tr s l t, I tr s → allowed s l → step s l t → I (tr ++ [l]) t) (h : Trace step allowed s₀ tr s) :
    I tr s := by
  induction h with
  | start => exact hstart
  | next _ hallowed hstep ih => exact hnext _ _ _ _ ih hallowed hstep

/-- An invariant may be used to allow steps. -/
theorem strengthen {I : List ℓ → σ → Prop} (hstart : I [] s₀)
    (hnext : ∀ tr s l t, I tr s → allowed s l → step s l t → allowed' s l ∧ I (tr ++ [l]) t)
    (h : Trace step allowed s₀ tr s) : Trace step allowed' s₀ tr s ∧ I tr s := by
  induction h with
  | start => exact ⟨.start, hstart⟩
  | next _ hallowed hstep ih =>
    obtain ⟨htrace, hI⟩ := ih
    obtain ⟨hallowed', hI'⟩ := hnext _ _ _ _ hI hallowed hstep
    exact ⟨.next htrace hallowed' hstep, hI'⟩

end Trace

end Run
