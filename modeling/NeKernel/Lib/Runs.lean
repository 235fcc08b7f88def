import Mathlib.Tactic.TypeStar

/-!
# Runs of a labelled system

A system is a relation `step s l s'`: in state `s` the call `l` can take it to `s'`. A *run* is
any sequence of such steps, and `Reach` is the set of states runs end in. Every property of whole
runs is an invariant here: it holds at the start and each step keeps it (`Reach.inv`).

Some properties hold only of runs whose steps all meet a side condition on the state before the
step and the call. That condition is the parameter `ok`; a system without one uses `Reachable`.
-/

namespace Runs

variable {S T L : Type*}

/-- The states reached from `s₀` by steps that all meet `ok`. -/
inductive Reach (step : S → L → S → Prop) (ok : S → L → Prop) (s₀ : S) : S → Prop
  | init : Reach step ok s₀ s₀
  | step {s s' : S} (l : L) : Reach step ok s₀ s → ok s l → step s l s' → Reach step ok s₀ s'

/-- The states reached from `s₀` by any steps. -/
abbrev Reachable (step : S → L → S → Prop) (s₀ : S) : S → Prop := Reach step (fun _ _ => True) s₀

variable {step : S → L → S → Prop} {ok ok' : S → L → Prop} {s₀ s : S}

/-- **The run rule**: what holds at the start and is kept by every step holds after every run. -/
theorem Reach.inv {I : S → Prop} (h : Reach step ok s₀ s) (h₀ : I s₀)
    (hs : ∀ s l s', I s → ok s l → step s l s' → I s') : I s := by
  induction h with
  | init => exact h₀
  | step l _ hok hst ih => exact hs _ l _ ih hok hst

/-- A run goes on from where another one has ended. -/
theorem Reach.trans {s' : S} (h : Reach step ok s₀ s) (h' : Reach step ok s s') :
    Reach step ok s₀ s' := by
  induction h' with
  | init => exact h
  | step l _ hl hst ih => exact .step l ih hl hst

/-- A run that meets a condition meets every weaker one. -/
theorem Reach.mono (h : Reach step ok s₀ s) (hok : ∀ s l, ok s l → ok' s l) :
    Reach step ok' s₀ s := by
  induction h with
  | init => exact .init
  | step l _ hl hst ih => exact .step l ih (hok _ _ hl) hst

end Runs
