import Mathlib.Computability.StateTransition

/-!
# Loops

A loop is a function to the next state, with none where the loop is left; its runs and its last state are
Mathlib's `StateTransition.Reaches` and `StateTransition.eval`. The rules here are those of an invariant:
it holds wherever a run comes to (`reaches_inv`), a measure that falls ends the loop (`halts_of_measure`),
and an invariant under which there is always a next state keeps it going (`not_halts_of_inv`).
-/

namespace Loops

open StateTransition Relation

variable {σ : Type*} {turn : σ → Option σ} {I : σ → Prop} {s t b : σ}

/-- The loop is left after finitely many turns. -/
def Halts (turn : σ → Option σ) (s : σ) : Prop := ∃ t, t ∈ eval turn s

theorem reaches_start : Reaches turn s s := ReflTransGen.refl

theorem reaches_turn (h : Reaches turn s t) (hturn : turn t = some b) : Reaches turn s b :=
  ReflTransGen.tail h hturn

/-- **The invariant rule.** -/
theorem reaches_inv (h : Reaches turn s t) (hs : I s)
    (hturn : ∀ a b, Reaches turn s a → I a → turn a = some b → I b) : I t := by
  induction h with
  | refl => exact hs
  | tail hsa hab ih => exact hturn _ _ hsa ih hab

/-- A loop halts if it does so from a state it comes to, and only then. -/
theorem halts_iff_of_reaches (h : Reaches turn s t) : Halts turn s ↔ Halts turn t := by
  rw [Halts, Halts, reaches_eval h]

/-- **The termination rule.** -/
theorem halts_of_measure (μ : σ → ℕ)
    (hturn : ∀ a b, Reaches turn s a → turn a = some b → μ b < μ a) : Halts turn s := by
  induction hn : μ s using Nat.strong_induction_on generalizing s with
  | _ n ih =>
      cases hnext : turn s with
      | none => exact ⟨s, mem_eval.mpr ⟨reaches_start, hnext⟩⟩
      | some b =>
          have hsb : Reaches turn s b := reaches_turn reaches_start hnext
          rw [halts_iff_of_reaches hsb]
          exact ih (μ b) (hn ▸ hturn s b reaches_start hnext)
            (fun a c hba => hturn a c (hsb.trans hba)) rfl

/-- **The divergence rule.** -/
theorem not_halts_of_inv (hs : I s) (hturn : ∀ a, I a → ∃ b, turn a = some b ∧ I b) :
    ¬ Halts turn s := by
  rintro ⟨t, ht⟩
  obtain ⟨hreach, hnone⟩ := mem_eval.mp ht
  have hIt : I t := reaches_inv hreach hs fun a b _ ha hab => by
    obtain ⟨b', hab', hb'⟩ := hturn a ha
    cases hab.symm.trans hab'
    exact hb'
  obtain ⟨b, hb, -⟩ := hturn t hIt
  cases hnone.symm.trans hb

/-- A state that is its own next one. -/
theorem not_halts_of_fixed (h : turn s = some s) : ¬ Halts turn s :=
  not_halts_of_inv (I := fun a => a = s) rfl fun _ ha => ⟨s, ha ▸ h, rfl⟩

end Loops
