import Mathlib.Data.Nat.Find

/-!
# Polling

A driver reads a register again and again until it likes what it reads, or gives up after a number of
reads. `poll` is that loop, over the reads by number.
-/

namespace Polls

variable {ready : ℕ → Bool} {rounds k j : ℕ}

/-- The number of the first of `rounds` reads, from the `k`-th on, that is `ready`. -/
def poll (ready : ℕ → Bool) : ℕ → ℕ → Option ℕ
  | 0, _ => none
  | rounds + 1, k => if ready k then some k else poll ready rounds (k + 1)

/-- The read the loop ends with is ready. -/
theorem ready_of_poll (h : poll ready rounds k = some j) : ready j = true := by
  induction rounds generalizing k with
  | zero => cases h
  | succ rounds ih =>
      rw [poll] at h
      split at h
      · next hk =>
          cases h
          exact hk
      · exact ih h

/-- **The loop gives up** exactly when no read is ready. -/
theorem poll_eq_none_iff : poll ready rounds k = none ↔ ∀ i < rounds, ready (k + i) = false := by
  induction rounds generalizing k with
  | zero => exact ⟨fun _ i hi => absurd hi (Nat.not_lt_zero i), fun _ => rfl⟩
  | succ rounds ih =>
      rw [poll]
      split
      · next hk =>
          refine ⟨fun h => absurd h (Option.some_ne_none _), fun h => ?_⟩
          have hzero := h 0 (Nat.succ_pos rounds)
          rw [Nat.add_zero, hk] at hzero
          cases hzero
      · next hk =>
          rw [ih]
          constructor
          · intro h i hi
            cases i with
            | zero => exact Bool.eq_false_iff.mpr hk
            | succ i =>
                rw [show k + (i + 1) = k + 1 + i by omega]
                exact h i (Nat.lt_of_succ_lt_succ hi)
          · intro h i hi
            rw [show k + 1 + i = k + (i + 1) by omega]
            exact h (i + 1) (Nat.succ_lt_succ hi)

/-- A loop with no bound ends exactly when a read is ready. -/
theorem exists_poll_iff (ready : ℕ → Bool) (k : ℕ) :
    (∃ rounds j, poll ready rounds k = some j) ↔ ∃ i, ready (k + i) = true := by
  constructor
  · rintro ⟨rounds, j, h⟩
    by_contra hnone
    have : poll ready rounds k = none :=
      poll_eq_none_iff.mpr fun i _ => Bool.eq_false_iff.mpr fun hi => hnone ⟨i, hi⟩
    rw [this] at h
    cases h
  · rintro ⟨i, hi⟩
    refine ⟨i + 1, ?_⟩
    cases hpoll : poll ready (i + 1) k with
    | some j => exact ⟨j, rfl⟩
    | none =>
        rw [poll_eq_none_iff.mp hpoll i (Nat.lt_succ_self i)] at hi
        cases hi

end Polls
