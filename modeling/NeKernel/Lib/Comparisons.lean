import Mathlib.Data.Nat.Init

/-!
# Comparisons

Loops over two rows that are left with false at the first place that decides, and end with true. One that
looks for a difference says whether the rows are equal, one that looks for a place where they are equal
says whether they differ everywhere. That is the negation of the other for rows of one element, and else
only for rows that are equal or differ everywhere (`rowsAgree_iff`).
-/

namespace Comparisons

/-- `for (i; left; ++i, --left) if (stop i) return false; return true;`. -/
def passFrom (stop : Nat → Bool) : Nat → Nat → Bool
  | 0, _ => true
  | left + 1, i => if stop i then false else passFrom stop left (i + 1)

variable {α : Type*} [DecidableEq α] {stop : Nat → Bool} {f g : Nat → α} {i n : Nat}

/-- The loop ends if it is left nowhere. -/
theorem passFrom_iff : passFrom stop n i = true ↔ ∀ j < n, stop (i + j) = false := by
  induction n generalizing i with
  | zero => exact iff_of_true rfl fun j hj => absurd hj (Nat.not_lt_zero j)
  | succ n ih =>
      rw [passFrom, Nat.forall_lt_succ_left]
      cases hstop : stop i with
      | true => simp
      | false =>
          rw [if_neg Bool.false_ne_true, ih]
          simp only [true_and, Nat.add_comm, Nat.add_left_comm]

/-- The loop that is left at the first difference. -/
def equalRows (f g : Nat → α) (n : Nat) : Bool := passFrom (fun i => f i ≠ g i) n 0

/-- The loop that is left at the first place where the rows are equal. -/
def differRows (f g : Nat → α) (n : Nat) : Bool := passFrom (fun i => f i = g i) n 0

theorem equalRows_iff : equalRows f g n = true ↔ ∀ i < n, f i = g i := by
  simp [equalRows, passFrom_iff]

theorem differRows_iff : differRows f g n = true ↔ ∀ i < n, f i ≠ g i := by
  simp [differRows, passFrom_iff]

/-! ## Two operators -/

/-- The second is the negation of the first, and the first says whether the two are the same. -/
structure Agree (eq ne : Bool) (Same : Prop) : Prop where
  negation : ne = !eq
  equality : eq = true ↔ Same

instance (eq ne : Bool) (Same : Prop) [Decidable Same] : Decidable (Agree eq ne Same) :=
  decidable_of_iff (ne = (!eq) ∧ (eq = true ↔ Same)) ⟨fun h => ⟨h.1, h.2⟩, fun h => ⟨h.1, h.2⟩⟩

variable {eq ne : Bool} {Same : Prop}

/-- A test in front that has both say no is to be passed. -/
theorem agree_ite_iff {c : Prop} [Decidable c] :
    Agree (if c then false else eq) (if c then false else ne) Same ↔ ¬ c ∧ Agree eq ne Same := by
  by_cases hc : c
  · rw [if_pos hc, if_pos hc]
    exact iff_of_false (fun h => Bool.false_ne_true h.negation) fun h => h.1 hc
  · rw [if_neg hc, if_neg hc]
    exact (and_iff_right hc).symm

/-- **The two loops agree** on rows that are equal or differ everywhere, and are not empty. -/
theorem rowsAgree_iff (hsame : (∀ i < n, f i = g i) → Same)
    (hdiffer : 0 < n → (∀ i < n, f i ≠ g i) → ¬ Same) :
    Agree (equalRows f g n) (differRows f g n) Same ↔
      0 < n ∧ ((∀ i < n, f i = g i) ∨ ∀ i < n, f i ≠ g i) := by
  constructor
  · intro h
    have hne := h.negation
    cases heq : equalRows f g n with
    | true =>
        have hall := equalRows_iff.mp heq
        refine ⟨Nat.pos_of_ne_zero ?_, .inl hall⟩
        rintro rfl
        rw [heq] at hne
        cases hne
    | false =>
        rw [heq] at hne
        have hall := differRows_iff.mp hne
        refine ⟨Nat.pos_of_ne_zero ?_, .inr hall⟩
        rintro rfl
        cases heq
  · rintro ⟨hn, hall⟩
    rcases hall with hequal | hdiff
    · have heq := equalRows_iff.mpr hequal
      have hne : differRows f g n = false := by
        rw [← Bool.not_eq_true, differRows_iff]
        exact fun h => h 0 hn (hequal 0 hn)
      exact ⟨by rw [heq, hne]; rfl, iff_of_true heq (hsame hequal)⟩
    · have hne := differRows_iff.mpr hdiff
      have heq : equalRows f g n = false := by
        rw [← Bool.not_eq_true, equalRows_iff]
        exact fun h => hdiff 0 hn (h 0 hn)
      have heq' : ¬ equalRows f g n = true := by
        rw [heq]
        exact Bool.false_ne_true
      exact ⟨by rw [heq, hne]; rfl, iff_of_false heq' (hdiffer hn hdiff)⟩

end Comparisons
