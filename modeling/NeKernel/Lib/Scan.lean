import Mathlib.Data.Nat.Find
import Mathlib.Logic.Function.Iterate

/-!
# Scans

A loop that steps a cursor through a row of records and looks at each one in turn. A look
either finds what the loop is for, or ends the loop, or lets the cursor move on; after a move the
loop ends when the cursor has left the row. `scan` is that loop with a bound on its turns, so
`none` means that it did not come to an end, and `scan_cases` is all a proof needs to know of it:
the first record that did not let the cursor pass decides the result.
-/

namespace Scan

/-- What the loop does with one record. -/
inductive Visit (α : Type*) where
  | found (a : α)
  | stop
  | next

variable {α : Type*}

/-- The loop, for at most `fuel` turns. -/
def scan (move : Nat → Nat) (leave : Nat → Bool) (visit : Nat → Visit α) :
    Nat → Nat → Option (Option α)
  | 0, _ => none
  | fuel + 1, x =>
      match visit x with
      | .found a => some (some a)
      | .stop => some none
      | .next => if leave (move x) then some none else scan move leave visit fuel (move x)

variable {move : Nat → Nat} {leave : Nat → Bool} {visit : Nat → Visit α} {pos : Nat → Nat}
  {fuel j k M : Nat}

/-- The loop passes the records that let the cursor move on. -/
theorem scan_skip (hpos : ∀ i < j, move (pos i) = pos (i + 1))
    (hin : ∀ i < j, leave (pos (i + 1)) = false) (hnext : ∀ i < j, visit (pos i) = .next) :
    scan move leave visit (fuel + j) (pos 0) = scan move leave visit fuel (pos j) := by
  induction j generalizing fuel with
  | zero => rfl
  | succ j ih =>
      have hskip : scan move leave visit (fuel + 1 + j) (pos 0) =
          scan move leave visit (fuel + 1) (pos j) :=
        ih (fun i hi => hpos i (by omega)) (fun i hi => hin i (by omega))
          (fun i hi => hnext i (by omega))
      rw [show fuel + (j + 1) = fuel + 1 + j by omega, hskip, scan, hnext j (by omega)]
      simp only [hpos j (by omega), hin j (by omega), Bool.false_eq_true, if_false]

/-- A place the cursor comes to from `x`. -/
def Visits (move : Nat → Nat) (leave : Nat → Bool) (x y : Nat) : Prop :=
  ∃ k, y = move^[k] x ∧ ∀ i < k, leave (move^[i + 1] x) = false

/-- What a scan finds is the first that does not let the cursor pass. -/
theorem scan_first {x : Nat} {a : α} (h : scan move leave visit fuel x = some (some a)) :
    ∃ k, (∀ i < k, leave (move^[i + 1] x) = false) ∧ (∀ i < k, visit (move^[i] x) = .next) ∧
      visit (move^[k] x) = .found a := by
  induction fuel generalizing x with
  | zero => cases h
  | succ fuel ih =>
      rw [scan] at h
      split at h
      · next b hv =>
          cases h
          exact ⟨0, fun i hi => absurd hi (Nat.not_lt_zero i), fun i hi =>
            absurd hi (Nat.not_lt_zero i), hv⟩
      · cases h
      · next hv =>
          split at h
          · cases h
          · next hin =>
              obtain ⟨k, hk, hnext, hfound⟩ := ih h
              refine ⟨k + 1, fun i hi => ?_, fun i hi => ?_, hfound⟩
              · cases i with
                | zero => exact Bool.eq_false_iff.mpr hin
                | succ i => exact hk i (by omega)
              · cases i with
                | zero => exact hv
                | succ i => exact hnext i (by omega)

/-- What a scan finds lies at a place its cursor comes to. -/
theorem scan_visits {x : Nat} {a : α} (h : scan move leave visit fuel x = some (some a)) :
    ∃ y, Visits move leave x y ∧ visit y = .found a := by
  obtain ⟨k, hk, -, hfound⟩ := scan_first h
  exact ⟨_, ⟨k, rfl, hk⟩, hfound⟩

/-- Two looks that lead the loop the same way. -/
inductive Visit.Rel {β : Type*} (R : α → β → Prop) : Visit α → Visit β → Prop
  | found {a : α} {b : β} : R a b → Visit.Rel R (.found a) (.found b)
  | stop : Visit.Rel R .stop .stop
  | next : Visit.Rel R .next .next

/-- Related results are carried on by related continuations. -/
theorem rel_bind {β γ δ : Type*} {R : α → β → Prop} {S : γ → δ → Prop} {a : Option α}
    {b : Option β} {f : α → Option γ} {g : β → Option δ} (h : Option.Rel R a b)
    (hfg : ∀ x y, R x y → Option.Rel S (f x) (g y)) : Option.Rel S (a.bind f) (b.bind g) := by
  cases h with
  | none => exact .none
  | some h => exact hfg _ _ h

/-- Loops that move alike and look alike come to like results. -/
theorem scan_rel {β : Type*} {R : α → β → Prop} {move' : Nat → Nat} {visit' : Nat → Visit β}
    (hmove : ∀ x, leave x = false → move' x = move x)
    (hvisit : ∀ x, leave x = false → Visit.Rel R (visit x) (visit' x)) {x : Nat}
    (hx : leave x = false) :
    Option.Rel (Option.Rel R) (scan move leave visit fuel x) (scan move' leave visit' fuel x) := by
  induction fuel generalizing x with
  | zero => exact .none
  | succ fuel ih =>
      rw [scan, scan]
      rcases visit x, visit' x, hvisit x hx with ⟨_, _, hR | _ | _⟩
      · exact .some (.some hR)
      · exact .some .none
      · show Option.Rel _ (if _ then _ else _) (if _ then _ else _)
        rw [hmove x hx]
        cases hl : leave (move x) with
        | true => exact .some .none
        | false => exact ih hl

section
variable (hpos : ∀ i ≤ M, move (pos i) = pos (i + 1)) (hin : ∀ i < M, leave (pos (i + 1)) = false)
  (hout : leave (pos (M + 1)) = true) (hfuel : M < fuel)
include hpos hin hfuel

theorem scan_found {a : α} (hj : j ≤ M) (hnext : ∀ i < j, visit (pos i) = .next)
    (hfound : visit (pos j) = .found a) :
    scan move leave visit fuel (pos 0) = some (some a) := by
  obtain ⟨f, rfl⟩ : ∃ f, fuel = f + 1 + j := ⟨fuel - 1 - j, by omega⟩
  rw [scan_skip (fun i hi => hpos i (by omega)) (fun i hi => hin i (by omega)) hnext, scan, hfound]

theorem scan_stop (hj : j ≤ M) (hnext : ∀ i < j, visit (pos i) = .next)
    (hstop : visit (pos j) = .stop) :
    scan move leave visit fuel (pos 0) = some none := by
  obtain ⟨f, rfl⟩ : ∃ f, fuel = f + 1 + j := ⟨fuel - 1 - j, by omega⟩
  rw [scan_skip (fun i hi => hpos i (by omega)) (fun i hi => hin i (by omega)) hnext, scan, hstop]

include hout

theorem scan_end (hnext : ∀ i ≤ M, visit (pos i) = .next) :
    scan move leave visit fuel (pos 0) = some none := by
  obtain ⟨f, rfl⟩ : ∃ f, fuel = f + 1 + M := ⟨fuel - 1 - M, by omega⟩
  rw [scan_skip (fun i hi => hpos i (by omega)) (fun i hi => hin i (by omega))
    (fun i hi => hnext i (by omega)), scan, hnext M (Nat.le_refl M)]
  simp only [hpos M (Nat.le_refl M), hout, if_true]

end

/-- **What a scan over the records `0..M` can do**: return what the first record that does not
let the cursor pass holds, or come back empty-handed. -/
theorem scan_cases (pos : Nat → Nat) (hpos : ∀ i ≤ M, move (pos i) = pos (i + 1))
    (hin : ∀ i < M, leave (pos (i + 1)) = false) (hout : leave (pos (M + 1)) = true)
    (hfuel : M < fuel) :
    (∃ j ≤ M, (∀ i < j, visit (pos i) = .next) ∧ ∃ a, visit (pos j) = .found a ∧
      scan move leave visit fuel (pos 0) = some (some a)) ∨
    (scan move leave visit fuel (pos 0) = some none ∧
      ((∃ j ≤ M, (∀ i < j, visit (pos i) = .next) ∧ visit (pos j) = .stop) ∨
        ∀ i ≤ M, visit (pos i) = .next)) := by
  classical
  by_cases h : ∃ j, j ≤ M ∧ visit (pos j) ≠ .next
  · obtain ⟨hj, hne⟩ := Nat.find_spec h
    have hbefore : ∀ i < Nat.find h, visit (pos i) = .next := by
      intro i hi
      have := Nat.find_min h hi
      by_contra hn
      exact this ⟨by omega, hn⟩
    rcases hv : visit (pos (Nat.find h)) with a | _ | _
    · exact .inl ⟨_, hj, hbefore, a, hv, scan_found hpos hin hfuel hj hbefore hv⟩
    · exact .inr ⟨scan_stop hpos hin hfuel hj hbefore hv, .inl ⟨_, hj, hbefore, hv⟩⟩
    · exact absurd hv hne
  · have hall : ∀ i ≤ M, visit (pos i) = .next := by
      intro i hi
      by_contra hn
      exact h ⟨i, hi, hn⟩
    exact .inr ⟨scan_end hpos hin hout hfuel hall, .inr hall⟩

end Scan
