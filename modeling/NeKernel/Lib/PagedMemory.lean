import NeKernel.Lib.ByteStore
import Mathlib.Data.Set.Defs

/-!
# Memory behind pages

A page map sends pages to frames of one store; a byte is named by its page and its offset. Where the
frames of a set of pages do not overlap, the pages behave like memory of their own: a store through
one name is seen under that name and under no other (`look_store_same`, `look_store_other`).
-/

namespace PagedMemory

open ByteStore

variable {P : Type*}

/-- Where a byte of a page is. -/
def place (A : P → Option Nat) (pg : P) (o : Nat) : Option Nat := (A pg).map fun f => f + o

/-- The byte of a page at an offset. -/
def look (A : P → Option Nat) (m : Store) (pg : P) (o : Nat) : Option UInt8 := (place A pg o).map m

/-- The frames of the pages of `W` do not overlap. -/
def FramesApart (A : P → Option Nat) (W : Set P) (size : Nat) : Prop :=
  ∀ pg ∈ W, ∀ pg' ∈ W, ∀ f f', A pg = some f → A pg' = some f' → pg ≠ pg' →
    f + size ≤ f' ∨ f' + size ≤ f

variable {A A' : P → Option Nat} {W : Set P} {m m' : Store} {pg pg' : P} {size o o' a f : Nat}
  {b : UInt8}

theorem place_of_mapped (h : A pg = some f) : place A pg o = some (f + o) := by
  rw [place, h, Option.map_some]

theorem look_of_mapped (h : A pg = some f) : look A m pg o = some (m (f + o)) := by
  rw [look, place_of_mapped h, Option.map_some]

/-- A page whose frame keeps its bytes looks the same. -/
theorem look_congr (hA : A' pg = A pg) (ho : o < size)
    (hm : ∀ f, A pg = some f → AgreeOn m m' f size) : look A' m' pg o = look A m pg o := by
  cases h : A pg with
  | none => rw [look, look, place, place, hA, h, Option.map_none, Option.map_none, Option.map_none]
  | some f =>
      rw [look_of_mapped h, look_of_mapped (hA.trans h)]
      exact congrArg some (hm f h (f + o) (Nat.le_add_right f o) (Nat.add_lt_add_left ho f)).symm

theorem look_store_same (h : place A pg o = some a) :
    look A (Function.update m a b) pg o = some b := by
  rw [look, h, Option.map_some, Function.update_self]

/-- **A store through one name is not seen under another.** -/
theorem look_store_other (hW : FramesApart A W size) (hpg : pg ∈ W) (hpg' : pg' ∈ W)
    (ho : o < size) (ho' : o' < size) (hne : pg ≠ pg' ∨ o ≠ o') (h : place A pg o = some a) :
    look A (Function.update m a b) pg' o' = look A m pg' o' := by
  obtain ⟨f, hf, rfl⟩ := Option.map_eq_some_iff.mp h
  cases hf' : A pg' with
  | none => rw [look, look, place, hf', Option.map_none, Option.map_none, Option.map_none]
  | some f' =>
      have hne' : f' + o' ≠ f + o := by
        by_cases hpp : pg = pg'
        · subst hpp
          obtain rfl : f = f' := Option.some.inj (hf.symm.trans hf')
          have := hne.resolve_left (not_not.mpr rfl)
          omega
        · have := hW pg hpg pg' hpg' f f' hf hf' hpp
          omega
      rw [look_of_mapped hf', look_of_mapped hf', Function.update_of_ne hne']

end PagedMemory
