import Mathlib.Data.List.Pairwise
import Mathlib.Tactic.Ring

/-!
# Bump allocation

A cursor that moves up over what it hands out and down over what is given back last-in first-out. The
blocks that are out lie one on the other from the start of the room to the cursor (`Stacked`). So they are
apart, lie between the two, and cover everything there (`Stacked.covered`), which is why a block that is
apart from all of them lies behind the cursor.
-/

namespace Bump

/-- What has been handed out: an address and a size. -/
structure Block where
  addr : Nat
  size : Nat

def Block.fin (b : Block) : Nat := b.addr + b.size

/-- The blocks have no byte in common. -/
def Block.Apart (b b' : Block) : Prop := b.fin ≤ b'.addr ∨ b'.fin ≤ b.addr

/-- The blocks, last one first, lie one on the other from `start` to the cursor, and none is empty. -/
def Stacked (start : Nat) : List Block → Nat → Prop
  | [], cursor => cursor = start
  | b :: bs, cursor => b.fin = cursor ∧ 0 < b.size ∧ Stacked start bs b.addr

variable {start cursor x : Nat} {b : Block} {bs : List Block}

theorem Stacked.start_le (h : Stacked start bs cursor) : start ≤ cursor := by
  induction bs generalizing cursor with
  | nil => exact Nat.le_of_eq h.symm
  | cons b bs ih =>
      obtain ⟨rfl, -, hrest⟩ := h
      exact (ih hrest).trans (Nat.le_add_right _ _)

/-- Every block lies between the start and the cursor. -/
theorem Stacked.bounds (h : Stacked start bs cursor) :
    ∀ b ∈ bs, start ≤ b.addr ∧ b.fin ≤ cursor := by
  induction bs generalizing cursor with
  | nil => exact fun b hb => absurd hb List.not_mem_nil
  | cons top bs ih =>
      obtain ⟨rfl, -, hrest⟩ := h
      intro b hb
      rcases List.mem_cons.mp hb with rfl | hb
      · exact ⟨hrest.start_le, Nat.le_refl _⟩
      · obtain ⟨hlow, hhigh⟩ := ih hrest b hb
        exact ⟨hlow, hhigh.trans (Nat.le_add_right _ _)⟩

theorem Stacked.apart (h : Stacked start bs cursor) : bs.Pairwise Block.Apart := by
  induction bs generalizing cursor with
  | nil => exact .nil
  | cons top bs ih =>
      obtain ⟨-, -, hrest⟩ := h
      exact List.pairwise_cons.mpr ⟨fun b hb => .inr (hrest.bounds b hb).2, ih hrest⟩

/-- **Nothing is free below the cursor.** -/
theorem Stacked.covered (h : Stacked start bs cursor) (hx : start ≤ x) (hlt : x < cursor) :
    ∃ b ∈ bs, b.addr ≤ x ∧ x < b.fin := by
  induction bs generalizing cursor with
  | nil =>
      have heq : cursor = start := h
      omega
  | cons top bs ih =>
      obtain ⟨rfl, -, hrest⟩ := h
      by_cases hin : top.addr ≤ x
      · exact ⟨top, List.mem_cons_self, hin, hlt⟩
      · obtain ⟨b, hb, hmem⟩ := ih hrest (by omega)
        exact ⟨b, List.mem_cons_of_mem _ hb, hmem⟩

/-- A block that is apart from all of them lies behind the cursor. -/
theorem Stacked.cursor_le (h : Stacked start bs cursor) (hlow : start ≤ b.addr) (hpos : 0 < b.size)
    (hap : ∀ b' ∈ bs, b.Apart b') : cursor ≤ b.addr := by
  by_contra hlt
  obtain ⟨b', hb', hle, hin⟩ := h.covered hlow (Nat.not_le.mp hlt)
  have := hap b' hb'
  simp only [Block.Apart, Block.fin] at this hin
  omega

end Bump
