import Mathlib.Data.Nat.Find
import NeKernel.Lib.ByteStore

/-!
# Strings in memory

A string is a run of bytes with a zero behind it; what follows the zero is whatever the memory
holds. Two strings are the same, or there is a first place where they differ (`same_or_differAt`),
which is at the end of one of them when that one is a prefix of the other. That place is unique
(`DifferAt.unique`), so every loop over two strings is settled by it.
-/

namespace CStrings

open ByteStore

/-- A string: the bytes from a pointer on, and where the zero is. -/
structure CString where
  bytes : Store
  len : Nat
  noNul : ∀ i < len, bytes i ≠ 0
  nul : bytes len = 0

namespace CString

/-- The characters in front of the zero. -/
def chars (a : CString) : List UInt8 := (List.range a.len).map a.bytes

/-- The strings have the same characters. -/
def Same (a b : CString) : Prop := a.len = b.len ∧ ∀ i < a.len, a.bytes i = b.bytes i

/-- The first place where the strings differ. -/
structure DifferAt (a b : CString) (k : Nat) : Prop where
  before : ∀ i < k, a.bytes i = b.bytes i
  differ : a.bytes k ≠ b.bytes k
  left : k ≤ a.len
  right : k ≤ b.len

variable {a b : CString} {i k : Nat}

theorem Same.symm (h : a.Same b) : b.Same a :=
  ⟨h.1.symm, fun i hi => (h.2 i (h.1 ▸ hi)).symm⟩

theorem DifferAt.symm (h : a.DifferAt b k) : b.DifferAt a k :=
  ⟨fun i hi => (h.before i hi).symm, h.differ.symm, h.right, h.left⟩

/-- A byte that is not behind the zero is the zero exactly at the end. -/
theorem bytes_eq_zero_iff (hi : i ≤ a.len) : a.bytes i = 0 ↔ i = a.len := by
  constructor
  · intro h
    by_contra hne
    exact a.noNul i (by omega) h
  · rintro rfl
    exact a.nul

/-- Strings that are the same are so with their zeros. -/
theorem Same.bytes_eq (h : a.Same b) (hi : i ≤ a.len) : a.bytes i = b.bytes i := by
  rcases Nat.lt_or_eq_of_le hi with hlt | rfl
  · exact h.2 i hlt
  · rw [a.nul, h.1, b.nul]

/-- **Two strings** are the same or differ somewhere for the first time. -/
theorem same_or_differAt (a b : CString) : a.Same b ∨ ∃ k, a.DifferAt b k := by
  by_cases h : ∃ k, k ≤ a.len ∧ a.bytes k ≠ b.bytes k
  · right
    have hspec := Nat.find_spec h
    have hbefore : ∀ i < Nat.find h, a.bytes i = b.bytes i := by
      intro i hi
      by_contra hne
      exact Nat.find_min h hi ⟨by omega, hne⟩
    refine ⟨Nat.find h, hbefore, hspec.2, hspec.1, ?_⟩
    -- the second string does not end where the first has a character
    by_contra hlong
    have hend := hbefore b.len (by omega)
    rw [b.nul] at hend
    exact a.noNul b.len (by omega) hend
  · left
    have hall : ∀ i ≤ a.len, a.bytes i = b.bytes i := by
      intro i hi
      by_contra hne
      exact h ⟨i, hi, hne⟩
    have hlen : a.len = b.len := by
      rcases Nat.lt_trichotomy a.len b.len with hlt | heq | hgt
      · exact absurd ((hall _ (Nat.le_refl _)).symm.trans a.nul) (b.noNul _ hlt)
      · exact heq
      · exact absurd ((hall _ (by omega)).trans b.nul) (a.noNul _ hgt)
    exact ⟨hlen, fun i hi => hall i (by omega)⟩

theorem DifferAt.not_same (h : a.DifferAt b k) : ¬ a.Same b :=
  fun hsame => h.differ (hsame.bytes_eq h.left)

/-- There is one such place only. -/
theorem DifferAt.unique {k' : Nat} (h : a.DifferAt b k) (h' : a.DifferAt b k') : k = k' := by
  rcases Nat.lt_trichotomy k k' with hlt | heq | hgt
  · exact absurd (h'.before k hlt) h.differ
  · exact heq
  · exact absurd (h.before k' hgt) h'.differ

/-- What stands before it is no zero. -/
theorem DifferAt.noNul_before (h : a.DifferAt b k) (hi : i < k) : a.bytes i ≠ 0 :=
  a.noNul i (Nat.lt_of_lt_of_le hi h.left)

end CString

end CStrings
