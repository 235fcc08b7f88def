import Mathlib.Data.List.TakeWhile
import NeKernel.Lib.Comparisons
import NeKernel.NeKit.KString

/-!
# Comparisons of strings

The four operators of `KBasicString` are loops of their own. Each begins with the lengths, where that of a
`KBasicString` is the size of its buffer, and says no when they are not equal: `operator!=` too. Behind
that, `operator==` looks at every byte of the buffer, the ones behind the terminator among them, and
`operator!=` says no at the first byte that is equal.

What a string is compared for is its text, up to the first zero. When the operators tell that is settled
for two strings (`strings_agree_iff`) and for a string with a C string (`chars_agree_iff`).
-/

namespace NeKernel.NeKit

open ByteStore Comparisons

namespace KBasicString

/-- `operator==(const KBasicString&)`. -/
def eqString (s rhs : KBasicString) (m : Store) : Bool :=
  if rhs.fDataSz ≠ s.fDataSz then false
  else equalRows (slice m rhs.fData) (slice m s.fData) s.fDataSz

/-- `operator!=(const KBasicString&)`. -/
def neString (s rhs : KBasicString) (m : Store) : Bool :=
  if rhs.fDataSz ≠ s.fDataSz then false
  else differRows (slice m rhs.fData) (slice m s.fData) rhs.fDataSz

/-- `operator==(const CharKind*)`; `none` if the C string does not end. -/
def eqChars (s : KBasicString) (rhs : Nat) (m : Store) : Option Bool :=
  (oeStringLen m rhs).map fun len =>
    if len ≠ s.fDataSz then false else equalRows (slice m rhs) (slice m s.fData) len

/-- `operator!=(const CharKind*)`. -/
def neChars (s : KBasicString) (rhs : Nat) (m : Store) : Option Bool :=
  (oeStringLen m rhs).map fun len =>
    if len ≠ s.fDataSz then false else differRows (slice m rhs) (slice m s.fData) len

end KBasicString

/-- The text in a buffer of `n` bytes. -/
def textOf (buffer : Store) (n : Nat) : List UInt8 := ((List.range n).map buffer).takeWhile (· ≠ 0)

/-- The text of a string. -/
def KBasicString.text (s : KBasicString) (m : Store) : List UInt8 := textOf (slice m s.fData) s.fDataSz

/-- Not empty, and equal in every byte or in none. -/
def AllOrNone (f g : Store) (n : Nat) : Prop := 0 < n ∧ ((∀ i < n, f i = g i) ∨ ∀ i < n, f i ≠ g i)

variable {m f g : Store} {n p len : Nat} {s rhs : KBasicString}

/-! ## Texts -/

theorem textOf_congr (h : ∀ i < n, f i = g i) : textOf f n = textOf g n := by
  rw [textOf, textOf, List.map_congr_left fun i hi => h i (List.mem_range.mp hi)]

/-- The first byte of a buffer shows in its text. -/
theorem textOf_ne (hn : 0 < n) (h : f 0 ≠ g 0) : textOf f n ≠ textOf g n := by
  obtain ⟨n, rfl⟩ : ∃ k, n = k + 1 := ⟨n - 1, by omega⟩
  intro htext
  simp only [textOf, List.range_succ_eq_map, List.map_cons, List.takeWhile_cons] at htext
  by_cases hf : f 0 = 0
  · have hg : g 0 ≠ 0 := fun hg => h (hf.trans hg.symm)
    simp [hf, hg] at htext
  · by_cases hg : g 0 = 0
    · simp [hf, hg] at htext
    · simp [hf, hg, h] at htext

/-- The text of a C string is all of its characters. -/
theorem textOf_chars (hlen : oeStringLen m p = some len) : textOf (slice m p) len = charsOf m p := by
  rw [charsOf_eq hlen]
  apply List.takeWhile_eq_self_iff.mpr
  intro c hc
  exact decide_eq_true (charsOf_noNul hlen c (charsOf_eq hlen ▸ hc))

/-- The two loops over buffers tell whether the texts are equal. -/
theorem textsAgree_iff {a b : List UInt8} (ha : a = textOf g n) (hb : b = textOf f n) :
    Agree (equalRows f g n) (differRows f g n) (a = b) ↔ AllOrNone f g n := by
  subst ha hb
  refine rowsAgree_iff (fun h => (textOf_congr h).symm) fun hn h => ?_
  exact fun htext => textOf_ne hn (h 0 hn) htext.symm

/-! ## The operators -/

/-- **Two strings.** -/
theorem strings_agree_iff : Agree (s.eqString rhs m) (s.neString rhs m) (s.text m = rhs.text m) ↔
    rhs.fDataSz = s.fDataSz ∧ AllOrNone (slice m rhs.fData) (slice m s.fData) s.fDataSz := by
  rw [KBasicString.eqString, KBasicString.neString, agree_ite_iff, ne_eq, not_not]
  refine and_congr_right fun hsz => ?_
  rw [hsz]
  exact textsAgree_iff rfl (by rw [KBasicString.text, hsz])

/-- **A string and a C string.** -/
theorem chars_agree_iff (hlen : oeStringLen m p = some len) :
    (∃ eq ne, s.eqChars p m = some eq ∧ s.neChars p m = some ne ∧
      Agree eq ne (s.text m = charsOf m p)) ↔
    len = s.fDataSz ∧ AllOrNone (slice m p) (slice m s.fData) len := by
  rw [KBasicString.eqChars, KBasicString.neChars, hlen, Option.map_some, Option.map_some]
  simp only [Option.some.injEq, exists_and_left, exists_eq_left']
  rw [agree_ite_iff, ne_eq, not_not]
  refine and_congr_right fun hsz => ?_
  exact textsAgree_iff (by rw [KBasicString.text, hsz]) (textOf_chars hlen).symm

end NeKernel.NeKit
