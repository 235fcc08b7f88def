import NeKernel.NeKit.KStringOperators

/-!
# Comparisons of addresses

`RawIPAddress` and `RawIPAddress6` are arrays of bytes that differ in their length alone, and so do the
loops of their operators. `operator==` is right. `operator!=` says no at the first byte that is equal,
like that of the strings, and the four pairs of operators are settled together
(`operators_agree_iff`).
-/

namespace NeKernel.NetworkKit

open ByteStore Comparisons NeKit

@[ext] structure RawIPAddress where
  fAddr : Vector UInt8 4
  deriving DecidableEq

@[ext] structure RawIPAddress6 where
  fAddr : Vector UInt8 16
  deriving DecidableEq

/-- The loop of `operator==`. -/
def addrEq {n : Nat} (addr rhs : Vector UInt8 n) : Bool := equalRows (rhs.getD · 0) (addr.getD · 0) n

/-- The loop of `operator!=`. -/
def addrNe {n : Nat} (addr rhs : Vector UInt8 n) : Bool := differRows (rhs.getD · 0) (addr.getD · 0) n

namespace RawIPAddress

/-- `operator==`. -/
def eq (a ipv4 : RawIPAddress) : Bool := addrEq a.fAddr ipv4.fAddr

/-- `operator!=`. -/
def ne (a ipv4 : RawIPAddress) : Bool := addrNe a.fAddr ipv4.fAddr

end RawIPAddress

namespace RawIPAddress6

/-- `operator==`. -/
def eq (a ipv6 : RawIPAddress6) : Bool := addrEq a.fAddr ipv6.fAddr

/-- `operator!=`. -/
def ne (a ipv6 : RawIPAddress6) : Bool := addrNe a.fAddr ipv6.fAddr

end RawIPAddress6

variable {n : Nat} {addr rhs : Vector UInt8 n}

/-! ## Bytes -/

theorem getD_of_lt {i : Nat} (hi : i < n) : addr.getD i 0 = addr[i] := by
  rw [Vector.getD, Array.getD, dif_pos (by simpa using hi)]
  rfl

/-- Addresses with the same bytes are the same. -/
theorem ext_getD : (∀ i < n, rhs.getD i 0 = addr.getD i 0) ↔ addr = rhs := by
  constructor
  · intro h
    apply Vector.ext
    intro i hi
    rw [← getD_of_lt hi, ← getD_of_lt hi, h i hi]
  · rintro rfl i -
    rfl

/-- **Addresses** are told apart if they are equal or differ in every byte. -/
theorem addr_agree_iff (hn : 0 < n) : Agree (addrEq addr rhs) (addrNe addr rhs) (addr = rhs) ↔
    addr = rhs ∨ ∀ i < n, rhs.getD i 0 ≠ addr.getD i 0 := by
  have hdiffer : 0 < n → (∀ i < n, rhs.getD i 0 ≠ addr.getD i 0) → addr ≠ rhs := by
    rintro hn h rfl
    exact h 0 hn rfl
  rw [addrEq, addrNe, rowsAgree_iff ext_getD.mp hdiffer, ext_getD, and_iff_right hn]

/-! ## The operators -/

/-- **The operators** on two strings, on a string and a C string, and on two addresses. `operator!=` is
the negation of `operator==`, and that says whether the two are equal, for buffers of one size that is
not zero and for addresses, when every byte is equal or none is. -/
theorem operators_agree_iff {m : Store} {s t : KBasicString} {p len : Nat} {a b : RawIPAddress}
    {a6 b6 : RawIPAddress6} (hlen : oeStringLen m p = some len) :
    (Agree (s.eqString t m) (s.neString t m) (s.text m = t.text m) ↔
      t.fDataSz = s.fDataSz ∧ AllOrNone (slice m t.fData) (slice m s.fData) s.fDataSz) ∧
    ((∃ eq ne, s.eqChars p m = some eq ∧ s.neChars p m = some ne ∧
        Agree eq ne (s.text m = charsOf m p)) ↔
      len = s.fDataSz ∧ AllOrNone (slice m p) (slice m s.fData) len) ∧
    (Agree (a.eq b) (a.ne b) (a = b) ↔ a = b ∨ ∀ i < 4, b.fAddr.getD i 0 ≠ a.fAddr.getD i 0) ∧
    (Agree (a6.eq b6) (a6.ne b6) (a6 = b6) ↔
      a6 = b6 ∨ ∀ i < 16, b6.fAddr.getD i 0 ≠ a6.fAddr.getD i 0) := by
  refine ⟨strings_agree_iff, chars_agree_iff hlen, ?_, ?_⟩
  · rw [RawIPAddress.ext_iff]
    exact addr_agree_iff (Nat.succ_pos 3)
  · rw [RawIPAddress6.ext_iff]
    exact addr_agree_iff (Nat.succ_pos 15)

theorem operators_agree_small :
    let m : Store := putLE (putLE zeros 0x1000 3 0x00654E) 0x2000 4 0x004B654E
    let s : KBasicString := ⟨0x1000, 3, 2⟩
    let t : KBasicString := ⟨0x2000, 4, 3⟩
    let a : RawIPAddress := ⟨#v[10, 0, 0, 1]⟩
    let b : RawIPAddress := ⟨#v[10, 0, 0, 2]⟩
    let a6 : RawIPAddress6 := ⟨Vector.replicate 16 0⟩
    let b6 : RawIPAddress6 := ⟨Vector.replicate 16 1⟩
    (Agree (s.eqString t m) (s.neString t m) (s.text m = t.text m) ↔
      t.fDataSz = s.fDataSz ∧ AllOrNone (slice m t.fData) (slice m s.fData) s.fDataSz) ∧
    ((∃ eq ne, s.eqChars 0x2000 m = some eq ∧ s.neChars 0x2000 m = some ne ∧
        Agree eq ne (s.text m = charsOf m 0x2000)) ↔
      3 = s.fDataSz ∧ AllOrNone (slice m 0x2000) (slice m s.fData) 3) ∧
    (Agree (a.eq b) (a.ne b) (a = b) ↔ a = b ∨ ∀ i < 4, b.fAddr.getD i 0 ≠ a.fAddr.getD i 0) ∧
    (Agree (a6.eq b6) (a6.ne b6) (a6 = b6) ↔
      a6 = b6 ∨ ∀ i < 16, b6.fAddr.getD i 0 ≠ a6.fAddr.getD i 0) :=
  operators_agree_iff (by decide +kernel)

/-- The strings `ab` and `ac`, and the addresses 10.0.0.1 and 10.0.0.2: `operator==` says no and
`operator!=` says no. -/
theorem operators_both_false :
    let m : Store := putLE (putLE zeros 0x1000 2 0x6261) 0x2000 2 0x6361
    let s : KBasicString := ⟨0x1000, 2, 2⟩
    let t : KBasicString := ⟨0x2000, 2, 2⟩
    let a : RawIPAddress := ⟨#v[10, 0, 0, 1]⟩
    let b : RawIPAddress := ⟨#v[10, 0, 0, 2]⟩
    (s.eqString t m = false ∧ s.neString t m = false ∧
      ¬ Agree (s.eqString t m) (s.neString t m) (s.text m = t.text m)) ∧
    (a.eq b = false ∧ a.ne b = false ∧ ¬ Agree (a.eq b) (a.ne b) (a = b)) := by decide +kernel

end NeKernel.NetworkKit
