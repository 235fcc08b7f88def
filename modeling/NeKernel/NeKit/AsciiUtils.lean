import NeKernel.Lib.CStrings
import NeKernel.Lib.WordCopy
import NeKernel.NeKit.Config

/-!
# Strings and memory of the kernel

`rt_string_len`, `rt_string_cmp` and the checked copy and fill, with the `strcmp` the compiler calls.
Characters are signed. The comparison looks at as many characters as the first string has, so it does
not see what the second one has behind them (`strcmp_prefix`), and where the strings differ inside
both it is the difference of two signed characters (`strcmp_inside`).
-/

namespace NeKernel.NeKit

open ByteStore CStrings WordCopy

/-! ## Strings -/

/-- A `Char` as a number. -/
def charValue (c : UInt8) : Int := c.toInt8.toInt

/-- The loop of `rt_string_len`; `none` if it has not come to a zero. -/
def rtStringLenFrom (ptr : Store) : Nat → Nat → Option Nat
  | 0, _ => none
  | fuel + 1, cnt => if ptr cnt ≠ 0 then rtStringLenFrom ptr fuel (cnt + 1) else some cnt

/-- `rt_string_len` of a string. -/
def rtStringLen (str : CString) : Option Nat := rtStringLenFrom str.bytes (str.len + 1) 0

/-- The loop of the `rt_string_len` that looks at `left` characters more at most. -/
def rtStringLenUpTo (str : Store) : Nat → Nat → Nat
  | 0, len => len
  | left + 1, len => if str len ≠ 0 then rtStringLenUpTo str left (len + 1) else len

/-- `rt_string_len` with a bound. -/
def rtStringLenMax (str : Store) (maxLen : Nat) : Nat := rtStringLenUpTo str maxLen 0

/-- The loop of `rt_string_cmp`, with `left` rounds to go. -/
def rtStringCmpFrom (src cmp : Store) : Nat → Nat → Int
  | 0, _ => 0
  | left + 1, i =>
    if src i ≠ cmp i then charValue (src i) - charValue (cmp i)
    else rtStringCmpFrom src cmp left (i + 1)

/-- `rt_string_cmp`. -/
def rtStringCmp (src cmp : Store) (size : Nat) : Int := rtStringCmpFrom src cmp size 0

/-- `strcmp`; `none` if it does not return. -/
def strcmp (a b : CString) : Option Int :=
  (rtStringLen a).map fun size => rtStringCmp a.bytes b.bytes size

/-- `rt_is_alnum`. -/
def rtIsAlnum (ch : Int) : Bool :=
  0x61 ≤ ch ∧ ch ≤ 0x7A ∨ 0x41 ≤ ch ∧ ch ≤ 0x5A ∨ 0x30 ≤ ch ∧ ch ≤ 0x39

variable {a b str : CString} {src cmp : Store} {i j k n size : Nat}

/-- The loop stops at the first zero. -/
theorem rtStringLenFrom_some {ptr : Store} {fuel cnt : Nat} :
    rtStringLenFrom ptr fuel cnt = some n ↔
      cnt ≤ n ∧ n < cnt + fuel ∧ (∀ i, cnt ≤ i → i < n → ptr i ≠ 0) ∧ ptr n = 0 := by
  induction fuel generalizing cnt with
  | zero =>
      rw [rtStringLenFrom]
      constructor
      · intro h
        cases h
      · rintro ⟨hle, hlt, -⟩
        omega
  | succ fuel ih =>
      rw [rtStringLenFrom]
      by_cases hc : ptr cnt = 0
      · rw [if_neg (not_not.mpr hc), Option.some.injEq]
        constructor
        · rintro rfl
          exact ⟨Nat.le_refl _, by omega, fun i hi hi' => absurd hi' (Nat.not_lt.mpr hi), hc⟩
        · rintro ⟨hle, -, hbefore, -⟩
          by_contra hne
          exact hbefore cnt (Nat.le_refl _) (by omega) hc
      · rw [if_pos hc, ih]
        constructor
        · rintro ⟨hle, hlt, hbefore, hend⟩
          refine ⟨by omega, by omega, fun i hi hi' => ?_, hend⟩
          rcases Nat.lt_or_eq_of_le hi with hlt' | rfl
          · exact hbefore i hlt' hi'
          · exact hc
        · rintro ⟨hle, hlt, hbefore, hend⟩
          have hne : cnt ≠ n := by
            rintro rfl
            exact hc hend
          exact ⟨by omega, by omega, fun i hi hi' => hbefore i (by omega) hi', hend⟩

theorem rtStringLenFrom_eq (hi : i ≤ str.len) :
    rtStringLenFrom str.bytes (str.len + 1 - i) i = some str.len :=
  rtStringLenFrom_some.mpr ⟨hi, by omega, fun j _ hj => str.noNul j hj, str.nul⟩

/-- The length of a string. -/
theorem rtStringLen_eq (str : CString) : rtStringLen str = some str.len :=
  rtStringLenFrom_eq (Nat.zero_le _)

theorem rtStringLenUpTo_eq {left : Nat} (hi : i ≤ str.len) :
    rtStringLenUpTo str.bytes left i = min str.len (i + left) := by
  induction left generalizing i with
  | zero =>
      rw [rtStringLenUpTo]
      omega
  | succ left ih =>
      rw [rtStringLenUpTo]
      by_cases hend : i = str.len
      · subst hend
        rw [if_neg (not_not.mpr str.nul)]
        omega
      · rw [if_pos (str.noNul i (by omega)), ih (by omega)]
        omega

/-- The length, or the bound if the string is longer. -/
theorem rtStringLenMax_eq (str : CString) (maxLen : Nat) :
    rtStringLenMax str.bytes maxLen = min str.len maxLen := by
  rw [rtStringLenMax, rtStringLenUpTo_eq (Nat.zero_le _), Nat.zero_add]

/-- Characters that are equal are passed. -/
theorem rtStringCmpFrom_skip (h : ∀ j < k, src (i + j) = cmp (i + j)) :
    rtStringCmpFrom src cmp (n + k) i = rtStringCmpFrom src cmp n (i + k) := by
  induction k generalizing i with
  | zero => rfl
  | succ k ih =>
      have hfirst : src i = cmp i := h 0 (Nat.succ_pos k)
      rw [← Nat.add_assoc, rtStringCmpFrom, if_neg (not_not.mpr hfirst), ih]
      · rw [show i + 1 + k = i + (k + 1) by omega]
      · intro j hj
        rw [show i + 1 + j = i + (j + 1) by omega]
        exact h (j + 1) (by omega)

theorem rtStringCmp_same (h : ∀ i < size, src i = cmp i) : rtStringCmp src cmp size = 0 := by
  have hskip : rtStringCmpFrom src cmp (0 + size) 0 = rtStringCmpFrom src cmp 0 (0 + size) :=
    rtStringCmpFrom_skip fun j hj => by rw [Nat.zero_add]; exact h j hj
  rw [Nat.zero_add] at hskip
  exact hskip

theorem rtStringCmp_differ (h : ∀ i < k, src i = cmp i) (hne : src k ≠ cmp k) (hk : k < size) :
    rtStringCmp src cmp size = charValue (src k) - charValue (cmp k) := by
  obtain ⟨n, rfl⟩ : ∃ n, size = n + 1 + k := ⟨size - 1 - k, by omega⟩
  rw [rtStringCmp, rtStringCmpFrom_skip fun j hj => by rw [Nat.zero_add]; exact h j hj,
    Nat.zero_add, rtStringCmpFrom, if_pos hne]

theorem charValue_inj {c d : UInt8} (h : charValue c - charValue d = 0) : c = d :=
  UInt8.toBitVec_inj.mp (congrArg Int8.toBitVec (Int8.toInt_inj.mp (Int.sub_eq_zero.mp h)))

/-- The comparison says zero exactly for equal rows. -/
theorem rtStringCmp_eq_zero_iff : rtStringCmp src cmp size = 0 ↔ ∀ i < size, src i = cmp i := by
  refine ⟨fun h => ?_, rtStringCmp_same⟩
  by_contra hne
  obtain ⟨k, hk, hfirst⟩ : ∃ k, (k < size ∧ src k ≠ cmp k) ∧ ∀ j < k, ¬ (j < size ∧ src j ≠ cmp j) := by
    push Not at hne
    exact ⟨Nat.find hne, Nat.find_spec hne, fun j hj => Nat.find_min hne hj⟩
  have hbefore : ∀ j < k, src j = cmp j := fun j hj => by
    by_contra hj'
    exact hfirst j hj ⟨Nat.lt_trans hj hk.1, hj'⟩
  rw [rtStringCmp_differ hbefore hk.2 hk.1] at h
  exact hk.2 (charValue_inj h)

theorem strcmp_eq (a b : CString) : strcmp a b = some (rtStringCmp a.bytes b.bytes a.len) := by
  rw [strcmp, rtStringLen_eq, Option.map_some]

theorem strcmp_same (h : a.Same b) : strcmp a b = some 0 := by
  rw [strcmp_eq, rtStringCmp_same h.2]

/-- **A string is not told** from one it is a prefix of. -/
theorem strcmp_prefix (h : a.DifferAt b k) (hend : a.bytes k = 0) : strcmp a b = some 0 := by
  have hk := (CString.bytes_eq_zero_iff h.left).mp hend
  rw [strcmp_eq, rtStringCmp_same fun i hi => h.before i (by omega)]

/-- Where the first string has a character of its own, the characters are compared. -/
theorem strcmp_inside (h : a.DifferAt b k) (hchar : a.bytes k ≠ 0) :
    strcmp a b = some (charValue (a.bytes k) - charValue (b.bytes k)) := by
  have hk : k ≠ a.len := fun heq => hchar ((CString.bytes_eq_zero_iff h.left).mpr heq)
  rw [strcmp_eq, rtStringCmp_differ h.before h.differ (Nat.lt_of_le_of_ne h.left hk)]

/-! ## Memory -/

/-- `rt_set_memory_safe`. -/
def rtSetMemorySafe (m : Store) (dst value len dstSize : Nat) : Nat × Store :=
  if dst = 0 ∨ len > dstSize then (0, m)
  else (dst, forLoop (fun i m => putLE m (dst + i) 1 (value % 256)) len m)

/-- `rt_copy_memory_safe`: an error clears the target. -/
def rtCopyMemorySafe (m : Store) (src dst len dstSize : Nat) : Int × Store :=
  if src = 0 ∨ dst = 0 ∨ len > dstSize then
    (-1, if dst ≠ 0 ∧ dstSize ≠ 0 then (rtSetMemorySafe m dst 0 dstSize dstSize).2 else m)
  else (int32 len, forLoop (fun i m => putLE m (dst + i) 1 (getLE m (src + i) 1)) len m)

/-- `rt_copy_memory`. -/
def rtCopyMemory (m : Store) (src dst len : Nat) : Int × Store :=
  if src = 0 ∨ dst = 0 then (-1, m)
  else (int32 len, forLoop (fun i m => putLE m (dst + i) 1 (getLE m (src + i) 1)) len m)

variable {m : Store} {p d len room : Nat}

theorem rtSetMemorySafe_zero (hd : d ≠ 0) :
    (rtSetMemorySafe m d 0 room room).2 = fill m d room 0 := by
  have hloop : forLoop (fun i m => putLE m (d + i) 1 (0 % 256)) room m = fillUp 1 d 0 room m :=
    forLoop_congr fun i _ m' => by rw [Nat.one_mul]
  rw [rtSetMemorySafe, if_neg (by omega)]
  exact hloop.trans fillUp_bytes

/-- A copy that fits is made byte by byte. -/
theorem rtCopyMemorySafe_fits (hp : p ≠ 0) (hd : d ≠ 0) (hlen : len ≤ room) :
    (rtCopyMemorySafe m p d len room).2 = copyUp 1 d p len m := by
  have hloop : forLoop (fun i m => putLE m (d + i) 1 (getLE m (p + i) 1)) len m =
      copyUp 1 d p len m :=
    forLoop_congr fun i _ m' => by rw [Nat.one_mul]
  rw [rtCopyMemorySafe, if_neg (by omega), hloop]

/-- Whatever becomes of a copy, it writes the room of its target only. -/
theorem rtCopyMemorySafe_onlyAt : OnlyAt m (rtCopyMemorySafe m p d len room).2 d room := by
  by_cases hbad : p = 0 ∨ d = 0 ∨ len > room
  · rw [rtCopyMemorySafe, if_pos hbad]
    by_cases hd : d ≠ 0 ∧ room ≠ 0
    · rw [if_pos hd, rtSetMemorySafe_zero hd.1]
      exact OnlyAt.blit (Nat.le_refl _) (Nat.le_refl _)
    · rw [if_neg hd]
      exact .refl
  · rw [rtCopyMemorySafe_fits (by omega) (by omega) (by omega)]
    intro x hx
    exact copyUp_onlyAt x (by omega)

end NeKernel.NeKit
