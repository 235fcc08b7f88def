import NeKernel.Lib.WordCopy

/-!
# Memory routines of the boot loader

The compiler calls `memset` and `memcpy`; the boot loader has them next to `memnset` and `memncpy`,
which take the size of the target, too. The latter go byte by byte. The former go through pointers
to `int`, so they write four times as much: they agree with the others exactly when that happens to
change nothing (`memset_right_iff`, `memcpy_right_iff`).
-/

namespace NeKernel.BootKit

open ByteStore WordCopy

/-! ## Byte by byte -/

/-- `memnset`. -/
def memnset (m : Store) (dst : Nat) (byte : UInt32) (len dstSize : Nat) : Nat × Store :=
  if dst = 0 ∨ len > dstSize then (0, m)
  else (dst, forLoop (fun i m => putLE m (dst + i) 1 byte.toNat) len m)

/-- `memncpy`. -/
def memncpy (m : Store) (dst src len dstSize : Nat) : Nat × Store :=
  if dst = 0 ∨ src = 0 ∨ len > dstSize then (0, m)
  else (dst, forLoop (fun i m => putLE m (dst + i) 1 (getLE m (src + i) 1)) len m)

/-! ## The ones the compiler calls -/

/-- `memset`: the elements are `int`s. -/
def memset (m : Store) (dst : Nat) (byte : UInt32) (len : Nat) : Nat × Store :=
  (dst, forLoop (fun i m => putLE m (dst + 4 * i) 4 byte.toNat) len m)

/-- `memcpy`: the elements are `int`s. -/
def memcpy (m : Store) (dst src len : Nat) : Nat × Store :=
  (dst, forLoop (fun i m => putLE m (dst + 4 * i) 4 (getLE m (src + 4 * i) 4)) len m)

variable {m : Store} {dst src len dstSize x k : Nat} {byte : UInt32}

/-- The ranges do not overlap. -/
def Apart (dst src len : Nat) : Prop := dst + len ≤ src ∨ src + len ≤ dst

theorem memnset_eq (hdst : dst ≠ 0) (hlen : len ≤ dstSize) :
    memnset m dst byte len dstSize = (dst, fill m dst len byte.toUInt8) := by
  have hup : forLoop (fun i m => putLE m (dst + i) 1 byte.toNat) len m =
      fillUp 1 dst byte.toNat len m :=
    forLoop_congr fun i _ m' => by rw [Nat.one_mul]
  have hbyte : UInt8.ofNat byte.toNat = byte.toUInt8 := rfl
  rw [memnset, if_neg (by omega), hup, fillUp_bytes, hbyte]

theorem memncpy_eq (hdst : dst ≠ 0) (hsrc : src ≠ 0) (hlen : len ≤ dstSize)
    (hapart : Apart dst src len) :
    memncpy m dst src len dstSize = (dst, blit m dst len (slice m src)) := by
  have hup : forLoop (fun i m => putLE m (dst + i) 1 (getLE m (src + i) 1)) len m =
      copyUp 1 dst src len m :=
    forLoop_congr fun i _ m' => by rw [Nat.one_mul]
  have hr : dst ≤ src ∨ src + 1 * len ≤ dst := by
    rw [Apart] at hapart
    omega
  rw [memncpy, if_neg (by omega), hup, copyUp_eq hr, Nat.one_mul]

/-! ## When they agree -/

/-- `memset` sets the bytes of the range, no others, and agrees with `memnset`. -/
structure MemsetRight (m : Store) (dst : Nat) (byte : UInt32) (len : Nat) : Prop where
  sets : (memset m dst byte len).2 = fill m dst len byte.toUInt8
  agrees : ∀ dstSize, dst ≠ 0 → len ≤ dstSize →
    memset m dst byte len = memnset m dst byte len dstSize

/-- The `int`s that `memset` writes hold the byte in the range, and behind it what is there. -/
def SetsNothingMore (m : Store) (dst : Nat) (byte : UInt32) (len : Nat) : Prop :=
  ∀ x < 4 * len, leBytes byte.toNat (x % 4) = if x < len then byte.toUInt8 else m (dst + x)

theorem memset_eq : (memset m dst byte len).2 =
    blit m dst (4 * len) fun x => leBytes byte.toNat (x % 4) := fillUp_eq

/-- **`memset` is right** exactly when its `int`s change nothing more than the bytes of the range. -/
theorem memset_right_iff (m : Store) (dst : Nat) (byte : UInt32) (len : Nat) :
    MemsetRight m dst byte len ↔ SetsNothingMore m dst byte len := by
  have hsets : (memset m dst byte len).2 = fill m dst len byte.toUInt8 ↔
      SetsNothingMore m dst byte len := by
    rw [memset_eq]
    constructor
    · intro h x hx
      have hbyte := congrFun h (dst + x)
      rw [blit_apply_of_mem (by omega) (by omega), Nat.add_sub_cancel_left] at hbyte
      rw [hbyte]
      split
      · exact blit_apply_of_mem (by omega) (by omega)
      · exact blit_apply_of_notMem (by omega)
    · intro h
      funext y
      by_cases hy : dst ≤ y ∧ y < dst + 4 * len
      · rw [blit_apply_of_mem hy.1 hy.2, h (y - dst) (by omega)]
        split
        · rw [fill, blit_apply_of_mem hy.1 (by omega)]
        · rw [fill, blit_apply_of_notMem (by omega), show dst + (y - dst) = y by omega]
      · rw [fill, blit_apply_of_notMem (by omega), blit_apply_of_notMem (by omega)]
  constructor
  · exact fun h => hsets.mp h.sets
  · intro h
    have hsame := hsets.mpr h
    exact ⟨hsame, fun dstSize hdst hlen => by rw [memnset_eq hdst hlen, ← hsame]; rfl⟩

/-- `memcpy` copies the range, changes no other byte, and agrees with `memncpy`. -/
structure MemcpyRight (m : Store) (dst src len : Nat) : Prop where
  copies : (memcpy m dst src len).2 = blit m dst len (slice m src)
  agrees : ∀ dstSize, dst ≠ 0 → src ≠ 0 → len ≤ dstSize →
    memcpy m dst src len = memncpy m dst src len dstSize

/-- The memory when `k` rounds of a right `memcpy` are done. -/
def copiedSoFar (m : Store) (dst src len k : Nat) : Store :=
  blit m dst (min (4 * k) len) (slice m src)

/-- Every byte that `memcpy` copies behind the range is there already. -/
def CopiesNothingMore (m : Store) (dst src len : Nat) : Prop :=
  ∀ x, len ≤ x → x < 4 * len → copiedSoFar m dst src len (x / 4) (src + x) = m (dst + x)

/-- One round of `memcpy` from where a right one stands. -/
theorem memcpy_round (hapart : Apart dst src len) :
    putLE (copiedSoFar m dst src len k) (dst + 4 * k) 4
        (getLE (copiedSoFar m dst src len k) (src + 4 * k) 4) = copiedSoFar m dst src len (k + 1) ↔
      ∀ x, len ≤ x → x / 4 = k → copiedSoFar m dst src len k (src + x) = m (dst + x) := by
  rw [Apart] at hapart
  rw [putLE_getLE]
  constructor
  · intro h x hx hxk
    have hbyte := congrFun h (dst + x)
    rw [blit_apply_of_mem (by omega) (by omega), slice_apply,
      show src + 4 * k + (dst + x - (dst + 4 * k)) = src + x by omega] at hbyte
    rw [hbyte]
    exact blit_apply_of_notMem (by omega)
  · intro h
    funext y
    by_cases hy : dst + 4 * k ≤ y ∧ y < dst + 4 * k + 4
    · rw [blit_apply_of_mem hy.1 hy.2, slice_apply,
        show src + 4 * k + (y - (dst + 4 * k)) = src + (y - dst) by omega]
      by_cases hin : y < dst + len
      · rw [copiedSoFar, blit_apply_of_notMem (by omega), copiedSoFar,
          blit_apply_of_mem (by omega) (by omega)]
        rfl
      · rw [h (y - dst) (by omega) (by omega), copiedSoFar, blit_apply_of_notMem (by omega)]
        congr 1
        omega
    · rw [blit_apply_of_notMem (by omega)]
      by_cases hbefore : dst ≤ y ∧ y < dst + min (4 * k) len
      · rw [copiedSoFar, blit_apply_of_mem hbefore.1 hbefore.2, copiedSoFar,
          blit_apply_of_mem (by omega) (by omega)]
      · rw [copiedSoFar, blit_apply_of_notMem (by omega), copiedSoFar,
          blit_apply_of_notMem (by omega)]

/-- The rounds of `memcpy`. -/
def memcpyRounds (m : Store) (dst src k : Nat) : Store :=
  forLoop (fun i m => putLE m (dst + 4 * i) 4 (getLE m (src + 4 * i) 4)) k m

/-- They have not been behind the words they are done with. -/
theorem memcpyRounds_onlyAt : OnlyAt m (memcpyRounds m dst src k) dst (4 * k) := by
  refine forLoop_inv (I := fun k m' => OnlyAt m m' dst (4 * k)) OnlyAt.refl fun i _ m' h => ?_
  intro x hx
  rw [putLE_apply_of_notMem (by omega)]
  exact h x (by omega)

/-- The rounds stand where a right `memcpy` stands exactly when each of them was right. -/
theorem memcpyRounds_eq_iff (hapart : Apart dst src len) :
    memcpyRounds m dst src k = copiedSoFar m dst src len k ↔
      ∀ x, len ≤ x → x < 4 * k → copiedSoFar m dst src len (x / 4) (src + x) = m (dst + x) := by
  induction k with
  | zero =>
      refine iff_of_true ?_ fun x _ hx => absurd hx (by omega)
      rw [copiedSoFar, Nat.mul_zero, Nat.zero_min, blit_zero]
      rfl
  | succ k ih =>
      have hlast : memcpyRounds m dst src (k + 1) =
          putLE (memcpyRounds m dst src k) (dst + 4 * k) 4
            (getLE (memcpyRounds m dst src k) (src + 4 * k) 4) := rfl
      -- the last round touches its own word only, which was as in the beginning
      have hbefore (h : memcpyRounds m dst src (k + 1) = copiedSoFar m dst src len (k + 1)) :
          memcpyRounds m dst src k = copiedSoFar m dst src len k := by
        funext y
        by_cases hy : dst + 4 * k ≤ y ∧ y < dst + 4 * k + 4
        · rw [memcpyRounds_onlyAt y (by omega), copiedSoFar, blit_apply_of_notMem (by omega)]
        · have hbyte := congrFun h y
          rw [hlast, putLE_apply_of_notMem (by omega)] at hbyte
          rw [hbyte, copiedSoFar, copiedSoFar]
          by_cases hin : dst ≤ y ∧ y < dst + min (4 * k) len
          · rw [blit_apply_of_mem hin.1 hin.2, blit_apply_of_mem hin.1 (by omega)]
          · rw [blit_apply_of_notMem (by omega), blit_apply_of_notMem (by omega)]
      constructor
      · intro h x hx hxk
        have hk := hbefore h
        by_cases hlt : x < 4 * k
        · exact ih.mp hk x hx hlt
        · rw [hlast, hk, memcpy_round hapart] at h
          have hdiv : x / 4 = k := by omega
          rw [hdiv]
          exact h x hx hdiv
      · intro h
        rw [hlast, ih.mpr fun x hx hxk => h x hx (by omega), memcpy_round hapart]
        intro x hx hxk
        rw [← hxk]
        exact h x hx (by omega)

/-- **`memcpy` is right** exactly when it copies nothing behind the range that is not there. -/
theorem memcpy_right_iff (hapart : Apart dst src len) :
    MemcpyRight m dst src len ↔ CopiesNothingMore m dst src len := by
  have hcopies : (memcpy m dst src len).2 = blit m dst len (slice m src) ↔
      CopiesNothingMore m dst src len := by
    have hall : copiedSoFar m dst src len len = blit m dst len (slice m src) := by
      rw [copiedSoFar, Nat.min_eq_right (by omega)]
    rw [← hall]
    exact memcpyRounds_eq_iff hapart
  constructor
  · exact fun h => hcopies.mp h.copies
  · intro h
    have hsame := hcopies.mpr h
    exact ⟨hsame, fun dstSize hdst hsrc hlen => by
      rw [memncpy_eq hdst hsrc hlen hapart, ← hsame]
      rfl⟩

/-- **The routines the compiler calls** do what the others do exactly when the `int`s they write
change nothing more. -/
theorem routines_right_iff (m : Store) (dst src : Nat) (byte : UInt32) (len : Nat)
    (hapart : Apart dst src len) :
    (MemsetRight m dst byte len ↔ SetsNothingMore m dst byte len) ∧
      (MemcpyRight m dst src len ↔ CopiesNothingMore m dst src len) :=
  ⟨memset_right_iff m dst byte len, memcpy_right_iff hapart⟩

/-- Clearing one byte, and copying one, where zeros follow. -/
theorem routines_right_iff_zeros :
    MemsetRight zeros 0x1000 0 1 ∧ MemcpyRight zeros 0x1000 0x2000 1 := by
  have hiff := routines_right_iff zeros 0x1000 0x2000 0 1 (.inl (by decide))
  refine ⟨hiff.1.mpr fun x hx => ?_, hiff.2.mpr fun x h₁ h₂ => ?_⟩
  · have hzero : leBytes (0 : UInt32).toNat (x % 4) = 0 := by
      rw [leBytes, UInt32.toNat_zero, Nat.zero_div]
      rfl
    rw [hzero]
    split <;> rfl
  · have hzero : ∀ y, copiedSoFar zeros 0x1000 0x2000 1 (x / 4) y = 0 := fun y => by
      unfold copiedSoFar blit
      split <;> rfl
    exact hzero _

/-- Setting one byte sets four. -/
theorem memset_spills : ¬ ∀ m dst byte len, MemsetRight m dst byte len := by
  intro h
  have hbyte := congrFun (h (fun _ => 0xFF) 0x1000 0 1).sets 0x1001
  exact absurd hbyte (by decide)

end NeKernel.BootKit
