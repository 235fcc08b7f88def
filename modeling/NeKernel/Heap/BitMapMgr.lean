import NeKernel.Lib.ByteStore
import NeKernel.NeKit.Config

/-!
# The bitmap allocator

`IBitMapProxy` hands out blocks of the heap region. A block starts with a header of three words
(magic, size, used); a search starts where the cursor stands and steps over used blocks. The
region is part of the one flat memory of the kernel, and headers are words in it.

The search of `FindBitMap` has no bound of its own. It gets fuel here, one unit for each address a
header can have: a search that runs out of it has come back to where it was and never ends.
-/

namespace NeKernel.Heap

open ByteStore

def kBitMapMagic : Nat := 0x10210
def kBitMapMaxSz : Nat := 4 * 1024 * 1024 * 1024
def kBitMapMagIdx : Nat := 0
def kBitMapSizeIdx : Nat := 1
def kBitMapUsedIdx : Nat := 2
def kBitMapSz : Nat := 3

/-- `__BIGGEST_ALIGNMENT__` of the target. -/
def kAlign : Nat := 16

/-- The memory and the globals of the allocator. `biggest` is the static of `FindBitMap`. -/
structure HeapState where
  mem : Store
  kKernelBitMpStart : Nat
  kKernelBitMpSize : Nat
  kBitMapCursor : Nat
  biggest : Nat

/-- `ptr_bit_set[idx]`. -/
def bitSet (m : Store) (ptr idx : Nat) : Nat := getLE m (ptr + 8 * idx) 8

/-- `ptr_bit_set[idx] = v`. -/
def setBitSet (m : Store) (ptr idx v : Nat) : Store := putLE m (ptr + 8 * idx) 8 v

/-- `IBitMapProxy::IsBitMap`. -/
def isBitMap (m : Store) (pagePtr : Nat) : Bool :=
  if pagePtr = 0 then false else bitSet m pagePtr kBitMapMagIdx = kBitMapMagic

/-- `IBitMapProxy::FreeBitMap`. -/
def freeBitMap (h : HeapState) (pagePtr : Nat) : Bool × HeapState :=
  if isBitMap h.mem pagePtr = false then (false, h)
  else
    let ptr := u64 (pagePtr + 2 ^ 64 - 8 * kBitMapSz)
    if ptr = 0 then (false, h)
    else if bitSet h.mem ptr kBitMapMagIdx ≠ kBitMapMagic then (false, h)
    else
      let size := bitSet h.mem ptr kBitMapSizeIdx
      (true, { h with
        kBitMapCursor := if h.kBitMapCursor ≥ size then h.kBitMapCursor - size else h.kBitMapCursor
        mem := setBitSet h.mem ptr kBitMapUsedIdx 0 })

/-- What a search does with the header it settles on, once its words are written. -/
def takeBitMap (h : HeapState) (mem : Store) (base size pad : Nat) : Nat × HeapState :=
  (u64 (base + 8 * kBitMapSz), { h with
    mem := mem
    biggest := if h.biggest < u64 (size + pad) then u64 (size + pad) else h.biggest
    kBitMapCursor := u64 (h.kBitMapCursor + (size + pad + kAlign)) })

/-- The loop of `FindBitMap`, from the header at `base` on. -/
def findBitMapLoop (h : HeapState) (size pad : Nat) : Nat → Nat → Option (Nat × HeapState)
  | 0, _ => none
  | fuel + 1, base =>
    if bitSet h.mem base kBitMapMagIdx = kBitMapMagic then
      if bitSet h.mem base kBitMapUsedIdx = 0 then
        let m := setBitSet h.mem base kBitMapSizeIdx (size + pad)
        let m := setBitSet m base kBitMapUsedIdx 1
        some (takeBitMap h m base size pad)
      else
        findBitMapLoop h size pad fuel (u64 (base + bitSet h.mem base kBitMapSizeIdx + kAlign))
    else
      if bitSet h.mem base kBitMapUsedIdx = 0 then
        let m := setBitSet h.mem base kBitMapMagIdx kBitMapMagic
        let m := setBitSet m base kBitMapSizeIdx (size + pad)
        let m := setBitSet m base kBitMapUsedIdx 1
        some (takeBitMap h m base size pad)
      else
        findBitMapLoop h size pad fuel (u64 (base + (size + pad) + kAlign))

/-- The number of addresses a header can have. -/
def searchFuel : Nat := 2 ^ 64

/-- `IBitMapProxy::FindBitMap`: `none` when the search never ends, address `0` when it is refused. -/
def findBitMap (h : HeapState) (basePtr size pad : Nat) : Option (Nat × HeapState) :=
  if size = 0 then some (0, h)
  else if size > kBitMapMaxSz then some (0, h)
  else findBitMapLoop h size pad searchFuel (u64 (basePtr + h.kBitMapCursor))

/-- `mm_alloc_bitmap`. The access flags `wr` and `user` are not used by the search. -/
def mmAllocBitmap (h : HeapState) (size : Nat) (isPage : Bool) (pad : Nat) : Option (Nat × HeapState) :=
  if isPage then some (0, h) else findBitMap h h.kKernelBitMpStart size pad

/-- `mm_free_bitmap`; `none` when its check stops the kernel. -/
def mmFreeBitmap (h : HeapState) (ptr : Nat) : Option (Bool × HeapState) :=
  if ptr = 0 then some (false, h)
  else
    let r := freeBitMap h ptr
    if r.1 then some r else none

/-! ## What a search does -/

variable {h h' : HeapState} {m : Store} {base size pad fuel va : Nat}

/-- A word of the header at `base` is written inside the header. -/
theorem onlyAt_setBitSet {idx v : Nat} (hi : idx < kBitMapSz) :
    OnlyAt m (setBitSet m base idx v) base 24 := by
  have : idx < 3 := hi
  exact OnlyAt.putLE (by omega) (by omega)

theorem bitSet_setBitSet_same {idx v : Nat} (hv : v < 2 ^ 64) :
    bitSet (setBitSet m base idx v) base idx = v := by
  rw [bitSet, setBitSet, getLE_putLE_same]
  exact Nat.mod_eq_of_lt hv

/-- A search that ends took a header whose used word was `0`: it marks it used, writes nothing but
the header and moves the cursor on. -/
theorem findBitMapLoop_cases (hl : findBitMapLoop h size pad fuel base = some (va, h')) :
    ∃ b mem, bitSet h.mem b kBitMapUsedIdx = 0 ∧ bitSet mem b kBitMapUsedIdx = 1 ∧
      OnlyAt h.mem mem b 24 ∧ (va, h') = takeBitMap h mem b size pad := by
  induction fuel generalizing base with
  | zero => cases hl
  | succ fuel ih =>
      unfold findBitMapLoop at hl
      split at hl
      · split at hl
        · next hused =>
            refine ⟨base, _, hused, bitSet_setBitSet_same (by decide), ?_, (Option.some.inj hl).symm⟩
            exact (onlyAt_setBitSet (by decide)).trans (onlyAt_setBitSet (by decide))
        · exact ih hl
      · split at hl
        · next hused =>
            refine ⟨base, _, hused, bitSet_setBitSet_same (by decide), ?_, (Option.some.inj hl).symm⟩
            exact ((onlyAt_setBitSet (by decide)).trans (onlyAt_setBitSet (by decide))).trans
              (onlyAt_setBitSet (by decide))
        · exact ih hl

/-- A header whose used word is `0` is taken at once, whatever its magic says. -/
theorem findBitMapLoop_unused (size pad : Nat) (hf : fuel ≠ 0) (hused : bitSet h.mem base kBitMapUsedIdx = 0) :
    ∃ mem, OnlyAt h.mem mem base 24 ∧
      findBitMapLoop h size pad fuel base = some (takeBitMap h mem base size pad) := by
  obtain ⟨fuel, rfl⟩ := Nat.exists_eq_succ_of_ne_zero hf
  simp only [findBitMapLoop, hused, ↓reduceIte]
  split
  · exact ⟨_, (onlyAt_setBitSet (by decide)).trans (onlyAt_setBitSet (by decide)), rfl⟩
  · exact ⟨_, ((onlyAt_setBitSet (by decide)).trans (onlyAt_setBitSet (by decide))).trans
      (onlyAt_setBitSet (by decide)), rfl⟩

end NeKernel.Heap
