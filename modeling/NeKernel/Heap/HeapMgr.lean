import NeKernel.Heap.BitMapMgr
import NeKernel.NeKit.Crc32

/-!
# The heap manager

`mm_alloc_ptr` and `mm_free_ptr` over the bitmap allocator, and the operations on the information
block that sits in front of every pointer they hand out. The information block is packed and is
read and written in place, field by field. Its layout is that of the mingw builds: bit-fields of
different types share no unit there.

A `Bool` argument of C is a Lean `Bool`; pointers are addresses. The lock around an allocation is
never seen taken by a single caller and is left out, as is the log.
-/

namespace NeKernel.Heap

open ByteStore

def kHeapMgrMagic : Nat := 0xD4D75
def kHeapMgrAlignSz : Nat := 4

/-- `sizeof(MM_INFORMATION_BLOCK)`. -/
def infoSz : Nat := 35

def kHeapMgrHdrSz : Nat := infoSz * 2

/-! ## The fields of `MM_INFORMATION_BLOCK`, by offset

`fMagic` takes the low 24 bits of the first word; the four flags are of another type and begin a byte
of their own. -/

def fMagic : Nat := 0
def fBits : Nat := 4
def fCRC32 : Nat := 5
def fFlags : Nat := 9
def fSize : Nat := 11
def fOffset : Nat := 19
def fPad : Nat := 27
def fPadding : Nat := 31

/-- The bit numbers of the flags in their byte. -/
def fPresent : Nat := 0
def fWriteRead : Nat := 1
def fUser : Nat := 2
def fPage : Nat := 3

def getMagic (m : Store) (info : Nat) : Nat := getLE m (info + fMagic) 3

def getBit (m : Store) (info bit : Nat) : Bool := (m (info + fBits)).toNat.testBit bit

/-- Set one of the flags and keep the other bits of their byte. -/
def setBit (m : Store) (info bit : Nat) (b : Bool) : Store :=
  let mask := UInt8.ofNat (2 ^ bit)
  blit m (info + fBits) 1 fun _ =>
    if b then m (info + fBits) ||| mask else m (info + fBits) &&& ~~~ mask

/-- `mm_check_ptr_address`. -/
def mmCheckPtrAddress (m : Store) (heapPtr : Nat) : Bool :=
  if heapPtr = 0 then false
  else if heapPtr ≤ kHeapMgrHdrSz then false
  else if isBitMap m (heapPtr - kHeapMgrHdrSz) = false then false
  else
    let info := heapPtr - infoSz
    getMagic m info = kHeapMgrMagic && getBit m info fPresent

/-- `PageMgr::Request`, down to the address its wrapper holds. -/
def pageMgrRequest (h : HeapState) (sz pad : Nat) : Option (Nat × HeapState) :=
  mmAllocBitmap h sz false pad

/-- The information block `mm_alloc_ptr` writes at `info`. -/
def registerBlock (m : Store) (info szFix : Nat) (wr user : Bool) (padAmount : Nat) : Store :=
  let m := putLE m (info + fSize) 8 szFix
  let m := putLE m (info + fMagic) 3 kHeapMgrMagic
  let m := putLE m (info + fCRC32) 4 0
  let m := putLE m (info + fOffset) 8 (info + infoSz)
  let m := setBit m info fPage false
  let m := setBit m info fWriteRead wr
  let m := setBit m info fUser user
  let m := setBit m info fPresent true
  let m := putLE m (info + fPad) 4 padAmount
  fill m (info + fPadding) kHeapMgrAlignSz 0

/-- `mm_alloc_ptr`. -/
def mmAllocPtr (h : HeapState) (sz : Nat) (wr user : Bool) (padAmount : Nat) :
    Option (Nat × HeapState) :=
  if sz = 0 then some (0, h)
  else
    let szFix := u64 (sz + kHeapMgrHdrSz)
    (pageMgrRequest h szFix padAmount).map fun r =>
      let info := u64 (r.1 + infoSz)
      let m := registerBlock r.2.mem info szFix wr user padAmount
      (getLE m (info + fOffset) 8, { r.2 with mem := m })

/-- The stores `mm_free_ptr` makes to the information block at `info`. -/
def clearBlock (m : Store) (info : Nat) : Store :=
  let m := putLE m (info + fSize) 8 0
  let m := setBit m info fPresent false
  let m := putLE m (info + fOffset) 8 0
  let m := putLE m (info + fCRC32) 4 0
  let m := setBit m info fWriteRead false
  let m := setBit m info fUser false
  putLE m (info + fPad) 4 0

/-- `mm_free_ptr`; `none` when it stops the kernel. -/
def mmFreePtr (h : HeapState) (heapPtr : Nat) : Option (Int × HeapState) :=
  if heapPtr = 0 then some (kErrorHeapNotPresent, h)
  else if heapPtr ≤ kHeapMgrHdrSz then some (kErrorHeapNotPresent, h)
  else
    let basePtr := heapPtr - kHeapMgrHdrSz
    if isBitMap h.mem basePtr = false then some (kErrorHeapNotPresent, h)
    else
      let info := heapPtr - infoSz
      if getMagic h.mem info ≠ kHeapMgrMagic then some (kErrorHeapNotPresent, h)
      else if getBit h.mem info fPresent = false then none
      else
        (mmFreeBitmap { h with mem := clearBlock h.mem info } basePtr).map fun r =>
          (kErrorSuccess, r.2)

/-- `mm_is_valid_ptr`. -/
def mmIsValidPtr (m : Store) (heapPtr : Nat) : Bool := mmCheckPtrAddress m heapPtr

/-- `mm_ctl_page`. -/
def mmCtlPage (m : Store) (heapPtr : Nat) (enable : Bool) : Int × Store :=
  if mmCheckPtrAddress m heapPtr = false then (kErrorHeapNotPresent, m)
  else
    let info := heapPtr - infoSz
    if info = 0 then (kErrorHeapNotPresent, m) else (kErrorSuccess, setBit m info fPage enable)

/-- `mm_set_ptr_flags`. -/
def mmSetPtrFlags (m : Store) (heapPtr flags : Nat) : Int × Store :=
  if mmCheckPtrAddress m heapPtr = false then (kErrorHeapNotPresent, m)
  else
    let info := heapPtr - infoSz
    if info = 0 then (kErrorHeapNotPresent, m)
    else (kErrorSuccess, putLE m (info + fFlags) 2 flags)

/-- `mm_protect_ptr`. -/
def mmProtectPtr (m : Store) (heapPtr : Nat) : Bool × Store :=
  if heapPtr ≠ 0 then
    let info := u64 (heapPtr + 2 ^ 64 - infoSz)
    if info ≠ 0 ∧ getBit m info fPresent ∧ kHeapMgrMagic = getMagic m info then
      (true, putLE m (info + fCRC32) 4 (keCalculateCrc32 (slice m info) infoSz).toNat)
    else (false, m)
  else (false, m)

/-! ## What an allocation does -/

variable {h h' : HeapState} {m : Store} {info szFix sz pad padAmount p base : Nat} {wr user : Bool}

theorem onlyAt_setBit {bit : Nat} {b : Bool} : OnlyAt m (setBit m info bit b) info infoSz := by
  simp only [setBit, infoSz, fBits]
  exact OnlyAt.blit (by omega) (by omega)

theorem onlyAt_putField (off n v : Nat) (hoff : off + n ≤ infoSz) :
    OnlyAt m (putLE m (info + off) n v) info infoSz := OnlyAt.putLE (by omega) (by omega)

/-- Registering a block writes its information block and nothing else. -/
theorem onlyAt_registerBlock : OnlyAt m (registerBlock m info szFix wr user pad) info infoSz := by
  unfold registerBlock
  refine .trans ?_ (OnlyAt.blit (Nat.le_add_right _ _) (Nat.le_refl (info + 35)))
  refine .trans ?_ (onlyAt_putField fPad 4 _ (by decide))
  refine .trans (.trans (.trans (.trans ?_ onlyAt_setBit) onlyAt_setBit) onlyAt_setBit) onlyAt_setBit
  refine .trans ?_ (onlyAt_putField fOffset 8 _ (by decide))
  refine .trans ?_ (onlyAt_putField fCRC32 4 _ (by decide))
  refine .trans ?_ (onlyAt_putField fMagic 3 _ (by decide))
  exact onlyAt_putField fSize 8 _ (by decide)

/-- The pointer handed out is the address right behind the information block. -/
theorem registerBlock_fOffset :
    getLE (registerBlock m info szFix wr user pad) (info + fOffset) 8 = u64 (info + infoSz) := by
  simp only [registerBlock, setBit, fill, fOffset, fPadding, fPad, fBits, kHeapMgrAlignSz]
  rw [getLE_blit_of_disjoint (by omega), getLE_putLE_of_disjoint (by omega),
    getLE_blit_of_disjoint (by omega), getLE_blit_of_disjoint (by omega),
    getLE_blit_of_disjoint (by omega), getLE_blit_of_disjoint (by omega), getLE_putLE_same]
  rfl

/-- An allocation that returns took a header somewhere whose used word was `0` and left it at `1`,
or was refused by the search and returned the end of an information block at address `35`. -/
theorem mmAllocPtr_cases (hsz : sz ≠ 0) (ha : mmAllocPtr h sz wr user pad = some (p, h')) :
    p = 2 * infoSz ∨ ∃ b, bitSet h.mem b kBitMapUsedIdx = 0 ∧ bitSet h'.mem b kBitMapUsedIdx = 1 := by
  rw [mmAllocPtr, if_neg hsz] at ha
  simp only [Option.map_eq_some_iff, Prod.mk.injEq] at ha
  obtain ⟨⟨va, h₁⟩, hreq, rfl, rfl⟩ := ha
  have hrefused : va = 0 → getLE (registerBlock h₁.mem (u64 (va + infoSz))
      (u64 (sz + kHeapMgrHdrSz)) wr user pad) (u64 (va + infoSz) + fOffset) 8 = 2 * infoSz := by
    rintro rfl
    rw [registerBlock_fOffset]
    decide
  simp only [pageMgrRequest, mmAllocBitmap, findBitMap, Bool.false_eq_true, ↓reduceIte] at hreq
  split at hreq
  · cases hreq
    exact .inl (hrefused rfl)
  · split at hreq
    · cases hreq
      exact .inl (hrefused rfl)
    · obtain ⟨b, mem, h0, h1, -, htake⟩ := findBitMapLoop_cases hreq
      simp only [takeBitMap, kBitMapSz, Prod.mk.injEq] at htake
      obtain ⟨rfl, rfl⟩ := htake
      refine .inr ⟨b, h0, ?_⟩
      -- the information block starts 59 bytes behind the header, modulo 2 ^ 64
      have hne : b + 8 * kBitMapUsedIdx + 8 ≤ u64 (u64 (b + 8 * 3) + infoSz) ∨
          u64 (u64 (b + 8 * 3) + infoSz) + infoSz ≤ b + 8 * kBitMapUsedIdx := by
        simp only [u64, kBitMapUsedIdx, infoSz]
        omega
      rw [bitSet, onlyAt_registerBlock.getLE_eq hne]
      exact h1

/-- **An allocation that fits** takes the header at the cursor, when its used word is `0`: it
writes that header and an information block 59 bytes on, and hands out the bytes behind. -/
theorem mmAllocPtr_fits (wr user : Bool) (hsz : sz ≠ 0) (hmax : sz + kHeapMgrHdrSz ≤ kBitMapMaxSz)
    (hbase : h.kKernelBitMpStart + h.kBitMapCursor = base)
    (hfit : base + 94 + sz + pad ≤ 2 ^ 64) (hused : bitSet h.mem base kBitMapUsedIdx = 0) :
    ∃ h', mmAllocPtr h sz wr user pad = some (base + 94, h') ∧
      h'.kKernelBitMpStart = h.kKernelBitMpStart ∧ h'.kKernelBitMpSize = h.kKernelBitMpSize ∧
      h'.kBitMapCursor = h.kBitMapCursor + (86 + sz + pad) ∧
      ∀ x, x < base ∨ base + 24 ≤ x → x < base + 59 ∨ base + 94 ≤ x → h'.mem x = h.mem x := by
  have hszFix : u64 (sz + kHeapMgrHdrSz) = sz + 70 := by
    apply u64_of_lt
    simp only [kHeapMgrHdrSz, infoSz]
    omega
  have hle : ¬ sz + 70 > kBitMapMaxSz := by
    simp only [kHeapMgrHdrSz, infoSz] at hmax
    omega
  obtain ⟨mem, hmem, hloop⟩ :=
    findBitMapLoop_unused (sz + 70) pad (show searchFuel ≠ 0 by decide) hused
  have hreq : pageMgrRequest h (sz + 70) pad = some (takeBitMap h mem base (sz + 70) pad) := by
    rw [pageMgrRequest, mmAllocBitmap, if_neg (by decide), findBitMap, if_neg (by omega),
      if_neg hle, hbase, u64_of_lt (by omega)]
    exact hloop
  -- no sum of the allocation wraps
  have hva : u64 (base + 8 * kBitMapSz) = base + 24 := u64_of_lt (by simp only [kBitMapSz]; omega)
  have hinfo : u64 (base + 24 + infoSz) = base + 59 := u64_of_lt (by simp only [infoSz]; omega)
  have hptr : u64 (base + 59 + infoSz) = base + 94 := u64_of_lt (by simp only [infoSz]; omega)
  have hcur : u64 (h.kBitMapCursor + (sz + 70 + pad + kAlign)) =
      h.kBitMapCursor + (86 + sz + pad) := by
    rw [u64_of_lt (by simp only [kAlign]; omega)]
    simp only [kAlign]
    omega
  refine ⟨{ (takeBitMap h mem base (sz + 70) pad).2 with
    mem := registerBlock mem (base + 59) (sz + 70) wr user pad }, ?_, rfl, rfl, hcur, ?_⟩
  · rw [mmAllocPtr, if_neg hsz]
    simp only [hszFix, hreq, Option.map_some, takeBitMap, hva, hinfo, registerBlock_fOffset, hptr]
  · intro x hx₁ hx₂
    show registerBlock mem (base + 59) (sz + 70) wr user pad x = h.mem x
    rw [onlyAt_registerBlock x (by simp only [infoSz]; omega)]
    exact hmem x hx₁

/-- A pointer whose bitmap header is not where `mm_check_ptr_address` looks for it is invalid, and
freeing it is refused. -/
theorem refused_of_notBitMap (hp : isBitMap h.mem (p - kHeapMgrHdrSz) = false) :
    mmCheckPtrAddress h.mem p = false ∧ mmFreePtr h p = some (kErrorHeapNotPresent, h) := by
  constructor
  · simp only [mmCheckPtrAddress, hp, ↓reduceIte, ite_self]
  · simp only [mmFreePtr, hp, ↓reduceIte, ite_self]

/-- Protecting a pointer writes inside its information block. -/
theorem onlyAt_mmProtectPtr (hp : infoSz ≤ p) (hlt : p < 2 ^ 64) :
    OnlyAt m (mmProtectPtr m p).2 (p - infoSz) infoSz := by
  have hinfo : u64 (p + 2 ^ 64 - infoSz) = p - infoSz := by
    simp only [u64, infoSz] at *
    omega
  unfold mmProtectPtr
  split
  · simp only [hinfo]
    split
    · exact onlyAt_putField fCRC32 4 _ (by decide)
    · exact .refl
  · exact .refl

/-! ## What a free does -/

/-- In front of `p` lies what a free takes for an allocated block. -/
def LooksAllocated (m : Store) (p : Nat) : Prop :=
  mmCheckPtrAddress m p = true ∧
    bitSet m (p - kHeapMgrHdrSz - 8 * kBitMapSz) kBitMapMagIdx = kBitMapMagic

instance (m : Store) (p : Nat) : Decidable (LooksAllocated m p) := by
  unfold LooksAllocated
  infer_instance

/-- The bytes in front of `p` that a free sets to zero: the used word of the bitmap header, and the
checksum, the size, the offset and the padding amount of the information block. -/
def Cleared (p x : Nat) : Prop :=
  (p - 78 ≤ x ∧ x < p - 70) ∨ (p - 30 ≤ x ∧ x < p - 26) ∨ (p - 24 ≤ x ∧ x < p - 4)

instance (p x : Nat) : Decidable (Cleared p x) := by
  unfold Cleared
  infer_instance

/-- The byte of the flags, of which a free clears three. -/
def flagByte (p : Nat) : Nat := p - infoSz + fBits

/-- What a free of `p` makes of the byte `b` at `x`. -/
def freedByte (p x : Nat) (b : UInt8) : UInt8 :=
  if Cleared p x then 0 else if x = flagByte p then b &&& 0xF8 else b

theorem leBytes_zero (i : Nat) : leBytes 0 i = 0 := by
  rw [leBytes, Nat.zero_div]
  rfl

end NeKernel.Heap
