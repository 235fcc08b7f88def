import NeKernel.HALKit.PhysicalMemory

/-!
# Page tables

The functions that build, walk and change the page tables of a four-level address space:
`mm_init_kernel_tables`, `mm_get_page_addr`, `mm_walk_page`, `mm_map_page_in` and `mm_unmap_page`.
Tables live in physical memory, which the kernel reaches under the same addresses.

A call that allocates is given the answers `pmmi_alloc_frame` will give it, in order; an answer of
`0` and the end of the list both stand for an exhausted allocator. Flushing the translation cache
and the accessed and dirty bits the processor sets by itself are not modelled.
-/

namespace NeKernel.HALKit

open ByteStore

def kEntries : Nat := 512
def kMask9 : Nat := 0x1FF
def kPageMask : Nat := 0xFFF

/-- `~kPageMask`. -/
def kTableMask : Nat := 0xFFFFFFFFFFFFF000

def kPageSizeBit : Nat := 0x80
def kAddrMask : Nat := 0x000FFFFFFFFFF000
def kGiBOffset : Nat := 2 ^ 30 - 1

/-- `~kGiBOffset`. -/
def kGiBMask : Nat := 0xFFFFFFFFC0000000

def kLargeOffset : Nat := 2 ^ 21 - 1

/-- `~kLargeOffset`. -/
def kLargeMask : Nat := 0xFFFFFFFFFFE00000

def kMMFlagsPresent : Nat := 1 <<< 1
def kMMFlagsWr : Nat := 1 <<< 2
def kMMFlagsUser : Nat := 1 <<< 3
def kMMFlagsNX : Nat := 1 <<< 4
def kMMFlagsPCD : Nat := 1 <<< 5
def kMMFlagsPwt : Nat := 1 <<< 6

/-- Physical memory and the answers the frame allocator still has for this call. -/
structure Phys where
  mem : Store
  answers : List Nat

/-- `pmmi_alloc_frame`: the next answer, zeroed when it is a frame. -/
def nextFrame (p : Phys) : Nat × Phys :=
  match p.answers with
  | [] => (0, p)
  | f :: fs => if f = 0 then (0, ⟨p.mem, fs⟩) else (f, ⟨fill p.mem f kPageSize 0, fs⟩)

/-- The entry of `table` that a shift selects for an address. -/
def cell (table va shift : Nat) : Nat := table + 8 * ((va >>> shift) &&& kMask9)

/-! ## Reading -/

/-- `mm_get_page_addr` with `cr3` as the root. -/
def mmGetPageAddr (m : Store) (cr3 virt : Nat) : Nat :=
  let pml4e := getLE m (cell (cr3 &&& kTableMask) virt 39) 8
  if pml4e &&& 1 = 0 then 0
  else
    let pdpte := getLE m (cell (pml4e &&& kTableMask) virt 30) 8
    if pdpte &&& 1 = 0 then 0
    else if pdpte &&& kPageSizeBit ≠ 0 then
      (pdpte &&& kAddrMask &&& kGiBMask) ||| (virt &&& kGiBOffset)
    else
      let pde := getLE m (cell (pdpte &&& kTableMask) virt 21) 8
      if pde &&& 1 = 0 then 0
      else if pde &&& kPageSizeBit ≠ 0 then
        (pde &&& kAddrMask &&& kLargeMask) ||| (virt &&& kLargeOffset)
      else
        let pte := getLE m (cell (pde &&& kTableMask) virt 12) 8
        if pte &&& 1 = 0 then 0 else (pte &&& kAddrMask) ||| (virt &&& kPageMask)

/-! ## Building the kernel's tables -/

/-- `kTablePerm` of `mm_init_kernel_tables`: present and writable. -/
def kInitTablePerm : Nat := 0x3

/-- `kLeafPerm`: present, writable and a large page. -/
def kLeafPerm : Nat := 0x83

def kLargePage : Nat := 0x200000
def kGiB : Nat := 0x40000000

/-- The table under the first entry, allocated when it is not there yet. -/
def ensureTable (p : Phys) (c : Nat) : Bool × Phys :=
  if getLE p.mem c 8 &&& 1 = 0 then
    let r := nextFrame p
    if r.1 = 0 then (false, r.2)
    else (true, ⟨putLE r.2.mem c 8 (r.1 ||| kInitTablePerm), r.2.answers⟩)
  else (true, p)

/-- The body of the loop of `mm_init_kernel_tables`; `false` when a frame is missing. -/
def initGiB (p : Phys) (pml4 base : Nat) : Bool × Phys :=
  let c := cell pml4 base 39
  let r := ensureTable p c
  if r.1 = false then r
  else
    let pdpt := getLE r.2.mem c 8 &&& kTableMask
    let r := nextFrame r.2
    if r.1 = 0 then (false, r.2)
    else
      let m := putLE r.2.mem (cell pdpt base 30) 8 (r.1 ||| kInitTablePerm)
      (true, ⟨putWords m r.1 8 (fun i => (base + i * kLargePage) ||| kLeafPerm) kEntries,
        r.2.answers⟩)

/-- The loop of `mm_init_kernel_tables`; `none` when it never ends. -/
def initLoop (pml4 limit : Nat) : Nat → Nat → Phys → Option (Bool × Phys)
  | 0, _, _ => none
  | fuel + 1, base, p =>
    if base < limit then
      let r := initGiB p pml4 base
      if r.1 = false then some r else initLoop pml4 limit fuel (u64 (base + kGiB)) r.2
    else some (true, p)

/-- One more than the number of bases the loop can see. -/
def initFuel : Nat := 2 ^ 34 + 1

/-- `mm_init_kernel_tables`: the root, `0` on failure. -/
def mmInitKernelTables (p : Phys) (limit : Nat) : Option (Nat × Phys) :=
  let r := nextFrame p
  if r.1 = 0 then some (0, r.2)
  else (initLoop r.1 limit initFuel 0 r.2).map fun l => (if l.1 then r.1 else 0, l.2)

/-! ## Walking and mapping -/

/-- `kTablePerm` of `mm_walk_page`: present, writable and user. -/
def kTablePerm : Nat := 0x7

/-- The entries a large page of the given shift is split into. -/
def splitEntry (entry shift i : Nat) : Nat :=
  let step := 2 ^ shift
  let base := entry &&& (2 ^ 64 - step)
  let perm := (entry &&& 0x1F) ||| (entry &&& 0x100) ||| (entry &&& 1 <<< 63)
  (base + i * (step >>> 9)) ||| perm ||| (if shift > 21 then kPageSizeBit else 0)

/-- One level of `mm_walk_page`: the table below the entry at `c`, `none` when the walk stops. -/
def walkLevel (p : Phys) (c shift : Nat) (alloc : Bool) : Option Nat × Phys :=
  let entry := getLE p.mem c 8
  if entry &&& 1 = 0 then
    if alloc = false then (none, p)
    else
      let r := nextFrame p
      if r.1 = 0 then (none, r.2)
      else
        let m := putLE r.2.mem c 8 (r.1 ||| kTablePerm)
        (some (getLE m c 8 &&& kTableMask), ⟨m, r.2.answers⟩)
  else if entry &&& kPageSizeBit ≠ 0 then
    if alloc = false then (none, p)
    else
      let r := nextFrame p
      if r.1 = 0 then (none, r.2)
      else
        -- the entry is read again, behind the zeroing of the new frame
        let entry := getLE r.2.mem c 8
        let m := putWords r.2.mem r.1 8 (splitEntry entry shift) kEntries
        let m := putLE m c 8 (r.1 ||| kTablePerm)
        (some (getLE m c 8 &&& kTableMask), ⟨m, r.2.answers⟩)
  else
    let m := putLE p.mem c 8 (entry ||| kTablePerm)
    (some (getLE m c 8 &&& kTableMask), ⟨m, p.answers⟩)

/-- The levels of `mm_walk_page` from `table` on: the last table, `none` when the walk stops. -/
def walkLevels (va : Nat) (alloc : Bool) : List Nat → Phys → Nat → Option Nat × Phys
  | [], p, table => (some table, p)
  | shift :: shifts, p, table =>
    match walkLevel p (cell table va shift) shift alloc with
    | (none, p) => (none, p)
    | (some table, p) => walkLevels va alloc shifts p table

/-- The shifts of the loop of `mm_walk_page`. -/
def walkShifts : List Nat := [39, 30, 21]

/-- `mm_walk_page`: the address of the last entry, `none` for `nullptr`. -/
def mmWalkPage (p : Phys) (root va : Nat) (alloc : Bool) : Option Nat × Phys :=
  if root = 0 then (none, p)
  else
    let r := walkLevels va alloc walkShifts p (root &&& kTableMask)
    (r.1.map fun table => cell table va 12, r.2)

/-- `!!(flags & flag)` as a bit. -/
def flagBit (flags flag : Nat) : Nat := if flags &&& flag ≠ 0 then 1 else 0

/-- The entry `mm_map_page_in` fills in, field by field from zero. -/
def pteWord (physicalAddress flags : Nat) : Nat :=
  flagBit flags kMMFlagsPresent + flagBit flags kMMFlagsWr * 2 ^ 1 +
    flagBit flags kMMFlagsUser * 2 ^ 2 + flagBit flags kMMFlagsPwt * 2 ^ 3 +
    flagBit flags kMMFlagsPCD * 2 ^ 4 + (physicalAddress >>> 12) % 2 ^ 40 * 2 ^ 12 +
    flagBit flags kMMFlagsNX * 2 ^ 63

/-- `mm_map_page_in`. -/
def mmMapPageIn (p : Phys) (root virtualAddress physicalAddress flags : Nat) : Int × Phys :=
  if physicalAddress = 0 then (kErrorInvalidData, p)
  else if physicalAddress &&& (kPageSize - 1) ≠ 0 then (kErrorInvalidData, p)
  else
    match mmWalkPage p root virtualAddress true with
    | (none, p) => (kErrorInvalidData, p)
    | (some slot, p) =>
      (kErrorSuccess, ⟨putLE p.mem slot 8 (pteWord physicalAddress flags), p.answers⟩)

/-- `mm_unmap_page` with `cr3` as the root: the frame the page was mapped to, `0` when there was
none. -/
def mmUnmapPage (p : Phys) (cr3 virtualAddress : Nat) : Nat × Phys :=
  match mmWalkPage p cr3 virtualAddress false with
  | (none, p) => (0, p)
  | (some slot, p) =>
    if getLE p.mem slot 8 &&& 1 = 0 then (0, p)
    else (getLE p.mem slot 8 &&& kAddrMask, ⟨putLE p.mem slot 8 0, p.answers⟩)

end NeKernel.HALKit
