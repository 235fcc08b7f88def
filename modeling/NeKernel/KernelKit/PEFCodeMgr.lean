import NeKernel.FSKit.NeFS
import NeKernel.KernelKit.SymbolFree

/-!
# The PEF loader

`PEFLoader` on a blob in memory: the constructor's check, `pef_find_section`, `pef_load_section`,
`FindSymbol`, and the loads that `rtl_create_user_process` makes. What is past the end of the blob is
whatever the memory holds there.
-/

namespace NeKernel.KernelKit

open ByteStore HALKit
open NeFS (charsAt)

/-! ## Sections -/

/-- `pef_magic_eq`. -/
def pefMagicEq (magic : Store) (want : List UInt8) : Bool :=
  (List.range (kPefMagicLen - 1)).all fun i => magic i == want.getD i 0

/-- `pef_name_eq`. -/
def pefNameEq (field : Store) (want : List UInt8) : Bool :=
  (charsAt field 0 kPefNameLen).length < kPefNameLen && charsAt field 0 kPefNameLen == want

/-- The prefix of a kind in `pef_make_name`. -/
def kindPrefix (kind : Nat) : Option (List UInt8) :=
  if kind = kPefCode then some kCodePrefix
  else if kind = kPefData then some kDataPrefix
  else if kind = kPefZero then some kZeroPrefix
  else none

/-- `pef_make_name` into a buffer of `kPefNameLen` bytes. -/
def pefMakeName (kind : Nat) (name : List UInt8) : Option (List UInt8) :=
  (kindPrefix kind).bind fun pre =>
    if name.length ≥ kPefNameLen - pre.length then none
    else some (pre ++ name.map fun c => if c = 0x20 then 0x24 else c)

/-- `pef_read_container` of a blob that is there. -/
def pefReadContainer (blob : Store) (len : Nat) : Bool :=
  PEFContainer.size ≤ len && (pefMagicEq blob kPefMagic || pefMagicEq blob kPefMagicFat) &&
    PEFContainer.abi.get blob == kPefAbi && 1 ≤ PEFContainer.count.get blob &&
    PEFContainer.count.get blob ≤ kPefMaxSections &&
    PEFContainer.count.get blob ≤ (len - PEFContainer.size) / PEFCommandHeader.size

/-- The checks of `pef_find_section` on a header of the right name and kind. -/
def SectionOk (len tableSz : Nat) (isFat : Bool) (out : Store) : Prop :=
  (PEFCommandHeader.cpu.get out = kPefArchAMD64 ∨ isFat = true) ∧
  1 ≤ PEFCommandHeader.vmSize.get out ∧ PEFCommandHeader.vmSize.get out ≤ kPefMaxImageSz ∧
  kPefBaseOrigin ≤ PEFCommandHeader.vmAddress.get out ∧
  PEFCommandHeader.vmAddress.get out - kPefBaseOrigin ≤
    kPefMaxImageSz - PEFCommandHeader.vmSize.get out ∧
  PEFCommandHeader.offsetSize.get out ≤ PEFCommandHeader.vmSize.get out ∧
  (PEFCommandHeader.offsetSize.get out > 0 →
    PEFCommandHeader.offset.get out ≤ len ∧
    PEFCommandHeader.offsetSize.get out ≤ len - PEFCommandHeader.offset.get out ∧
    PEFContainer.size + tableSz ≤ PEFCommandHeader.offset.get out)

instance (len tableSz : Nat) (isFat : Bool) (out : Store) :
    Decidable (SectionOk len tableSz isFat out) := by
  unfold SectionOk
  infer_instance

/-- The `i`-th header behind the container. -/
def headerAt (blob : Store) (i : Nat) : Store :=
  slice blob (PEFContainer.size + i * PEFCommandHeader.size)

/-- The loop of `pef_find_section`, from header `i` on: the first of the name and kind decides. -/
def pefFindFrom (blob : Store) (len : Nat) (name : List UInt8) (kind : Nat) :
    Nat → Nat → Option Store
  | 0, _ => none
  | n + 1, i =>
    let out := headerAt blob i
    if PEFCommandHeader.kind.get out ≠ kind ∨ pefNameEq out name = false then
      pefFindFrom blob len name kind n (i + 1)
    else if SectionOk len (PEFContainer.count.get blob * PEFCommandHeader.size)
        (pefMagicEq blob kPefMagicFat) out then some out
    else none

/-- `pef_find_section`. -/
def pefFindSection (blob : Store) (len : Nat) (name : List UInt8) (kind : Nat) : Option Store :=
  if pefReadContainer blob len then
    pefFindFrom blob len name kind (PEFContainer.count.get blob) 0
  else none

/-- The pages of a section. -/
def sectionPages (hdr : Store) : Nat := pageCount (PEFCommandHeader.vmSize.get hdr)

/-- `pef_load_section`; `src` is `none` for a null source. -/
def pefLoadSection (root : Nat) (hdr : Store) (src : Option Store) (s : Machine) :
    Outcome × Machine :=
  match src with
  | none => (.returned kErrorInvalidData 0, s)
  | some src =>
    let r := mapImage root (PEFCommandHeader.vmAddress.get hdr) (sectionPages hdr) s
    if r.1 = false then (.returned kErrorHeapOutOfMemory 0, r.2)
    else
      let c :=
        if PEFCommandHeader.offsetSize.get hdr > 0 then
          rtCopyMemorySafe root r.2 src (PEFCommandHeader.vmAddress.get hdr)
            (PEFCommandHeader.offsetSize.get hdr) (PEFCommandHeader.vmSize.get hdr)
        else (true, r.2)
      if c.1 = false then (.fault, c.2)
      else (.returned kErrorSuccess (PEFCommandHeader.vmAddress.get hdr), c.2)

/-! ## The loader -/

/-- A loader on a blob in memory. -/
structure PEFLoader where
  blob : Store
  len : Nat
  fBad : Bool

/-- The five characters of a magic, its terminator included. -/
def fullMagicEq (blob : Store) (want : List UInt8) : Bool := pefMagicEq blob want && blob 4 == 0

/-- `PEFLoader::PEFLoader` on a blob that is there. -/
def pefLoader (blob : Store) (len : Nat) : PEFLoader where
  blob := blob
  len := len
  fBad := !(PEFContainer.abi.get blob == kPefAbi && 3 ≤ PEFContainer.count.get blob &&
    (PEFContainer.cpu.get blob == kPefArchAMD64 && fullMagicEq blob kPefMagic ||
      fullMagicEq blob kPefMagicFat))

/-- The header `FindSymbol` loads for a name and a kind, if it finds one. -/
def PEFLoader.section? (exec : PEFLoader) (name : List UInt8) (kind : Nat) : Option Store :=
  if exec.fBad = true ∨ exec.len = 0 then none
  else (pefMakeName kind name).bind fun sect => pefFindSection exec.blob exec.len sect kind

/-- The file bytes of a section, `none` for a null source. -/
def PEFLoader.source (exec : PEFLoader) (hdr : Store) : Option Store :=
  if PEFCommandHeader.offsetSize.get hdr > 0 then
    some (slice exec.blob (PEFCommandHeader.offset.get hdr))
  else none

/-- `PEFLoader::FindSymbol`. -/
def findSymbol (root : Nat) (exec : PEFLoader) (name : List UInt8) (kind : Nat) (s : Machine) :
    Outcome × Machine :=
  match exec.section? name kind with
  | none => (.returned kErrorInvalidData 0, s)
  | some hdr => pefLoadSection root hdr (exec.source hdr) s

/-- `PEFLoader::FindStart`: a symbol is there when its address is not null. -/
def PEFLoader.findStart (root : Nat) (exec : PEFLoader) (s : Machine) : Outcome × Machine :=
  match findSymbol root exec kPefStart kPefCode s with
  | (.fault, s) => (.fault, s)
  | (.returned code sym, s) =>
    if sym ≠ 0 then (.returned code sym, s) else (.returned kErrorExecutable 0, s)

/-! ## `rtl_create_user_process` -/

/-- How far `Spawn` comes: whether it maps the start and the stack pointer `sp`, and whether it
returns a process. -/
structure SpawnEnd where
  sp : Option Nat
  spawned : Bool

/-- `UserProcessScheduler::Spawn`, as far as pages are concerned. -/
def spawn (root code : Nat) (e : SpawnEnd) (s : Machine) : Machine :=
  match e.sp with
  | none => s
  | some sp => remapPage root sp (remapPage root code s)

variable {blob hdr : Store} {len kind n i : Nat} {name : List UInt8} {exec : PEFLoader}

/-- What is found has passed the checks. -/
theorem pefFindFrom_ok (h : pefFindFrom blob len name kind n i = some hdr) :
    SectionOk len (PEFContainer.count.get blob * PEFCommandHeader.size)
      (pefMagicEq blob kPefMagicFat) hdr := by
  induction n generalizing i with
  | zero => cases h
  | succ n ih =>
      rw [pefFindFrom] at h
      split at h
      · exact ih h
      · split at h
        · next hok =>
            cases h
            exact hok
        · cases h

theorem PEFLoader.section_ok (h : exec.section? name kind = some hdr) :
    ∃ tableSz isFat, SectionOk exec.len tableSz isFat hdr := by
  unfold PEFLoader.section? at h
  split at h
  · cases h
  · obtain ⟨sect, -, hfind⟩ := Option.bind_eq_some_iff.mp h
    unfold pefFindSection at hfind
    split at hfind
    · exact ⟨_, _, pefFindFrom_ok hfind⟩
    · cases hfind

/-- The bytes of a section, in its memory and in its pages. -/
structure InWindow (hdr : Store) : Prop where
  base : kPefBaseOrigin ≤ PEFCommandHeader.vmAddress.get hdr
  fin : PEFCommandHeader.vmAddress.get hdr + PEFCommandHeader.vmSize.get hdr ≤
    kPefBaseOrigin + kPefMaxImageSz
  some_bytes : 1 ≤ PEFCommandHeader.vmSize.get hdr
  file_le : PEFCommandHeader.offsetSize.get hdr ≤ PEFCommandHeader.vmSize.get hdr

/-- **A section that is accepted lies in the image window.** -/
theorem PEFLoader.section_inWindow (h : exec.section? name kind = some hdr) : InWindow hdr := by
  obtain ⟨tableSz, isFat, -, hmin, hmax, hbase, hroom, hfile, -⟩ := PEFLoader.section_ok h
  exact ⟨hbase, by omega, hmin, hfile⟩

end NeKernel.KernelKit
