import NeKernel.Lib.Records
import NeKernel.NeKit.Config
import NeKernel.NeKit.Crc32

/-!
# OpenHeFS on a drive

The layout of the three packed records of OpenHeFS, the hash that stands for a name, and the
drive they live on. The drive is a byte array: `fInput` copies bytes out of it and `fOutput`
copies bytes into it, neither ever fails, and what has been handed to `fOutput` is kept in a log,
together with the kind of record the packet's content points to.

A name is the list of its characters before the terminating zero.
-/

namespace NeKernel.FS

open ByteStore

/-! ## Constants -/

def kOpenHeFSVersion : Nat := 0x0104

/-- `"OpenHeFS"`, with its terminator. -/
def kOpenHeFSMagic : List UInt8 := [0x4F, 0x70, 0x65, 0x6E, 0x48, 0x65, 0x46, 0x53, 0]

def kOpenHeFSMagicLen : Nat := 9
def kOpenHeFSBlockLen : Nat := 512
def kOpenHeFSFileNameLen : Nat := 256
def kOpenHeFSSliceCount : Nat := 16
def kOpenHeFSInvalidVID : Nat := 0xFFFF
def kOpenHeFSStatusUnlocked : Nat := 0x18
def kOpenHeFSEncodingFlagsUTF8 : Nat := 0x50
def kOpenHeFSFlagsReadOnly : Nat := 0x100

/-- `u8"*"`. -/
def kOpenHeFSSearchAllStr : List UInt8 := [0x2A]

def kOpenHeFSOpticalDrive : Nat := 0x0C
def kOpenHeFSMassStorageDevice : Nat := 0xCC
def kOpenHeFSUnknown : Nat := 0xFF
def kMassStorageDrive : Nat := 0xDA

def kOpenHeFSRed : Nat := 100
def kOpenHeFSBlack : Nat := 101

/-! ## `HEFS_BOOT_NODE` -/

namespace HefsBootNode

def fVolName : Nat := 9
def fVersion : Field := ⟨137, 4⟩
def fBadSectors : Field := ⟨141, 8⟩
def fSectorCount : Field := ⟨149, 8⟩
def fSectorSize : Field := ⟨157, 8⟩
def fChecksum : Field := ⟨165, 4⟩
def fDiskKind : Field := ⟨169, 1⟩
def fEncoding : Field := ⟨170, 1⟩
def fStartIND : Field := ⟨171, 8⟩
def fEndIND : Field := ⟨179, 8⟩
def fINDCount : Field := ⟨187, 8⟩
def fDiskSize : Field := ⟨195, 8⟩
def fDiskStatus : Field := ⟨203, 2⟩
def fDiskFlags : Field := ⟨205, 2⟩
def fVID : Field := ⟨207, 2⟩
def fStartIN : Field := ⟨209, 8⟩
def fEndIN : Field := ⟨217, 8⟩
def fStartBlock : Field := ⟨225, 8⟩
def fEndBlock : Field := ⟨233, 8⟩

/-- `sizeof(HEFS_BOOT_NODE)`. -/
def size : Nat := 513

end HefsBootNode

/-! ## `HEFS_INDEX_NODE` -/

namespace HefsIndexNode

def fHashPath : Field := ⟨0, 8⟩
def fFlags : Field := ⟨8, 4⟩
def fKind : Field := ⟨12, 2⟩
def fChecksum : Field := ⟨18, 4⟩
def fCreated : Field := ⟨23, 8⟩
def fDeleted : Field := ⟨47, 8⟩
def fOffsetSliceLow : Field := ⟨67, 4⟩
def fOffsetSliceHigh : Field := ⟨71, 4⟩

/-- `sizeof(HEFS_INDEX_NODE)`. -/
def size : Nat := 512

end HefsIndexNode

/-! ## `HEFS_INDEX_NODE_DIRECTORY` -/

namespace HefsIndexNodeDirectory

def fHashPath : Field := ⟨0, 8⟩
def fFlags : Field := ⟨8, 4⟩
def fEntryCount : Field := ⟨14, 4⟩
def fChecksum : Field := ⟨18, 4⟩
def fCreated : Field := ⟨22, 8⟩
def fDeleted : Field := ⟨46, 8⟩

/-- `fINSlices[index]`. -/
def fINSlices (index : Nat) : Field := ⟨66 + 8 * index, 8⟩

def fColor : Field := ⟨194, 1⟩
def fNext : Field := ⟨195, 8⟩
def fPrev : Field := ⟨203, 8⟩
def fChild : Field := ⟨211, 8⟩
def fParent : Field := ⟨219, 8⟩

/-- `sizeof(HEFS_INDEX_NODE_DIRECTORY)`. -/
def size : Nat := 512

end HefsIndexNodeDirectory

/-! ## Names -/

def hefsiToBigEndian64 (val : UInt64) : UInt64 :=
  ((val >>> 56) &&& (0x00000000000000FF : UInt64)) |||
    ((val >>> 40) &&& (0x000000000000FF00 : UInt64)) |||
    ((val >>> 24) &&& (0x0000000000FF0000 : UInt64)) |||
    ((val >>> 8) &&& (0x00000000FF000000 : UInt64)) |||
    ((val <<< 8) &&& (0x000000FF00000000 : UInt64)) |||
    ((val <<< 24) &&& (0x0000FF0000000000 : UInt64)) |||
    ((val <<< 40) &&& (0x00FF000000000000 : UInt64)) |||
    ((val <<< 56) &&& (0xFF00000000000000 : UInt64))

def kFnvBaseOffset : UInt64 := 0xcbf29ce484222325
def kFnvPrimeNumber : UInt64 := 0x100000001b3

/-- `hefsi_hash_64`. -/
def hefsiHash64 (path : List UInt8) : UInt64 :=
  if path.isEmpty then 0
  else
    hefsiToBigEndian64
      (path.foldl (fun hash c => (hash ^^^ c.toUInt64) * kFnvPrimeNumber) kFnvBaseOffset)

/-- The hash of a name as it is stored in `fHashPath`. -/
def hashPath (path : List UInt8) : Nat := (hefsiHash64 path).toNat

theorem hashPath_lt (path : List UInt8) : hashPath path < 2 ^ 64 := (hefsiHash64 path).toNat_lt

/-! ## The drive -/

/-- What of `DriveTrait` the parser reads, with the drive's sector count and size as
`drv_std_get_sector_count` and `drv_std_get_size` report them. -/
structure DriveTrait where
  fKind : Nat
  fLbaStart : Nat
  fLbaEnd : Nat
  fSectorSz : Nat
  sectorCount : Nat
  size : Nat

/-- What the content of a packet points to. -/
inductive PacketContent where
  | bootNode
  | directory
  | indexNode
  | block
deriving DecidableEq

/-- A packet handed to `fOutput`. -/
structure DrivePacket where
  fPacketContent : PacketContent
  fPacketLba : Nat
  fPacketSize : Nat
deriving DecidableEq

/-- The bytes of the drive, `err_global_get()`, and the packets handed to `fOutput`, the latest
one first. -/
structure Disk where
  bytes : Store
  errGlobal : Int
  packets : List DrivePacket

namespace Disk

/-- The bytes from `lba` on, of which the caller looks at the first `fPacketSize`. -/
def fInput (d : Disk) (lba : Nat) : Store := slice d.bytes lba

def fOutput (d : Disk) (content : PacketContent) (lba sz : Nat) (src : Store) : Disk :=
  { d with
    bytes := blit d.bytes lba sz src
    packets := ⟨content, lba, sz⟩ :: d.packets }

def setErr (d : Disk) (e : Int) : Disk := { d with errGlobal := e }

variable {d : Disk} {c : PacketContent} {lba sz : Nat} {src : Store} {e : Int}

@[simp] theorem fOutput_bytes : (d.fOutput c lba sz src).bytes = blit d.bytes lba sz src := rfl

@[simp] theorem fOutput_errGlobal : (d.fOutput c lba sz src).errGlobal = d.errGlobal := rfl

@[simp] theorem fOutput_packets :
    (d.fOutput c lba sz src).packets = ⟨c, lba, sz⟩ :: d.packets := rfl

@[simp] theorem setErr_bytes : (d.setErr e).bytes = d.bytes := rfl

@[simp] theorem setErr_errGlobal : (d.setErr e).errGlobal = e := rfl

@[simp] theorem setErr_packets : (d.setErr e).packets = d.packets := rfl

end Disk

/-- `ke_calculate_crc32` of a record, as it is stored in `fChecksum`. -/
def crcOf (r : Store) (sz : Nat) : Nat := (keCalculateCrc32 r sz).toNat

theorem crcOf_lt (r : Store) (sz : Nat) : crcOf r sz < 2 ^ 32 := (keCalculateCrc32 r sz).toNat_lt

end NeKernel.FS
