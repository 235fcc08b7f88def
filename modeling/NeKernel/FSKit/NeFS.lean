import NeKernel.Lib.Records
import NeKernel.NeKit.Config

/-!
# NeFS on a drive

The layout of the three packed records of NeFS, the strings its names are, and the drive they live
on. What a packet's LBA means is up to the drive: `fAddress` gives the byte a transfer at an LBA
starts at. No transfer fails, every LBA is on the drive, and the drive can be written.

The places at which a partition block is transferred, to the buffer or to the drive, are kept in a
log.
-/

namespace NeKernel.NeFS

open ByteStore

/-! ## C strings -/

/-- The characters before the terminating zero. -/
structure CString where
  chars : List UInt8
  noNul : ∀ c ∈ chars, c ≠ 0
deriving DecidableEq

namespace CString

/-- `rt_string_len`. -/
def length (s : CString) : Nat := s.chars.length

/-- The string cut short after `n` characters. -/
def take (s : CString) (n : Nat) : CString :=
  ⟨s.chars.take n, fun c hc => s.noNul c (List.mem_of_mem_take hc)⟩

/-- The string from its `n`-th character on. -/
def drop (s : CString) (n : Nat) : CString :=
  ⟨s.chars.drop n, fun c hc => s.noNul c (List.mem_of_mem_drop hc)⟩

/-- The bytes of the string, and zeros after them. -/
def bytes (s : CString) : Store := fun i => s.chars.getD i 0

end CString

/-- The characters from `off` on that stand before a zero, at most `room` of them. -/
def charsAt (r : Store) (off : Nat) : Nat → List UInt8
  | 0 => []
  | room + 1 => if r off = 0 then [] else r off :: charsAt r (off + 1) room

theorem charsAt_noNul {r : Store} {off room : Nat} : ∀ c ∈ charsAt r off room, c ≠ 0 := by
  induction room generalizing off with
  | zero => intro c hc; cases hc
  | succ room ih =>
      intro c hc
      rw [charsAt] at hc
      split at hc
      · cases hc
      · next h =>
          rcases List.mem_cons.mp hc with rfl | hc
          · exact h
          · exact ih c hc

/-- A string that stands in a record is read back from it. -/
theorem charsAt_eq {r : Store} {off room : Nat} {l : List UInt8} (hlen : l.length < room) (hne : ∀ c ∈ l, c ≠ 0)
    (h : ∀ i < l.length, r (off + i) = l.getD i 0) (hend : r (off + l.length) = 0) :
    charsAt r off room = l := by
  induction l generalizing off room with
  | nil =>
      obtain ⟨room, rfl⟩ : ∃ n, room = n + 1 := ⟨room - 1, by simp at hlen; omega⟩
      have hz : r off = 0 := hend
      rw [charsAt, if_pos hz]
  | cons c l ih =>
      obtain ⟨room, rfl⟩ : ∃ n, room = n + 1 := ⟨room - 1, by simp at hlen; omega⟩
      have hc : r off = c := h 0 (Nat.succ_pos _)
      rw [charsAt, if_neg (by rw [hc]; exact hne c List.mem_cons_self), hc]
      congr 1
      apply ih (Nat.lt_of_succ_lt_succ hlen) (fun b hb => hne b (List.mem_cons_of_mem _ hb))
      · intro i hi
        have := h (i + 1) (Nat.succ_lt_succ hi)
        rwa [show off + (i + 1) = off + 1 + i by omega] at this
      · rwa [List.length_cons, show off + (l.length + 1) = off + 1 + l.length by omega] at hend

/-- The string in a record, read up to the record's end where no zero stands before it. -/
def stringAt (r : Store) (off room : Nat) : CString := ⟨charsAt r off room, charsAt_noNul⟩

/-- `rt_copy_memory_safe` of `len` bytes to the `room` bytes at `off`. -/
def rtCopyMemorySafe (src dst : Store) (off len room : Nat) : Store :=
  if room < len then fill dst off room 0 else blit dst off len src

/-! ## Constants -/

def kNeFSCatalogNameLen : Nat := 256
def kNeFSSectorSz : Nat := 512
def kNeFSPartLen : Nat := 32

/-- `"  NeFS"` in the eight bytes that are copied and compared. -/
def kNeFSIdent : List UInt8 := [0x20, 0x20, 0x4E, 0x65, 0x46, 0x53, 0, 0]

def kNeFSIdentLen : Nat := 8
def kNeFSVersionInteger : Nat := 0x0129
def kNeFSPartitionTypeStandard : Nat := 7
def kNeFSCatalogKindFile : Nat := 1
def kNeFSCatalogKindDir : Nat := 2
def kNeFSSeparator : UInt8 := 0x2F
def kNeFSRoot : CString := ⟨[kNeFSSeparator], by simp [kNeFSSeparator]⟩
def kNeFSFlagDeleted : Nat := 70
def kNeFSFlagCreated : Nat := 71
def kNeFSStatusLocked : Nat := 0x19

/-! ## `NEFS_ROOT_PARTITION_BLOCK` -/

namespace NefsRootPartitionBlock

def ident : Nat := 0
def partitionName : Nat := 8
def flags : Field := ⟨40, 4⟩
def kind : Field := ⟨44, 4⟩
def startCatalog : Field := ⟨48, 8⟩
def catalogCount : Field := ⟨56, 8⟩
def diskSize : Field := ⟨64, 8⟩
def freeCatalog : Field := ⟨72, 8⟩
def freeSectors : Field := ⟨80, 8⟩
def sectorCount : Field := ⟨88, 8⟩
def sectorSize : Field := ⟨96, 8⟩
def version : Field := ⟨104, 8⟩

/-- `sizeof(NEFS_ROOT_PARTITION_BLOCK)`. -/
def size : Nat := 512

end NefsRootPartitionBlock

/-! ## `NEFS_CATALOG_STRUCT` -/

namespace NefsCatalogStruct

def name : Nat := 1
def flags : Field := ⟨457, 2⟩
def status : Field := ⟨459, 2⟩
def catalogFlags : Field := ⟨461, 2⟩
def kind : Field := ⟨463, 4⟩
def dataForkSize : Field := ⟨467, 8⟩
def resourceForkSize : Field := ⟨475, 8⟩
def dataFork : Field := ⟨483, 8⟩
def resourceFork : Field := ⟨491, 8⟩
def nextSibling : Field := ⟨499, 8⟩
def prevSibling : Field := ⟨507, 8⟩
def checksum : Field := ⟨531, 4⟩

/-- `sizeof(NEFS_CATALOG_STRUCT)`. -/
def size : Nat := 535

/-- `Name` as the string functions read it. -/
def nameOf (r : Store) : CString := stringAt r name (size - name)

end NefsCatalogStruct

/-! ## `NEFS_FORK_STRUCT` -/

namespace NefsForkStruct

def forkOrCatalog : Field := ⟨0, 1⟩
def forkName : Nat := 1
def catalogName : Nat := 200
def flags : Field := ⟨456, 4⟩
def dataOffset : Field := ⟨480, 8⟩
def dataSize : Field := ⟨488, 8⟩
def nextSibling : Field := ⟨496, 8⟩
def previousSibling : Field := ⟨504, 8⟩

/-- `sizeof(NEFS_FORK_STRUCT)`. -/
def size : Nat := 512

/-- `ForkName` as the string functions read it. -/
def forkNameOf (r : Store) : CString := stringAt r forkName (size - forkName)

/-- `CatalogName` as the string functions read it. -/
def catalogNameOf (r : Store) : CString := stringAt r catalogName (size - catalogName)

/-- A fork record as its constructor leaves it. -/
def fresh : Store := forkOrCatalog.set 1 zeros

end NefsForkStruct

def kNeFSRootCatalogStartAddress : Nat := 1024

def kNeFSCatalogStartAddress : Nat := kNeFSRootCatalogStartAddress + NefsRootPartitionBlock.size

/-! ## The drive -/

/-- What of `DriveTrait` the parser reads, the count `drv_std_get_sector_count` reports, and where
on the drive an LBA is. -/
structure DriveTrait where
  fLbaStart : Nat
  fSectorSz : Nat
  sectorCount : Nat
  fAddress : Nat → Nat

/-- The bytes of the drive, and the LBAs at which a partition block has been transferred, the
latest one first. Every LBA answers, one behind the last sector too. -/
structure Disk where
  bytes : Store
  blockLbas : List Nat

namespace Disk

/-- The bytes from `lba` on, of which the caller looks at the first `fPacketSize`. -/
def fInput (d : Disk) (drv : DriveTrait) (lba : Nat) : Store := slice d.bytes (drv.fAddress lba)

def fOutput (d : Disk) (drv : DriveTrait) (lba sz : Nat) (src : Store) : Disk :=
  { d with bytes := blit d.bytes (drv.fAddress lba) sz src }

/-- `fInput` of a partition block. -/
def inputBlock (d : Disk) (drv : DriveTrait) (lba : Nat) : Store × Disk :=
  (d.fInput drv lba, { d with blockLbas := lba :: d.blockLbas })

/-- `fOutput` of a partition block. -/
def outputBlock (d : Disk) (drv : DriveTrait) (lba : Nat) (block : Store) : Disk :=
  { d.fOutput drv lba NefsRootPartitionBlock.size block with blockLbas := lba :: d.blockLbas }

variable {d : Disk} {drv : DriveTrait} {lba sz : Nat} {src : Store}

@[simp] theorem fOutput_bytes :
    (d.fOutput drv lba sz src).bytes = blit d.bytes (drv.fAddress lba) sz src := rfl

@[simp] theorem fOutput_blockLbas : (d.fOutput drv lba sz src).blockLbas = d.blockLbas := rfl

@[simp] theorem inputBlock_fst :
    (d.inputBlock drv lba).1 = slice d.bytes (drv.fAddress lba) := rfl

@[simp] theorem inputBlock_bytes : (d.inputBlock drv lba).2.bytes = d.bytes := rfl

@[simp] theorem inputBlock_blockLbas :
    (d.inputBlock drv lba).2.blockLbas = lba :: d.blockLbas := rfl

@[simp] theorem outputBlock_bytes : (d.outputBlock drv lba src).bytes =
    blit d.bytes (drv.fAddress lba) NefsRootPartitionBlock.size src := rfl

@[simp] theorem outputBlock_blockLbas :
    (d.outputBlock drv lba src).blockLbas = lba :: d.blockLbas := rfl

end Disk

end NeKernel.NeFS
