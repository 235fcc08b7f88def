import NeKernel.KernelKit.DriveMgr
import NeKernel.Lib.Records
import NeKernel.NeKit.AsciiUtils

/-!
# Probing the main drive

`io_construct_main_drive` reads the first sector of the drive and looks for a partition block in it: the one
of the EPM scheme, or else the one of GPT. What it finds decides where the partition lies and whether
anything is ever written (`ioDetectDrive_cases`).

The partition block itself is guarded by a test for the address zero. Addresses are in bytes and the driver
divides them by the size of a sector, so the guard is one of 512 addresses (`output_first_iff`), and what a
later probe finds is only certain as long as nobody writes to the other 511 (`redetected_iff`).
-/

namespace NeKernel.KernelKit

open ByteStore Ahci NeKit

/-! ## Partition blocks -/

namespace EpmPartBlock

/-- The widths of `EPM_PART_BLOCK`: `Magic`, `Name`, `Guid`, `Version`, `NumBlocks`, `SectorSz`, `LbaStart`,
`LbaEnd`, `Kind`, `Flags`, `FsVersion`, `Fs` and `Reserved`. -/
def widths : List Nat := [5, 32, 16, 4, 8, 8, 8, 8, 2, 2, 4, 16, 399]

/-- The place of a member in the packed structure. -/
def member (i : Nat) : Field := ⟨(widths.take i).sum, widths.getD i 0⟩

def Magic : Field := member 0
def Name : Field := member 1
def Version : Field := member 3
def NumBlocks : Field := member 4
def SectorSz : Field := member 5
def LbaStart : Field := member 6
def LbaEnd : Field := member 7
def FsVersion : Field := member 10

/-- `sizeof(EPM_PART_BLOCK)`. -/
def size : Nat := widths.sum

end EpmPartBlock

namespace GptPartitionTable

/-- The widths of `GPT_PARTITION_TABLE`: `Signature`, `Revision`, `HeaderSize`, `CRC32`, `Reserved1`,
`LBAHeader`, `LBAAltHeader`, `FirstGPTEntry`, `LastGPTEntry`, `Guid`, `StartingLBA`, `NumPartitionEntries`,
`SizeOfEntries`, `CRC32PartEntry` and `Reserved2`. -/
def widths : List Nat := [8, 4, 4, 4, 4, 8, 8, 8, 8, 16, 8, 4, 4, 4, 420]

def member (i : Nat) : Field := ⟨(widths.take i).sum, widths.getD i 0⟩

def FirstGPTEntry : Field := member 7
def LastGPTEntry : Field := member 8
def SizeOfEntries : Field := member 12

/-- `sizeof(GPT_PARTITION_TABLE)`. -/
def size : Nat := widths.sum

end GptPartitionTable

/-- `kEPMMagic86`, `"EPMAM"`. -/
def kEPMMagic : List UInt8 := [0x45, 0x50, 0x4D, 0x41, 0x4D]
def kEPMMagicLength : Nat := 5

/-- `"EFI PART"`. -/
def kMagicGPT : List UInt8 := [0x45, 0x46, 0x49, 0x20, 0x50, 0x41, 0x52, 0x54]
def kMagicLenGPT : Nat := 8

def kEPMBootBlockLba : UInt64 := 0

/-! ## The probe -/

def kReadOnlyDrive : UInt32 := 0x10
def kEPMDrive : UInt32 := 0x11
def kGPTDrive : UInt32 := 0x14
def kUnformattedDrive : UInt32 := 0x15
def kMassStorageDrive : UInt32 := 0xDA

/-- The drive behind the trait: the bytes it holds, what `fInit` makes of it and `drv_std_get_sector_count`. -/
structure Medium where
  bytes : Store
  good : Bool
  sectorCount : UInt64

/-- `DriveTrait`, with what the probe sets in it. -/
structure MediaTrait extends DriveTrait where
  fName : Store
  fPacketMime : Store
  fKind : UInt32
  fLbaStart : UInt64
  fLbaEnd : UInt64
  fSectorSz : UInt64

/-- The bytes of a literal. -/
def literal (cs : List Char) : Store := fun i => (cs.getD i '\x00').toNat.toUInt8

/-- `"fs/detect-packet"`. -/
def kDetectMime : List Char := ['f', 's', '/', 'd', 'e', 't', 'e', 'c', 't', '-', 'p', 'a', 'c', 'k', 'e', 't']

/-- `rt_copy_memory` of a literal to the start of an array. -/
def copyLiteral (cs : List Char) (m : Store) : Store := blit m 0 cs.length (literal cs)

/-- `trait.fInput` for `size` bytes from the boot block on: the packet, and the bytes. -/
def inputBlock (drive : Medium) (size : UInt64) (trait : MediaTrait) : MediaTrait × Store :=
  ({ trait with
      fPacket := { trait.fPacket with fPacketLba := kEPMBootBlockLba, fPacketSize := size }
      fPacketMime := copyLiteral kDetectMime trait.fPacketMime },
    slice drive.bytes kEPMBootBlockLba.toNat)

/-- The partition the probe goes by. -/
def setPartition (readOnly : Bool) (fKind : UInt32) (fSectorSz fLbaEnd fLbaStart : UInt64)
    (trait : MediaTrait) : MediaTrait :=
  { trait with
    fPacket := { trait.fPacket with fPacketReadOnly := readOnly }
    fKind, fSectorSz, fLbaEnd, fLbaStart }

/-- The tests of the probe. -/
def detectPartition (drive : Medium) (trait : MediaTrait) : MediaTrait :=
  let (trait, block) := inputBlock drive EpmPartBlock.size.toUInt64 trait
  if NeKit.rtStringCmp block (fun i => kEPMMagic.getD i 0) kEPMMagicLength = 0 then
    setPartition false (kMassStorageDrive ||| kEPMDrive) (EpmPartBlock.SectorSz.get block).toUInt64
      (EpmPartBlock.LbaEnd.get block).toUInt64 (EpmPartBlock.LbaStart.get block).toUInt64 trait
  else
    let (trait, gpt) := inputBlock drive GptPartitionTable.size.toUInt64 trait
    if NeKit.rtStringCmp gpt (fun i => kMagicGPT.getD i 0) kMagicLenGPT = 0 then
      setPartition false (kMassStorageDrive ||| kGPTDrive) (GptPartitionTable.SizeOfEntries.get gpt).toUInt64
        (GptPartitionTable.LastGPTEntry.get gpt).toUInt64 (GptPartitionTable.FirstGPTEntry.get gpt).toUInt64 trait
    else
      setPartition true (kMassStorageDrive ||| kUnformattedDrive ||| kReadOnlyDrive) 0x200
        (drive.sectorCount - 1) 0x400 trait

/-- The packet as the probe leaves it. -/
def resetPacket (trait : MediaTrait) : MediaTrait :=
  { trait with
    fPacket := { trait.fPacket with fPacketLba := 0, fPacketSize := 0, fPacketContent := 0 }
    fPacketMime := copyLiteral ['*', '/', '*'] trait.fPacketMime }

/-- `Probe::io_detect_drive`. -/
def ioDetectDrive (drive : Medium) (trait : MediaTrait) : MediaTrait :=
  resetPacket (detectPartition drive { trait with fPacket := { trait.fPacket with fPacketGood := drive.good } })

/-- `"/media/main/"`. -/
def kMainDrive : List Char := ['/', 'm', 'e', 'd', 'i', 'a', '/', 'm', 'a', 'i', 'n', '/']

/-- `io_construct_main_drive`. -/
def ioConstructMainDrive (drive : Medium) (trait : MediaTrait) : MediaTrait :=
  ioDetectDrive drive { trait with fName := copyLiteral kMainDrive trait.fName }

/-! ## What the probe finds -/

variable {drive drive' : Medium} {trait : MediaTrait} {m m' m'' : Store} {magic : List UInt8} {n : Nat}
  {dm : DataModel} {dev : AhciDevice} {fuel : Nat} {h : Hba} {pckt : DrivePacket} {ps : List DrivePacket}

/-- The drive starts with the characters. -/
def StartsWith (m : Store) (magic : List UInt8) : Prop := ∀ i < magic.length, m i = magic.getD i 0

instance : Decidable (StartsWith m magic) := inferInstanceAs (Decidable (∀ i < magic.length, _))

/-- The row that the probe compares is the start of the drive. -/
theorem startsWith_iff (hlen : magic.length = n) :
    NeKit.rtStringCmp (slice drive.bytes kEPMBootBlockLba.toNat) (fun i => magic.getD i 0) n = 0 ↔
      StartsWith drive.bytes magic := by
  have hslice : slice drive.bytes kEPMBootBlockLba.toNat = drive.bytes :=
    funext fun _ => congrArg drive.bytes (Nat.zero_add _)
  rw [hslice, ← hlen]
  exact NeKit.rtStringCmp_eq_zero_iff

theorem get_bootBlock {f : Field} : f.get (slice drive.bytes kEPMBootBlockLba.toNat) = f.get drive.bytes :=
  Field.get_congr fun _ _ => congrArg drive.bytes (Nat.zero_add _)

/-- The trait after a probe, from the partition it goes by. -/
def probed (drive : Medium) (trait : MediaTrait) (readOnly : Bool) (fKind : UInt32)
    (fSectorSz fLbaEnd fLbaStart : UInt64) : MediaTrait :=
  { trait with
    fPacket := {
      fPacketContent := 0
      fPacketSize := 0
      fPacketGood := drive.good
      fPacketLba := 0
      fPacketReadOnly := readOnly }
    fPacketMime := copyLiteral ['*', '/', '*'] (copyLiteral kDetectMime trait.fPacketMime)
    fKind, fSectorSz, fLbaEnd, fLbaStart }

theorem ioDetectDrive_epm (hepm : StartsWith drive.bytes kEPMMagic) : ioDetectDrive drive trait =
    probed drive trait false (kMassStorageDrive ||| kEPMDrive) (EpmPartBlock.SectorSz.get drive.bytes).toUInt64
      (EpmPartBlock.LbaEnd.get drive.bytes).toUInt64 (EpmPartBlock.LbaStart.get drive.bytes).toUInt64 := by
  have hcmp := (startsWith_iff (n := kEPMMagicLength) rfl).mpr hepm
  rw [ioDetectDrive, show ∀ t, detectPartition drive t = _ from fun t => if_pos hcmp]
  rw [← get_bootBlock, ← get_bootBlock, ← get_bootBlock]
  rfl

/-- Copying a literal twice is copying it once. -/
theorem copyLiteral_twice {cs : List Char} : copyLiteral cs (copyLiteral cs m) = copyLiteral cs m :=
  blit_blit_same

theorem ioDetectDrive_gpt (hepm : ¬ StartsWith drive.bytes kEPMMagic) (hgpt : StartsWith drive.bytes kMagicGPT) :
    ioDetectDrive drive trait = probed drive trait false (kMassStorageDrive ||| kGPTDrive)
      (GptPartitionTable.SizeOfEntries.get drive.bytes).toUInt64
      (GptPartitionTable.LastGPTEntry.get drive.bytes).toUInt64
      (GptPartitionTable.FirstGPTEntry.get drive.bytes).toUInt64 := by
  have hcmp := mt (startsWith_iff (n := kEPMMagicLength) rfl).mp hepm
  have hcmp' := (startsWith_iff (n := kMagicLenGPT) rfl).mpr hgpt
  rw [ioDetectDrive, show ∀ t, detectPartition drive t = _ from fun t => (if_neg hcmp).trans (if_pos hcmp')]
  simp only [setPartition, resetPacket, probed, get_bootBlock, copyLiteral_twice]

theorem ioDetectDrive_unformatted (hepm : ¬ StartsWith drive.bytes kEPMMagic)
    (hgpt : ¬ StartsWith drive.bytes kMagicGPT) : ioDetectDrive drive trait =
      probed drive trait true (kMassStorageDrive ||| kUnformattedDrive ||| kReadOnlyDrive) 0x200
        (drive.sectorCount - 1) 0x400 := by
  have hcmp := mt (startsWith_iff (n := kEPMMagicLength) rfl).mp hepm
  have hcmp' := mt (startsWith_iff (n := kMagicLenGPT) rfl).mp hgpt
  rw [ioDetectDrive, show ∀ t, detectPartition drive t = _ from fun t => (if_neg hcmp).trans (if_neg hcmp')]
  simp only [setPartition, resetPacket, probed, copyLiteral_twice]

/-- A drive is read-only exactly without a partition block in front. -/
theorem ioDetectDrive_readOnly_iff : (ioDetectDrive drive trait).fPacket.fPacketReadOnly = true ↔
    ¬ StartsWith drive.bytes kEPMMagic ∧ ¬ StartsWith drive.bytes kMagicGPT := by
  by_cases hepm : StartsWith drive.bytes kEPMMagic
  · rw [ioDetectDrive_epm hepm]
    simp [probed, hepm]
  · by_cases hgpt : StartsWith drive.bytes kMagicGPT
    · rw [ioDetectDrive_gpt hepm hgpt]
      simp [probed, hgpt]
    · rw [ioDetectDrive_unformatted hepm hgpt]
      simp [probed, hepm, hgpt]

theorem startsWith_congr (hm : ∀ i < 512, m' i = m i) (hlen : magic.length ≤ 512) :
    StartsWith m' magic ↔ StartsWith m magic :=
  forall₂_congr fun i hi => by rw [hm i (Nat.lt_of_lt_of_le hi hlen)]

/-- The probe looks at the first sector only. -/
theorem ioDetectDrive_congr (hm : ∀ i < 512, m' i = drive.bytes i) :
    ioDetectDrive { drive with bytes := m' } trait = ioDetectDrive drive trait := by
  have hget : ∀ f : Field, f.Inside 512 → f.get m' = f.get drive.bytes := fun f hf =>
    Field.get_congr fun i hi => hm _ (Nat.lt_of_lt_of_le (Nat.add_lt_add_left hi _) hf)
  have hepm : StartsWith m' kEPMMagic ↔ StartsWith drive.bytes kEPMMagic := startsWith_congr hm (by decide)
  have hgpt : StartsWith m' kMagicGPT ↔ StartsWith drive.bytes kMagicGPT := startsWith_congr hm (by decide)
  by_cases he : StartsWith drive.bytes kEPMMagic
  · rw [ioDetectDrive_epm he, ioDetectDrive_epm (hepm.mpr he), hget _ (by decide), hget _ (by decide),
      hget _ (by decide)]
    rfl
  · have he' := mt hepm.mp he
    by_cases hg : StartsWith drive.bytes kMagicGPT
    · rw [ioDetectDrive_gpt he hg, ioDetectDrive_gpt he' (hgpt.mpr hg), hget _ (by decide), hget _ (by decide),
        hget _ (by decide)]
      rfl
    · rw [ioDetectDrive_unformatted he hg, ioDetectDrive_unformatted he' (mt hgpt.mp hg)]
      rfl

/-! ## The first sector -/

/-- A packet reaches the first sector exactly if it may be written, is not quiet, and its address is one of
the 511 behind the first byte of the drive. -/
theorem output_first_iff (hdrive : pckt.fPacketLba.toNat / 512 < 2 ^ 48) :
    0 ∈ sectors (ioDrvOutput dm dev fuel pckt h).1 ↔ pckt.fPacketReadOnly = false ∧ ¬ Quiet dm dev pckt ∧
      pckt.fPacketLba ≠ 0 ∧ pckt.fPacketLba.toNat < 512 := by
  by_cases hro : pckt.fPacketReadOnly = true
  · rw [ioDrvOutput, if_pos hro, sectors_of_none rfl]
    simp [hro]
  by_cases hlba : pckt.fPacketLba = 0
  · rw [ioDrvOutput, if_neg hro, if_pos ⟨hro, hlba⟩, sectors_of_none rfl]
    simp [hlba]
  have hcall : (ioDrvOutput dm dev fuel pckt h).1 =
      drvStdInputOutputAhci dm (request true pckt pckt.fPacketLba) dev fuel h := by
    rw [ioDrvOutput, if_neg hro, if_neg fun hzero => hlba hzero.2]
    rfl
  rw [hcall, Bool.not_eq_true] at *
  by_cases hq : Quiet dm dev pckt
  · rw [sectors_quiet hq]
    simp [hq]
  · have hdiv : (pckt.fPacketLba / kAHCISectorSize).toNat = pckt.fPacketLba.toNat / 512 := UInt64.toNat_div _ _
    have hpos := HALKit.countSectors_pos 16 (pckt.fPacketSize.toNat / HALKit.kSectorSize)
    rw [sectors_loud hq, hdiv, Nat.mod_eq_of_lt hdrive, Set.mem_Ico]
    simp only [hro, hq, hlba, not_false_eq_true, true_and, ne_eq]
    omega

/-- What a drive may hold after a packet has been handed to `io_drv_output`, whatever the state of the
controller: nothing but the sectors it is told changes. -/
def MayHold (dm : DataModel) (dev : AhciDevice) (pckt : DrivePacket) (m m' : Store) : Prop :=
  ∃ fuel h, ∀ x, x / 512 ∉ sectors (ioDrvOutput dm dev fuel pckt h).1 → m' x = m x

theorem MayHold.refl : MayHold dm dev pckt m m := ⟨0, onePageLeft, fun _ _ => rfl⟩

/-- What it may hold after one packet and the next. -/
inductive Outputs (dm : DataModel) (dev : AhciDevice) : List DrivePacket → Store → Store → Prop
  | nil (m : Store) : Outputs dm dev [] m m
  | cons {pckt : DrivePacket} {ps : List DrivePacket} {m m' m'' : Store} (first : MayHold dm dev pckt m m')
      (rest : Outputs dm dev ps m' m'') : Outputs dm dev (pckt :: ps) m m''

/-- Packets that do not reach the first sector leave it as it is. -/
theorem Outputs.first_kept (hout : Outputs dm dev ps m m')
    (hps : ∀ p ∈ ps, ∀ fuel h, 0 ∉ sectors (ioDrvOutput dm dev fuel p h).1) : ∀ i < 512, m' i = m i := by
  induction hout with
  | nil => exact fun _ _ => rfl
  | cons first rest ih =>
      obtain ⟨fuel, h, hsame⟩ := first
      rw [List.forall_mem_cons] at hps
      intro i hi
      have hsector : i / 512 = 0 := Nat.div_eq_of_lt hi
      exact (ih hps.2 i hi).trans (hsame i (hsector ▸ hps.1 fuel h))

theorem Outputs.idle (ps : List DrivePacket) (m : Store) : Outputs dm dev ps m m := by
  induction ps with
  | nil => exact .nil m
  | cons p ps ih => exact .cons .refl ih

/-- One that does may leave anything there. -/
theorem Outputs.first_lost {p : DrivePacket} (hp : p ∈ ps)
    (hfirst : ∀ fuel h, 0 ∈ sectors (ioDrvOutput dm dev fuel p h).1) :
    Outputs dm dev ps m (blit m 0 1 zeros) := by
  induction ps with
  | nil => exact absurd hp List.not_mem_nil
  | cons q ps ih =>
      rcases List.mem_cons.mp hp with rfl | hp
      · refine .cons ⟨0, onePageLeft, fun x hx => ?_⟩ (Outputs.idle ps _)
        apply blit_apply_of_notMem
        by_contra hzero
        have hsector : x / 512 = 0 := by omega
        exact hx (hsector ▸ hfirst 0 onePageLeft)
      · exact .cons .refl (ih hp)

/-- **Probing again.** The packets that go out through a probed trait leave what the next probe finds as it
is, whatever the drive makes of them, exactly if the drive is read-only or no packet that is not quiet has an
address from 1 to 511. -/
theorem redetected_iff (hro : ∀ p ∈ ps, p.fPacketReadOnly = (ioDetectDrive drive trait).fPacket.fPacketReadOnly)
    (hdrive : ∀ p ∈ ps, p.fPacketLba.toNat / 512 < 2 ^ 48) :
    (∀ m', Outputs dm dev ps drive.bytes m' →
        ioDetectDrive { drive with bytes := m' } trait = ioDetectDrive drive trait) ↔
      (ioDetectDrive drive trait).fPacket.fPacketReadOnly = true ∨
        ∀ p ∈ ps, Quiet dm dev p ∨ p.fPacketLba = 0 ∨ 512 ≤ p.fPacketLba.toNat := by
  constructor
  · intro hsame
    by_contra hbad
    push Not at hbad
    obtain ⟨hwritable, p, hp, hloud, hlba, hlt⟩ := hbad
    have hfirst : ∀ fuel h, 0 ∈ sectors (ioDrvOutput dm dev fuel p h).1 := fun fuel h =>
      (output_first_iff (hdrive p hp)).mpr ⟨(hro p hp).trans (by simpa using hwritable), hloud, hlba, hlt⟩
    have hnow := hsame _ (Outputs.first_lost hp hfirst)
    have hzero : ∀ magic : List UInt8, magic.getD 0 0 ≠ 0 → 0 < magic.length →
        ¬ StartsWith (blit drive.bytes 0 1 zeros) magic := fun magic hne hlen hstart =>
      hne ((hstart 0 hlen).symm.trans (blit_apply_of_mem (Nat.le_refl _) Nat.one_pos))
    have hreadOnly : (ioDetectDrive { drive with bytes := blit drive.bytes 0 1 zeros } trait).fPacket.fPacketReadOnly =
        true := ioDetectDrive_readOnly_iff.mpr ⟨hzero _ (by decide) (by decide), hzero _ (by decide) (by decide)⟩
    rw [hnow] at hreadOnly
    exact hwritable hreadOnly
  · intro hcond m' hout
    apply ioDetectDrive_congr
    apply hout.first_kept
    intro p hp fuel h hfirst
    obtain ⟨hwritable, hloud, hlba, hlt⟩ := (output_first_iff (hdrive p hp)).mp hfirst
    rcases hcond with hreadOnly | hall
    · rw [hro p hp, hreadOnly] at hwritable
      cases hwritable
    · rcases hall p hp with hquiet | hzero | hfar
      · exact hloud hquiet
      · exact hlba hzero
      · omega

/-- A drive with the magic of EPM and nothing else. -/
def epmDrive : Medium := ⟨fun i => kEPMMagic.getD i 0, true, 2048⟩

/-- `io_construct_blank_drive`, before it is named. -/
def blankTrait : MediaTrait where
  fPacket := ⟨0, 0, true, 0, false⟩
  fName := literal ['/', 'm', 'e', 'd', 'i', 'a', '/', 'n', 'u', 'l', 'l']
  fPacketMime := literal ['*', '/', '*']
  fKind := 0xFFFFFFFF
  fLbaStart := 0
  fLbaEnd := 0
  fSectorSz := 512

theorem redetected_iff_epm : (ioDetectDrive epmDrive blankTrait).fPacket.fPacketReadOnly = false ∧
    ∀ m', Outputs .llp64 idleDevice [⟨0x5000, 512, true, 512, false⟩] epmDrive.bytes m' →
      ioDetectDrive { epmDrive with bytes := m' } blankTrait = ioDetectDrive epmDrive blankTrait := by
  have hepm : StartsWith epmDrive.bytes kEPMMagic := fun _ _ => rfl
  have hro : (ioDetectDrive epmDrive blankTrait).fPacket.fPacketReadOnly = false := by
    rw [ioDetectDrive_epm hepm]
    rfl
  refine ⟨hro, (redetected_iff (fun p hp => ?_) (fun p hp => ?_)).mpr ?_⟩
  · rw [List.mem_singleton.mp hp, hro]
  · rw [List.mem_singleton.mp hp]
    decide
  · refine .inr fun p hp => .inr (.inr ?_)
    rw [List.mem_singleton.mp hp]
    decide

end NeKernel.KernelKit
