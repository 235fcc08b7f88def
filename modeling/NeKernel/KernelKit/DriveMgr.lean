import NeKernel.HALKit.AhciCommand
import Mathlib.Order.Interval.Set.LinearOrder

/-!
# Two ways to an AHCI drive

A packet goes to the drive through `DriveMgr` (`io_drv_input`, `io_drv_output`) or through the AHCI device
of StorageKit (`sk_io_read_ahci`, `sk_io_write_ahci`). The driver divides the packet's address, which is
in bytes, by the size of a sector; StorageKit has divided it before. And `DriveMgr` alone refuses to write
a packet that is read-only or has the address zero.
-/

namespace NeKernel.KernelKit

open Ahci
open HALKit (countSectors countSectors_pos ahciFis_told kSectorSize)

def kAHCISectorSize : UInt64 := 512

/-- `DriveTrait::DrivePacket`. -/
structure DrivePacket where
  fPacketContent : UInt64
  fPacketSize : UInt64
  fPacketGood : Bool
  fPacketLba : UInt64
  fPacketReadOnly : Bool

structure DriveTrait where
  fPacket : DrivePacket

/-! ## DriveMgr -/

/-- `drv_std_read` and `drv_std_write`, where AHCI is the driver. -/
def drvStdRead (dm : DataModel) (dev : AhciDevice) (fuel : Nat) (lba buffer sectorSz sizeBuffer : UInt64)
    (h : Hba) : IoCall :=
  drvStdInputOutputAhci dm ⟨false, true, false, lba, buffer, sectorSz, sizeBuffer⟩ dev fuel h

def drvStdWrite (dm : DataModel) (dev : AhciDevice) (fuel : Nat) (lba buffer sectorSz sizeBuffer : UInt64)
    (h : Hba) : IoCall :=
  drvStdInputOutputAhci dm ⟨true, true, false, lba, buffer, sectorSz, sizeBuffer⟩ dev fuel h

/-- A packet the driver has left an error for is not good. -/
def checkPacket (call : IoCall) (pckt : DrivePacket) : DrivePacket :=
  if call.hba.pool.err ≠ kErrorSuccess then { pckt with fPacketGood := false } else pckt

/-- `io_drv_input`. -/
def ioDrvInput (dm : DataModel) (dev : AhciDevice) (fuel : Nat) (pckt : DrivePacket) (h : Hba) :
    IoCall × DrivePacket :=
  let call := drvStdRead dm dev fuel pckt.fPacketLba pckt.fPacketContent kAHCISectorSize
    pckt.fPacketSize h
  (call, checkPacket call pckt)

/-- `io_drv_output`. -/
def ioDrvOutput (dm : DataModel) (dev : AhciDevice) (fuel : Nat) (pckt : DrivePacket) (h : Hba) :
    IoCall × DrivePacket :=
  if pckt.fPacketReadOnly then (⟨h, none, true⟩, { pckt with fPacketGood := false })
  else if ¬ pckt.fPacketReadOnly ∧ pckt.fPacketLba = 0 then
    (⟨h, none, true⟩, { pckt with fPacketGood := false })
  else
    let call := drvStdWrite dm dev fuel pckt.fPacketLba pckt.fPacketContent kAHCISectorSize
      pckt.fPacketSize h
    (call, checkPacket call pckt)

/-! ## StorageKit -/

structure IMountpoint where
  mA : DriveTrait
  mB : DriveTrait
  mC : DriveTrait
  mD : DriveTrait

/-- `GetAddressOf`. -/
def IMountpoint.getAddressOf (mnt : IMountpoint) (index : UInt32) : Option DriveTrait :=
  if index = 0 then some mnt.mA
  else if index = 1 then some mnt.mB
  else if index = 2 then some mnt.mC
  else if index = 3 then some mnt.mD
  else none

structure AHCIDeviceInterface where
  fDriveIndex : UInt32

/-- The body that `sk_io_read_ahci` and `sk_io_write_ahci` share. -/
def skIoAhci (write : Bool) (self : Option AHCIDeviceInterface) (mnt : IMountpoint) (dm : DataModel)
    (dev : AhciDevice) (fuel : Nat) (h : Hba) : IoCall :=
  let h := h.fail kErrorDisk
  match self with
  | none => ⟨h, none, true⟩
  | some self =>
      match mnt.getAddressOf self.fDriveIndex with
      | none => ⟨h, none, true⟩
      | some disk =>
          drvStdInputOutputAhci dm
            ⟨write, true, false, disk.fPacket.fPacketLba / kAHCISectorSize, disk.fPacket.fPacketContent,
              kAHCISectorSize, disk.fPacket.fPacketSize⟩
            dev fuel (h.fail kErrorSuccess)

def skIoReadAhci := skIoAhci false
def skIoWriteAhci := skIoAhci true

/-! ## The sectors that are reached -/

/-- The sectors the device is told to read or write. -/
def sectors (call : IoCall) : Set Nat :=
  {s | ∃ cmd, call.issued = some cmd ∧ cmd.table.fis.told.sectorNumber ≤ s ∧
    s < cmd.table.fis.told.sectorNumber + cmd.table.fis.told.sectors}

variable {dm : DataModel} {dev : AhciDevice} {fuel : Nat} {h : Hba} {rq : IoRequest}
  {pckt : DrivePacket} {lba : UInt64} {a b c : Nat} {self : AHCIDeviceInterface} {mnt : IMountpoint}
  {disk : DriveTrait}

theorem sectors_of_issued {call : IoCall} {cmd : IssuedCommand} (hcmd : call.issued = some cmd) :
    sectors call = Set.Ico cmd.table.fis.told.sectorNumber
      (cmd.table.fis.told.sectorNumber + cmd.table.fis.told.sectors) := by
  ext s
  constructor
  · rintro ⟨cmd', hcmd', hs⟩
    cases hcmd.symm.trans hcmd'
    exact hs
  · exact fun hs => ⟨cmd, hcmd, hs⟩

theorem sectors_of_none {call : IoCall} (hnone : call.issued = none) : sectors call = ∅ := by
  ext s
  constructor
  · rintro ⟨cmd, hcmd, -⟩
    rw [hnone] at hcmd
    cases hcmd
  · exact fun habs => absurd habs (Set.notMem_empty s)

/-- The packet has no bytes, or the driver finds no slot. -/
def Quiet (dm : DataModel) (dev : AhciDevice) (pckt : DrivePacket) : Prop :=
  pckt.fPacketContent = 0 ∨ pckt.fPacketSize = 0 ∨ waitSlot dm dev = none

/-- The request that is made of a packet, with the address `lba`. -/
def request (write : Bool) (pckt : DrivePacket) (lba : UInt64) : IoRequest :=
  ⟨write, true, false, lba, pckt.fPacketContent, kAHCISectorSize, pckt.fPacketSize⟩

theorem skips_request_iff {write : Bool} :
    Skips dm (request write pckt lba) dev ↔ Quiet dm dev pckt :=
  have hsector : kAHCISectorSize ≠ 0 := by decide
  ⟨fun hskip => hskip.resolve_left hsector, .inr⟩

theorem sectors_quiet {write : Bool} (hq : Quiet dm dev pckt) :
    sectors (drvStdInputOutputAhci dm (request write pckt lba) dev fuel h) = ∅ := by
  apply sectors_of_none
  rw [io_skips (skips_request_iff.mpr hq)]

/-- The command of a request, as the device is told it. -/
theorem command_told {write : Bool} {slot ptr : UInt64} {header : HbaCmdHeader} :
    (command (request write pckt lba) slot ptr header).table.fis.told =
      ⟨countSectors 16 (pckt.fPacketSize.toNat / kSectorSize),
        (lba / kAHCISectorSize).toNat % 2 ^ 48⟩ := ahciFis_told

/-- A request reaches as many sectors as its size is for, from its address on. -/
theorem sectors_loud {write : Bool} (hq : ¬ Quiet dm dev pckt) :
    sectors (drvStdInputOutputAhci dm (request write pckt lba) dev fuel h) =
      Set.Ico ((lba / kAHCISectorSize).toNat % 2 ^ 48) ((lba / kAHCISectorSize).toNat % 2 ^ 48 +
        countSectors 16 (pckt.fPacketSize.toNat / kSectorSize)) := by
  have hissued : ¬ Skips dm (request write pckt lba) dev := fun hskip => hq (skips_request_iff.mp hskip)
  obtain ⟨slot, -, hcall⟩ := io_issues fuel h hissued
  rw [sectors_of_issued (congrArg IoCall.issued hcall), command_told]

/-- The sector of an address, and the one it is when it is divided twice, are one for the device. -/
def SameSector (lba : UInt64) : Prop :=
  (lba / kAHCISectorSize).toNat % 2 ^ 48 = (lba / kAHCISectorSize / kAHCISectorSize).toNat % 2 ^ 48

instance : Decidable (SameSector lba) := inferInstanceAs (Decidable (_ = _))

/-- In a drive of `2 ^ 48` sectors that is the first sector only. -/
theorem sameSector_iff_lt (hdrive : lba.toNat / 512 < 2 ^ 48) : SameSector lba ↔ lba.toNat < 512 := by
  have hdiv : ∀ x : UInt64, (x / kAHCISectorSize).toNat = x.toNat / 512 := fun _ => UInt64.toNat_div _ _
  rw [SameSector, hdiv, hdiv, Nat.mod_eq_of_lt hdrive, hdiv, Nat.mod_eq_of_lt (by omega)]
  omega

/-- Two requests of a packet reach the same sectors exactly when they reach none, or their addresses are
those of one sector. -/
theorem sectors_request_iff {write : Bool} {lba' : UInt64} {h' : Hba} :
    sectors (drvStdInputOutputAhci dm (request write pckt lba) dev fuel h) =
        sectors (drvStdInputOutputAhci dm (request write pckt lba') dev fuel h') ↔
      Quiet dm dev pckt ∨
        (lba / kAHCISectorSize).toNat % 2 ^ 48 = (lba' / kAHCISectorSize).toNat % 2 ^ 48 := by
  by_cases hq : Quiet dm dev pckt
  · rw [sectors_quiet hq, sectors_quiet hq]
    exact ⟨fun _ => .inl hq, fun _ => rfl⟩
  · rw [sectors_loud hq, sectors_loud hq,
      Set.Ico_eq_Ico_iff (.inl (Nat.lt_add_of_pos_right (countSectors_pos _ _)))]
    constructor
    · exact fun hsame => .inr hsame.1
    · intro hsame
      have hstart := hsame.resolve_left hq
      exact ⟨hstart, by rw [hstart]⟩

/-! ## The two ways -/

/-- StorageKit asks for the packet of its drive, with the address divided. -/
theorem skIoAhci_disk {write : Bool} (hdisk : mnt.getAddressOf self.fDriveIndex = some disk) :
    skIoAhci write (some self) mnt dm dev fuel h =
      drvStdInputOutputAhci dm (request write disk.fPacket (disk.fPacket.fPacketLba / kAHCISectorSize))
        dev fuel (h.fail kErrorSuccess) := by
  simp only [skIoAhci, hdisk]
  rfl

/-- A read reaches the same sectors both ways exactly when it reaches none, or dividing its address twice
does not matter. -/
theorem input_same_iff (hdisk : mnt.getAddressOf self.fDriveIndex = some disk) :
    sectors (ioDrvInput dm dev fuel disk.fPacket h).1 =
        sectors (skIoReadAhci (some self) mnt dm dev fuel h) ↔
      Quiet dm dev disk.fPacket ∨ SameSector disk.fPacket.fPacketLba := by
  rw [skIoReadAhci, skIoAhci_disk hdisk]
  exact sectors_request_iff

/-- A write must pass `DriveMgr`, too. -/
theorem output_same_iff (hdisk : mnt.getAddressOf self.fDriveIndex = some disk) :
    sectors (ioDrvOutput dm dev fuel disk.fPacket h).1 =
        sectors (skIoWriteAhci (some self) mnt dm dev fuel h) ↔
      Quiet dm dev disk.fPacket ∨ disk.fPacket.fPacketReadOnly = false ∧
        disk.fPacket.fPacketLba ≠ 0 ∧ SameSector disk.fPacket.fPacketLba := by
  rw [skIoWriteAhci, skIoAhci_disk hdisk]
  by_cases hrefused : disk.fPacket.fPacketReadOnly = true ∨ disk.fPacket.fPacketLba = 0
  · have hnone : (ioDrvOutput dm dev fuel disk.fPacket h).1.issued = none := by
      unfold ioDrvOutput
      split
      · rfl
      · next hro =>
          rw [if_pos ⟨hro, hrefused.resolve_left hro⟩]
    rw [sectors_of_none hnone]
    by_cases hq : Quiet dm dev disk.fPacket
    · rw [sectors_quiet hq]
      exact ⟨fun _ => .inl hq, fun _ => rfl⟩
    · rw [sectors_loud hq]
      constructor
      · intro hempty
        exact absurd (Nat.lt_add_of_pos_right (countSectors_pos _ _))
          (Set.Ico_eq_empty_iff.mp hempty.symm)
      · rintro (habs | ⟨hro, hlba, -⟩)
        · exact absurd habs hq
        · rcases hrefused with hro' | hlba'
          · rw [hro] at hro'
            cases hro'
          · exact absurd hlba' hlba
  · obtain ⟨hro, hlba⟩ := not_or.mp hrefused
    have hpass : (ioDrvOutput dm dev fuel disk.fPacket h).1 = drvStdInputOutputAhci dm
        (request true disk.fPacket disk.fPacket.fPacketLba) dev fuel h := by
      rw [ioDrvOutput, if_neg hro, if_neg fun hzero => hlba hzero.2]
      rfl
    rw [hpass, sectors_request_iff]
    exact or_congr_right ⟨fun hsame => ⟨Bool.eq_false_iff.mpr hro, hlba, hsame⟩, fun hsame => hsame.2.2⟩

/-- **The two ways to the drive** reach the same sectors exactly when they reach none, or when dividing the
packet's address twice does not matter and, for a write, `DriveMgr` does not refuse it. -/
theorem same_sectors_iff (hdisk : mnt.getAddressOf self.fDriveIndex = some disk) :
    (sectors (ioDrvInput dm dev fuel disk.fPacket h).1 =
        sectors (skIoReadAhci (some self) mnt dm dev fuel h) ↔
      Quiet dm dev disk.fPacket ∨ SameSector disk.fPacket.fPacketLba) ∧
    (sectors (ioDrvOutput dm dev fuel disk.fPacket h).1 =
        sectors (skIoWriteAhci (some self) mnt dm dev fuel h) ↔
      Quiet dm dev disk.fPacket ∨ disk.fPacket.fPacketReadOnly = false ∧
        disk.fPacket.fPacketLba ≠ 0 ∧ SameSector disk.fPacket.fPacketLba) :=
  ⟨input_same_iff hdisk, output_same_iff hdisk⟩

/-- Four drives, with one packet for a sector at the address `lba`. -/
def drivesAt (lba : UInt64) : IMountpoint :=
  let disk : DriveTrait := ⟨⟨0x5000, 512, true, lba, false⟩⟩
  ⟨disk, disk, disk, disk⟩

/-- The byte behind the first of the drive is in the same sector both ways. -/
theorem same_sectors_iff_first :
    sectors (ioDrvInput .llp64 idleDevice 1 (drivesAt 1).mA.fPacket onePageLeft).1 =
        sectors (skIoReadAhci (some ⟨0⟩) (drivesAt 1) .llp64 idleDevice 1 onePageLeft) ∧
      sectors (ioDrvOutput .llp64 idleDevice 1 (drivesAt 1).mA.fPacket onePageLeft).1 =
        sectors (skIoWriteAhci (some ⟨0⟩) (drivesAt 1) .llp64 idleDevice 1 onePageLeft) := by
  have hdisk : (drivesAt 1).getAddressOf (AHCIDeviceInterface.mk 0).fDriveIndex =
      some (drivesAt 1).mA := rfl
  exact ⟨(same_sectors_iff hdisk).1.mpr (.inr rfl),
    (same_sectors_iff hdisk).2.mpr (.inr ⟨rfl, by decide, rfl⟩)⟩

/-- The second sector of the drive is the first one for StorageKit. -/
theorem second_sector_differs :
    sectors (ioDrvInput .llp64 idleDevice 1 (drivesAt 512).mA.fPacket onePageLeft).1 ≠
      sectors (skIoReadAhci (some ⟨0⟩) (drivesAt 512) .llp64 idleDevice 1 onePageLeft) := by
  intro hsame
  have hdisk : (drivesAt 512).getAddressOf (AHCIDeviceInterface.mk 0).fDriveIndex =
      some (drivesAt 512).mA := rfl
  rcases (input_same_iff hdisk).mp hsame with hquiet | hsector
  · rcases hquiet with hnull | hempty | hslot
    · exact absurd hnull (by decide)
    · exact absurd hempty (by decide)
    · exact absurd hslot (by decide)
  · exact absurd hsector (by decide)

end NeKernel.KernelKit
