import NeKernel.KernelKit.DriveMgr
import NeKernel.Lib.Runs

/-!
# The status of a transfer

`fs_ifs_read` and `fs_ifs_write` take the flag of a packet down, call the drive, and return what the flag
says then. The functions of the drive manager only take it down, too: that of AHCI when the driver has left
an error, those of ATA never, and none of them puts it up again. So the file systems read "bad" after every
transfer through the IFS, the good ones included, and a flag that has been taken down stays down.
-/

namespace NeKernel.KernelKit.Ifs

open Ahci Runs Polls

/-! ## The drive manager -/

/-- What `drv_std_read` or `drv_std_write` does with the packet. The driver of AHCI tells with the error
code how it went, those of ATA leave the code alone, and without a driver nothing is done. -/
inductive DrvStd where
  | ahci (err : Int)
  | ata (moved : Bool)
  | absent
  deriving DecidableEq

/-- The device has transferred the packet. -/
def DrvStd.moved : DrvStd → Bool
  | .ahci err => err = kErrorSuccess
  | .ata moved => moved
  | .absent => false

/-- The packet and `err_global_get()`. -/
structure Io where
  pckt : DrivePacket
  err : Int

def Io.good (s : Io) : Bool := s.pckt.fPacketGood

def Io.setGood (s : Io) (good : Bool) : Io := { s with pckt := { s.pckt with fPacketGood := good } }

/-- The call of the driver, and the test that follows it in a build for AHCI. -/
def drvStd (out : DrvStd) (s : Io) : Bool × Io :=
  match out with
  | .ahci err =>
      (out.moved, if err ≠ kErrorSuccess then { s with err := err }.setGood false else { s with err := err })
  | .ata _ => (out.moved, s)
  | .absent => (out.moved, s)

/-- `io_drv_input`: whether the packet has been transferred, and what is left. -/
def ioDrvInput (out : DrvStd) (s : Io) : Bool × Io := drvStd out s

/-- `io_drv_output`. -/
def ioDrvOutput (out : DrvStd) (s : Io) : Bool × Io :=
  if s.pckt.fPacketReadOnly then (false, s.setGood false)
  else if ¬ s.pckt.fPacketReadOnly ∧ s.pckt.fPacketLba = 0 then (false, s.setGood false)
  else drvStd out s

/-- `io_drv_unimplemented`. -/
def ioDrvUnimplemented (s : Io) : Bool × Io := (false, s)

/-! ## The IFS -/

/-- What a drive's `fInput` or `fOutput` points to. -/
inductive DriveFn where
  | null
  | ioDrvInput
  | ioDrvOutput
  | ioDrvUnimplemented
  deriving DecidableEq

/-- The call through the pointer; one through a null pointer does not come back. -/
def DriveFn.call (out : DrvStd) (s : Io) : DriveFn → Option (Bool × Io)
  | .null => none
  | .ioDrvInput => some (Ifs.ioDrvInput out s)
  | .ioDrvOutput => some (Ifs.ioDrvOutput out s)
  | .ioDrvUnimplemented => some (Ifs.ioDrvUnimplemented s)

/-- The functions of a drive. -/
structure Drive where
  fInput : DriveFn
  fOutput : DriveFn

/-- The drive of `io_construct_main_drive`, that of `io_construct_blank_drive`, and one that has not been
constructed. -/
def mainDrive : Drive := ⟨.ioDrvInput, .ioDrvOutput⟩
def blankDrive : Drive := ⟨.ioDrvUnimplemented, .ioDrvUnimplemented⟩
def nullDrive : Drive := ⟨.null, .null⟩

structure IMountpoint where
  mA : Drive
  mB : Drive
  mC : Drive
  mD : Drive

def kDriveIndexInvalid : Int32 := 4

/-- The `switch` over the index. -/
def IMountpoint.drive (mnt : IMountpoint) (drvIndex : Int32) : Option Drive :=
  if drvIndex = 0 then some mnt.mA
  else if drvIndex = 1 then some mnt.mB
  else if drvIndex = 2 then some mnt.mC
  else if drvIndex = 3 then some mnt.mD
  else none

/-- A call of the IFS: its status code, whether the packet has been transferred, and what is left. -/
structure IfsCall where
  code : Int
  moved : Bool
  io : Io

/-- The body that `fs_ifs_read` and `fs_ifs_write` share. -/
def fsIfs (fn : Drive → DriveFn) (mnt : Option IMountpoint) (drvIndex : Int32) (out : DrvStd) (s : Io) :
    Option IfsCall :=
  match mnt with
  | none => some ⟨kErrorDisk, false, s⟩
  | some mnt =>
      if drvIndex ≥ kDriveIndexInvalid then some ⟨kErrorDisk, false, s⟩
      else
        let s := s.setGood false
        let done := match mnt.drive drvIndex with
          | some drive => (fn drive).call out s
          | none => some (false, s)
        done.map fun r => ⟨if r.2.good then kErrorSuccess else kErrorDisk, r.1, r.2⟩

def fsIfsRead := fsIfs Drive.fInput
def fsIfsWrite := fsIfs Drive.fOutput

/-! ## What the flag can do -/

variable {out : DrvStd} {s : Io} {fn : DriveFn} {done : Bool × Io} {mnt : Option IMountpoint}
  {drvIndex : Int32} {sel : Drive → DriveFn} {r : IfsCall}

@[simp] theorem setGood_good (good : Bool) : (s.setGood good).good = good := rfl

/-- The flag after the driver: down where AHCI has left an error, and as it was else. -/
theorem drvStd_good : (drvStd out s).2.good =
    match out with
    | .ahci err => s.good && decide (err = kErrorSuccess)
    | _ => s.good := by
  cases out with
  | ahci err =>
      unfold drvStd
      by_cases herr : err = kErrorSuccess
      · simp [herr, Io.good]
      · simp [herr]
  | ata _ => rfl
  | absent => rfl

theorem drvStd_moved : (drvStd out s).1 = out.moved := by
  cases out <;> rfl

/-- The drive manager refuses to write the packet. -/
def RefusesWrite (s : Io) : Prop := s.pckt.fPacketReadOnly = true ∨ s.pckt.fPacketLba = 0

theorem ioDrvOutput_refused (h : RefusesWrite s) : ioDrvOutput out s = (false, s.setGood false) := by
  unfold ioDrvOutput
  by_cases hro : s.pckt.fPacketReadOnly = true
  · rw [if_pos hro]
  · rw [if_neg hro, if_pos ⟨hro, h.resolve_left hro⟩]

theorem ioDrvOutput_passed (h : ¬ RefusesWrite s) : ioDrvOutput out s = drvStd out s := by
  obtain ⟨hro, hlba⟩ := not_or.mp h
  unfold ioDrvOutput
  rw [if_neg hro, if_neg fun hzero => hlba hzero.2]

/-- **No function of the drive manager** puts the flag up. -/
theorem DriveFn.good_of_call (h : fn.call out s = some done) (hgood : done.2.good = true) :
    s.good = true := by
  have hdrv : (drvStd out s).2.good = true → s.good = true := by
    rw [drvStd_good]
    cases out with
    | ahci err => exact fun hand => (Bool.and_eq_true_iff.mp hand).1
    | ata _ => exact id
    | absent => exact id
  cases fn with
  | null => cases h
  | ioDrvInput =>
      cases h
      exact hdrv hgood
  | ioDrvOutput =>
      cases h
      by_cases hrefused : RefusesWrite s
      · rw [ioDrvOutput_refused hrefused] at hgood
        cases hgood
      · rw [ioDrvOutput_passed hrefused] at hgood
        exact hdrv hgood
  | ioDrvUnimplemented =>
      cases h
      exact hgood

/-- The call through the pointer transfers the packet. -/
def DriveFn.Transfers (out : DrvStd) (s : Io) : DriveFn → Prop
  | .ioDrvInput => out.moved = true
  | .ioDrvOutput => ¬ RefusesWrite s ∧ out.moved = true
  | _ => False

theorem DriveFn.transfers_setGood {good : Bool} :
    fn.Transfers out (s.setGood good) ↔ fn.Transfers out s := by
  cases fn <;> exact Iff.rfl

theorem ioDrvOutput_moved : (ioDrvOutput out s).1 = true ↔ ¬ RefusesWrite s ∧ out.moved = true := by
  by_cases hrefused : RefusesWrite s
  · rw [ioDrvOutput_refused hrefused]
    simp [hrefused]
  · rw [ioDrvOutput_passed hrefused, drvStd_moved]
    simp [hrefused]

theorem DriveFn.call_moved (h : fn.call out s = some done) :
    done.1 = true ↔ fn.Transfers out s := by
  cases fn with
  | null => cases h
  | ioDrvInput =>
      cases h
      exact Bool.eq_iff_iff.mp drvStd_moved
  | ioDrvOutput =>
      cases h
      exact ioDrvOutput_moved
  | ioDrvUnimplemented =>
      cases h
      exact iff_of_false Bool.false_ne_true id

theorem DriveFn.call_none_iff : fn.call out s = none ↔ fn = .null := by
  cases fn <;> simp [DriveFn.call]

/-! ## The status code -/

/-- The status says whether the packet has been transferred. -/
def StatusRight (call : Option IfsCall) : Prop :=
  ∃ r, call = some r ∧ (r.code = kErrorSuccess ↔ r.moved = true)

/-- **Every call of the IFS** that comes back comes back with an error, and takes the flag down if it gets
to a drive at all. -/
theorem fsIfs_fails (h : fsIfs sel mnt drvIndex out s = some r) :
    r.code = kErrorDisk ∧ (r.io = s ∨ r.io.good = false) := by
  unfold fsIfs at h
  rcases mnt with _ | mnt
  · cases h
    exact ⟨rfl, .inl rfl⟩
  simp only at h
  split at h
  · cases h
    exact ⟨rfl, .inl rfl⟩
  · obtain ⟨done, hcall, rfl⟩ := Option.map_eq_some_iff.mp h
    have hdown : done.2.good ≠ true := by
      intro hgood
      split at hcall
      · exact Bool.false_ne_true (DriveFn.good_of_call hcall hgood)
      · cases hcall
        cases hgood
    exact ⟨if_neg hdown, .inr (Bool.eq_false_iff.mpr hdown)⟩

/-- The drive the index stands for. -/
def driveAt (mnt : Option IMountpoint) (drvIndex : Int32) : Option Drive :=
  mnt.bind fun mnt => if drvIndex ≥ kDriveIndexInvalid then none else mnt.drive drvIndex

theorem fsIfs_noDrive (h : driveAt mnt drvIndex = none) :
    ∃ r, fsIfs sel mnt drvIndex out s = some r ∧ r.moved = false := by
  rcases mnt with _ | mnt
  · exact ⟨_, rfl, rfl⟩
  unfold fsIfs
  simp only [driveAt, Option.bind_some] at h ⊢
  split
  · exact ⟨_, rfl, rfl⟩
  · next hindex =>
      rw [if_neg hindex] at h
      rw [h]
      exact ⟨_, rfl, rfl⟩

theorem fsIfs_drive {drive : Drive} (h : driveAt mnt drvIndex = some drive) :
    fsIfs sel mnt drvIndex out s = ((sel drive).call out (s.setGood false)).map fun r =>
      ⟨if r.2.good then kErrorSuccess else kErrorDisk, r.1, r.2⟩ := by
  rcases mnt with _ | mnt
  · cases h
  unfold fsIfs
  simp only [driveAt, Option.bind_some] at h ⊢
  split
  · next hindex =>
      rw [if_pos hindex] at h
      cases h
  · next hindex =>
      rw [if_neg hindex] at h
      rw [h]

/-- The status is right exactly when no packet is transferred: there is no drive for it, or that drive has
a function, and this does not transfer it. -/
theorem fsIfs_right_iff :
    StatusRight (fsIfs sel mnt drvIndex out s) ↔
      ∀ drive, driveAt mnt drvIndex = some drive → sel drive ≠ .null ∧ ¬ (sel drive).Transfers out s := by
  have hne : kErrorDisk ≠ kErrorSuccess := by decide
  cases hdrive : driveAt mnt drvIndex with
  | none =>
      obtain ⟨r, hr, hmoved⟩ : ∃ r, fsIfs sel mnt drvIndex out s = some r ∧ r.moved = false :=
        fsIfs_noDrive hdrive
      refine iff_of_true ⟨r, hr, ?_⟩ fun _ habs => by cases habs
      rw [(fsIfs_fails hr).1, hmoved]
      exact iff_of_false hne Bool.false_ne_true
  | some drive =>
      simp only [Option.some.injEq, forall_eq']
      rw [fsIfs_drive hdrive]
      cases hcall : (sel drive).call out (s.setGood false) with
      | none =>
          have hnull := DriveFn.call_none_iff.mp hcall
          exact iff_of_false (fun ⟨_, habs, _⟩ => by cases habs) fun h => h.1 hnull
      | some done =>
          have hdown : ¬ done.2.good = true := fun hgood =>
            Bool.false_ne_true (DriveFn.good_of_call hcall hgood)
          have hnull : sel drive ≠ .null := fun hnull => by
            rw [DriveFn.call_none_iff.mpr hnull] at hcall
            cases hcall
          have hmoved : done.1 = true ↔ (sel drive).Transfers out s :=
            (DriveFn.call_moved hcall).trans DriveFn.transfers_setGood
          rw [Option.map_some, if_neg hdown]
          constructor
          · rintro ⟨r, hr, hcode⟩
            cases hr
            exact ⟨hnull, fun htransfer => hne (hcode.mpr (hmoved.mpr htransfer))⟩
          · rintro ⟨-, hidle⟩
            exact ⟨_, rfl, iff_of_false hne fun htrue => hidle (hmoved.mp htrue)⟩

/-! ## The flag -/

/-- The flag behind a call says whether the packet has been transferred. -/
def FlagRight (done : Bool × Io) : Prop := done.2.good = done.1

instance : Decidable (FlagRight done) := inferInstanceAs (Decidable (_ = _))

/-- The flag was up before, where AHCI has transferred the packet, and said the right thing already, where
the driver does not tell. -/
def FlagReady (out : DrvStd) (s : Io) : Prop :=
  match out with
  | .ahci err => err = kErrorSuccess → s.good = true
  | .ata moved => s.good = moved
  | .absent => s.good = false

theorem drvStd_right_iff : FlagRight (drvStd out s) ↔ FlagReady out s := by
  rw [FlagRight, drvStd_good, drvStd_moved]
  cases out with
  | ahci err =>
      by_cases herr : err = kErrorSuccess
      · simp [DrvStd.moved, FlagReady, herr]
      · simp [DrvStd.moved, FlagReady, herr]
  | ata moved => exact Iff.rfl
  | absent => exact Iff.rfl

theorem ioDrvOutput_right_iff :
    FlagRight (ioDrvOutput out s) ↔ RefusesWrite s ∨ FlagReady out s := by
  by_cases hrefused : RefusesWrite s
  · rw [ioDrvOutput_refused hrefused]
    exact iff_of_true rfl (.inl hrefused)
  · rw [ioDrvOutput_passed hrefused, drvStd_right_iff]
    exact ⟨.inr, fun h => h.resolve_left hrefused⟩

/-- **The status of a transfer** is right exactly when the IFS transfers nothing, and the flag exactly when
the write is refused or the flag was ready for what the driver does. -/
theorem status_right_iff (mnt : Option IMountpoint) (drvIndex : Int32) (out : DrvStd) (s : Io) :
    (StatusRight (fsIfsRead mnt drvIndex out s) ↔ ∀ drive, driveAt mnt drvIndex = some drive →
      drive.fInput ≠ .null ∧ ¬ drive.fInput.Transfers out s) ∧
    (StatusRight (fsIfsWrite mnt drvIndex out s) ↔ ∀ drive, driveAt mnt drvIndex = some drive →
      drive.fOutput ≠ .null ∧ ¬ drive.fOutput.Transfers out s) ∧
    (FlagRight (ioDrvInput out s) ↔ FlagReady out s) ∧
    (FlagRight (ioDrvOutput out s) ↔ RefusesWrite s ∨ FlagReady out s) :=
  ⟨fsIfs_right_iff, fsIfs_right_iff, drvStd_right_iff, ioDrvOutput_right_iff⟩

/-! ## Runs -/

/-- What happens to a packet: transfers, calls of the IFS, and what the file systems and the rest of the
kernel set in between. The flag they leave alone. -/
inductive IoStep where
  | input (out : DrvStd)
  | output (out : DrvStd)
  | ifsRead (mnt : Option IMountpoint) (drvIndex : Int32) (out : DrvStd)
  | ifsWrite (mnt : Option IMountpoint) (drvIndex : Int32) (out : DrvStd)
  | prepare (content size lba : UInt64)
  | error (err : Int)

inductive IoStep.Step : Io → IoStep → Io → Prop
  | input {s : Io} (out : DrvStd) : Step s (.input out) (ioDrvInput out s).2
  | output {s : Io} (out : DrvStd) : Step s (.output out) (ioDrvOutput out s).2
  | ifsRead {s : Io} {mnt : Option IMountpoint} {drvIndex : Int32} {out : DrvStd} {r : IfsCall} :
      fsIfsRead mnt drvIndex out s = some r → Step s (.ifsRead mnt drvIndex out) r.io
  | ifsWrite {s : Io} {mnt : Option IMountpoint} {drvIndex : Int32} {out : DrvStd} {r : IfsCall} :
      fsIfsWrite mnt drvIndex out s = some r → Step s (.ifsWrite mnt drvIndex out) r.io
  | prepare {s : Io} (content size lba : UInt64) : Step s (.prepare content size lba)
      { s with pckt.fPacketContent := content, pckt.fPacketSize := size, pckt.fPacketLba := lba }
  | error {s : Io} (err : Int) : Step s (.error err) { s with err := err }

theorem drvStd_down (h : s.good = false) : (drvStd out s).2.good = false := by
  rw [drvStd_good, h]
  cases out <;> rfl

/-- **A flag that is down** stays down, whatever the drive does from then on. -/
theorem down_forever {s s' : Io} (h : Reachable IoStep.Step s s') (hs : s.good = false) :
    s'.good = false := by
  refine h.inv (I := fun s => s.good = false) hs fun s l s' hs _ hstep => ?_
  have hifs : ∀ {r : IfsCall}, r.io = s ∨ r.io.good = false → r.io.good = false := by
    rintro r (hsame | hdown)
    · rw [hsame]
      exact hs
    · exact hdown
  cases hstep with
  | input out => exact drvStd_down hs
  | output out =>
      by_cases hrefused : RefusesWrite s
      · rw [ioDrvOutput_refused hrefused]
        rfl
      · rw [ioDrvOutput_passed hrefused]
        exact drvStd_down hs
  | ifsRead h => exact hifs (fsIfs_fails h).2
  | ifsWrite h => exact hifs (fsIfs_fails h).2
  | prepare content size lba => exact hs
  | error err => exact hs

/-! ## The driver of AHCI -/

/-- The device does the command without an error. -/
def Completes (dm : DataModel) (rq : IoRequest) (dev : AhciDevice) : Prop :=
  ¬ Skips dm rq dev ∧ ∀ slot, waitSlot dm dev = some slot →
    (poll (fun k => dev.ciIssued k &&& (1 <<< slot.toUInt32) = 0) (kTimeout + 1) 0).isSome ∧
      dev.is &&& kSATAErrTaskFile = 0

/-- Giving the buffer back does not clear an error. -/
theorem giveBuffer_err {rq : IoRequest} {h : Hba} (herr : h.pool.err ≠ kErrorSuccess) :
    (giveBuffer rq h).pool.err ≠ kErrorSuccess := by
  simp only [giveBuffer, DmaKit.rtlDmaFree]
  split
  · exact herr
  · split
    · exact show kErrorDmaExhausted ≠ kErrorSuccess by decide
    · exact herr

/-- **The driver of AHCI** leaves in the error code whether the device has done the command. -/
theorem ahci_err_iff {dm : DataModel} {rq : IoRequest} {dev : AhciDevice} {fuel : Nat} {h : Hba}
    (hret : (drvStdInputOutputAhci dm rq dev fuel h).returned = true) :
    (drvStdInputOutputAhci dm rq dev fuel h).hba.pool.err = kErrorSuccess ↔ Completes dm rq dev := by
  by_cases hskip : Skips dm rq dev
  · rw [io_skips hskip]
    exact iff_of_false (show kErrorDisk ≠ kErrorSuccess by decide) fun hdone => hdone.1 hskip
  obtain ⟨slot, hslot, hcall⟩ := io_issues fuel h hskip
  have hcompletes : Completes dm rq dev ↔
      (poll (fun k => dev.ciIssued k &&& (1 <<< slot.toUInt32) = 0) (kTimeout + 1) 0).isSome ∧
        dev.is &&& kSATAErrTaskFile = 0 := by
    unfold Completes
    simp only [hskip, hslot, not_false_eq_true, true_and, Option.some.injEq, forall_eq']
  have hcorrupted : kErrorDiskIsCorrupted ≠ kErrorSuccess := by decide
  rw [hcall] at hret ⊢
  rw [hcompletes]
  unfold complete at hret ⊢
  dsimp only at hret ⊢
  cases hdone : poll (fun k => dev.ciIssued k &&& (1 <<< slot.toUInt32) = 0) (kTimeout + 1) 0 with
  | none =>
      -- the timeout: the error is set before the buffer is given back
      refine iff_of_false ?_ fun hsome => by cases hsome.1
      exact giveBuffer_err hcorrupted
  | some k =>
      by_cases herr : dev.is &&& kSATAErrTaskFile = 0
      · simp only [hdone, herr, ne_eq, not_true_eq_false, if_false] at hret ⊢
        split
        · next hbusy =>
            simp only [hbusy] at hret
            cases hret
        · exact iff_of_true rfl ⟨rfl, trivial⟩
      · simp only [herr, ne_eq, not_false_eq_true, if_true]
        exact iff_of_false hcorrupted fun habs => habs.2

theorem checkPacket_drvStd (call : IoCall) (pckt : DrivePacket) (err : Int) :
    checkPacket call pckt = (drvStd (.ahci call.hba.pool.err) ⟨pckt, err⟩).2.pckt := by
  unfold checkPacket drvStd
  by_cases hset : call.hba.pool.err = kErrorSuccess
  · simp [hset]
  · simp [hset, Io.setGood]

/-- A packet that `DriveMgr` reads with that driver. -/
theorem ioDrvInput_ahci (dm : DataModel) (dev : AhciDevice) (fuel : Nat) (pckt : DrivePacket) (h : Hba)
    (err : Int) :
    (KernelKit.ioDrvInput dm dev fuel pckt h).2 =
      (ioDrvInput (.ahci (KernelKit.ioDrvInput dm dev fuel pckt h).1.hba.pool.err)
        ⟨pckt, err⟩).2.pckt := checkPacket_drvStd _ _ _

/-- A packet that it writes. -/
theorem ioDrvOutput_ahci (dm : DataModel) (dev : AhciDevice) (fuel : Nat) (pckt : DrivePacket) (h : Hba)
    (err : Int) :
    (KernelKit.ioDrvOutput dm dev fuel pckt h).2 =
      (ioDrvOutput (.ahci (KernelKit.ioDrvOutput dm dev fuel pckt h).1.hba.pool.err)
        ⟨pckt, err⟩).2.pckt := by
  unfold KernelKit.ioDrvOutput ioDrvOutput
  split
  · rfl
  · split
    · rfl
    · exact checkPacket_drvStd _ _ _

/-- A read of one sector that the device does: the IFS says that it has failed, and so does the flag, once
it is down. The flag of an ATA drive stays up after a read that has failed. -/
theorem good_read_fails :
    (drvStdRead .llp64 idleDevice 1 512 0x5000 kAHCISectorSize 512 onePageLeft).hba.pool.err =
        kErrorSuccess ∧
      (∃ call, fsIfsRead (some ⟨mainDrive, nullDrive, nullDrive, nullDrive⟩) 0 (.ahci kErrorSuccess)
        ⟨⟨0x5000, 512, true, 512, false⟩, kErrorSuccess⟩ = some call ∧
        call.moved = true ∧ call.code = kErrorDisk) ∧
      ¬ FlagRight (ioDrvInput (.ahci kErrorSuccess) ⟨⟨0x5000, 512, false, 512, false⟩, kErrorSuccess⟩) ∧
      ¬ FlagRight (ioDrvInput (.ata false) ⟨⟨0x5000, 512, true, 512, false⟩, kErrorSuccess⟩) := by
  have hskip : ¬ Skips .llp64 ⟨false, true, false, 512, 0x5000, kAHCISectorSize, 512⟩ idleDevice := by
    simp only [Skips, not_or]
    exact ⟨by decide, by decide, by decide, by decide⟩
  have hfirst : waitSlot .llp64 idleDevice = some 0 := by decide
  have hdone : Completes .llp64 ⟨false, true, false, 512, 0x5000, kAHCISectorSize, 512⟩ idleDevice := by
    refine ⟨hskip, fun slot hslot => ?_⟩
    cases hfirst.symm.trans hslot
    exact ⟨by decide, rfl⟩
  refine ⟨(ahci_err_iff ?_).mpr hdone, ⟨_, rfl, rfl, rfl⟩, by decide, by decide⟩
  obtain ⟨slot, hslot, hcall⟩ := io_issues 1 onePageLeft hskip
  cases hfirst.symm.trans hslot
  rw [hcall]
  rfl

end NeKernel.KernelKit.Ifs
