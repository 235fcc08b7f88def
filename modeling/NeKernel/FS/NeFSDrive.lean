import NeKernel.FS.NeFSParser
import NeKernel.KernelKit.IFS
import NeKernel.Lib.Trails

/-!
# NeFS on a drive with an end

The operations of `NeFileSystemParser` that follow links, on a drive that does not take every transfer. A
transfer that fails leaves the buffer as it was and clears `fPacketGood`, which no transfer sets again. The
searches for a catalog, `CreateFork` and `WriteCatalog` look at it; the loops of `ReadCatalog` and
`RemoveCatalog` do not, they go on with what the buffer holds.

A step that does not return is `none`, as in the parser on a drive without an end.
-/

namespace NeKernel.NeFS.Ended

open ByteStore Scan

/-- A drive, and which transfers of so many bytes at an LBA it takes. -/
structure EndedDrive extends DriveTrait where
  fReaches : (lba sz : Nat) → Bool

/-- The bytes of the drive, and `fPacketGood` of its packet. -/
structure Medium where
  bytes : Store
  fPacketGood : Bool

namespace Medium

/-- What a transfer that fails leaves. -/
def failed (s : Medium) : Medium := { s with fPacketGood := false }

/-- `fInput` to the buffer `buf`. -/
def fInput (s : Medium) (drv : EndedDrive) (lba sz : Nat) (buf : Store) : Store × Medium :=
  if drv.fReaches lba sz then (slice s.bytes (drv.fAddress lba), s) else (buf, s.failed)

/-- `fOutput`. Nothing is written at LBA 0. -/
def fOutput (s : Medium) (drv : EndedDrive) (lba sz : Nat) (src : Store) : Medium :=
  if lba ≠ 0 ∧ drv.fReaches lba sz then { s with bytes := blit s.bytes (drv.fAddress lba) sz src }
  else s.failed

theorem fInput_reached {s : Medium} {drv : EndedDrive} {lba sz : Nat} {buf : Store}
    (h : drv.fReaches lba sz = true) : s.fInput drv lba sz buf = (slice s.bytes (drv.fAddress lba), s) := by
  rw [fInput, if_pos h]

theorem fInput_failed {s : Medium} {drv : EndedDrive} {lba sz : Nat} {buf : Store}
    (h : drv.fReaches lba sz = false) : s.fInput drv lba sz buf = (buf, s.failed) := by
  rw [fInput, h, if_neg Bool.false_ne_true]

/-- `fInput` of the partition block. -/
def inputBlock (s : Medium) (drv : EndedDrive) : Store × Medium :=
  s.fInput drv kNeFSRootCatalogStartAddress NefsRootPartitionBlock.size zeros

end Medium

/-- What the loops keep from turn to turn: where they are, their buffer, and the drive. -/
structure Cursor where
  lba : Nat
  buf : Store
  medium : Medium

/-! ## `FindCatalog` -/

section
open NefsCatalogStruct

/-- One turn of `scan_from`. -/
def scanTurn (drv : EndedDrive) (startCatalog : Nat) (catalogName : CString) (allowHidden : Bool)
    (c : Cursor) : Turn (Option (Nat × Store) × Medium) Cursor :=
  if startCatalog ≤ c.lba ∧ c.medium.fPacketGood then
    let (tmp, s) := c.medium.fInput drv c.lba size c.buf
    if (nameOf tmp).chars.isSuffixOf catalogName.chars then
      if status.get tmp = kNeFSStatusLocked ∧ !allowHidden then .leave (none, s)
      else if !created (flags.get tmp) then .leave (none, s)
      else .leave (some (c.lba, tmp), s)
    else .again ⟨nextSibling.get tmp, tmp, s⟩
  else .leave (none, c.medium)

/-- `scan_from`. -/
def scanFrom (drv : EndedDrive) (startCatalog : Nat) (catalogName : CString) (allowHidden : Bool)
    (lbaStart : Nat) (s : Medium) : Option (Option (Nat × Store) × Medium) :=
  whileLoop (scanTurn drv startCatalog catalogName allowHidden) (scanFuel + 1) ⟨lbaStart, zeros, s⟩

/-- `FindCatalog` without `local_search`. -/
def findCatalogAnywhere (drv : EndedDrive) (catalogName : CString) (searchHidden : Bool) (s : Medium) :
    Option (Option (Nat × Store) × Medium) :=
  if catalogName.chars = [] then some (none, s)
  else
    let (part, s) := s.inputBlock drv
    let startCatalog := NefsRootPartitionBlock.startCatalog.get part
    scanFrom drv startCatalog catalogName searchHidden startCatalog s

/-- The records after the parent's, then all of them. -/
def scanLocal (drv : EndedDrive) (startCatalog : Nat) (catalogName : CString) (searchHidden : Bool)
    (parentCatalog : Option (Nat × Store)) (s : Medium) : Option (Option (Nat × Store) × Medium) :=
  match parentCatalog with
  | none => scanFrom drv startCatalog catalogName searchHidden startCatalog s
  | some parent => do
      let (found, s) ← scanFrom drv startCatalog catalogName searchHidden (nextSibling.get parent.2) s
      if found.isSome then return (found, s)
      else scanFrom drv startCatalog catalogName searchHidden startCatalog s

/-- `FindCatalog` with `local_search`, for any path but the root's. -/
def findCatalogLocal (drv : EndedDrive) (catalogName : CString) (searchHidden : Bool) (s : Medium) :
    Option (Option (Nat × Store) × Medium) :=
  if catalogName.chars = [] then some (none, s)
  else
    let (part, s) := s.inputBlock drv
    if kNeFSCatalogNameLen < catalogName.length then none
    else if catalogName.length = kNeFSCatalogNameLen then some (none, s)
    else
      match parentName catalogName with
      | none => some (none, s)
      | some parent => do
          let (parentCatalog, s) ← findCatalogAnywhere drv parent searchHidden s
          scanLocal drv (NefsRootPartitionBlock.startCatalog.get part) catalogName searchHidden
            parentCatalog s

/-- `FindCatalog`. -/
def findCatalog (drv : EndedDrive) (catalogName : CString) (searchHidden localSearch : Bool)
    (s : Medium) : Option (Option (Nat × Store) × Medium) :=
  if localSearch ∧ catalogName ≠ kNeFSRoot then findCatalogLocal drv catalogName searchHidden s
  else findCatalogAnywhere drv catalogName searchHidden s

/-- `GetCatalog`. -/
def getCatalog (drv : EndedDrive) (name : CString) (s : Medium) :
    Option (Option (Nat × Store) × Medium) :=
  findCatalog drv name true true s

end

/-! ## `CreateFork` -/

section
open NefsForkStruct

/-- What the loop of `CreateFork` keeps. -/
structure PlaceCursor extends Cursor where
  lbaPrev : Nat
  prevFork : Store

/-- One turn of the loop of `CreateFork`, which comes to the LBA of the fork and the one before it. -/
def placeTurn (drv : EndedDrive) (theFork : Store) (c : PlaceCursor) :
    Turn (Option (Nat × Nat) × Medium) PlaceCursor :=
  let (curFork, s) := c.medium.fInput drv c.lba size c.buf
  if !s.fPacketGood then .leave (none, s)
  else if created (flags.get curFork) then
    if forkNameOf curFork = forkNameOf theFork ∧ catalogNameOf curFork = catalogNameOf theFork then
      .leave (some (c.lba, c.lbaPrev), s)
    else .again ⟨⟨nextSibling.get curFork, curFork, s⟩, c.lba, curFork⟩
  else if kNeFSCatalogStartAddress ≤ c.lba then
    .leave (some (c.lba, c.lbaPrev), s.fOutput drv c.lbaPrev size (nextSibling.set c.lba c.prevFork))
  else .leave (some (c.lba, c.lbaPrev), s)

/-- `CreateFork`. -/
def createFork (drv : EndedDrive) (theFork : Store) (s : Medium) : Option (Bool × Store × Medium) :=
  if theFork forkName = 0 ∨ theFork catalogName = 0 ∨ dataSize.get theFork = 0 then
    some (false, theFork, s)
  else do
    let (catalog, s) ← getCatalog drv (catalogNameOf theFork) s
    match catalog with
    | none => return (false, theFork, s)
    | some (_, catalog) =>
        let lba := NefsCatalogStruct.dataFork.get catalog
        if lba < kNeFSCatalogStartAddress then return (false, theFork, s)
        else do
          let (place, s) ← whileLoop (placeTurn drv theFork) (scanFuel + 1)
            ⟨⟨lba, fresh, s⟩, lba, fresh⟩
          match place with
          | none => return (false, theFork, s)
          | some (lba, lbaPrev) =>
              let theFork := placedFork theFork lba lbaPrev
              let s := s.fOutput drv lba size theFork
              -- `fs_ifs_write` clears `fPacketGood` and hands the same packet to the drive again
              return (true, theFork, s.failed.fOutput drv lba size theFork)

/-! ## `WriteCatalog` and `ReadCatalog` -/

/-- `is_valid_lba`. -/
def isValidLba (drv : EndedDrive) (lba : Nat) (s : Medium) : Option (Bool × Medium) :=
  let (part, s) := s.inputBlock drv
  if !s.fPacketGood then some (false, s)
  else if drv.fSectorSz = 0 then none
  else
    let maxLba := NefsRootPartitionBlock.diskSize.get part / drv.fSectorSz
    some (NefsRootPartitionBlock.startCatalog.get part ≤ lba && lba < maxLba, s)

/-- The loop over the sectors of the data: at most `fuel` turns, each of them writes one. -/
def writeChunks (drv : EndedDrive) (buf : Store) (baseLba : Nat) :
    Nat → (bytesLeft offset : Nat) → Medium → Medium
  | 0, _, _, s => s
  | fuel + 1, bytesLeft, offset, s =>
      if bytesLeft = 0 then s
      else
        let chunk := if kNeFSSectorSz < bytesLeft then kNeFSSectorSz else bytesLeft
        writeChunks drv buf baseLba fuel (bytesLeft - chunk) (offset + chunk)
          (s.fOutput drv (u64 (baseLba + offset / kNeFSSectorSz)) chunk (slice buf offset))

/-- One turn of the loop over the forks in `WriteCatalog`. -/
def writeTurn (drv : EndedDrive) (startCatalog : Nat) (catalogName theForkName : CString) (data : Store)
    (sizeOfData : Nat) (c : Cursor) : Turn (Bool × Medium) Cursor :=
  if startCatalog ≤ c.lba ∧ c.medium.fPacketGood then
    let (fork, s) := c.medium.fInput drv c.lba size c.buf
    if !s.fPacketGood then .leave (false, s)
    else if created (flags.get fork) ∧ forkNameOf fork = theForkName ∧
        catalogNameOf fork = catalogName ∧ dataSize.get fork = sizeOfData then
      .leave (true, writeChunks drv data (dataOffset.get fork) sizeOfData sizeOfData 0 s)
    else .again ⟨nextSibling.get fork, fork, s⟩
  else .leave (false, c.medium)

/-- `WriteCatalog`. -/
def writeCatalog (drv : EndedDrive) (catalogName : CString) (isRsrcFork : Bool) (data : Store)
    (sizeOfData : Nat) (theForkName : CString) (s : Medium) : Option (Bool × Medium) :=
  if sizeOfData < 1 then some (false, s)
  else do
    let (catalog, s) ← getCatalog drv catalogName s
    match catalog with
    | none => return (false, s)
    | some (_, catalog) =>
        let (maxSize, startFork) := forkOfCatalog catalog isRsrcFork
        if !isValidSize sizeOfData maxSize then return (false, s)
        else do
          let (valid, s) ← isValidLba drv startFork s
          if !valid then return (false, s)
          else
            let (part, s) := s.inputBlock drv
            whileLoop (writeTurn drv (NefsRootPartitionBlock.startCatalog.get part) catalogName theForkName
              data sizeOfData) (scanFuel + 1) ⟨startFork, fresh, s⟩

/-- One turn of the loop over the forks in `ReadCatalog`. -/
def readTurn (drv : EndedDrive) (catalogName theForkName : CString) (c : Cursor) :
    Turn (Option Store × Medium) Cursor :=
  if kNeFSCatalogStartAddress ≤ c.lba then
    let (fork, s) := c.medium.fInput drv c.lba size c.buf
    if theForkName = forkNameOf fork ∧ catalogName = catalogNameOf fork then .leave (some fork, s)
    else .again ⟨nextSibling.get fork, fork, s⟩
  else .leave (none, c.medium)

/-- `ReadCatalog`. What it returns is the record of the fork. -/
def readCatalog (drv : EndedDrive) (catalog : Option Store) (isRsrcFork : Bool) (dataSz : Nat)
    (theForkName : CString) (s : Medium) : Option (Option Store × Medium) :=
  match catalog with
  | none => some (none, s)
  | some catalog =>
      let (maxSize, dataForkLba) := forkOfCatalog catalog isRsrcFork
      if !isValidSize dataSz maxSize then some (none, s)
      else do
        let (valid, s) ← isValidLba drv dataForkLba s
        if !valid then return (none, s)
        else
          whileLoop (readTurn drv (NefsCatalogStruct.nameOf catalog) theForkName) (scanFuel + 1)
            ⟨dataForkLba, fresh, s⟩

/-! ## `RemoveCatalog` -/

/-- One turn of a loop over the forks in `RemoveCatalog`. -/
def removeTurn (drv : EndedDrive) (c : Cursor) : Turn (Store × Medium) Cursor :=
  if kNeFSCatalogStartAddress ≤ c.lba then
    let (forkBuf, s) := c.medium.fInput drv c.lba size c.buf
    let forkBuf := flags.set (markDeleted 32 (flags.get forkBuf)) forkBuf
    .again ⟨nextSibling.get forkBuf, forkBuf, s.fOutput drv c.lba size forkBuf⟩
  else .leave (c.buf, c.medium)

/-- A loop over the forks of a catalog. The buffer is handed on. -/
def removeForks (drv : EndedDrive) (forkLba : Nat) (forkBuf : Store) (s : Medium) :
    Option (Store × Medium) :=
  whileLoop (removeTurn drv) (scanFuel + 1) ⟨forkLba, forkBuf, s⟩

/-- `RemoveCatalog`. -/
def removeCatalog (drv : EndedDrive) (catalogName : CString) (s : Medium) : Option (Bool × Medium) :=
  if catalogName = kNeFSRoot then some (false, s)
  else do
    let (found, s) ← findCatalog drv catalogName true true s
    match found with
    | none => return (false, s)
    | some (outLba, catalog) => do
        let (forkBuf, s) ← removeForks drv (NefsCatalogStruct.dataFork.get catalog) fresh s
        let (_, s) ← removeForks drv (NefsCatalogStruct.resourceFork.get catalog) forkBuf s
        if kNeFSCatalogStartAddress ≤ outLba ∨ created (NefsCatalogStruct.flags.get catalog) then
          let catalog := NefsCatalogStruct.flags.set
            (markDeleted 16 (NefsCatalogStruct.flags.get catalog)) catalog
          let s := s.fOutput drv outLba NefsCatalogStruct.size catalog
          let (block, s) := s.inputBlock drv
          return (true, s.fOutput drv kNeFSRootCatalogStartAddress NefsRootPartitionBlock.size
            (blockWithoutCatalog block))
        else return (false, s)

end

/-! ## `FindFork` -/

section
open KernelKit.Ifs

/-- The `switch` over what `fs_ifs_read` has returned. -/
def setReadError (res : Int) (s : Io) : Io :=
  if res = 1 then { s with err := kErrorDiskReadOnly }
  else if res = 2 then { s with err := kErrorDiskIsFull }
  else if res = 3 then { s with err := kErrorNoSuchDisk }
  else s

/-- The loop of `FindFork`, which reads through the IFS. What the driver does with a read is up to `outs`,
which is given the turns that are left. -/
def findForkLoop (drv : EndedDrive) (mnt : IMountpoint) (drvIndex : Int32) (outs : Nat → DrvStd) (m : Store)
    (name catalogName : CString) : Nat → (lba : Nat) → (localBuf : Store) → Io → Option (Option Store × Io)
  | 0, _, _, _ => none
  | fuel + 1, lba, localBuf, s =>
      if lba < kNeFSCatalogStartAddress then some (none, s)
      else do
        let s := { s with
          pckt.fPacketLba := UInt64.ofNat lba
          pckt.fPacketSize := UInt64.ofNat NefsForkStruct.size }
        let read ← fsIfsRead (some mnt) drvIndex (outs fuel) s
        if read.code ≠ 0 then return (none, setReadError read.code read.io)
        else
          let localBuf := if read.moved then slice m (drv.fAddress lba) else localBuf
          if NefsForkStruct.forkNameOf localBuf = name ∧
              NefsForkStruct.catalogNameOf localBuf = catalogName then
            return (some localBuf, read.io)
          else
            findForkLoop drv mnt drvIndex outs m name catalogName fuel
              (NefsForkStruct.nextSibling.get localBuf) localBuf read.io

/-- `FindFork`. -/
def findFork (drv : EndedDrive) (mnt : IMountpoint) (drvIndex : Int32) (outs : Nat → DrvStd)
    (catalog : Option Store) (name : Option CString) (isData : Bool) (m : Store) (s : Io) :
    Option (Option Store × Io) :=
  match catalog, name with
  | some catalog, some name =>
      findForkLoop drv mnt drvIndex outs m name (NefsCatalogStruct.nameOf catalog) scanFuel
        (if isData then NefsCatalogStruct.dataFork.get catalog else NefsCatalogStruct.resourceFork.get catalog)
        NefsForkStruct.fresh s
  | _, _ => some (none, s)

end

end NeKernel.NeFS.Ended
