import NeKernel.FSKit.NeFS
import NeKernel.Lib.Scan

/-!
# The NeFS parser

`NeFileSystemParser`. A partition block tells where the catalogs begin; the catalogs are records
chained through `NextSibling`, and so are the forks of a catalog.

A step that does not return is `none`: a chain that does not come to an end, a sector size of zero,
or a path that does not fit the buffer for its parent's name. Memory for buffers is taken to be
there, and the drive to take every transfer, at whatever LBA, with `fPacketGood` set after it (for
drives that do not, see `NeFS.Ended`). Where a stored name is longer than the path, `FindCatalog`
compares it with what stands in memory before the path; that is taken not to match.
-/

namespace NeKernel.NeFS

open ByteStore Scan

/-- More turns than there are addresses to step through. -/
@[irreducible] def scanFuel : Nat := 2 ^ 64

/-- `Flags & kNeFSFlagCreated`, as a test. -/
def created (flags : Nat) : Bool := flags &&& kNeFSFlagCreated ≠ 0

/-- `(sizeof(NEFS_CATALOG_STRUCT) + sectorSize - 1) / sectorSize`. -/
def catalogSectors (sectorSize : Nat) : Nat := (NefsCatalogStruct.size + sectorSize - 1) / sectorSize

/-! ## Paths -/

/-- `while (i > 0 && name[i] != '/') --i`. -/
def lastSeparator (name : CString) : Nat → Nat
  | 0 => 0
  | i + 1 => if name.chars[i + 1]? = some kNeFSSeparator then i + 1 else lastSeparator name i

/-- Whether the last character is a separator. -/
def endsInSeparator (name : CString) : Bool :=
  name.chars[name.length - 1]? = some kNeFSSeparator

/-- Where the last component begins, a separator at the very end apart. -/
def componentIndex (name : CString) : Nat :=
  lastSeparator name (if endsInSeparator name then name.length - 1 - 1 else name.length - 1)

/-- The path up to the separator before its last component. -/
def parentName (name : CString) : Option CString :=
  if componentIndex name = 0 ∧ name.chars[0]? ≠ some kNeFSSeparator then none
  else some (name.take (componentIndex name + 1))

/-! ## `FindCatalog` -/

section
open NefsCatalogStruct

/-- One turn of `scan_from`. The name of the record is compared with the end of the path. -/
def scanVisit (drv : DriveTrait) (m : Store) (catalogName : CString) (allowHidden : Bool)
    (cursor : Nat) : Visit (Nat × Store) :=
  let tmp := slice m (drv.fAddress cursor)
  if (nameOf tmp).chars.isSuffixOf catalogName.chars then
    if status.get tmp = kNeFSStatusLocked ∧ !allowHidden then .stop
    else if created (flags.get tmp) then .found (cursor, tmp)
    else .stop
  else .next

/-- `scan_from`. -/
def scanFrom (drv : DriveTrait) (part : Store) (m : Store) (catalogName : CString)
    (allowHidden : Bool) (lbaStart : Nat) : Option (Option (Nat × Store)) :=
  let startCatalog := NefsRootPartitionBlock.startCatalog.get part
  if lbaStart < startCatalog then some none
  else
    scan (fun cursor => nextSibling.get (slice m (drv.fAddress cursor)))
      (fun cursor => cursor < startCatalog) (scanVisit drv m catalogName allowHidden)
      scanFuel lbaStart

/-- `FindCatalog` without `local_search`. The record is returned with its LBA, `out_lba`. -/
def findCatalogAnywhere (drv : DriveTrait) (catalogName : CString) (searchHidden : Bool)
    (d : Disk) : Option (Option (Nat × Store) × Disk) :=
  if catalogName.chars = [] then some (none, d)
  else
    let (part, d) := d.inputBlock drv kNeFSRootCatalogStartAddress
    do
      let found ← scanFrom drv part d.bytes catalogName searchHidden
        (NefsRootPartitionBlock.startCatalog.get part)
      return (found, d)

/-- The records after the parent's, then all of them. -/
def scanLocal (drv : DriveTrait) (part : Store) (m : Store) (catalogName : CString)
    (searchHidden : Bool) (parentCatalog : Option (Nat × Store)) :
    Option (Option (Nat × Store)) :=
  let startCatalog := NefsRootPartitionBlock.startCatalog.get part
  match parentCatalog with
  | none => scanFrom drv part m catalogName searchHidden startCatalog
  | some parent => do
      let found ← scanFrom drv part m catalogName searchHidden (nextSibling.get parent.2)
      if found.isSome then return found
      else scanFrom drv part m catalogName searchHidden startCatalog

/-- `FindCatalog` with `local_search`, for any path but the root's. -/
def findCatalogLocal (drv : DriveTrait) (catalogName : CString) (searchHidden : Bool) (d : Disk) :
    Option (Option (Nat × Store) × Disk) :=
  if catalogName.chars = [] then some (none, d)
  else
    let (part, d) := d.inputBlock drv kNeFSRootCatalogStartAddress
    -- the copy into `parent_name` is made of `nameLen + 1` bytes or not at all; without it the
    -- buffer is all zeros, and the index of the path's last character may lie outside of it
    if kNeFSCatalogNameLen < catalogName.length then none
    else if catalogName.length = kNeFSCatalogNameLen then some (none, d)
    else
      match parentName catalogName with
      | none => some (none, d)
      | some parent => do
          let (parentCatalog, d) ← findCatalogAnywhere drv parent searchHidden d
          let found ← scanLocal drv part d.bytes catalogName searchHidden parentCatalog
          return (found, d)

/-- `FindCatalog`. -/
def findCatalog (drv : DriveTrait) (catalogName : CString) (searchHidden localSearch : Bool)
    (d : Disk) : Option (Option (Nat × Store) × Disk) :=
  if localSearch ∧ catalogName ≠ kNeFSRoot then
    findCatalogLocal drv catalogName searchHidden d
  else findCatalogAnywhere drv catalogName searchHidden d

/-- `GetCatalog`. -/
def getCatalog (drv : DriveTrait) (name : CString) (d : Disk) :
    Option (Option (Nat × Store) × Disk) :=
  findCatalog drv name true true d

/-! ## `CreateCatalog` -/

/-- A directory has a separator at its end, and nothing else has. -/
def nameAllowed (name : CString) (kind : Nat) : Bool :=
  if name.length = 0 then false
  else if kind = kNeFSCatalogKindDir ∧ !endsInSeparator name then false
  else if kind ≠ kNeFSCatalogKindDir ∧ endsInSeparator name then false
  else true

/-- `out_lba` when the parent's catalog is there, or when it is not. -/
def outLbaOf (drv : DriveTrait) (catalog : Option (Nat × Store)) (d : Disk) :
    Option (Option Nat × Disk) :=
  match catalog with
  | some (outLba, r) =>
      if NefsCatalogStruct.kind.get r = kNeFSCatalogKindFile then some (none, d)
      else some (some outLba, d)
  | none =>
      let (block, d) := d.inputBlock drv kNeFSRootCatalogStartAddress
      some (some (NefsRootPartitionBlock.startCatalog.get block), d)

/-- What the checks before the slot loop come to: the LBA the loop starts from, `out_lba`. -/
def createCatalogParent (drv : DriveTrait) (name : CString) (kind : Nat) (d : Disk) :
    Option (Option Nat × Disk) :=
  if !nameAllowed name kind then some (none, d)
  else do
    let (catalogCopy, d) ← findCatalog drv name true false d
    if catalogCopy.isSome ∨ name.length < 2 then return (none, d)
    match parentName name with
    | none => return (none, d)
    | some parent => do
        let (catalog, d) ← findCatalog drv parent true false d
        outLbaOf drv catalog d

/-- What the slot loop comes to at a slot. -/
inductive Slot where
  | free (startFree : Nat) (temporaryCatalog : Store)
  | existing (temporaryCatalog : Store)

/-- One turn of the slot loop. -/
def slotVisit (drv : DriveTrait) (m : Store) (name : CString) (startFree : Nat) : Visit Slot :=
  let temporaryCatalog := slice m (drv.fAddress startFree)
  if !created (flags.get temporaryCatalog) then .found (.free startFree temporaryCatalog)
  else if nameOf temporaryCatalog = name then .found (.existing temporaryCatalog)
  else .next

/-- Where the slot loop ends: `StartCatalog + CatalogCount * catalogSectors`. -/
def slotLimit (drv : DriveTrait) (part : Store) : Nat :=
  u64 (NefsRootPartitionBlock.startCatalog.get part +
    u64 (NefsRootPartitionBlock.catalogCount.get part * catalogSectors drv.fSectorSz))

/-- The slot loop. -/
def findSlot (drv : DriveTrait) (part : Store) (m : Store) (name : CString) (outLba : Nat) :
    Option (Option Slot) :=
  if slotLimit drv part ≤ outLba then some none
  else
    scan (fun startFree => u64 (startFree + catalogSectors drv.fSectorSz))
      (fun startFree => slotLimit drv part ≤ startFree) (slotVisit drv m name) scanFuel outLba

/-- The record of a new catalog, as far as it is known before a slot is. -/
def childCatalog (name : CString) (flags kind outLba : Nat) : Store :=
  let child := zeros
  let child := nextSibling.set outLba child
  let child := prevSibling.set outLba child
  let child := NefsCatalogStruct.kind.set kind child
  let child := NefsCatalogStruct.flags.set kNeFSFlagCreated child
  let child := catalogFlags.set flags child
  let component := name.drop (componentIndex name)
  rtCopyMemorySafe component.bytes child NefsCatalogStruct.name component.length
    kNeFSCatalogNameLen

/-- The record as it is stored in a slot. -/
def placedCatalog (drv : DriveTrait) (part child : Store) (startFree : Nat) : Store :=
  let child := nextSibling.set (u64 (startFree + catalogSectors drv.fSectorSz)) child
  let fork := u64 (NefsRootPartitionBlock.diskSize.get part + 2 ^ 64 - startFree)
  resourceFork.set fork (dataFork.set fork child)

/-- The partition block when one more catalog is stored. -/
def blockWithCatalog (drv : DriveTrait) (block : Store) : Store :=
  let freeSectors := NefsRootPartitionBlock.freeSectors.get block
  let catalogCount := NefsRootPartitionBlock.catalogCount.get block
  let freeCatalog := NefsRootPartitionBlock.freeCatalog.get block
  let block := NefsRootPartitionBlock.freeSectors.set
    (u64 (freeSectors + 2 ^ 64 - catalogSectors drv.fSectorSz)) block
  let block := NefsRootPartitionBlock.catalogCount.set (u64 (catalogCount + 1)) block
  NefsRootPartitionBlock.freeCatalog.set (u64 (freeCatalog + 2 ^ 64 - 1)) block

/-- The writes of the slot loop when it has found a slot. -/
def storeCatalog (drv : DriveTrait) (part child : Store) (startFree : Nat) (d : Disk) : Disk :=
  let d := d.fOutput drv startFree size zeros
  let d := d.fOutput drv startFree size (placedCatalog drv part child startFree)
  let (block, d) := d.inputBlock drv kNeFSRootCatalogStartAddress
  d.outputBlock drv kNeFSRootCatalogStartAddress (blockWithCatalog drv block)

/-- What `CreateCatalog` comes to: nothing, a record that was there, or one stored at an LBA. -/
inductive CreateResult where
  | refused
  | existing (catalog : Store)
  | stored (startFree : Nat) (temporaryCatalog : Store)

/-- The catalog `CreateCatalog` returns. For one it has stored, that is a copy of what the slot
held before. -/
def CreateResult.catalog : CreateResult → Option Store
  | refused => none
  | existing catalog => some catalog
  | stored _ temporaryCatalog => some temporaryCatalog

/-- `CreateCatalog`, with what it came to. -/
def createCatalogAt (drv : DriveTrait) (name : CString) (flags kind : Nat) (d : Disk) :
    Option (CreateResult × Disk) := do
  let (outLba, d) ← createCatalogParent drv name kind d
  match outLba with
  | none => return (.refused, d)
  | some outLba =>
      let child := childCatalog name flags kind outLba
      let (part, d) := d.inputBlock drv kNeFSRootCatalogStartAddress
      if NefsRootPartitionBlock.freeCatalog.get part < 1 then return (.refused, d)
      else do
        let slot ← findSlot drv part d.bytes name outLba
        match slot with
        | none => return (.refused, d)
        | some (.existing temporaryCatalog) => return (.existing temporaryCatalog, d)
        | some (.free startFree temporaryCatalog) =>
            return (.stored startFree temporaryCatalog, storeCatalog drv part child startFree d)

/-- `CreateCatalog`. -/
def createCatalog (drv : DriveTrait) (name : CString) (flags kind : Nat) (d : Disk) :
    Option (Option Store × Disk) := do
  let (r, d) ← createCatalogAt drv name flags kind d
  return (r.catalog, d)

end

/-! ## `RemoveCatalog` -/

/-- `Flags &= ~kNeFSFlagCreated; Flags |= kNeFSFlagDeleted` on a flag word of `bits` bits. -/
def markDeleted (bits flags : Nat) : Nat :=
  flags &&& (2 ^ bits - 1 - kNeFSFlagCreated) ||| kNeFSFlagDeleted

/-- The loop over the forks of a catalog. -/
def removeForks (drv : DriveTrait) : Nat → Nat → Disk → Option Disk
  | 0, _, _ => none
  | fuel + 1, forkLba, d =>
      if forkLba < kNeFSCatalogStartAddress then some d
      else
        let forkBuf := d.fInput drv forkLba
        let forkBuf := NefsForkStruct.flags.set (markDeleted 32 (NefsForkStruct.flags.get forkBuf))
          forkBuf
        removeForks drv fuel (NefsForkStruct.nextSibling.get forkBuf)
          (d.fOutput drv forkLba NefsForkStruct.size forkBuf)

/-- The partition block when a catalog is removed. -/
def blockWithoutCatalog (block : Store) : Store :=
  let catalogCount := NefsRootPartitionBlock.catalogCount.get block
  let freeSectors := NefsRootPartitionBlock.freeSectors.get block
  let block :=
    if 0 < catalogCount then NefsRootPartitionBlock.catalogCount.set (catalogCount - 1) block
    else block
  NefsRootPartitionBlock.freeSectors.set (u64 (freeSectors + 1)) block

/-- `RemoveCatalog`. -/
def removeCatalog (drv : DriveTrait) (catalogName : CString) (d : Disk) : Option (Bool × Disk) :=
  if catalogName = kNeFSRoot then some (false, d)
  else do
    let (found, d) ← findCatalog drv catalogName true true d
    match found with
    | none => return (false, d)
    | some (outLba, catalog) => do
        let d ← removeForks drv scanFuel (NefsCatalogStruct.dataFork.get catalog) d
        let d ← removeForks drv scanFuel (NefsCatalogStruct.resourceFork.get catalog) d
        if kNeFSCatalogStartAddress ≤ outLba ∨ created (NefsCatalogStruct.flags.get catalog) then
          let catalog := NefsCatalogStruct.flags.set
            (markDeleted 16 (NefsCatalogStruct.flags.get catalog)) catalog
          let d := d.fOutput drv outLba NefsCatalogStruct.size catalog
          let (block, d) := d.inputBlock drv kNeFSRootCatalogStartAddress
          return (true, d.outputBlock drv kNeFSRootCatalogStartAddress (blockWithoutCatalog block))
        else return (false, d)

/-! ## `Format` -/

/-- Whether the block carries `kNeFSIdent`. -/
def hasIdent (block : Store) : Bool :=
  (List.range kNeFSIdentLen).all fun i => block (NefsRootPartitionBlock.ident + i) =
    kNeFSIdent.getD i 0

/-- The partition block `Format` writes, over what stands in its place. -/
def formattedBlock (drv : DriveTrait) (partName : CString) (block : Store) : Store :=
  let block := rtCopyMemorySafe (fun i => kNeFSIdent.getD i 0) block NefsRootPartitionBlock.ident
    kNeFSIdentLen 8
  let block := rtCopyMemorySafe partName.bytes block NefsRootPartitionBlock.partitionName
    partName.length kNeFSPartLen
  let totalBytes := u64 (drv.sectorCount * drv.fSectorSz)
  let catalogEntries := totalBytes / NefsCatalogStruct.size
  let catalogSectors := catalogSectors drv.fSectorSz
  let block := NefsRootPartitionBlock.version.set kNeFSVersionInteger block
  let block := NefsRootPartitionBlock.kind.set kNeFSPartitionTypeStandard block
  let block := NefsRootPartitionBlock.startCatalog.set (u64 (drv.fLbaStart + catalogSectors)) block
  let block := NefsRootPartitionBlock.flags.set 0 block
  let block := NefsRootPartitionBlock.catalogCount.set catalogEntries block
  let block := NefsRootPartitionBlock.freeCatalog.set (u64 (catalogEntries + 2 ^ 64 - 1)) block
  let block := NefsRootPartitionBlock.sectorCount.set drv.sectorCount block
  let block := NefsRootPartitionBlock.diskSize.set totalBytes block
  let block := NefsRootPartitionBlock.sectorSize.set drv.fSectorSz block
  NefsRootPartitionBlock.freeSectors.set (u64 (drv.sectorCount + 2 ^ 64 - catalogSectors)) block

/-- `Format`. -/
def format (drv : DriveTrait) (partName : CString) (d : Disk) : Option (Bool × Disk) :=
  if partName.chars = [] then some (false, d)
  else
    let (block, d) := d.inputBlock drv drv.fLbaStart
    if hasIdent block then some (true, d)
    else if drv.fSectorSz = 0 then none
    else some (true, d.outputBlock drv drv.fLbaStart (formattedBlock drv partName block))

/-! ## `CreateFork` -/

section
open NefsForkStruct

/-- The walk along the forks of a catalog, with its write of the record before: the LBA the fork
goes to and the one before it. -/
def findForkPlace (drv : DriveTrait) (theFork : Store) :
    Nat → (lba lbaPrev : Nat) → (prevFork : Store) → Disk → Option ((Nat × Nat) × Disk)
  | 0, _, _, _, _ => none
  | fuel + 1, lba, lbaPrev, prevFork, d =>
      let curFork := d.fInput drv lba
      if created (flags.get curFork) then
        if forkNameOf curFork = forkNameOf theFork ∧
            catalogNameOf curFork = catalogNameOf theFork then some ((lba, lbaPrev), d)
        else findForkPlace drv theFork fuel (nextSibling.get curFork) lba curFork d
      else if kNeFSCatalogStartAddress ≤ lba then
        some ((lba, lbaPrev), d.fOutput drv lbaPrev size (nextSibling.set lba prevFork))
      else some ((lba, lbaPrev), d)

/-- The fork as it is stored. -/
def placedFork (theFork : Store) (lba lbaPrev : Nat) : Store :=
  let sectorCount := u64 (dataSize.get theFork + kNeFSSectorSz - 1) / kNeFSSectorSz
  let theFork' := dataOffset.set (u64 (lba + 1)) theFork
  let theFork' := previousSibling.set lbaPrev theFork'
  let theFork' := nextSibling.set (u64 (lba + 1 + sectorCount)) theFork'
  flags.set (flags.get theFork ||| kNeFSFlagCreated) theFork'

/-- `CreateFork`. The fork handed in is returned as it is left. -/
def createFork (drv : DriveTrait) (theFork : Store) (d : Disk) : Option (Bool × Store × Disk) :=
  if theFork forkName = 0 ∨ theFork catalogName = 0 ∨ dataSize.get theFork = 0 then
    some (false, theFork, d)
  else do
    let (catalog, d) ← getCatalog drv (catalogNameOf theFork) d
    match catalog with
    | none => return (false, theFork, d)
    | some (_, catalog) =>
        let lba := NefsCatalogStruct.dataFork.get catalog
        if lba < kNeFSCatalogStartAddress then return (false, theFork, d)
        else do
          let ((lba, lbaPrev), d) ← findForkPlace drv theFork scanFuel lba lba fresh d
          let theFork := placedFork theFork lba lbaPrev
          -- `fs_ifs_write` hands the same packet to the drive again; that it clears `fPacketGood` first is
          -- left out here, since every transfer is taken to set it
          let d := d.fOutput drv lba size theFork
          return (true, theFork, d.fOutput drv lba size theFork)

/-! ## `WriteCatalog` and `ReadCatalog` -/

/-- `is_valid_size`. -/
def isValidSize (sz maxSize : Nat) : Bool := 0 < sz && sz ≤ maxSize

/-- `is_valid_lba`. -/
def isValidLba (drv : DriveTrait) (lba : Nat) (d : Disk) : Option (Bool × Disk) :=
  let (part, d) := d.inputBlock drv kNeFSRootCatalogStartAddress
  if drv.fSectorSz = 0 then none
  else
    let maxLba := NefsRootPartitionBlock.diskSize.get part / drv.fSectorSz
    some (NefsRootPartitionBlock.startCatalog.get part ≤ lba && lba < maxLba, d)

/-- The size the record of a catalog gives for one of its forks, and the LBA of the fork. -/
def forkOfCatalog (catalog : Store) (isRsrcFork : Bool) : Nat × Nat :=
  if isRsrcFork then
    (NefsCatalogStruct.resourceForkSize.get catalog, NefsCatalogStruct.resourceFork.get catalog)
  else (NefsCatalogStruct.dataForkSize.get catalog, NefsCatalogStruct.dataFork.get catalog)

/-- The loop over the sectors of the data: at most `fuel` turns, each of them writes one. -/
def writeChunks (drv : DriveTrait) (buf : Store) (baseLba : Nat) :
    Nat → (bytesLeft offset : Nat) → Disk → Disk
  | 0, _, _, d => d
  | fuel + 1, bytesLeft, offset, d =>
      if bytesLeft = 0 then d
      else
        let chunk := if kNeFSSectorSz < bytesLeft then kNeFSSectorSz else bytesLeft
        writeChunks drv buf baseLba fuel (bytesLeft - chunk) (offset + chunk)
          (d.fOutput drv (u64 (baseLba + offset / kNeFSSectorSz)) chunk (slice buf offset))

/-- One turn of the loop over the forks in `WriteCatalog`. -/
def writeVisit (drv : DriveTrait) (m : Store) (catalogName theForkName : CString)
    (sizeOfData startFork : Nat) : Visit Store :=
  let fork := slice m (drv.fAddress startFork)
  if created (flags.get fork) ∧ forkNameOf fork = theForkName ∧
      catalogNameOf fork = catalogName ∧ dataSize.get fork = sizeOfData then .found fork
  else .next

/-- `WriteCatalog`. -/
def writeCatalog (drv : DriveTrait) (catalogName : CString) (isRsrcFork : Bool) (data : Store)
    (sizeOfData : Nat) (theForkName : CString) (d : Disk) : Option (Bool × Disk) :=
  if sizeOfData < 1 then some (false, d)
  else do
    let (catalog, d) ← getCatalog drv catalogName d
    match catalog with
    | none => return (false, d)
    | some (_, catalog) =>
        let (maxSize, startFork) := forkOfCatalog catalog isRsrcFork
        if !isValidSize sizeOfData maxSize then return (false, d)
        else do
          let (valid, d) ← isValidLba drv startFork d
          if !valid then return (false, d)
          else
            let (part, d) := d.inputBlock drv kNeFSRootCatalogStartAddress
            let startCatalog := NefsRootPartitionBlock.startCatalog.get part
            if startFork < startCatalog then return (false, d)
            else do
              let fork ← scan (fun lba => nextSibling.get (slice d.bytes (drv.fAddress lba)))
                (fun lba => lba < startCatalog)
                (writeVisit drv d.bytes catalogName theForkName sizeOfData) scanFuel startFork
              match fork with
              | none => return (false, d)
              | some fork =>
                  return (true, writeChunks drv data (dataOffset.get fork) sizeOfData sizeOfData 0 d)

/-- One turn of the loop over the forks in `ReadCatalog`. -/
def readVisit (drv : DriveTrait) (m : Store) (catalogName theForkName : CString)
    (dataForkLba : Nat) : Visit Store :=
  let fork := slice m (drv.fAddress dataForkLba)
  if theForkName = forkNameOf fork ∧ catalogName = catalogNameOf fork then .found fork else .next

/-- `ReadCatalog`. What it returns is the record of the fork. -/
def readCatalog (drv : DriveTrait) (catalog : Option Store) (isRsrcFork : Bool) (dataSz : Nat)
    (theForkName : CString) (d : Disk) : Option (Option Store × Disk) :=
  match catalog with
  | none => some (none, d)
  | some catalog =>
      let (maxSize, dataForkLba) := forkOfCatalog catalog isRsrcFork
      if !isValidSize dataSz maxSize then some (none, d)
      else do
        let (valid, d) ← isValidLba drv dataForkLba d
        if !valid ∨ dataForkLba < kNeFSCatalogStartAddress then return (none, d)
        else do
          let fork ← scan (fun lba => nextSibling.get (slice d.bytes (drv.fAddress lba)))
            (fun lba => lba < kNeFSCatalogStartAddress)
            (readVisit drv d.bytes (NefsCatalogStruct.nameOf catalog) theForkName) scanFuel
            dataForkLba
          return (fork, d)

end

end NeKernel.NeFS
