import NeKernel.FSKit.OpenHeFS
import NeKernel.Lib.Scan

/-!
# The OpenHeFS parser

`HeFileSystemParser` and the functions behind it. Directories are records in a row between
`fStartIND` and `fEndIND`; a directory's files are index nodes whose addresses its sixteen slices
hold; index nodes and blocks come from two cursors in the boot node that only move up.

A step that does not return is `none`: a loop that does not come to an end, or a `MUST_PASS` that
fails and stops the kernel. Memory for buffers is taken to be there. The boolean called
`deleteOrCreate` is the source's: true to delete, false to create.

The loops of `hefsi_update_ind_status`, `hefsi_update_in_status` and `hefsi_fetch_in` change
nothing until they have found their record, so each is a `scan` for the record followed by what
is done with it. In the first of them `parent_location` is never assigned after its zero, and the
block under `if (parent_location)` is never entered.
-/

namespace NeKernel.FS

open ByteStore Scan

namespace Detail

/-- More turns than there are addresses to step through. -/
def scanFuel : Nat := 2 ^ 64

/-- `start += sizeof(HEFS_INDEX_NODE_DIRECTORY)`. -/
def nextStart (start : Nat) : Nat := u64 (start + HefsIndexNodeDirectory.size)

/-! ## `hefsi_rotate_tree` -/

section
open HefsIndexNodeDirectory

def hefsiRotateTree (start : Nat) (d : Disk) : Disk :=
  if start = 0 then d
  else
    let cur := d.fInput start
    if fHashPath.get cur = 0 then d
    else
      let sibling := d.fInput (fPrev.get cur)
      if fHashPath.get sibling = 0 then d
      else
        let childSibling := fChild.get sibling
        let childCur := fChild.get cur
        let cur := fChild.set childSibling cur
        let sibling := fChild.set childCur sibling
        let sibling := fChecksum.set (crcOf sibling size) sibling
        let cur := fChecksum.set (crcOf cur size) cur
        let d := d.fOutput .directory (fParent.get cur) size sibling
        let d := d.fOutput .directory start size cur
        let siblingChild := d.fInput childSibling
        let siblingChild := fParent.set (fParent.get cur) siblingChild
        -- the checksum is taken of `sibling`, here and below
        let siblingChild := fChecksum.set (crcOf sibling size) siblingChild
        let d := d.fOutput .directory childSibling size siblingChild
        let curChild := d.fInput childCur
        let curChild := fParent.set start curChild
        let curChild := fChecksum.set (crcOf sibling size) curChild
        d.fOutput .directory childCur size curChild

/-! ## `hefsi_balance_ind` -/

/-- The root is made black and written. -/
def hefsiBalanceRoot (boot : Store) (start : Nat) (dir : Store) (d : Disk) : Store × Disk :=
  if start = HefsBootNode.fStartIND.get boot then
    let dir := fColor.set kOpenHeFSBlack dir
    (dir, d.fOutput .directory start size dir)
  else (dir, d)

/-- A black record is rotated when it has a child, and written when it has none. -/
def hefsiBalanceBlack (start : Nat) (dir : Store) (d : Disk) : Store × Disk :=
  if fColor.get dir = kOpenHeFSBlack ∧ fChild.get dir ≠ 0 then
    (fColor.set kOpenHeFSRed dir, hefsiRotateTree start d)
  else if fColor.get dir = kOpenHeFSBlack ∧ fChild.get dir = 0 then
    let dir := fColor.set kOpenHeFSBlack dir
    (dir, d.fOutput .directory start size dir)
  else (dir, d)

/-- A record whose checksum is wrong is written with a new one. -/
def hefsiBalanceChecksum (start : Nat) (dir : Store) (d : Disk) : Disk :=
  if crcOf dir size ≠ fChecksum.get dir then
    d.fOutput .directory start size (fChecksum.set (crcOf dir size) dir)
  else d

/-- One turn of the loop. -/
def hefsiBalanceSlot (boot : Store) (start : Nat) (d : Disk) : Disk :=
  let r := hefsiBalanceRoot boot start (d.fInput start) d
  let r := hefsiBalanceBlack start r.1 r.2
  hefsiBalanceChecksum start r.1 r.2

def hefsiBalanceLoop (boot : Store) : Nat → Nat → Disk → Option Disk
  | 0, _, _ => none
  | fuel + 1, start, d =>
      if start = 0 ∨ HefsBootNode.fEndIND.get boot < start then some (d.setErr kErrorSuccess)
      else hefsiBalanceLoop boot fuel (nextStart start) (hefsiBalanceSlot boot start d)

def hefsiBalanceInd (boot : Store) (d : Disk) : Option Disk :=
  hefsiBalanceLoop boot scanFuel (HefsBootNode.fStartIND.get boot) d

/-! ## `hefsi_update_ind_status` -/

/-- A record a new directory can take. -/
def indFree (r : Store) : Bool :=
  (fCreated.get r = 0 && fDeleted.get r ≠ 0) || fHashPath.get r = 0

/-- The record of the live directory of a name. -/
def indNamed (dirName : List UInt8) (r : Store) : Bool :=
  fCreated.get r ≠ 0 && fDeleted.get r = 0 && hashPath dirName = fHashPath.get r

/-- The record the loop is after. -/
def indWanted (deleteOrCreate : Bool) (dirName : List UInt8) (r : Store) : Bool :=
  if deleteOrCreate then indNamed dirName r else indFree r

/-- The first record it finds, by address. -/
def hefsiFindInd (boot : Store) (d : Disk) (dirName : List UInt8) (deleteOrCreate : Bool) :
    Option (Option Nat) :=
  scan nextStart (fun start => HefsBootNode.fEndIND.get boot < start || start = 0)
    (fun start =>
      if indWanted deleteOrCreate dirName (d.fInput start) then .found start else .next)
    scanFuel (HefsBootNode.fStartIND.get boot)

/-- The loop that looks for a place for the first child of `tmpdir`. -/
def hefsiFindChild (boot tmpdir : Store) (d : Disk) : Nat → Nat → Option Nat
  | 0, _ => none
  | fuel + 1, child =>
      let tmpend := d.fInput child
      if (fCreated.get tmpend = 0 ∧ fDeleted.get tmpend ≠ 0) ∨ fHashPath.get tmpdir = 0 then
        some child
      else
        let child := nextStart child
        if HefsBootNode.fEndIND.get boot < child then some child
        else hefsiFindChild boot tmpdir d fuel child

/-- The colour and the child of the record that replaces `tmpdir`. -/
def hefsiDirentChild (boot tmpdir : Store) (d : Disk) : Option (Nat × Nat) :=
  let color :=
    if fColor.get tmpdir = 0 then (if fNext.get tmpdir ≠ 0 then kOpenHeFSRed else kOpenHeFSBlack)
    else fColor.get tmpdir
  if fChild.get tmpdir = 0 then
    (hefsiFindChild boot tmpdir d scanFuel (nextStart (fNext.get tmpdir))).map fun child =>
      (kOpenHeFSRed,
        if HefsBootNode.fEndIND.get boot < child then HefsBootNode.fStartIND.get boot else child)
  else some (color, fChild.get tmpdir)

/-- The record that replaces `tmpdir`; what it leaves out is zero. -/
def hefsiDirent (boot tmpdir : Store) (dirName : List UInt8) (flags : Nat)
    (deleteOrCreate : Bool) (color child : Nat) : Store :=
  let dirent := zeros
  let dirent := fHashPath.set (if deleteOrCreate then 0 else hashPath dirName) dirent
  let dirent := fCreated.set (if deleteOrCreate then 0 else 1) dirent
  let dirent := fDeleted.set (if deleteOrCreate then 1 else 0) dirent
  let dirent := fFlags.set (flags % 2 ^ 16) dirent
  let dirent := fNext.set (fNext.get tmpdir) dirent
  let dirent :=
    fPrev.set
      (if fPrev.get tmpdir = 0 then HefsBootNode.fStartIND.get boot else fPrev.get tmpdir) dirent
  let dirent :=
    fParent.set
      (if fParent.get tmpdir = 0 then HefsBootNode.fStartIND.get boot else fParent.get tmpdir)
      dirent
  let dirent := fChild.set child dirent
  let dirent := fColor.set color dirent
  fChecksum.set (crcOf dirent size) dirent

end

/-- The boot node with a new checksum, taken over the old one. -/
def sealBootNode (boot : Store) : Store :=
  HefsBootNode.fChecksum.set (crcOf boot HefsBootNode.size) boot

def writeBootNode (mnt : DriveTrait) (boot : Store) (d : Disk) : Disk :=
  d.fOutput .bootNode mnt.fLbaStart HefsBootNode.size boot

/-- The boot node with one directory more or less. -/
def countInd (deleteOrCreate : Bool) (boot : Store) : Store :=
  let fINDCount := HefsBootNode.fINDCount
  fINDCount.set
    (if deleteOrCreate then u64 (fINDCount.get boot + (2 ^ 64 - 1))
      else u64 (fINDCount.get boot + 1)) boot

/-- `hefsi_update_ind_status`: the result, the boot node as it leaves it, and the disk. -/
def hefsiUpdateIndStatus (mnt : DriveTrait) (boot : Store) (d : Disk) (dirName : List UInt8)
    (flags : Nat) (deleteOrCreate : Bool) : Option (Bool × Store × Disk) :=
  if HefsBootNode.fStartIND.get boot ≤ mnt.fLbaStart then none
  else
    (hefsiFindInd boot d dirName deleteOrCreate).bind fun r =>
      match r with
      | none => some (false, boot, d.setErr kErrorDisk)
      | some start =>
          let tmpdir := d.fInput start
          (hefsiDirentChild boot tmpdir d).map fun cc =>
            let dirent := hefsiDirent boot tmpdir dirName flags deleteOrCreate cc.1 cc.2
            let d := d.fOutput .directory start HefsIndexNodeDirectory.size dirent
            let d := d.setErr kErrorSuccess
            let boot := sealBootNode (countInd deleteOrCreate boot)
            (true, boot, writeBootNode mnt boot d)

/-! ## `hefsi_fetch_in` -/

section
open HefsIndexNodeDirectory

/-- The index of the first slice with the property. -/
def firstSlice (p : Nat → Bool) : Option Nat := (List.range kOpenHeFSSliceCount).find? p

/-- The slice of `dir` whose index node has the name and the kind. -/
def sliceOfFile (d : Disk) (dir : Store) (fileName : List UInt8) (kind : UInt8) : Option Nat :=
  firstSlice fun index =>
    let node := d.fInput ((fINSlices index).get dir)
    hashPath fileName = HefsIndexNode.fHashPath.get node &&
      HefsIndexNode.fKind.get node = kind.toNat

/-- What the loop does with the record at `start`. -/
def fetchVisit (d : Disk) (dirName fileName : List UInt8) (kind : UInt8) (start : Nat) :
    Visit Store :=
  let dir := d.fInput start
  if fHashPath.get dir = 0 then .stop
  else if hashPath dirName = fHashPath.get dir then
    match sliceOfFile d dir fileName kind with
    | some index => .found (d.fInput ((fINSlices index).get dir))
    | none => .next
  else .next

/-- `hefsi_fetch_in`: the index node, if there is one. -/
def hefsiFetchIn (boot : Store) (d : Disk) (dirName fileName : List UInt8) (kind : UInt8) :
    Option (Option Store) :=
  let fStartIND := HefsBootNode.fStartIND
  let fEndIND := HefsBootNode.fEndIND
  if fEndIND.get boot < fStartIND.get boot then some none
  else if HefsBootNode.fEndIN.get boot < HefsBootNode.fStartIN.get boot then some none
  else if d.errGlobal = kErrorDiskIsCorrupted then some none
  else
    scan nextStart (fun start => fEndIND.get boot ≤ start) (fetchVisit d dirName fileName kind)
      scanFuel (fStartIND.get boot)

/-! ## `hefsi_update_in_status` -/

/-- A slice the loop can use: an empty one to create, one whose index node has the name to
delete. The kind is not looked at. -/
def inWanted (d : Disk) (dir : Store) (hashFile : Nat) (deleteOrCreate : Bool) (index : Nat) :
    Bool :=
  if deleteOrCreate then
    (fINSlices index).get dir ≠ 0 &&
      HefsIndexNode.fHashPath.get (d.fInput ((fINSlices index).get dir)) = hashFile
  else (fINSlices index).get dir = 0

/-- What the loop does with the record at `start`. -/
def updateInVisit (d : Disk) (dirName : List UInt8) (hashFile : Nat) (deleteOrCreate : Bool)
    (start : Nat) : Visit (Nat × Nat) :=
  let dir := d.fInput start
  if hashPath dirName = fHashPath.get dir then
    match firstSlice (inWanted d dir hashFile deleteOrCreate) with
    | some index => .found (start, index)
    | none => .next
  else .next

/-- The record and the slice of it that are to be used. -/
def hefsiFindSlice (boot : Store) (d : Disk) (dirName : List UInt8) (hashFile : Nat)
    (deleteOrCreate : Bool) : Option (Option (Nat × Nat)) :=
  scan nextStart (fun start => HefsBootNode.fEndIND.get boot < start || start = 0)
    (updateInVisit d dirName hashFile deleteOrCreate) scanFuel (HefsBootNode.fStartIND.get boot)

/-- The directory record with the index node at `fStartIN` in the slice. -/
def fillSlice (boot dir : Store) (index : Nat) : Store :=
  let dir := (fINSlices index).set (HefsBootNode.fStartIN.get boot) dir
  let dir := fEntryCount.set (fEntryCount.get dir + 1) dir
  fChecksum.set (crcOf dir size) dir

/-- The directory record with the slice emptied. -/
def emptySlice (dir : Store) (index : Nat) : Store :=
  let dir := (fINSlices index).set 0 dir
  let dir := if fEntryCount.get dir ≠ 0 then fEntryCount.set (fEntryCount.get dir - 1) dir else dir
  fChecksum.set (crcOf dir size) dir

/-- The index node with the block at `fStartBlock` as its own. -/
def placeNode (boot node : Store) : Store :=
  let startBlock := HefsBootNode.fStartBlock.get boot
  let node := HefsIndexNode.fOffsetSliceLow.set startBlock node
  let node := HefsIndexNode.fOffsetSliceHigh.set (startBlock / 2 ^ 32) node
  HefsIndexNode.fChecksum.set (crcOf node HefsIndexNode.size) node

/-- The boot node with both cursors moved on. -/
def bumpCursors (boot : Store) : Store :=
  let fStartIN := HefsBootNode.fStartIN
  let fStartBlock := HefsBootNode.fStartBlock
  let boot := fStartIN.set (u64 (fStartIN.get boot + HefsIndexNode.size)) boot
  fStartBlock.set (u64 (fStartBlock.get boot + kOpenHeFSBlockLen)) boot

/-- What is written when an index node is created in the slice. -/
def createIn (mnt : DriveTrait) (boot node : Store) (d : Disk) (start index : Nat) : Disk :=
  let dir := fillSlice boot (d.fInput start) index
  let d := d.fOutput .directory start size dir
  let d := d.fOutput .indexNode ((fINSlices index).get dir) HefsIndexNode.size
    (placeNode boot node)
  writeBootNode mnt (sealBootNode (bumpCursors boot)) d

/-- What is written when the index node in the slice is deleted: the cursors stay. -/
def deleteIn (mnt : DriveTrait) (boot node : Store) (d : Disk) (start index : Nat) : Disk :=
  let dir := d.fInput start
  let lba := (fINSlices index).get dir
  let node := HefsIndexNode.fOffsetSliceLow.set 0 node
  let node := HefsIndexNode.fOffsetSliceHigh.set 0 node
  let d := writeBootNode mnt (sealBootNode boot) d
  let d := d.fOutput .indexNode lba HefsIndexNode.size node
  d.fOutput .directory start size (emptySlice dir index)

/-- `hefsi_update_in_status`; the boot node it leaves differs from `boot` in the cursors and the
checksum only, which nothing after it looks at. -/
def hefsiUpdateInStatus (mnt : DriveTrait) (boot : Store) (d : Disk) (dirName : List UInt8)
    (node : Store) (deleteOrCreate : Bool) : Option (Bool × Disk) :=
  if HefsBootNode.fEndIND.get boot < HefsBootNode.fStartIND.get boot then some (false, d)
  else if HefsBootNode.fEndIN.get boot < HefsBootNode.fStartIN.get boot then some (false, d)
  else if HefsBootNode.fEndBlock.get boot < HefsBootNode.fStartBlock.get boot then some (false, d)
  else
    (hefsiFindSlice boot d dirName (HefsIndexNode.fHashPath.get node) deleteOrCreate).map fun r =>
      match r with
      | none => (false, d.setErr kErrorFileNotFound)
      | some (start, index) =>
          if deleteOrCreate then (true, deleteIn mnt boot node d start index)
          else (true, createIn mnt boot node d start index)

end

end Detail

namespace HeFileSystemParser

open Detail

/-- `KStringBuilder::Equals(boot->fMagic, kOpenHeFSMagic)`: the eight characters, then a zero. -/
def equalsMagic (boot : Store) : Bool :=
  (List.range kOpenHeFSMagicLen).all fun i => boot i == kOpenHeFSMagic.getD i 0

/-- The test every operation puts the boot node to. -/
def bootValid (boot : Store) : Bool :=
  equalsMagic boot && HefsBootNode.fVersion.get boot = kOpenHeFSVersion

/-- The test `Format` puts a boot node's checksum to: none, or the right one. -/
def checksumPasses (boot : Store) : Bool :=
  !(crcOf boot HefsBootNode.size ≠ HefsBootNode.fChecksum.get boot &&
    0 < HefsBootNode.fChecksum.get boot)

/-! ## Directories -/

def iNodeDirectoryCtlManip (mnt : DriveTrait) (d : Disk) (flags : Nat) (dir : List UInt8)
    (deleteOrCreate : Bool) : Option (Bool × Disk) :=
  if kOpenHeFSFileNameLen < dir.length then some (false, d.setErr kErrorDisk)
  else
    let boot := d.fInput mnt.fLbaStart
    -- the second test of the same condition is never reached
    if bootValid boot = false then some (true, d.setErr kErrorDisk)
    else if dir = kOpenHeFSSearchAllStr then some (false, d.setErr kErrorInvalidData)
    else
      (hefsiUpdateIndStatus mnt boot d dir flags deleteOrCreate).bind fun r =>
        if r.1 then (hefsiBalanceInd r.2.1 r.2.2).map fun d => (true, d)
        else some (false, r.2.2)

def createINodeDirectory (mnt : DriveTrait) (d : Disk) (flags : Nat) (dir : List UInt8) :
    Option (Bool × Disk) := iNodeDirectoryCtlManip mnt d flags dir false

def removeINodeDirectory (mnt : DriveTrait) (d : Disk) (flags : Nat) (dir : List UInt8) :
    Option (Bool × Disk) := iNodeDirectoryCtlManip mnt d flags dir true

/-! ## `Format` -/

/-- The boot node `Format` writes over what it has read. -/
def formatBootNode (mnt : DriveTrait) (flags : Nat) (volName : List UInt8) (boot : Store) :
    Store :=
  let maxLba := mnt.size / mnt.fSectorSz
  let dirMax := maxLba / 300
  let inodeMax := maxLba / 400
  let startIND := u64 (mnt.fLbaStart + HefsBootNode.size)
  let endIND := u64 (startIND + dirMax)
  let endIN := u64 (endIND + inodeMax)
  let boot := blit boot HefsBootNode.fVolName (volName.length + 1) fun i => volName.getD i 0
  let boot := blit boot 0 (kOpenHeFSMagicLen - 1) fun i => kOpenHeFSMagic.getD i 0
  let boot := HefsBootNode.fBadSectors.set 0 boot
  let boot := HefsBootNode.fSectorCount.set mnt.sectorCount boot
  let boot := HefsBootNode.fSectorSize.set mnt.fSectorSz boot
  let boot := HefsBootNode.fStartIND.set startIND boot
  let boot := HefsBootNode.fEndIND.set endIND boot
  let boot := HefsBootNode.fStartIN.set endIND boot
  let boot := HefsBootNode.fEndIN.set endIN boot
  let boot := HefsBootNode.fStartBlock.set endIN boot
  let boot := HefsBootNode.fEndBlock.set mnt.size boot
  let boot := HefsBootNode.fINDCount.set 0 boot
  let boot := HefsBootNode.fDiskSize.set mnt.size boot
  let boot := HefsBootNode.fDiskStatus.set kOpenHeFSStatusUnlocked boot
  let boot := HefsBootNode.fDiskFlags.set flags boot
  let boot :=
    HefsBootNode.fDiskKind.set
      (if mnt.fKind &&& kMassStorageDrive ≠ 0 then kOpenHeFSMassStorageDevice
        else if mnt.fKind &&& kOpenHeFSOpticalDrive ≠ 0 then kOpenHeFSOpticalDrive
        else kOpenHeFSUnknown) boot
  let boot := HefsBootNode.fVersion.set kOpenHeFSVersion boot
  let boot := HefsBootNode.fVID.set kOpenHeFSInvalidVID boot
  sealBootNode boot

/-- The directories every disk starts with: `/`, `/boot`, `/system`, `/network`, `/devices`,
`/media` and `/dev`. -/
def kFileMap : List (List UInt8) := [
  [0x2F],
  [0x2F, 0x62, 0x6F, 0x6F, 0x74],
  [0x2F, 0x73, 0x79, 0x73, 0x74, 0x65, 0x6D],
  [0x2F, 0x6E, 0x65, 0x74, 0x77, 0x6F, 0x72, 0x6B],
  [0x2F, 0x64, 0x65, 0x76, 0x69, 0x63, 0x65, 0x73],
  [0x2F, 0x6D, 0x65, 0x64, 0x69, 0x61],
  [0x2F, 0x64, 0x65, 0x76]]

/-- Make the directories, whatever comes of each. -/
def createDefaults (mnt : DriveTrait) (d : Disk) : List (List UInt8) → Option Disk
  | [] => some d
  | dir :: dirs =>
      (createINodeDirectory mnt d kOpenHeFSEncodingFlagsUTF8 dir).bind fun r =>
        createDefaults mnt r.2 dirs

def format (mnt : DriveTrait) (d : Disk) (flags : Nat) (volName : List UInt8) :
    Option (Bool × Disk) :=
  let boot := d.fInput mnt.fLbaStart
  if bootValid boot then
    if checksumPasses boot then some (true, d.setErr kErrorSuccess)
    else some (false, d.setErr kErrorDiskIsCorrupted)
  else if checksumPasses boot = false then some (false, d.setErr kErrorDiskIsCorrupted)
  else if mnt.fLbaEnd < mnt.fLbaStart then some (false, d.setErr kErrorDiskIsCorrupted)
  else if mnt.fSectorSz = 0 then none
  else
    let d := writeBootNode mnt (formatBootNode mnt flags volName boot) d
    (createDefaults mnt d kFileMap).map fun d => (true, d.setErr kErrorSuccess)

/-! ## Files -/

/-- The index node `INodeCtlManip` hands down; what it leaves out is zero. -/
def ctlNode (flags : Nat) (name : List UInt8) (deleteOrCreate : Bool) (kind : UInt8) : Store :=
  let node := zeros
  let node := HefsIndexNode.fCreated.set (if deleteOrCreate then 0 else 1) node
  let node := HefsIndexNode.fDeleted.set (if deleteOrCreate then 1 else 0) node
  let node := HefsIndexNode.fKind.set kind.toNat node
  let node := HefsIndexNode.fFlags.set flags node
  HefsIndexNode.fHashPath.set (hashPath name) node

def iNodeCtlManip (mnt : DriveTrait) (d : Disk) (flags : Nat) (dir name : List UInt8)
    (deleteOrCreate : Bool) (kind : UInt8) : Option (Bool × Disk) :=
  if kOpenHeFSFileNameLen < name.length then some (false, d.setErr kErrorDisk)
  else if kOpenHeFSFileNameLen < dir.length then some (false, d.setErr kErrorDisk)
  else
    let boot := d.fInput mnt.fLbaStart
    if bootValid boot = false then some (true, d.setErr kErrorDisk)
    else if dir = kOpenHeFSSearchAllStr then some (false, d.setErr kErrorInvalidData)
    else if name.any (· == 0x2F) then some (false, d.setErr kErrorInvalidData)
    else
      (hefsiUpdateInStatus mnt boot d dir (ctlNode flags name deleteOrCreate kind)
          deleteOrCreate).bind fun r =>
        if r.1 then (hefsiBalanceInd boot r.2).map fun d => (true, d.setErr kErrorSuccess)
        else some (false, r.2.setErr kErrorDirectoryNotFound)

def createINode (mnt : DriveTrait) (d : Disk) (flags : Nat) (dir name : List UInt8)
    (kind : UInt8) : Option (Bool × Disk) := iNodeCtlManip mnt d flags dir name false kind

def deleteINode (mnt : DriveTrait) (d : Disk) (flags : Nat) (dir name : List UInt8)
    (kind : UInt8) : Option (Bool × Disk) := iNodeCtlManip mnt d flags dir name true kind

/-- `INodeManip` with `is_input` off: write `block` to the file's block. -/
def iNodeManip (mnt : DriveTrait) (d : Disk) (block : Store) (blockSz : Nat)
    (dir name : List UInt8) (kind : UInt8) : Option (Bool × Disk) :=
  if kOpenHeFSFileNameLen < dir.length then some (false, d.setErr kErrorDisk)
  else if kOpenHeFSFileNameLen < name.length then some (false, d.setErr kErrorDisk)
  else
    let boot := d.fInput mnt.fLbaStart
    if bootValid boot = false then some (false, d.setErr kErrorDisk)
    else
      (hefsiFetchIn boot d dir name kind).map fun r =>
        match r with
        | none => (false, d.setErr kErrorFileNotFound)
        | some start =>
            let low := HefsIndexNode.fOffsetSliceLow.get start
            if low ≠ 0 ∧ HefsIndexNode.fHashPath.get start ≠ 0 then
              if HefsIndexNode.fFlags.get start &&& kOpenHeFSFlagsReadOnly ≠ 0 then (false, d)
              else
                let lba := HefsIndexNode.fOffsetSliceHigh.get start * 2 ^ 32 + low
                (true, d.fOutput .block lba blockSz block)
            else (true, d)

def iNodeExists (mnt : DriveTrait) (d : Disk) (dir name : List UInt8) (kind : UInt8) :
    Option (Bool × Disk) :=
  if kOpenHeFSFileNameLen < dir.length then some (false, d)
  else if kOpenHeFSFileNameLen < name.length then some (false, d)
  else
    let boot := d.fInput mnt.fLbaStart
    if bootValid boot = false then some (false, d.setErr kErrorDisk)
    else
      (hefsiFetchIn boot d dir name kind).map fun r =>
        match r with
        | none => (false, d.setErr kErrorFileNotFound)
        | some _ => (true, d.setErr kErrorSuccess)

end HeFileSystemParser

end NeKernel.FS
