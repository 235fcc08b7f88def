import NeKernel.FS.OpenHeFSParser
import NeKernel.KernelKit.FileMgr

/-!
# The OpenHeFS manager

`HeFileSystemMgr`, which opens files of the parser by path and reads and writes their blocks. It
works on the main drive, whose trait both its own drive and the mountpoint of the two operations
with a name are filled with. Memory for descriptors and buffers is taken to be there.
-/

namespace NeKernel.FS

open ByteStore Detail HeFileSystemParser KernelKit

namespace HeFileSystemParser

/-- `INodeManip` with `is_input` on: read the file's block into the first `blockSz` bytes of
`block`. -/
def iNodeManipInput (mnt : DriveTrait) (d : Disk) (block : Store) (blockSz : Nat)
    (dir name : List UInt8) (kind : UInt8) : Option (Bool × Store × Disk) :=
  if kOpenHeFSFileNameLen < dir.length then some (false, block, d.setErr kErrorDisk)
  else if kOpenHeFSFileNameLen < name.length then some (false, block, d.setErr kErrorDisk)
  else
    let boot := d.fInput mnt.fLbaStart
    if bootValid boot = false then some (false, block, d.setErr kErrorDisk)
    else
      (hefsiFetchIn boot d dir name kind).map fun r =>
        match r with
        | none => (false, block, d.setErr kErrorFileNotFound)
        | some start =>
            let low := HefsIndexNode.fOffsetSliceLow.get start
            if low ≠ 0 ∧ HefsIndexNode.fHashPath.get start ≠ 0 then
              let lba := HefsIndexNode.fOffsetSliceHigh.get start * 2 ^ 32 + low
              (true, blit block 0 blockSz (d.fInput lba), d)
            else (true, block, d)

end HeFileSystemParser

def kOpenHeFSFileKindRegular : UInt8 := 0x00

/-- `HEFS_NODE_DESC`. -/
structure HefsNodeDesc where
  fDir : List UInt8
  fName : List UInt8
  fCursor : Nat
  fKind : UInt8

/-- The disk and `err_local_get()`. -/
structure HefsMount where
  disk : Disk
  errLocal : Int

def HefsMount.setErr (s : HefsMount) (e : Int) : HefsMount := { s with errLocal := e }

/-- The loop of `hefs_split_path`: the last slash. -/
def hefsCut (path : List UInt8) : Nat :=
  (List.range path.length).foldl (fun cut i => if path.getD i 0 = 0x2F then i else cut) 0

/-- `hefs_split_path`: the directory and the name. -/
def hefsSplitPath (path : List UInt8) : Option (List UInt8 × List UInt8) :=
  if path.head? ≠ some 0x2F then none
  else if path.length < 2 ∨ kOpenHeFSFileNameLen ≤ path.length then none
  else
    let cut := hefsCut path
    let nameLen := path.length - cut - 1
    if nameLen < 1 ∨ kOpenHeFSFileNameLen ≤ nameLen then none
    else some (path.take (if cut ≠ 0 then cut else 1), path.drop (cut + 1))

namespace HeFileSystemMgr

def openNode (mnt : DriveTrait) (path r : List UInt8) (s : HefsMount) :
    Option (Option HefsNodeDesc × HefsMount) :=
  if path = [] then some (none, s)
  else if r = [] then some (none, s)
  else
    match hefsSplitPath path with
    | none => some (none, s.setErr kErrorInvalidData)
    | some (fDir, fName) =>
        (iNodeExists mnt s.disk fDir fName kOpenHeFSFileKindRegular).map fun x =>
          if x.1 then (some ⟨fDir, fName, 0, kOpenHeFSFileKindRegular⟩, ⟨x.2, kErrorSuccess⟩)
          else (none, ⟨x.2, kErrorFileNotFound⟩)

def seek (node : Option HefsNodeDesc) (off : Nat) (s : HefsMount) :
    Option (Bool × Option HefsNodeDesc × HefsMount) :=
  match node with
  | none => some (false, none, s)
  | some desc =>
      if kOpenHeFSBlockLen ≤ off then some (false, some desc, s.setErr kErrorInvalidData)
      else some (true, some { desc with fCursor := off }, s)

/-- `~0UL`. -/
def kFileMgrNPos : Nat := 2 ^ 64 - 1

def tell (node : Option HefsNodeDesc) : Nat :=
  match node with
  | none => kFileMgrNPos
  | some desc => desc.fCursor

def rewind (node : Option HefsNodeDesc) (s : HefsMount) :
    Option (Bool × Option HefsNodeDesc × HefsMount) :=
  match node with
  | none => some (false, none, s)
  | some desc => seek (some desc) 0 s

/-- `Write` on a node; the flags are not looked at, nor is the cursor. -/
def write (mnt : DriveTrait) (node : Option HefsNodeDesc) (data : Option Store) (size : Nat)
    (s : HefsMount) : Option (Option HefsNodeDesc × HefsMount) :=
  match node, data with
  | some desc, some data =>
      if size = 0 then some (some desc, s)
      else if kOpenHeFSBlockLen < size then some (some desc, s.setErr kErrorDiskIsFull)
      else
        (iNodeManip mnt s.disk data size desc.fDir desc.fName desc.fKind).map fun x =>
          if x.1 then (some { desc with fCursor := size }, ⟨x.2, kErrorSuccess⟩)
          else (some desc, ⟨x.2, kErrorFileNotFound⟩)
  | node, _ => some (node, s)

/-- `Read` on a node; a size past the block is cut to it. -/
def read (mnt : DriveTrait) (node : Option HefsNodeDesc) (size : Nat) (s : HefsMount) :
    Option (Option Store × Option HefsNodeDesc × HefsMount) :=
  match node with
  | none => some (none, none, s)
  | some desc =>
      if size = 0 then some (none, some desc, s)
      else
        let size := if kOpenHeFSBlockLen < size then kOpenHeFSBlockLen else size
        (iNodeManipInput mnt s.disk zeros size desc.fDir desc.fName desc.fKind).map fun x =>
          if x.1 then
            (some x.2.1, some { desc with fCursor := size }, ⟨x.2.2, kErrorSuccess⟩)
          else (none, some desc, ⟨x.2.2, kErrorFileNotFound⟩)

/-- `u8"/"`. -/
def kNamedDir : List UInt8 := [0x2F]

/-- `Write` with a name: a file of the root, whatever the node; the size is not looked at. -/
def writeNamed (mnt : DriveTrait) (name : Option (List UInt8)) (node : Option HefsNodeDesc)
    (data : Option Store) (flags : Int) (size : Nat) (s : HefsMount) :
    Option (Option HefsNodeDesc × HefsMount) :=
  if flags = 0 then some (node, s)
  else if size = 0 then some (node, s)
  else
    match data, name with
    | some data, some name =>
        (iNodeManip mnt s.disk data size kNamedDir name 0).map fun x =>
          (node, { s with disk := x.2 })
    | _, _ => some (node, s)

/-- `Read` with a name; a null name is followed. -/
def readNamed (mnt : DriveTrait) (name : Option (List UInt8)) (node : Option HefsNodeDesc)
    (sz : Nat) (s : HefsMount) : Option (Option Store × Option HefsNodeDesc × HefsMount) :=
  name.bind fun name =>
    (iNodeManipInput mnt s.disk zeros sz kNamedDir name 0).map fun x =>
      (some x.2.1, node, { s with disk := x.2.2 })

end HeFileSystemMgr

/-- The manager as `FileStream` sees it. -/
def heFileSystemMgr (mnt : DriveTrait) : IFilesystemMgr HefsMount HefsNodeDesc where
  openNode := HeFileSystemMgr.openNode mnt
  seek := HeFileSystemMgr.seek
  write node data _ size := HeFileSystemMgr.write mnt node data size
  read node _ sz := HeFileSystemMgr.read mnt node sz
  writeNamed := HeFileSystemMgr.writeNamed mnt
  readNamed name node _ sz := HeFileSystemMgr.readNamed mnt name node sz

end NeKernel.FS
