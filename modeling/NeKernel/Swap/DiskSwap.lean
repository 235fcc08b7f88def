import NeKernel.FS.FilesKept
import NeKernel.FS.OpenHeFSFileMgr
import NeKernel.Lib.Records

/-!
# The swap disk

`IDiskSwap`, which keeps a chunk of memory in a file. A chunk is the memory from the address of
its header on, with the header at offset 0.
-/

namespace NeKernel.Swap

open ByteStore KernelKit

/-! ## `SwapDiskHdr` -/

namespace SwapDiskHdr

def fMagic : Field := ⟨0, 4⟩
def fOffset : Field := ⟨28, 8⟩
def fBlobSz : Field := ⟨44, 8⟩

/-- `sizeof(SwapDiskHdr)`: the packed fields, up to the next multiple of eight. -/
def size : Nat := 56

end SwapDiskHdr

def kSwapDiskHeaderMagic : Nat := 0x44535750

/-- `"/boot/pagefile.sys"`. -/
def kSwapPageFilePath : List UInt8 :=
  [0x2F, 0x62, 0x6F, 0x6F, 0x74, 0x2F, 0x70, 0x61, 0x67, 0x65, 0x66, 0x69, 0x6C, 0x65, 0x2E, 0x73,
    0x79, 0x73]

/-! ## `IDiskSwap` -/

namespace IDiskSwap

variable {σ Node : Type} (man : IFilesystemMgr σ Node)

/-- The number of bytes said to be written, and the file system after it. A null name is the empty
one. -/
def write (data : Option Store) (name : List UInt8) (s : σ) : Option (Int × σ) :=
  match data with
  | none => some (0, s)
  | some data =>
      if SwapDiskHdr.fMagic.get data ≠ kSwapDiskHeaderMagic then some (0, s)
      else if name = [] then some (0, s)
      else
        (FileStream.construct man name kRestrictWRB s).bind fun r =>
          if r.1.fFile.isNone then some (0, r.2)
          else
            (FileStream.write man r.1 (SwapDiskHdr.fOffset.get data) (some data)
              (u64 (SwapDiskHdr.size + SwapDiskHdr.fBlobSz.get data)) r.2).map fun w =>
                (w.1, w.2.2)

/-- The chunk, if there is one. -/
def read (offset dataLen : Nat) (name : List UInt8) (s : σ) : Option (Option Store × σ) :=
  if dataLen = 0 then some (none, s)
  else if name = [] then some (none, s)
  else
    (FileStream.construct man name kRestrictRB s).bind fun r =>
      if r.1.fFile.isNone then some (none, r.2)
      else
        (FileStream.read man r.1 offset (u64 (SwapDiskHdr.size + dataLen)) r.2).map fun w =>
          match w.1.mRef with
          | none => (none, w.2.2)
          | some blob =>
              if w.1.hasError = true ∨ SwapDiskHdr.fMagic.get blob ≠ kSwapDiskHeaderMagic then
                (none, w.2.2)
              else (some blob, w.2.2)

end IDiskSwap

/-! ## Writing -/

variable {σ Node : Type}

/-- What a swap is for: the write reports the bytes of header and blob, and reading them back at
the chunk's offset gives the same bytes. -/
def RoundTrips (man : IFilesystemMgr σ Node) (data : Store) (name : List UInt8) (s : σ) : Prop :=
  ∃ s₁, IDiskSwap.write man (some data) name s =
      some (((SwapDiskHdr.size + SwapDiskHdr.fBlobSz.get data : Nat) : Int), s₁) ∧
    ∃ ret s₂, IDiskSwap.read man (SwapDiskHdr.fOffset.get data) (SwapDiskHdr.fBlobSz.get data)
        name s₁ = some (some ret, s₂) ∧
      ∀ i < SwapDiskHdr.size + SwapDiskHdr.fBlobSz.get data, ret i = data i

/-- What a write comes to: it opens the file, and says 0. -/
def onlyOpens (man : IFilesystemMgr σ Node) (data : Option Store) (name : List UInt8) (s : σ) :
    Option (Int × σ) :=
  match data with
  | none => some (0, s)
  | some data =>
      if SwapDiskHdr.fMagic.get data ≠ kSwapDiskHeaderMagic then some (0, s)
      else if name = [] then some (0, s)
      else (man.openNode name kRestrictWRB s).map fun r => (0, r.2)

/-- The mode of the write begins with `r`. -/
theorem mayWrite_wrb : mayWrite (fileRestrict kRestrictWRB) = false := by
  apply Bool.eq_false_iff.mpr
  rw [ne_eq, mayWrite_iff]
  decide

theorem write_eq_onlyOpens (man : IFilesystemMgr σ Node) (data : Option Store) (name : List UInt8)
    (s : σ) : IDiskSwap.write man data name s = onlyOpens man data name s := by
  cases data with
  | none => rfl
  | some data =>
      simp only [IDiskSwap.write, onlyOpens]
      by_cases hmagic : SwapDiskHdr.fMagic.get data ≠ kSwapDiskHeaderMagic
      · rw [if_pos hmagic, if_pos hmagic]
      by_cases hname : name = []
      · rw [if_neg hmagic, if_neg hmagic, if_pos hname, if_pos hname]
      rw [if_neg hmagic, if_neg hmagic, if_neg hname, if_neg hname, FileStream.construct]
      rcases man.openNode name kRestrictWRB s with _ | ⟨node, s₁⟩
      · rfl
      · simp only [Option.map_some, Option.bind_some]
        split
        · rfl
        · rw [FileStream.write_refused mayWrite_wrb, Option.map_some]

/-- The number a write returns is 0. -/
theorem onlyOpens_zero {man : IFilesystemMgr σ Node} {data : Option Store} {name : List UInt8}
    {s s' : σ} {n : Int} (h : onlyOpens man data name s = some (n, s')) : n = 0 := by
  unfold onlyOpens at h
  split at h
  · cases h
    rfl
  · split at h
    · cases h
      rfl
    split at h
    · cases h
      rfl
    obtain ⟨r, -, h⟩ := Option.map_eq_some_iff.mp h
    cases h
    rfl

/-- **The swap never stores anything.** Whatever file system is mounted, whatever the chunk, the
file and the state: a write opens the file in a mode whose table entry is for reading, returns 0
and has stored nothing, so no chunk makes the round trip. -/
theorem never_roundTrips (man : IFilesystemMgr σ Node) (data : Store) (name : List UInt8) (s : σ) :
    ¬ RoundTrips man data name s ∧
      IDiskSwap.write man (some data) name s = onlyOpens man (some data) name s := by
  refine ⟨?_, write_eq_onlyOpens man (some data) name s⟩
  rintro ⟨s₁, hwrite, -⟩
  rw [write_eq_onlyOpens] at hwrite
  have hzero := onlyOpens_zero hwrite
  simp only [SwapDiskHdr.size] at hzero
  omega

/-! ## On OpenHeFS -/

section
open FS HeFileSystemParser

/-- A chunk of sixteen bytes for the start of the file. -/
def sampleChunk : Store :=
  SwapDiskHdr.fMagic.set kSwapDiskHeaderMagic (SwapDiskHdr.fBlobSz.set 16 zeros)

/-- `"pagefile.sys"`. -/
def pageFile : List UInt8 :=
  [0x70, 0x61, 0x67, 0x65, 0x66, 0x69, 0x6C, 0x65, 0x2E, 0x73, 0x79, 0x73]

theorem splitPath_pageFile : hefsSplitPath kSwapPageFilePath = some (kFileMap[1], pageFile) := by
  decide

/-- The page file is there, the chunk fits, and the write returns 0. -/
theorem swap_write_lost :
    ∃ d₁ d₂ node s, format gibDrive blankDisk 0x50 [] = some (true, d₁) ∧
      createINode gibDrive d₁ 0 kFileMap[1] pageFile 0 = some (true, d₂) ∧
      (heFileSystemMgr gibDrive).openNode kSwapPageFilePath kRestrictWRB ⟨d₂, kErrorSuccess⟩ =
        some (some node, s) ∧
      SwapDiskHdr.fMagic.get sampleChunk = kSwapDiskHeaderMagic ∧
      SwapDiskHdr.size + SwapDiskHdr.fBlobSz.get sampleChunk ≤ kOpenHeFSBlockLen ∧
      IDiskSwap.write (heFileSystemMgr gibDrive) (some sampleChunk) kSwapPageFilePath
        ⟨d₂, kErrorSuccess⟩ = some (0, s) ∧
      s.disk.bytes = d₂.bytes := by
  have hname : hashPath pageFile ≠ 0 := by decide +kernel
  obtain ⟨d₁, hformat, herr, h⟩ := format_blank gibDrive_roomy blankDisk_blank 0x50 []
  obtain ⟨d₂, hcreate, hk, hfiles, -⟩ := h.first_file kFileMap[1] pageFile gibDrive_roomy
    (by rw [herr]; decide) endIN_gib roomIN_gib (by decide) (by decide) hname 0 0
  obtain ⟨r, e, hexists, -, hr⟩ := exists_spec (f := ⟨kFileMap[1], pageFile, 0⟩) gibDrive_roomy
    hk.toSearchable hname
  have hthere : r = true := by
    rw [hr, hk.visible_iff, hfiles]
    exact ⟨⟨by decide, by decide⟩, rfl, rfl, rfl⟩
  subst hthere
  have hopen : (heFileSystemMgr gibDrive).openNode kSwapPageFilePath kRestrictWRB
      ⟨d₂, kErrorSuccess⟩ = some (some ⟨kFileMap[1], pageFile, 0, 0⟩, ⟨d₂.setErr e, kErrorSuccess⟩) := by
    show HeFileSystemMgr.openNode gibDrive kSwapPageFilePath kRestrictWRB _ = _
    rw [HeFileSystemMgr.openNode, if_neg (by decide), if_neg (by decide), splitPath_pageFile]
    simp only [kOpenHeFSFileKindRegular, hexists, Option.map_some, if_true]
  have hmagic : SwapDiskHdr.fMagic.get sampleChunk = kSwapDiskHeaderMagic := by decide +kernel
  refine ⟨d₁, d₂, _, _, hformat, hcreate, hopen, hmagic, by decide +kernel, ?_, rfl⟩
  rw [write_eq_onlyOpens]
  simp only [onlyOpens]
  rw [if_neg (by simpa using hmagic), if_neg (by decide), hopen, Option.map_some]

end

end NeKernel.Swap
