import NeKernel.FS.FileContents
import NeKernel.Lib.Runs

/-!
# The cursor of an open file

`Seek`, `Read` and `Write` of `HeFileSystemMgr` set `fCursor` and `Tell` returns it, but `Read` and `Write`
do not look at it: both work on the start of the block and leave the size of the transfer in it. A file with
a position (`BlockFile`) does the same as long as every transfer finds the cursor at the start.
-/

namespace NeKernel.FS

open ByteStore Detail HeFileSystemParser Runs

variable {mnt : DriveTrait} {d d' : Disk} {a lba n : Nat} {data : Store} {readOnly : Bool}

/-! ## A file with a position -/

/-- The calls on an open file. -/
inductive FileOp where
  | seek (off : Nat)
  | read (n : Nat)
  | write (data : Store) (n : Nat)
  | tell
  | rewind

/-- What a call replies: whether it was done, the bytes it has read, the position, or nothing. -/
inductive FileReply where
  | done (ok : Bool)
  | blob (bytes : Option (List UInt8))
  | offset (off : Nat)
  | nothing

/-- The bytes of a block, and a position in it. -/
structure BlockFile where
  bytes : Store
  cursor : Nat
  readOnly : Bool

namespace BlockFile

/-- Reads and writes go from the cursor on and move it by what they transfer. -/
def step (f : BlockFile) : FileOp → FileReply × BlockFile
  | .seek off =>
      if off < kOpenHeFSBlockLen then (.done true, { f with cursor := off }) else (.done false, f)
  | .read n =>
      if n = 0 then (.blob none, f)
      else (.blob (some ((List.range n).map fun i => f.bytes (f.cursor + i))),
        { f with cursor := f.cursor + n })
  | .write data n =>
      if n = 0 ∨ f.readOnly = true then (.nothing, f)
      else (.nothing, { f with bytes := blit f.bytes f.cursor n data, cursor := f.cursor + n })
  | .tell => (.offset f.cursor, f)
  | .rewind => (.done true, { f with cursor := 0 })

/-- The transfer ends inside the block. -/
def Within (f : BlockFile) : FileOp → Prop
  | .read n => f.cursor + n ≤ kOpenHeFSBlockLen
  | .write _ n => f.cursor + n ≤ kOpenHeFSBlockLen
  | _ => True

/-- A call that transfers bytes finds the cursor at the start of the block. -/
def AtStart (f : BlockFile) : FileOp → Prop
  | .read n => n = 0 ∨ f.cursor = 0
  | .write _ n => n = 0 ∨ f.readOnly = true ∨ f.cursor = 0
  | _ => True

end BlockFile

/-! ## The calls of the manager -/

/-- The first `n` bytes of a buffer. -/
def blobBytes (n : Nat) (blob : Store) : List UInt8 := (List.range n).map blob

/-- A call on an open node. The buffer of a read is as long as the read, or as the block. -/
def FileOp.run (mnt : DriveTrait) :
    FileOp → HefsNodeDesc × HefsMount → Option (FileReply × HefsNodeDesc × HefsMount)
  | .seek off, st =>
      (HeFileSystemMgr.seek (some st.1) off st.2).bind fun r =>
        r.2.1.map fun node => (.done r.1, node, r.2.2)
  | .read n, st =>
      (HeFileSystemMgr.read mnt (some st.1) n st.2).bind fun r =>
        r.2.1.map fun node => (.blob (r.1.map (blobBytes (min n kOpenHeFSBlockLen))), node, r.2.2)
  | .write data n, st =>
      (HeFileSystemMgr.write mnt (some st.1) (some data) n st.2).bind fun r =>
        r.1.map fun node => (.nothing, node, r.2)
  | .tell, st => some (.offset (HeFileSystemMgr.tell (some st.1)), st)
  | .rewind, st =>
      (HeFileSystemMgr.rewind (some st.1) st.2).bind fun r =>
        r.2.1.map fun node => (.done r.1, node, r.2.2)

/-- The disks agree but for the block at `lba`. -/
structure SameOutside (lba : Nat) (d d' : Disk) : Prop where
  bytes : ∀ x, x < lba ∨ lba + kOpenHeFSBlockLen ≤ x → d'.bytes x = d.bytes x
  err : d'.errGlobal = d.errGlobal

/-- The node is that of a file with the block at `lba`: whatever is in the block, the lookup of the file
comes to an index node in use that gives this block. -/
structure OpenFile (mnt : DriveTrait) (d : Disk) (desc : HefsNodeDesc) (lba : Nat) (readOnly : Bool) :
    Prop where
  dir : desc.fDir.length ≤ kOpenHeFSFileNameLen
  name : desc.fName.length ≤ kOpenHeFSFileNameLen
  valid : ∀ d', SameOutside lba d d' → bootValid (d'.fInput mnt.fLbaStart) = true
  node : ∀ d', SameOutside lba d d' → ∃ start,
    hefsiFetchIn (d'.fInput mnt.fLbaStart) d' desc.fDir desc.fName desc.fKind = some (some start) ∧
      HefsIndexNode.fOffsetSliceLow.get start ≠ 0 ∧ HefsIndexNode.fHashPath.get start ≠ 0 ∧
      blockLba start = lba ∧
      decide (HefsIndexNode.fFlags.get start &&& kOpenHeFSFlagsReadOnly ≠ 0) = readOnly

namespace OpenFile

variable {desc : HefsNodeDesc} (h : OpenFile mnt d desc lba readOnly) (hd : SameOutside lba d d')
include h hd

theorem read (buf : Store) (sz : Nat) :
    iNodeManipInput mnt d' buf sz desc.fDir desc.fName desc.fKind =
      some (true, blit buf 0 sz (d'.fInput lba), d') := by
  obtain ⟨start, hfetch, hlow, hhash, hlba, -⟩ := h.node d' hd
  unfold iNodeManipInput
  rw [if_neg (Nat.not_lt.mpr h.dir), if_neg (Nat.not_lt.mpr h.name),
    if_neg (by simp [h.valid d' hd]), hfetch, Option.map_some, ← hlba]
  simp only
  rw [if_pos ⟨hlow, hhash⟩]
  rfl

theorem write (block : Store) (sz : Nat) :
    iNodeManip mnt d' block sz desc.fDir desc.fName desc.fKind =
      if readOnly then some (false, d') else some (true, d'.fOutput .block lba sz block) := by
  obtain ⟨start, hfetch, hlow, hhash, hlba, hro⟩ := h.node d' hd
  unfold iNodeManip
  rw [if_neg (Nat.not_lt.mpr h.dir), if_neg (Nat.not_lt.mpr h.name),
    if_neg (by simp [h.valid d' hd]), hfetch, Option.map_some, ← hlba, ← hro]
  simp only [decide_eq_true_eq]
  rw [if_pos ⟨hlow, hhash⟩]
  split <;> rfl

end OpenFile

/-- The files of a disk that calls have been made on are such files. -/
theorem Blocks.openFile {desc : HefsNodeDesc} (h : Blocks mnt d.bytes) (hr : Roomy mnt)
    (herr : d.errGlobal ≠ kErrorDiskIsCorrupted) (hname : hashPath desc.fName ≠ 0)
    (hn : NodeAt mnt d.bytes desc.file a) :
    OpenFile mnt d desc (blockOf mnt a)
      (decide (HefsIndexNode.fFlags.get (slice d.bytes a) &&& kOpenHeFSFlagsReadOnly ≠ 0)) := by
  have hlow : ∀ d', SameOutside (blockOf mnt a) d d' → ∀ x < endIN mnt, d'.bytes x = d.bytes x := by
    intro d' hd x hx
    refine hd.bytes x (.inl ?_)
    rw [blockOf]
    omega
  refine ⟨hn.1.1, hn.1.2, fun d' hd => ?_, fun d' hd => ?_⟩
  · have hvalid : bootValid (bootRec mnt d'.bytes) = true :=
      (h.congr hr hn.2.1 (hlow d' hd)).shape.boot.valid
    exact hvalid
  · have h' := h.congr hr hn.2.1 (hlow d' hd)
    have hn' := (h.toPacked.sameRecords hr hn.2.1 (hlow d' hd)).nodeAt hn
    have hbelow := h.inUse_below (h.nodeAt_inUse hname hn)
    have hflags : HefsIndexNode.fFlags.get (slice d'.bytes a) =
        HefsIndexNode.fFlags.get (slice d.bytes a) :=
      node_get (by decide) fun i hi => hlow d' hd _ (by have := hn.2.1; omega)
    have herr' : d'.errGlobal ≠ kErrorDiskIsCorrupted := by
      rw [hd.err]
      exact herr
    have hfetch : hefsiFetchIn (bootRec mnt d'.bytes) d' desc.fDir desc.fName desc.fKind =
        some (some (slice d'.bytes a)) := fetch_node (f := desc.file) hr h'.shape herr' hn'
    obtain ⟨hlba, hused⟩ := h'.nodeAt_block hname hn'
    refine ⟨slice d'.bytes a, hfetch, hused, h'.nodeAt_hash hname hn', hlba, ?_⟩
    rw [hflags]

/-! ## The simulation -/

/-- The state of the open node and of the disk, as a file with a position. -/
structure Shows (d : Disk) (desc : HefsNodeDesc) (lba : Nat) (readOnly : Bool)
    (st : HefsNodeDesc × HefsMount) (f : BlockFile) : Prop where
  outside : SameOutside lba d st.2.disk
  dir : st.1.fDir = desc.fDir
  name : st.1.fName = desc.fName
  kind : st.1.fKind = desc.fKind
  cursor : st.1.fCursor = f.cursor
  bytes : ∀ i < kOpenHeFSBlockLen, st.2.disk.bytes (lba + i) = f.bytes i
  readOnly : f.readOnly = readOnly

section
variable {desc : HefsNodeDesc} {st : HefsNodeDesc × HefsMount} {f : BlockFile} {op : FileOp}

/-- Calls that leave the disk alone and set the cursor as the file does. -/
theorem Shows.moved (h : Shows d desc lba readOnly st f) (e : Int) (off : Nat) :
    Shows d desc lba readOnly ({ st.1 with fCursor := off }, ⟨st.2.disk, e⟩)
      { f with cursor := off } :=
  ⟨h.outside, h.dir, h.name, h.kind, rfl, h.bytes, h.readOnly⟩

variable (hfile : OpenFile mnt d desc lba readOnly) (h : Shows d desc lba readOnly st f)
include hfile h

/-- A read takes its bytes from the start of the block and leaves its size in the cursor. -/
theorem Shows.run_read (hn : n ≠ 0) (hle : n ≤ kOpenHeFSBlockLen) :
    FileOp.run mnt (.read n) st = some (.blob (some ((List.range n).map f.bytes)),
      { st.1 with fCursor := n }, ⟨st.2.disk, kErrorSuccess⟩) := by
  have hread := hfile.read h.outside zeros n
  rw [← h.dir, ← h.name, ← h.kind] at hread
  have hbytes : blobBytes n (blit zeros 0 n (st.2.disk.fInput lba)) = (List.range n).map f.bytes := by
    refine List.map_congr_left fun i hi => ?_
    have hi := List.mem_range.mp hi
    rw [blit_apply_of_mem (Nat.zero_le i) (by omega)]
    exact h.bytes i (by omega)
  simp only [FileOp.run, HeFileSystemMgr.read]
  rw [if_neg hn, if_neg (Nat.not_lt.mpr hle), hread, Nat.min_eq_left hle]
  simp [hbytes]

/-- A write puts its bytes at the start of the block and leaves its size in the cursor; a read-only file
stays as it is. -/
theorem Shows.run_write_eq (hn : n ≠ 0) (hle : n ≤ kOpenHeFSBlockLen) :
    FileOp.run mnt (.write data n) st =
      if readOnly = true then some (.nothing, st.1, ⟨st.2.disk, kErrorFileNotFound⟩)
      else some (.nothing, { st.1 with fCursor := n },
        ⟨st.2.disk.fOutput .block lba n data, kErrorSuccess⟩) := by
  have hwrite := hfile.write h.outside data n
  rw [← h.dir, ← h.name, ← h.kind] at hwrite
  simp only [FileOp.run, HeFileSystemMgr.write]
  rw [if_neg hn, if_neg (Nat.not_lt.mpr hle), hwrite]
  cases readOnly with
  | true => simp
  | false => simp

theorem Shows.run_write (hn : n ≠ 0) (hle : n ≤ kOpenHeFSBlockLen) (hro : readOnly = false) :
    FileOp.run mnt (.write data n) st = some (.nothing, { st.1 with fCursor := n },
      ⟨st.2.disk.fOutput .block lba n data, kErrorSuccess⟩) := by
  rw [h.run_write_eq hfile hn hle, if_neg (by simp [hro])]

theorem Shows.run_write_readOnly (hn : n ≠ 0) (hle : n ≤ kOpenHeFSBlockLen) (hro : readOnly = true) :
    FileOp.run mnt (.write data n) st =
      some (.nothing, st.1, ⟨st.2.disk, kErrorFileNotFound⟩) := by
  rw [h.run_write_eq hfile hn hle, if_pos hro]

end

/-- The call replies as the file does, and leaves what the file is then. -/
def RunsRight (mnt : DriveTrait) (d : Disk) (desc : HefsNodeDesc) (lba : Nat) (readOnly : Bool)
    (st : HefsNodeDesc × HefsMount) (f : BlockFile) (op : FileOp) : Prop :=
  ∃ st', op.run mnt st = some ((f.step op).1, st') ∧
    Shows d desc lba readOnly st' (f.step op).2

section
variable {desc : HefsNodeDesc} {st st' : HefsNodeDesc × HefsMount} {f : BlockFile} {op : FileOp}
  {reply : FileReply}

/-- A transfer that leaves its size in the cursor goes wrong anywhere else than at the start. -/
theorem RunsRight.cursor (hright : RunsRight mnt d desc lba readOnly st f op)
    (hrun : op.run mnt st = some (reply, st')) (hcur : st'.1.fCursor = n)
    (hstep : (f.step op).2.cursor = f.cursor + n) : f.cursor = 0 := by
  obtain ⟨st'', hop, hshows⟩ := hright
  rw [hrun] at hop
  cases hop
  have := hshows.cursor
  omega

variable (h : Shows d desc lba readOnly st f)
include h

/-- What a transfer to the start of the block leaves there. -/
theorem Shows.written (hf : f.cursor = 0) (hle : n ≤ kOpenHeFSBlockLen) (e : Int) :
    Shows d desc lba readOnly
      ({ st.1 with fCursor := n }, ⟨st.2.disk.fOutput .block lba n data, e⟩)
      { f with bytes := blit f.bytes f.cursor n data, cursor := f.cursor + n } := by
  refine ⟨⟨fun x hx => ?_, h.outside.err⟩, h.dir, h.name, h.kind, ?_, fun i hi => ?_, h.readOnly⟩
  · rw [Disk.fOutput_bytes, blit_apply_of_notMem (by omega)]
    exact h.outside.bytes x hx
  · rw [hf, Nat.zero_add]
  · rw [Disk.fOutput_bytes, hf]
    show blit st.2.disk.bytes lba n data (lba + i) = blit f.bytes 0 n data i
    by_cases hin : i < n
    · rw [blit_apply_add hin, blit_apply_of_mem (Nat.zero_le i) (by omega), Nat.sub_zero]
    · rw [blit_apply_of_notMem (by omega), blit_apply_of_notMem (by omega)]
      exact h.bytes i hi

variable (hfile : OpenFile mnt d desc lba readOnly)
include hfile

theorem Shows.read_right_iff (hn : n ≠ 0) (hle : n ≤ kOpenHeFSBlockLen) :
    RunsRight mnt d desc lba readOnly st f (.read n) ↔ f.cursor = 0 := by
  have hrun := h.run_read hfile hn hle
  have hstep : f.step (.read n) = (.blob (some ((List.range n).map fun i => f.bytes (f.cursor + i))),
      { f with cursor := f.cursor + n }) := by
    simp only [BlockFile.step, if_neg hn]
  refine ⟨fun hright => hright.cursor hrun rfl (by rw [hstep]), fun hf => ?_⟩
  unfold RunsRight
  rw [hstep, hrun]
  simp only [hf, Nat.zero_add]
  exact ⟨_, rfl, h.moved _ n⟩

theorem Shows.write_right_iff (hn : n ≠ 0) (hle : n ≤ kOpenHeFSBlockLen) (hro : f.readOnly = false) :
    RunsRight mnt d desc lba readOnly st f (.write data n) ↔ f.cursor = 0 := by
  have hrun : FileOp.run mnt (.write data n) st = some (.nothing, { st.1 with fCursor := n },
      ⟨st.2.disk.fOutput .block lba n data, kErrorSuccess⟩) := h.run_write hfile hn hle (h.readOnly ▸ hro)
  have hstep : f.step (.write data n) = (.nothing,
      { f with bytes := blit f.bytes f.cursor n data, cursor := f.cursor + n }) := by
    simp only [BlockFile.step, hro, hn, Bool.false_eq_true, or_self, if_false]
  refine ⟨fun hright => hright.cursor hrun rfl (by rw [hstep]), fun hf => ?_⟩
  unfold RunsRight
  rw [hstep, hrun]
  exact ⟨_, rfl, h.written hf hle _⟩

theorem Shows.write_readOnly_right (hn : n ≠ 0) (hle : n ≤ kOpenHeFSBlockLen)
    (hro : f.readOnly = true) : RunsRight mnt d desc lba readOnly st f (.write data n) := by
  have hrun : FileOp.run mnt (.write data n) st =
      some (.nothing, st.1, ⟨st.2.disk, kErrorFileNotFound⟩) :=
    h.run_write_readOnly hfile hn hle (h.readOnly ▸ hro)
  unfold RunsRight
  simp only [BlockFile.step, hro, or_true, if_true]
  exact ⟨_, hrun, h.outside, h.dir, h.name, h.kind, h.cursor, h.bytes, h.readOnly⟩

/-- **One call** is that of the file with a position if and only if a transfer finds the cursor at the
start. -/
theorem Shows.right_iff (hin : f.Within op) :
    RunsRight mnt d desc lba readOnly st f op ↔ f.AtStart op := by
  cases op with
  | seek off =>
      refine iff_of_true ?_ trivial
      unfold RunsRight
      simp only [FileOp.run, HeFileSystemMgr.seek, BlockFile.step]
      by_cases hoff : kOpenHeFSBlockLen ≤ off
      · rw [if_pos hoff, if_neg (Nat.not_lt.mpr hoff)]
        exact ⟨_, rfl, h.outside, h.dir, h.name, h.kind, h.cursor, h.bytes, h.readOnly⟩
      · rw [if_neg hoff, if_pos (Nat.lt_of_not_le hoff)]
        exact ⟨_, rfl, h.moved _ off⟩
  | tell =>
      refine iff_of_true ⟨st, ?_, h⟩ trivial
      simp only [FileOp.run, HeFileSystemMgr.tell, BlockFile.step, h.cursor]
  | rewind => exact iff_of_true ⟨_, rfl, h.moved _ 0⟩ trivial
  | read n =>
      have hle : n ≤ kOpenHeFSBlockLen := Nat.le_trans (Nat.le_add_left _ _) hin
      by_cases hn : n = 0
      · subst hn
        exact iff_of_true ⟨_, rfl, h⟩ (.inl rfl)
      rw [h.read_right_iff hfile hn hle]
      simp only [BlockFile.AtStart, hn, false_or]
  | write data n =>
      have hle : n ≤ kOpenHeFSBlockLen := Nat.le_trans (Nat.le_add_left _ _) hin
      by_cases hn : n = 0
      · subst hn
        exact iff_of_true ⟨_, rfl, by simpa [BlockFile.step] using h⟩ (.inl rfl)
      cases hro : f.readOnly with
      | false =>
          rw [h.write_right_iff hfile hn hle hro]
          simp only [BlockFile.AtStart, hn, hro, Bool.false_eq_true, false_or]
      | true => exact iff_of_true (h.write_readOnly_right hfile hn hle hro) (.inr (.inl hro))

end

/-! ## Whole runs -/

/-- The node and the file take the same call. -/
def TakesBoth (mnt : DriveTrait) (p : (HefsNodeDesc × HefsMount) × BlockFile) (op : FileOp)
    (p' : (HefsNodeDesc × HefsMount) × BlockFile) : Prop :=
  (∃ reply, op.run mnt p.1 = some (reply, p'.1)) ∧ p'.2 = (p.2.step op).2

section
variable {desc : HefsNodeDesc} {s s₀ : HefsMount} {path restrict : List UInt8}

/-- A node is opened with the cursor at the start. -/
theorem openNode_cursor
    (h : HeFileSystemMgr.openNode mnt path restrict s₀ = some (some desc, s)) : desc.fCursor = 0 := by
  unfold HeFileSystemMgr.openNode at h
  by_cases hpath : path = []
  · rw [if_pos hpath] at h
    cases h
  by_cases hrestrict : restrict = []
  · rw [if_neg hpath, if_pos hrestrict] at h
    cases h
  rw [if_neg hpath, if_neg hrestrict] at h
  split at h
  · cases h
  · obtain ⟨x, -, hx⟩ := Option.map_eq_some_iff.mp h
    split at hx
    · cases hx
      rfl
    · cases hx

theorem shows_opened (hcur : desc.fCursor = 0) :
    Shows s.disk desc lba readOnly (desc, s) ⟨slice s.disk.bytes lba, 0, readOnly⟩ :=
  ⟨⟨fun _ _ => rfl, rfl⟩, rfl, rfl, rfl, hcur, fun _ _ => rfl, rfl⟩

theorem Shows.kept (hfile : OpenFile mnt d desc lba readOnly)
    {p p' : (HefsNodeDesc × HefsMount) × BlockFile} {op : FileOp}
    (h : Shows d desc lba readOnly p.1 p.2) (hin : p.2.Within op) (hstart : p.2.AtStart op)
    (hstep : TakesBoth mnt p op p') : Shows d desc lba readOnly p'.1 p'.2 := by
  obtain ⟨st', hop, hshows⟩ := (h.right_iff hfile hin).mpr hstart
  obtain ⟨⟨reply, hrun⟩, hspec⟩ := hstep
  rw [hrun] at hop
  cases hop
  rw [hspec]
  exact hshows

/-- **An open file** is a byte array with a position through every run whose transfers all find the cursor
at the start, and the first call that does not ends this. -/
theorem cursor_honoured_iff
    (hopen : HeFileSystemMgr.openNode mnt path restrict s₀ = some (some desc, s))
    (hfile : OpenFile mnt s.disk desc lba readOnly)
    {p : (HefsNodeDesc × HefsMount) × BlockFile}
    (hrun : Reach (TakesBoth mnt) (fun p op => p.2.Within op ∧ p.2.AtStart op)
      ((desc, s), ⟨slice s.disk.bytes lba, 0, readOnly⟩) p) :
    Shows s.disk desc lba readOnly p.1 p.2 ∧
      ∀ op, p.2.Within op →
        (RunsRight mnt s.disk desc lba readOnly p.1 p.2 op ↔ p.2.AtStart op) := by
  have hshows : Shows s.disk desc lba readOnly p.1 p.2 := by
    refine hrun.inv (I := fun p => Shows s.disk desc lba readOnly p.1 p.2)
      (shows_opened (openNode_cursor hopen)) fun p op p' h hok hstep => ?_
    exact Shows.kept hfile h hok.1 hok.2 hstep
  exact ⟨hshows, fun op hin => hshows.right_iff hfile hin⟩

end

/-! ## A file of a fresh drive -/

/-- `/a` on a fresh drive, opened. -/
theorem opened_gib :
    ∃ d₁ d₂ d₃ desc s lba, format gibDrive blankDisk 0x50 [] = some (true, d₁) ∧
      createINode gibDrive d₁ 0 [0x2F] [0x61] 0 = some (true, d₂) ∧
      createINode gibDrive d₂ 0 [0x2F] [0x62] 0 = some (true, d₃) ∧
      HeFileSystemMgr.openNode gibDrive [0x2F, 0x61] [0x72] ⟨d₃, 0⟩ = some (some desc, s) ∧
      OpenFile gibDrive s.disk desc lba false := by
  obtain ⟨d₁, d₂, d₃, hformat, ha, hb, h, herr, a, hn, -, hflags, -⟩ :=
    two_files gibDrive_roomy blankDisk_blank 0x50 [] (by decide) gib_bounds.1
      (by rw [gib_bounds.2]; decide) (by rw [gib_bounds.2]; decide) (by rw [gib_bounds.2]; decide)
  have hexists : iNodeExists gibDrive d₃ [0x2F] [0x61] 0 = some (true, d₃.setErr kErrorSuccess) :=
    exists_node gibDrive_roomy h (by rw [herr]; decide) hn
  have herr' : (d₃.setErr kErrorSuccess).errGlobal ≠ kErrorDiskIsCorrupted := by
    rw [Disk.setErr_errGlobal]
    decide
  have hfile : OpenFile gibDrive (d₃.setErr kErrorSuccess) ⟨[0x2F], [0x61], 0, 0⟩ (blockOf gibDrive a)
      (decide (HefsIndexNode.fFlags.get (slice d₃.bytes a) &&& kOpenHeFSFlagsReadOnly ≠ 0)) :=
    Blocks.openFile h gibDrive_roomy herr' (by decide +kernel) hn
  rw [hflags] at hfile
  refine ⟨d₁, d₂, d₃, ⟨[0x2F], [0x61], 0, 0⟩, ⟨d₃.setErr kErrorSuccess, kErrorSuccess⟩, _, hformat, ha,
    hb, ?_, hfile⟩
  unfold HeFileSystemMgr.openNode
  rw [if_neg (by decide), if_neg (by decide),
    show hefsSplitPath [0x2F, 0x61] = some ([0x2F], [0x61]) by decide]
  show (iNodeExists gibDrive d₃ [0x2F] [0x61] 0).map _ = _
  rw [hexists]
  rfl

/-- After a seek a read of the file is wrong and `Tell` is right. -/
theorem cursor_honoured_iff_gib :
    ∃ desc s lba st, FileOp.run gibDrive (.seek 4) (desc, s) = some (.done true, st) ∧
      ¬ RunsRight gibDrive s.disk desc lba false st ⟨slice s.disk.bytes lba, 4, false⟩ (.read 1) ∧
      RunsRight gibDrive s.disk desc lba false st ⟨slice s.disk.bytes lba, 4, false⟩ .tell := by
  obtain ⟨-, -, d₃, desc, s, lba, -, -, -, hopen, hfile⟩ := opened_gib
  have hseek : FileOp.run gibDrive (.seek 4) (desc, s) =
      some (.done true, { desc with fCursor := 4 }, s) := rfl
  have hboth : TakesBoth gibDrive ((desc, s), ⟨slice s.disk.bytes lba, 0, false⟩) (.seek 4)
      (({ desc with fCursor := 4 }, s), ⟨slice s.disk.bytes lba, 4, false⟩) := ⟨⟨_, hseek⟩, rfl⟩
  obtain ⟨-, hright⟩ :=
    cursor_honoured_iff hopen hfile (.step (.seek 4) .init ⟨trivial, trivial⟩ hboth)
  refine ⟨desc, s, lba, _, hseek, fun h => ?_, (hright .tell trivial).mpr trivial⟩
  have hstart := (hright (.read 1) (by show 4 + 1 ≤ 512; decide)).mp h
  rcases hstart with h | h <;> cases h

/-- A byte written after a seek to 4 goes to the start of the block, and the position is 1 then. -/
theorem seek_lost_by_write :
    ∃ d₁ d₂ d₃ desc s lba st₁ st₂, format gibDrive blankDisk 0x50 [] = some (true, d₁) ∧
      createINode gibDrive d₁ 0 [0x2F] [0x61] 0 = some (true, d₂) ∧
      createINode gibDrive d₂ 0 [0x2F] [0x62] 0 = some (true, d₃) ∧
      HeFileSystemMgr.openNode gibDrive [0x2F, 0x61] [0x72] ⟨d₃, 0⟩ = some (some desc, s) ∧
      FileOp.run gibDrive (.seek 4) (desc, s) = some (.done true, st₁) ∧
      FileOp.run gibDrive (.write (fun _ => 7) 1) st₁ = some (.nothing, st₂) ∧
      st₂.2.disk.bytes = blit s.disk.bytes lba 1 (fun _ => 7) ∧
      FileOp.run gibDrive .tell st₂ = some (.offset 1, st₂) ∧
      FileOp.run gibDrive (.read 1) st₂ = some (.blob (some [7]), st₂) ∧
      let f : BlockFile := ⟨slice s.disk.bytes lba, 0, false⟩
      (((f.step (.seek 4)).2.step (.write (fun _ => 7) 1)).2.step .tell).1 = .offset 5 := by
  obtain ⟨d₁, d₂, d₃, desc, s, lba, hformat, ha, hb, hopen, hfile⟩ := opened_gib
  have hshows : Shows s.disk desc lba false (desc, s) ⟨slice s.disk.bytes lba, 0, false⟩ :=
    shows_opened (openNode_cursor hopen)
  have hseek : Shows s.disk desc lba false ({ desc with fCursor := 4 }, s)
      ⟨slice s.disk.bytes lba, 4, false⟩ := hshows.moved s.errLocal 4
  have hwritten : Shows s.disk desc lba false ({ desc with fCursor := 1 },
      ⟨s.disk.fOutput .block lba 1 (fun _ => 7), kErrorSuccess⟩)
      ⟨blit (slice s.disk.bytes lba) 0 1 (fun _ => 7), 1, false⟩ :=
    hshows.written rfl (by decide) kErrorSuccess
  refine ⟨d₁, d₂, d₃, desc, s, lba, ({ desc with fCursor := 4 }, s), ({ desc with fCursor := 1 },
    ⟨s.disk.fOutput .block lba 1 (fun _ => 7), kErrorSuccess⟩), hformat, ha, hb, hopen, rfl, ?_, rfl, rfl,
    ?_, rfl⟩
  · exact hseek.run_write hfile (by decide) (by decide) rfl
  · exact hwritten.run_read hfile (by decide) (by decide)

end NeKernel.FS
