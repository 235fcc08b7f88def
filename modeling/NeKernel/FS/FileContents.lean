import NeKernel.FS.FileBlocks

/-!
# What is in the files

The files of a disk as a map from index nodes to contents. Reads of at most a block return what the
map has for the index node the lookup comes to, two files never come to one node, and over a whole
run the map changes only where it should: an operation leaves the contents of the nodes that are
there, a write changes those of its own file. All of this as long as no write is longer than a
block, which `INodeManip` and `Write` with a name do not look at: a longer one goes over the end of
the block, into that of the next file (`write_spills`).
-/

namespace NeKernel.FS

open ByteStore Scan Detail HeFileSystemParser HefsIndexNodeDirectory

variable {mnt : DriveTrait} {m m' block buf : Store} {d d' w : Disk}
  {a i j k l x flags sz : Nat} {name : List UInt8} {op : Op} {f g : File}

/-! ## Lookups -/

/-- The lookup of the file comes to the index node at `a`. -/
def NodeAt (mnt : DriveTrait) (m : Store) (f : File) (a : Nat) : Prop :=
  ShortNames f ∧ startIN mnt m ≤ endIN mnt ∧
    ∃ j i, FirstFetched mnt m f j i ∧ dirSlice mnt m j i = a

theorem FirstFetched.unique (h : FirstFetched mnt m f j i) (h' : FirstFetched mnt m f k l) :
    j = k ∧ i = l := by
  have := h.first k l h'.toFetched
  have := h'.first j i h.toFetched
  omega

section
variable (hr : Roomy mnt) (hs : Shape mnt d.bytes)
include hr hs

theorem fetch_node (herr : d.errGlobal ≠ kErrorDiskIsCorrupted) (h : NodeAt mnt d.bytes f a) :
    hefsiFetchIn (bootRec mnt d.bytes) d f.dir f.name f.kind = some (some (slice d.bytes a)) := by
  obtain ⟨-, hcur, j, i, hf, rfl⟩ := h
  rcases fetch_cases hr hs.boot herr hcur f with ⟨k, l, hf', hfetch⟩ | ⟨-, hno⟩
  · obtain ⟨rfl, rfl⟩ := hf.unique hf'
    exact hfetch
  · exact absurd hf.toFetched (hno j i)

theorem fetch_none (herr : d.errGlobal ≠ kErrorDiskIsCorrupted) (hshort : ShortNames f)
    (h : ∀ a, ¬ NodeAt mnt d.bytes f a) :
    hefsiFetchIn (bootRec mnt d.bytes) d f.dir f.name f.kind = some none := by
  by_cases hcur : startIN mnt d.bytes ≤ endIN mnt
  · rcases fetch_cases hr hs.boot herr hcur f with ⟨j, i, hf, -⟩ | ⟨hfetch, -⟩
    · exact absurd ⟨hshort, hcur, j, i, hf, rfl⟩ (h (dirSlice mnt d.bytes j i))
    · exact hfetch
  · have hrow : ¬ HefsBootNode.fEndIND.get (bootRec mnt d.bytes) <
        HefsBootNode.fStartIND.get (bootRec mnt d.bytes) := by
      rw [hs.boot.startIND, hs.boot.endIND, endIND]
      omega
    have hnodes : HefsBootNode.fEndIN.get (bootRec mnt d.bytes) <
        HefsBootNode.fStartIN.get (bootRec mnt d.bytes) := by
      rw [hs.boot.endIN]
      exact Nat.lt_of_not_le hcur
    unfold hefsiFetchIn
    simp only
    rw [if_neg hrow, if_pos hnodes]

end

/-! ## What a lookup depends on -/

/-- The records and the index nodes are the same. -/
structure SameRecords (mnt : DriveTrait) (m m' : Store) : Prop where
  hash : ∀ j ≤ lastSlot mnt, dirHash mnt m' j = dirHash mnt m j
  slice : ∀ j ≤ lastSlot mnt, ∀ i < 16, dirSlice mnt m' j i = dirSlice mnt m j i
  node : ∀ j ≤ lastSlot mnt, ∀ i < 16, ∀ x < 512,
    m' (dirSlice mnt m j i + x) = m (dirSlice mnt m j i + x)
  cursor : startIN mnt m' = startIN mnt m

namespace SameRecords

variable (h : SameRecords mnt m m')
include h

theorem symm : SameRecords mnt m' m := by
  refine ⟨fun j hj => (h.hash j hj).symm, fun j hj i hi => (h.slice j hj i hi).symm,
    fun j hj i hi x hx => ?_, h.cursor.symm⟩
  rw [h.slice j hj i hi]
  exact (h.node j hj i hi x hx).symm

theorem fetched (hf : Fetched mnt m f j i) : Fetched mnt m' f j i := by
  obtain ⟨hj, hi, hlive, hdir, hname, hkind⟩ := hf
  obtain ⟨hname', hkind'⟩ := node_congr (h.node j hj i hi)
  refine ⟨hj, hi, fun k hk => ?_, ?_, ?_, ?_⟩
  · rw [h.hash k (Nat.le_trans hk hj)]
    exact hlive k hk
  · rw [h.hash j hj]
    exact hdir
  · rw [h.slice j hj i hi, hname']
    exact hname
  · rw [h.slice j hj i hi, hkind']
    exact hkind

theorem nodeAt (hn : NodeAt mnt m f a) : NodeAt mnt m' f a := by
  obtain ⟨hshort, hcur, j, i, hf, ha⟩ := hn
  refine ⟨hshort, ?_, j, i, ⟨h.fetched hf.toFetched, fun k l hkl => ?_⟩, ?_⟩
  · rw [h.cursor]
    exact hcur
  · exact hf.first k l (h.symm.fetched hkl)
  · rw [h.slice j hf.le i hf.lt]
    exact ha

theorem nodeAt_iff : NodeAt mnt m' f a ↔ NodeAt mnt m f a := ⟨h.symm.nodeAt, h.nodeAt⟩

end SameRecords

/-- What lies in front of the blocks decides about the records and the index nodes. -/
theorem Packed.sameRecords (h : Packed mnt m) (hr : Roomy mnt) (hcur : startIN mnt m ≤ endIN mnt)
    (hm : ∀ x < endIN mnt, m' x = m x) : SameRecords mnt m m' := by
  have hle := endIND_le_endIN mnt
  have hrow := slotAt_le_endIND (Nat.zero_le (lastSlot mnt))
  have hstart := hr.start
  rw [slotAt_eq] at hrow
  have hslot : ∀ j ≤ lastSlot mnt, ∀ x < 227, slotRec mnt m' j x = slotRec mnt m j x := by
    intro j hj x hx
    have := hr.field_lt_endIND hj
    exact hm _ (by omega)
  refine ⟨fun j hj => dirHash_congr (hslot j hj), fun j hj i hi => dirSlice_congr (hslot j hj) hi,
    fun j hj i hi x hx => hm _ ?_, Field.get_congr fun x hx => hm _ ?_⟩
  · by_cases hu : dirSlice mnt m j i = 0
    · omega
    · have := h.below j hj i hi hu
      omega
  · simp only [HefsBootNode.fStartIN] at hx ⊢
    omega

/-- The boot node lies in front of the blocks. -/
theorem bootRec_congr_low (hm : ∀ x < endIN mnt, m' x = m x) :
    ∀ x < 513, bootRec mnt m' x = bootRec mnt m x := by
  have hle := endIND_le_endIN mnt
  have hrow := slotAt_le_endIND (Nat.zero_le (lastSlot mnt))
  rw [slotAt_eq] at hrow
  exact fun x hx => hm _ (by omega)

theorem Shape.congr_low (hs : Shape mnt m) (hr : Roomy mnt) (hm : ∀ x < endIN mnt, m' x = m x) :
    Shape mnt m' := by
  have hle := endIND_le_endIN mnt
  refine ⟨hs.boot.congr (bootRec_congr_low hm), fun j hj => (hs.slot j hj).congr fun x hx _ _ => ?_⟩
  have := hr.field_lt_endIND hj
  exact hm _ (by omega)

/-- The slice of a record that leads to an index node in use. -/
def InUse (mnt : DriveTrait) (m : Store) (a : Nat) : Prop :=
  ∃ j ≤ lastSlot mnt, ∃ i < 16, dirSlice mnt m j i ≠ 0 ∧ dirSlice mnt m j i = a

namespace Blocks

variable (h : Blocks mnt m)
include h

theorem inUse_ge (ha : InUse mnt m a) : endIND mnt ≤ a := by
  obtain ⟨j, hj, i, hi, hne, rfl⟩ := ha
  exact h.shape.slice_ge hj hi hne

theorem inUse_below (ha : InUse mnt m a) : a + 512 ≤ startIN mnt m := by
  obtain ⟨j, hj, i, hi, hne, rfl⟩ := ha
  exact h.below j hj i hi hne

theorem inUse_apart {c : Nat} (ha : InUse mnt m a) (hc : InUse mnt m c) (hne : a ≠ c) :
    a + 512 ≤ c ∨ c + 512 ≤ a := by
  obtain ⟨j, hj, i, hi, hu, rfl⟩ := ha
  obtain ⟨k, hk, l, hl, hu', rfl⟩ := hc
  refine h.apart j hj i hi k hk l hl ?_ hu hu'
  by_contra hsame
  obtain ⟨rfl, rfl⟩ : j = k ∧ i = l := by omega
  exact hne rfl

/-- The file with a hash that a lookup comes to. -/
theorem fileAt (hname : hashPath f.name ≠ 0) (hf : FirstFetched mnt m f j i) :
    FileAt mnt m f j i := hf.toFetched.fileAt h.first hname

theorem nodeAt_inUse (hname : hashPath f.name ≠ 0) (hn : NodeAt mnt m f a) : InUse mnt m a := by
  obtain ⟨-, -, j, i, hf, rfl⟩ := hn
  have hfile := h.fileAt hname hf
  exact ⟨j, hfile.le, i, hfile.lt, hfile.used, rfl⟩

theorem nodeAt_hash (hname : hashPath f.name ≠ 0) (hn : NodeAt mnt m f a) :
    HefsIndexNode.fHashPath.get (slice m a) ≠ 0 := by
  obtain ⟨-, -, j, i, hf, rfl⟩ := hn
  exact (h.fileAt hname hf).name.trans_ne hname

/-- The block of a file that a lookup comes to. -/
theorem nodeAt_block (hname : hashPath f.name ≠ 0) (hn : NodeAt mnt m f a) :
    blockLba (slice m a) = blockOf mnt a ∧ HefsIndexNode.fOffsetSliceLow.get (slice m a) ≠ 0 := by
  have hhash := h.nodeAt_hash hname hn
  obtain ⟨j, hj, i, hi, hu, rfl⟩ := h.nodeAt_inUse hname hn
  exact (h.placed j hj i hi hu).resolve_left hhash

/-- **Two files** do not come to one index node. -/
theorem nodeAt_same (hf : hashPath f.name ≠ 0) (hg : hashPath g.name ≠ 0)
    (hn : NodeAt mnt m f a) (hn' : NodeAt mnt m g a) : SameFile f g := by
  obtain ⟨-, -, j, i, hfetch, hj⟩ := hn
  obtain ⟨-, -, k, l, hfetch', hk⟩ := hn'
  have hfile := h.fileAt hf hfetch
  have hfile' := h.fileAt hg hfetch'
  obtain ⟨rfl, rfl⟩ : j = k ∧ i = l := by
    by_contra hne
    have := h.apart j hfile.le i hfile.lt k hfile'.le l hfile'.lt (by omega) hfile.used
      hfile'.used
    omega
  exact hfile.unique hfile'

variable (hr : Roomy mnt)
include hr

/-- A write into the blocks keeps the index nodes and their blocks in order. -/
theorem congr (hcur : startIN mnt m ≤ endIN mnt) (hm : ∀ x < endIN mnt, m' x = m x) :
    Blocks mnt m' := by
  have hsame := h.toPacked.sameRecords hr hcur hm
  have hget : ∀ f : Field, f.off + f.width ≤ 513 →
      f.get (bootRec mnt m') = f.get (bootRec mnt m) :=
    fun f hf => Field.get_congr fun x hx => bootRec_congr_low hm _ (by omega)
  have hblock : startBlock mnt m' = startBlock mnt m := hget _ (by decide)
  refine ⟨h.toPacked.of_used hsame.cursor fun k hk l hl _ => hsame.slice k hk l hl,
    h.shape.congr_low hr hm, fun x hx => ?_, ?_, ?_, fun j hj i hi hu => ?_⟩
  · rw [hm x (hr.low_lt hx)]
    exact h.first x hx
  · rw [hblock, hsame.cursor]
    exact h.cursor
  · rw [hget _ (by decide)]
    exact h.endBlock
  · rw [hsame.slice j hj i hi] at hu ⊢
    exact (h.placed j hj i hi hu).weathered (.of_same (hsame.node j hj i hi))

end Blocks

/-- A block lies behind the records and the index nodes. -/
theorem output_low (d : Disk) (a sz : Nat) (block : Store) :
    ∀ x < endIN mnt, (d.fOutput .block (blockOf mnt a) sz block).bytes x = d.bytes x := by
  intro x hx
  apply blit_apply_of_notMem
  rw [blockOf]
  omega

/-! ## `INodeManip` -/

section
variable (hr : Roomy mnt) (h : Blocks mnt d.bytes) (herr : d.errGlobal ≠ kErrorDiskIsCorrupted)
include hr h herr

theorem read_node (hname : hashPath f.name ≠ 0) (hn : NodeAt mnt d.bytes f a) :
    iNodeManipInput mnt d buf sz f.dir f.name f.kind =
      some (true, blit buf 0 sz (slice d.bytes (blockOf mnt a)), d) := by
  have hin : d.fInput mnt.fLbaStart = bootRec mnt d.bytes := rfl
  have hvalid : bootValid (bootRec mnt d.bytes) ≠ false := h.shape.boot.passes
  obtain ⟨hlba, hlow⟩ := h.nodeAt_block hname hn
  have hhash := h.nodeAt_hash hname hn
  rw [← hlba]
  unfold iNodeManipInput
  rw [if_neg (Nat.not_lt.mpr hn.1.1), if_neg (Nat.not_lt.mpr hn.1.2), hin, if_neg hvalid,
    fetch_node hr h.shape herr hn, Option.map_some]
  simp only
  rw [if_pos ⟨hlow, hhash⟩]
  rfl

theorem read_none (hn : ∀ a, ¬ NodeAt mnt d.bytes f a) :
    ∃ e, iNodeManipInput mnt d buf sz f.dir f.name f.kind = some (false, buf, d.setErr e) := by
  have hin : d.fInput mnt.fLbaStart = bootRec mnt d.bytes := rfl
  have hvalid : bootValid (bootRec mnt d.bytes) ≠ false := h.shape.boot.passes
  unfold iNodeManipInput
  by_cases hdir : kOpenHeFSFileNameLen < f.dir.length
  · rw [if_pos hdir]
    exact ⟨_, rfl⟩
  by_cases hlen : kOpenHeFSFileNameLen < f.name.length
  · rw [if_neg hdir, if_pos hlen]
    exact ⟨_, rfl⟩
  rw [if_neg hdir, if_neg hlen, hin, if_neg hvalid,
    fetch_none hr h.shape herr ⟨by omega, by omega⟩ hn]
  exact ⟨_, rfl⟩

/-- A write goes into the block of the file, unless the file is read-only. -/
theorem write_node (hname : hashPath f.name ≠ 0) (hn : NodeAt mnt d.bytes f a) :
    iNodeManip mnt d block sz f.dir f.name f.kind =
      if HefsIndexNode.fFlags.get (slice d.bytes a) &&& kOpenHeFSFlagsReadOnly ≠ 0 then
        some (false, d)
      else some (true, d.fOutput .block (blockOf mnt a) sz block) := by
  have hin : d.fInput mnt.fLbaStart = bootRec mnt d.bytes := rfl
  have hvalid : bootValid (bootRec mnt d.bytes) ≠ false := h.shape.boot.passes
  obtain ⟨hlba, hlow⟩ := h.nodeAt_block hname hn
  have hhash := h.nodeAt_hash hname hn
  rw [← hlba]
  unfold iNodeManip
  rw [if_neg (Nat.not_lt.mpr hn.1.1), if_neg (Nat.not_lt.mpr hn.1.2), hin, if_neg hvalid,
    fetch_node hr h.shape herr hn, Option.map_some]
  simp only
  rw [if_pos ⟨hlow, hhash⟩]
  split <;> rfl

/-- A file that a lookup comes to is there. -/
theorem exists_node (hn : NodeAt mnt d.bytes f a) :
    iNodeExists mnt d f.dir f.name f.kind = some (true, d.setErr kErrorSuccess) := by
  have hin : d.fInput mnt.fLbaStart = bootRec mnt d.bytes := rfl
  have hvalid : bootValid (bootRec mnt d.bytes) ≠ false := h.shape.boot.passes
  unfold iNodeExists
  rw [if_neg (Nat.not_lt.mpr hn.1.1), if_neg (Nat.not_lt.mpr hn.1.2), hin, if_neg hvalid,
    fetch_node hr h.shape herr hn, Option.map_some]

theorem write_none (hn : ∀ a, ¬ NodeAt mnt d.bytes f a) :
    ∃ e, e ≠ kErrorDiskIsCorrupted ∧
      iNodeManip mnt d block sz f.dir f.name f.kind = some (false, d.setErr e) := by
  have hin : d.fInput mnt.fLbaStart = bootRec mnt d.bytes := rfl
  have hvalid : bootValid (bootRec mnt d.bytes) ≠ false := h.shape.boot.passes
  unfold iNodeManip
  by_cases hdir : kOpenHeFSFileNameLen < f.dir.length
  · rw [if_pos hdir]
    exact ⟨kErrorDisk, by decide, rfl⟩
  by_cases hlen : kOpenHeFSFileNameLen < f.name.length
  · rw [if_neg hdir, if_pos hlen]
    exact ⟨kErrorDisk, by decide, rfl⟩
  rw [if_neg hdir, if_neg hlen, hin, if_neg hvalid,
    fetch_none hr h.shape herr ⟨by omega, by omega⟩ hn]
  exact ⟨kErrorFileNotFound, by decide, rfl⟩

end

/-! ## Calls -/

/-- A call of `INodeManip` with `is_input` off. -/
structure Manip where
  block : Store
  blockSz : Nat
  file : File

def Manip.run (mnt : DriveTrait) (x : Manip) (d : Disk) : Option (Bool × Disk) :=
  iNodeManip mnt d x.block x.blockSz x.file.dir x.file.name x.file.kind

/-- The file of a descriptor. -/
def HefsNodeDesc.file (desc : HefsNodeDesc) : File := ⟨desc.fDir, desc.fName, desc.fKind⟩

/-- The three ways to write a file. -/
inductive WriteCall where
  | manip (x : Manip)
  | node (desc : Option HefsNodeDesc) (data : Option Store) (size : Nat)
  | named (name : Option (List UInt8)) (desc : Option HefsNodeDesc) (data : Option Store)
      (flags : Int) (size : Nat)

def WriteCall.run (mnt : DriveTrait) : WriteCall → HefsMount → Option HefsMount
  | .manip x, s => (x.run mnt s.disk).map fun r => { s with disk := r.2 }
  | .node desc data size, s => (HeFileSystemMgr.write mnt desc data size s).map Prod.snd
  | .named name desc data flags size, s =>
      (HeFileSystemMgr.writeNamed mnt name desc data flags size s).map Prod.snd

/-- The call of `INodeManip` a write comes to: `Write` on a node refuses what is longer than a
block, the others do not. -/
def WriteCall.asManip : WriteCall → Option Manip
  | .manip x => some x
  | .node (some desc) (some data) size =>
      if size = 0 ∨ kOpenHeFSBlockLen < size then none else some ⟨data, size, desc.file⟩
  | .named (some name) _ (some data) flags size =>
      if flags = 0 ∨ size = 0 then none else some ⟨data, size, ⟨HeFileSystemMgr.kNamedDir, name, 0⟩⟩
  | _ => none

/-- A write without `INodeManip` leaves the disk alone. -/
theorem WriteCall.run_none {c : WriteCall} (h : c.asManip = none) (s : HefsMount) :
    ∃ e, c.run mnt s = some ⟨s.disk, e⟩ := by
  cases c with
  | manip x => cases h
  | node desc data size =>
      rcases desc with _ | desc
      · exact ⟨_, rfl⟩
      rcases data with _ | data
      · exact ⟨_, rfl⟩
      simp only [WriteCall.asManip, ite_eq_left_iff, reduceCtorEq, imp_false, not_not] at h
      by_cases hz : size = 0
      · subst hz
        exact ⟨_, rfl⟩
      · refine ⟨kErrorDiskIsFull, ?_⟩
        simp only [WriteCall.run, HeFileSystemMgr.write]
        rw [if_neg hz, if_pos (h.resolve_left hz)]
        rfl
  | named name desc data flags size =>
      simp only [WriteCall.run, HeFileSystemMgr.writeNamed]
      by_cases hf : flags = 0
      · rw [if_pos hf]
        exact ⟨_, rfl⟩
      by_cases hz : size = 0
      · rw [if_neg hf, if_pos hz]
        exact ⟨_, rfl⟩
      rw [if_neg hf, if_neg hz]
      rcases data with _ | data
      · exact ⟨_, rfl⟩
      rcases name with _ | name
      · exact ⟨_, rfl⟩
      simp only [WriteCall.asManip, if_neg (not_or.mpr ⟨hf, hz⟩), reduceCtorEq] at h

/-- Any other write does what `INodeManip` does. -/
theorem WriteCall.run_some {c : WriteCall} {y : Manip} {r : Bool} {s : HefsMount}
    (h : c.asManip = some y) (hy : y.run mnt s.disk = some (r, d')) :
    ∃ e, c.run mnt s = some ⟨d', e⟩ := by
  cases c with
  | manip x =>
      obtain rfl : x = y := by simpa [WriteCall.asManip] using h
      simp only [WriteCall.run, hy]
      exact ⟨_, rfl⟩
  | node desc data size =>
      rcases desc with _ | desc
      · cases h
      rcases data with _ | data
      · cases h
      simp only [WriteCall.asManip] at h
      split at h
      · cases h
      next hsize =>
      cases h
      -- a call that stands for a manipulation has passed its checks
      rw [not_or] at hsize
      simp only [WriteCall.run, HeFileSystemMgr.write]
      rw [if_neg hsize.1, if_neg hsize.2]
      simp only [Manip.run, HefsNodeDesc.file] at hy
      rw [hy]
      cases r with
      | true => exact ⟨_, rfl⟩
      | false => exact ⟨_, rfl⟩
  | named name desc data flags size =>
      rcases name with _ | name
      · cases h
      rcases data with _ | data
      · cases h
      simp only [WriteCall.asManip] at h
      split at h
      · cases h
      next hsize =>
      cases h
      rw [not_or] at hsize
      simp only [WriteCall.run, HeFileSystemMgr.writeNamed]
      rw [if_neg hsize.1, if_neg hsize.2]
      simp only [Manip.run] at hy
      rw [hy]
      exact ⟨_, rfl⟩

/-- A call on the mounted disk. -/
inductive FileCall where
  | op (o : Op)
  | write (c : WriteCall)

def FileCall.run (mnt : DriveTrait) : FileCall → HefsMount → Option HefsMount
  | .op o, s => (exec mnt o s.disk).map fun r => { s with disk := r.2 }
  | .write c, s => c.run mnt s

/-! ## What the reads return -/

/-- Every read of the file, of at most a block, returns the contents. -/
structure ReadsAs (mnt : DriveTrait) (d : Disk) (f : File) (c : Store) : Prop where
  manip : ∀ buf sz, sz ≤ kOpenHeFSBlockLen →
    iNodeManipInput mnt d buf sz f.dir f.name f.kind = some (true, blit buf 0 sz c, d)
  node : ∀ cursor sz e, sz ≠ 0 → ∃ desc s,
    HeFileSystemMgr.read mnt (some ⟨f.dir, f.name, cursor, f.kind⟩) sz ⟨d, e⟩ =
      some (some (blit zeros 0 (min sz kOpenHeFSBlockLen) c), desc, s)
  named : f.dir = HeFileSystemMgr.kNamedDir → f.kind = 0 → ∀ node sz e, sz ≤ kOpenHeFSBlockLen →
    HeFileSystemMgr.readNamed mnt (some f.name) node sz ⟨d, e⟩ =
      some (some (blit zeros 0 sz c), node, ⟨d, e⟩)

theorem readsAs_of_manip {c : Store} (h : ∀ buf sz, sz ≤ kOpenHeFSBlockLen →
    iNodeManipInput mnt d buf sz f.dir f.name f.kind = some (true, blit buf 0 sz c, d)) :
    ReadsAs mnt d f c := by
  refine ⟨h, fun cursor sz e hz => ?_, fun hdir hkind node sz e hsz => ?_⟩
  · have hcut : (if kOpenHeFSBlockLen < sz then kOpenHeFSBlockLen else sz) =
        min sz kOpenHeFSBlockLen := by
      split <;> omega
    simp only [HeFileSystemMgr.read]
    rw [if_neg hz, hcut, h zeros _ (Nat.min_le_right _ _)]
    exact ⟨_, _, rfl⟩
  · rw [HeFileSystemMgr.readNamed, ← hdir, ← hkind, Option.bind_some, h zeros sz hsz]
    rfl

/-- The reads return what `c` has for the index node of the file, and two files do not share
one. -/
structure Serves (mnt : DriveTrait) (d : Disk) (c : Nat → Store) : Prop where
  found : ∀ f a, hashPath f.name ≠ 0 → NodeAt mnt d.bytes f a → ReadsAs mnt d f (c a)
  missing : ∀ f, (∀ a, ¬ NodeAt mnt d.bytes f a) → ∀ buf sz, ∃ e,
    iNodeManipInput mnt d buf sz f.dir f.name f.kind = some (false, buf, d.setErr e)
  one : ∀ f g a, hashPath f.name ≠ 0 → hashPath g.name ≠ 0 → NodeAt mnt d.bytes f a →
    NodeAt mnt d.bytes g a → SameFile f g

/-- The disk has the contents `c` in the blocks of its index nodes. -/
structure Stored (mnt : DriveTrait) (d : Disk) (c : Nat → Store) : Prop where
  blocks : Blocks mnt d.bytes
  err : d.errGlobal ≠ kErrorDiskIsCorrupted
  bytes : startIN mnt d.bytes ≤ endIN mnt → ∀ a, InUse mnt d.bytes a → ∀ x < 512,
    d.bytes (blockOf mnt a + x) = c a x

theorem Stored.setErr {c : Nat → Store} (h : Stored mnt d c) {e : Int}
    (he : e ≠ kErrorDiskIsCorrupted) : Stored mnt (d.setErr e) c := ⟨h.blocks, he, h.bytes⟩

theorem Stored.serves {c : Nat → Store} (h : Stored mnt d c) (hr : Roomy mnt) :
    Serves mnt d c := by
  refine ⟨fun f a hname hn => readsAs_of_manip fun buf sz hsz => ?_,
    fun f hn buf sz => read_none hr h.blocks h.err hn,
    fun f g a hf hg hn hn' => h.blocks.nodeAt_same hf hg hn hn'⟩
  have hbytes := h.bytes hn.2.1 a (h.blocks.nodeAt_inUse hname hn)
  have hblit : blit buf 0 sz (slice d.bytes (blockOf mnt a)) = blit buf 0 sz (c a) :=
    blit_congr fun x hx => hbytes x (Nat.lt_of_lt_of_le hx hsz)
  rw [read_node hr h.blocks h.err hname hn, hblit]

/-! ## Steps -/

/-- What a write does to the disk and to the contents: a YES writes over the contents of its own
file, a NO over none, and whatever the reply, no record, no index node and no other file is
touched. -/
structure WriteEffect (mnt : DriveTrait) (d d' : Disk) (c c' : Nat → Store) (y : Option Manip) :
    Prop where
  -- the boot node, the directory records and the index nodes
  records : ∀ x, x < endIN mnt ∨ x < startIN mnt d.bytes → d'.bytes x = d.bytes x
  nodes : ∀ g a, NodeAt mnt d'.bytes g a ↔ NodeAt mnt d.bytes g a
  quiet : y = none → c' = c
  no : ∀ x d₁, y = some x → x.run mnt d = some (false, d₁) → c' = c
  yes : ∀ x d₁, y = some x → x.run mnt d = some (true, d₁) →
    ∃ a, NodeAt mnt d.bytes x.file a ∧
      c' = Function.update c a (blit (c a) 0 x.blockSz x.block)
  others : ∀ x g a, y = some x → hashPath g.name ≠ 0 → ¬ SameFile g x.file →
    NodeAt mnt d.bytes g a → c' a = c a

/-- What a call does: an operation leaves the contents of the index nodes that are there. -/
def CallEffect (mnt : DriveTrait) (d d' : Disk) (c c' : Nat → Store) : FileCall → Prop
  | .op _ => ∀ a < startIN mnt d.bytes, c' a = c a
  | .write w => WriteEffect mnt d d' c c' w.asManip

/-- A creation takes a block that `INodeManip` does not take for none, and a write is no longer
than a block. -/
def Fits (mnt : DriveTrait) (d : Disk) : FileCall → Prop
  | .op o => TakesBlock mnt d o
  | .write w => ∀ y, w.asManip = some y →
      y.blockSz ≤ kOpenHeFSBlockLen ∧ hashPath y.file.name ≠ 0

/-- A write that does nothing. -/
theorem WriteEffect.idle {c : Nat → Store} {y : Option Manip} (hd : d'.bytes = d.bytes)
    (hno : ∀ x d₁, y = some x → x.run mnt d ≠ some (true, d₁)) :
    WriteEffect mnt d d' c c y := by
  refine ⟨fun x _ => by rw [hd], fun g a => by rw [hd], fun _ => rfl, fun _ _ _ _ => rfl, ?_,
    fun _ _ _ _ _ _ _ => rfl⟩
  intro x d₁ hy hx
  exact absurd hx (hno x d₁ hy)

section
variable {c : Nat → Store} (hr : Roomy mnt) (h : Stored mnt d c)
include hr h

/-- **An operation** leaves the contents of the index nodes that are there. -/
theorem Stored.operation (hsize : mnt.size + kOpenHeFSBlockLen < 2 ^ 64) (hop : TakesBlock mnt d op) :
    ∃ r d' c', exec mnt op d = some (r, d') ∧ (∀ a < startIN mnt d.bytes, c' a = c a) ∧
      Stored mnt d' c' := by
  rcases exec_cases hr h.blocks.shape op with ⟨-, e, he, hexec⟩ | ⟨hacts, w, d', hw, hexec, hbal⟩
  · exact ⟨false, _, c, hexec, fun _ _ => rfl, h.setErr he⟩
  let c' : Nat → Store := fun a =>
    if a < startIN mnt d.bytes then c a else slice d'.bytes (blockOf mnt a)
  refine ⟨true, d', c', hexec, fun a ha => if_pos ha, ?_⟩
  refine ⟨h.blocks.written hr hsize hacts hop hw hbal.bytes, by rw [hbal.err]; decide, ?_⟩
  rintro hcur a ⟨j, hj, i, hi, hne, rfl⟩ x hx
  by_cases hold : dirSlice mnt d'.bytes j i < startIN mnt d.bytes
  · -- the index node was there before
    rcases hw.used hr h.blocks.shape hbal.bytes hj hi hne with hnew | hslice
    · omega
    · have hcur' : startIN mnt d.bytes ≤ endIN mnt :=
        Nat.le_trans (hw.startIN_le hr h.blocks.shape hbal.bytes) hcur
      have hc' : c' (dirSlice mnt d'.bytes j i) = c (dirSlice mnt d'.bytes j i) := if_pos hold
      rw [hc', hw.behind h.blocks hr hbal.bytes hcur (by rw [blockOf]; omega)]
      rw [hslice] at hne ⊢
      exact h.bytes hcur' _ ⟨j, hj, i, hi, hne, rfl⟩ x hx
  · have hc' : c' (dirSlice mnt d'.bytes j i) =
        slice d'.bytes (blockOf mnt (dirSlice mnt d'.bytes j i)) := if_neg hold
    rw [hc']
    rfl

/-- What is written into the block of a file is in no other block. -/
theorem Stored.write_block {y : Manip} (hsz : y.blockSz ≤ kOpenHeFSBlockLen)
    (hcur : startIN mnt d.bytes ≤ endIN mnt) (ha : InUse mnt d.bytes a) :
    Stored mnt (d.fOutput .block (blockOf mnt a) y.blockSz y.block)
      (Function.update c a (blit (c a) 0 y.blockSz y.block)) := by
  have hsz' : y.blockSz ≤ 512 := hsz
  have hlow : ∀ x < endIN mnt,
      (d.fOutput .block (blockOf mnt a) y.blockSz y.block).bytes x = d.bytes x :=
    output_low d a y.blockSz y.block
  have hsame := h.blocks.toPacked.sameRecords hr hcur hlow
  refine ⟨h.blocks.congr hr hcur hlow, h.err, ?_⟩
  rintro - a' ⟨j, hj, i, hi, hne, rfl⟩ x hx
  have huse : InUse mnt d.bytes (dirSlice mnt d.bytes j i) := by
    rw [hsame.slice j hj i hi] at hne
    exact ⟨j, hj, i, hi, hne, rfl⟩
  rw [hsame.slice j hj i hi]
  have hbytes := h.bytes hcur _ huse x hx
  by_cases heq : dirSlice mnt d.bytes j i = a
  · subst heq
    rw [Function.update_self]
    show blit _ _ _ _ _ = _
    by_cases hin : x < y.blockSz
    · rw [blit_apply_of_mem (by omega) (by omega), blit_apply_of_mem (by omega) (by omega),
        Nat.add_sub_cancel_left, Nat.sub_zero]
    · rw [blit_apply_of_notMem (by omega), blit_apply_of_notMem (by omega)]
      exact hbytes
  · have hap := h.blocks.inUse_apart huse ha heq
    have hge := h.blocks.inUse_ge huse
    have hge' := h.blocks.inUse_ge ha
    rw [Function.update_of_ne heq, ← hbytes]
    apply blit_apply_of_notMem
    rw [blockOf, blockOf]
    omega

/-- **A write** of at most a block. -/
theorem Stored.write {y : Manip} (hsz : y.blockSz ≤ kOpenHeFSBlockLen)
    (hname : hashPath y.file.name ≠ 0) :
    ∃ r d' c', y.run mnt d = some (r, d') ∧ WriteEffect mnt d d' c c' (some y) ∧
      Stored mnt d' c' := by
  by_cases hn : ∃ a, NodeAt mnt d.bytes y.file a
  · obtain ⟨a, hn⟩ := hn
    have hrun : y.run mnt d = _ := write_node hr h.blocks h.err hname hn
    split at hrun
    · -- the file is read-only
      refine ⟨false, d, c, hrun, WriteEffect.idle rfl fun x d₁ hy hx => ?_, h⟩
      cases hy
      rw [hrun] at hx
      cases hx
    have ha := h.blocks.nodeAt_inUse hname hn
    have hbelow := h.blocks.inUse_below ha
    have hlow : ∀ x < endIN mnt,
        (d.fOutput .block (blockOf mnt a) y.blockSz y.block).bytes x = d.bytes x :=
      output_low d a y.blockSz y.block
    refine ⟨true, _, Function.update c a (blit (c a) 0 y.blockSz y.block), hrun, ?_,
      h.write_block hr hsz hn.2.1 ha⟩
    refine ⟨fun x hx => hlow x (hx.elim id fun hx => Nat.lt_of_lt_of_le hx hn.2.1),
      fun g b => (h.blocks.toPacked.sameRecords hr hn.2.1 hlow).nodeAt_iff, fun hy => ?_,
      fun x d₁ hy hx => ?_, fun x d₁ hy _ => ?_, fun x g b hy hg hne hb => ?_⟩
    · cases hy
    · cases hy
      rw [hrun] at hx
      cases hx
    · cases hy
      exact ⟨a, hn, rfl⟩
    · cases hy
      apply Function.update_of_ne
      rintro rfl
      exact hne (h.blocks.nodeAt_same hg hname hb hn)
  · have hnone : ∃ e, e ≠ kErrorDiskIsCorrupted ∧ y.run mnt d = some (false, d.setErr e) :=
      write_none hr h.blocks h.err (not_exists.mp hn)
    obtain ⟨e, he, hrun⟩ := hnone
    refine ⟨false, _, c, hrun, WriteEffect.idle rfl fun x d₁ hy hx => ?_, h.setErr he⟩
    cases hy
    rw [hrun] at hx
    cases hx

/-- **Every call** that fits. -/
theorem Stored.call (hsize : mnt.size + kOpenHeFSBlockLen < 2 ^ 64) {call : FileCall} (e : Int)
    (hfit : Fits mnt d call) :
    ∃ s c', call.run mnt ⟨d, e⟩ = some s ∧ CallEffect mnt d s.disk c c' call ∧
      Stored mnt s.disk c' := by
  cases call with
  | op o =>
      obtain ⟨r, d', c', hexec, hc, hs⟩ := h.operation hr hsize hfit
      refine ⟨⟨d', e⟩, c', ?_, hc, hs⟩
      simp only [FileCall.run, hexec]
      rfl
  | write w =>
      rcases hw : w.asManip with _ | y
      · obtain ⟨e', hrun⟩ := w.run_none hw ⟨d, e⟩
        refine ⟨_, c, hrun, ?_, h⟩
        simp only [CallEffect, hw]
        exact WriteEffect.idle rfl fun x d₁ hy => by cases hy
      · obtain ⟨hsz, hname⟩ := hfit y hw
        obtain ⟨r, d', c', hrun, heff, hs⟩ := h.write hr hsz hname
        obtain ⟨e', hrun'⟩ := w.run_some (s := ⟨d, e⟩) hw hrun
        refine ⟨_, c', hrun', ?_, hs⟩
        simp only [CallEffect, hw]
        exact heff

end

/-! ## Runs -/

/-- Every call of the run fits the disk it is made on. -/
def AllFit (mnt : DriveTrait) : List FileCall → HefsMount → Prop
  | [], _ => True
  | call :: calls, s => Fits mnt s.disk call ∧ ∀ s', call.run mnt s = some s' → AllFit mnt calls s'

/-- The disk serves the contents before and after every call of the run, and the contents change
by the calls only. -/
def Isolates (mnt : DriveTrait) : List FileCall → HefsMount → (Nat → Store) → Prop
  | [], s, c => Serves mnt s.disk c
  | call :: calls, s, c => Serves mnt s.disk c ∧ ∃ s' c', call.run mnt s = some s' ∧
      CallEffect mnt s.disk s'.disk c c' call ∧ Isolates mnt calls s' c'

theorem Stored.isolates {c : Nat → Store} (hr : Roomy mnt)
    (hsize : mnt.size + kOpenHeFSBlockLen < 2 ^ 64) (calls : List FileCall) {s : HefsMount}
    (h : Stored mnt s.disk c) (hfit : AllFit mnt calls s) : Isolates mnt calls s c := by
  induction calls generalizing s c with
  | nil => exact h.serves hr
  | cons call calls ih =>
      obtain ⟨s', c', hrun, heff, hs⟩ := h.call hr hsize s.errLocal hfit.1
      exact ⟨h.serves hr, s', c', hrun, heff, ih hs (hfit.2 s' hrun)⟩

theorem Started.blocks {hs : List Nat} (h : Started mnt hs d) : Blocks mnt d.bytes := by
  refine ⟨⟨?_, ?_⟩, h.shape, h.first, ?_, h.endBlock, ?_⟩
  · exact fun j hj i hi _ _ _ _ _ hu => absurd (h.slices j hj i hi) hu
  · exact fun j hj i hi hu => absurd (h.slices j hj i hi) hu
  · rw [h.startIN, blockOf, Nat.sub_self]
    exact h.startBlock
  · exact fun j hj i hi hu => absurd (h.slices j hj i hi) hu

theorem Started.stored {hs : List Nat} (h : Started mnt hs d)
    (herr : d.errGlobal ≠ kErrorDiskIsCorrupted) (c : Nat → Store) : Stored mnt d c := by
  refine ⟨h.blocks, herr, ?_⟩
  rintro - a ⟨j, hj, i, hi, hu, -⟩
  exact absurd (h.slices j hj i hi) hu

/-- **Files are isolated.** `Format` makes a disk of a blank drive, and in every run of calls that
fit it the reads return the contents of the files: a write changes those of its own file, and no
record and no index node. -/
theorem files_isolated (hr : Roomy mnt) (hb : Blank mnt d.bytes)
    (hsize : mnt.size + kOpenHeFSBlockLen < 2 ^ 64) (flags : Nat) (volName : List UInt8) :
    ∃ d', format mnt d flags volName = some (true, d') ∧
      ∀ (calls : List FileCall) (e : Int) (c : Nat → Store), AllFit mnt calls ⟨d', e⟩ →
        Isolates mnt calls ⟨d', e⟩ c := by
  obtain ⟨d', hformat, herr, h⟩ := format_blank hr hb flags volName
  have herr' : d'.errGlobal ≠ kErrorDiskIsCorrupted := by rw [herr]; decide
  exact ⟨d', hformat, fun calls e c hfit => (h.stored herr' c).isolates hr hsize calls hfit⟩

/-! ## Longer writes -/

section
variable (hr : Roomy mnt) (h : Blocks mnt d.bytes) (herr : d.errGlobal ≠ kErrorDiskIsCorrupted)
include hr h herr

/-- A write to a file that is not read-only goes through, whatever its length, and the records and
index nodes stay. -/
theorem write_through (block : Store) (sz : Nat) (hname : hashPath f.name ≠ 0)
    (hn : NodeAt mnt d.bytes f a) (hflags : HefsIndexNode.fFlags.get (slice d.bytes a) = 0) :
    ∃ d', iNodeManip mnt d block sz f.dir f.name f.kind = some (true, d') ∧
      d'.bytes = blit d.bytes (blockOf mnt a) sz block ∧ Blocks mnt d'.bytes ∧
      d'.errGlobal ≠ kErrorDiskIsCorrupted ∧ SameRecords mnt d.bytes d'.bytes := by
  have hlow : ∀ x < endIN mnt, (d.fOutput .block (blockOf mnt a) sz block).bytes x = d.bytes x :=
    output_low d a sz block
  have hflags' : ¬ HefsIndexNode.fFlags.get (slice d.bytes a) &&& kOpenHeFSFlagsReadOnly ≠ 0 := by
    rw [hflags]
    decide
  refine ⟨_, ?_, rfl, h.congr hr hn.2.1 hlow, herr, h.sameRecords hr hn.2.1 hlow⟩
  rw [write_node hr h herr hname hn, if_neg hflags']

/-- **A write longer than a block** ends in the file whose index node is the next one. -/
theorem write_next (block : Store) (sz : Nat) (hf : hashPath f.name ≠ 0) (hg : hashPath g.name ≠ 0)
    (hn : NodeAt mnt d.bytes f a) (hn' : NodeAt mnt d.bytes g (a + 512))
    (hflags : HefsIndexNode.fFlags.get (slice d.bytes a) = 0) :
    ∃ d', iNodeManip mnt d block sz f.dir f.name f.kind = some (true, d') ∧
      ∀ buf n, 512 + n ≤ sz → iNodeManipInput mnt d' buf n g.dir g.name g.kind =
        some (true, blit buf 0 n (slice block 512), d') := by
  obtain ⟨d', hwrite, hbytes, h', herr', hsame⟩ := write_through hr h herr block sz hf hn hflags
  refine ⟨d', hwrite, fun buf n hsz => ?_⟩
  have hge := h.inUse_ge (h.nodeAt_inUse hf hn)
  have hblit : blit buf 0 n (slice d'.bytes (blockOf mnt (a + 512))) =
      blit buf 0 n (slice block 512) := by
    refine blit_congr fun i hi => ?_
    have hblock : blockOf mnt (a + 512) = blockOf mnt a + 512 := by
      rw [blockOf, blockOf]
      omega
    rw [slice_apply, slice_apply, hbytes, hblock, blit_apply_of_mem (by omega) (by omega)]
    exact congrArg block (by omega)
  rw [read_node hr h' herr' hg (hsame.nodeAt hn'), hblit]

end

/-! ## Two files in the first directory -/

theorem Blocks.cursorsIn (h : Blocks mnt m) (hin : startIN mnt m ≤ endIN mnt)
    (hblock : startBlock mnt m ≤ mnt.size) : CursorsIn (bootRec mnt m) := by
  constructor
  · rw [h.shape.boot.endIN]
    exact hin
  · rw [h.endBlock]
    exact hblock

/-- A file made in the next slice of the first record. -/
theorem create_root (h : Blocks mnt d.bytes) (hr : Roomy mnt)
    (hsize : mnt.size + kOpenHeFSBlockLen < 2 ^ 64)
    (hroot : dirHash mnt d.bytes 0 = hashPath [0x2F]) (hi : i < 16)
    (hfull : ∀ l < i, dirSlice mnt d.bytes 0 l ≠ 0) (hempty : dirSlice mnt d.bytes 0 i = 0)
    (hname : FileName [0x2F] name) (hc : CursorsIn (bootRec mnt d.bytes))
    (hlow : startBlock mnt d.bytes % 2 ^ 32 ≠ 0) :
    ∃ d', createINode mnt d 0 [0x2F] name 0 = some (true, d') ∧
      d'.errGlobal = kErrorSuccess ∧ Blocks mnt d'.bytes ∧
      FileAt mnt d'.bytes ⟨[0x2F], name, 0⟩ 0 i ∧
      HefsIndexNode.fFlags.get (slice d'.bytes (startIN mnt d.bytes)) = 0 ∧
      SliceEffect mnt d.bytes d'.bytes 0 i (startIN mnt d.bytes) (startIN mnt d.bytes)
        (sealBootNode (bumpCursors (bootRec mnt d.bytes))) := by
  have husable : ∀ l, Usable mnt d [0x2F] (hashPath name) false 0 l ↔
      dirSlice mnt d.bytes 0 l = 0 := by
    intro l
    simp only [Usable, inWanted, Bool.false_eq_true, if_false, decide_eq_true_eq]
    exact and_iff_right hroot.symm
  have ht : SliceTarget mnt d [0x2F] (hashPath name) false 0 i :=
    ⟨Nat.zero_le _, hi, (husable i).mpr hempty, fun l hl hu => hfull l hl ((husable l).mp hu),
      fun j hj => absurd hj (Nat.not_lt_zero j)⟩
  have hacts : Acts mnt d (.createFile 0 [0x2F] name 0) := ⟨hname, hc, 0, ht.le, i, hi, ht.usable⟩
  rcases exec_cases hr h.shape (.createFile 0 [0x2F] name 0) with
    ⟨hidle, -⟩ | ⟨-, w, d', hw, hexec, hbal⟩
  · exact absurd hacts hidle
  have hblocks := h.written hr hsize hacts (fun _ => hlow) hw hbal.bytes
  obtain ⟨-, j, l, ht', he, hnode⟩ := hw.create_effect hr h.shape hbal.bytes
  obtain ⟨rfl, rfl⟩ := ht.unique ht'
  have hdir : hashPath [0x2F] ≠ 0 := kFileMap_hashes _ (by decide)
  refine ⟨d', hexec, hbal.err, hblocks, create_fileAt h.shape ht he hnode hdir, ?_, he⟩
  have hget : HefsIndexNode.fFlags.get (slice d'.bytes (startIN mnt d.bytes)) =
      HefsIndexNode.fFlags.get (placeNode (bootRec mnt d.bytes) (ctlNode 0 name false 0)) :=
    Field.get_congr fun k hk => hnode _ (by simp only [HefsIndexNode.fFlags] at hk ⊢; omega)
  rw [hget]
  simp (disch := decide) only [placeNode, ctlNode, Field.get_set_of_apart, Field.get_set_same]
  rfl

/-- A file in the first record, which no other slice before it leads to. -/
theorem FileAt.nodeAt (h : FileAt mnt m f 0 i) (hcur : startIN mnt m ≤ endIN mnt)
    (hshort : ShortNames f)
    (hfirst : ∀ l < i, nodeHash m (dirSlice mnt m 0 l) ≠ hashPath f.name) :
    NodeAt mnt m f (dirSlice mnt m 0 i) := by
  have hlive : LiveTo mnt m 0 := by
    intro k hk
    obtain rfl : k = 0 := by omega
    exact h.live
  refine ⟨hshort, hcur, 0, i, ⟨h.fetched hlive, fun k l hf => ?_⟩, rfl⟩
  rcases Nat.eq_zero_or_pos k with rfl | hpos
  · refine .inr ⟨rfl, ?_⟩
    by_contra hlt
    exact hfirst l (by omega) hf.hit.2.1
  · exact .inl hpos

theorem gib_bounds : endIND gibDrive + 1024 ≤ endIN gibDrive ∧ endIN gibDrive = 13769 := by
  rw [endIN, endIND, inodeMax, dirMax]
  decide

theorem files_isolated_gib :
    ∃ d', format gibDrive blankDisk 0x50 [] = some (true, d') ∧
      Isolates gibDrive [.op (.createFile 0 [0x2F] [0x61] 0),
        .write (.manip ⟨fun _ => 1, 1, ⟨[0x2F], [0x61], 0⟩⟩)] ⟨d', 0⟩ (fun _ => zeros) := by
  obtain ⟨d₁, hformat, -, h⟩ := format_blank gibDrive_roomy blankDisk_blank 0x50 []
  obtain ⟨d', hformat', hrun⟩ :=
    files_isolated gibDrive_roomy blankDisk_blank (by decide) 0x50 []
  obtain rfl : d₁ = d' := by
    rw [hformat] at hformat'
    cases hformat'
    rfl
  refine ⟨d₁, hformat, hrun _ _ _ ⟨fun _ => ?_, fun s _ => ⟨?_, fun _ _ => trivial⟩⟩⟩
  · have hblock : startBlock gibDrive d₁.bytes = endIN gibDrive := h.startBlock
    rw [hblock, gib_bounds.2]
    decide
  · rintro y hy
    cases hy
    exact ⟨by decide, by decide +kernel⟩

/-- The files `/a` and `/b` of a fresh drive, with index nodes side by side. -/
theorem two_files (hr : Roomy mnt) (hb : Blank mnt d.bytes) (flags : Nat) (volName : List UInt8)
    (hsize : mnt.size + kOpenHeFSBlockLen < 2 ^ 64) (hroom : endIND mnt + 1024 ≤ endIN mnt)
    (hend : endIN mnt + 512 ≤ mnt.size) (hlow : endIN mnt % 2 ^ 32 ≠ 0)
    (hlow' : (endIN mnt + 512) % 2 ^ 32 ≠ 0) :
    ∃ d₁ d₂ d₃, format mnt d flags volName = some (true, d₁) ∧
      createINode mnt d₁ 0 [0x2F] [0x61] 0 = some (true, d₂) ∧
      createINode mnt d₂ 0 [0x2F] [0x62] 0 = some (true, d₃) ∧
      Blocks mnt d₃.bytes ∧ d₃.errGlobal = kErrorSuccess ∧ ∃ a,
      NodeAt mnt d₃.bytes ⟨[0x2F], [0x61], 0⟩ a ∧
      NodeAt mnt d₃.bytes ⟨[0x2F], [0x62], 0⟩ (a + 512) ∧
      HefsIndexNode.fFlags.get (slice d₃.bytes a) = 0 ∧
      HefsIndexNode.fFlags.get (slice d₃.bytes (a + 512)) = 0 := by
  have hnames : hashPath [0x61] ≠ hashPath [0x62] := by decide +kernel
  have hfa : FileName [0x2F] [0x61] := by decide
  have hfb : FileName [0x2F] [0x62] := by decide
  have hle₁ : endIND mnt ≤ endIN mnt := endIND_le_endIN mnt
  have hle₂ : endIND mnt + 512 ≤ endIN mnt := by omega
  have hle₃ : endIND mnt + 512 + 512 ≤ endIN mnt := hroom
  have hblock : blockOf mnt (endIND mnt + 512) = endIN mnt + 512 := by
    rw [blockOf]
    omega
  obtain ⟨d₁, hformat, -, h⟩ := format_blank hr hb flags volName
  have hin₁ : startIN mnt d₁.bytes = endIND mnt := h.startIN
  -- the first file
  have hblock₁ : startBlock mnt d₁.bytes = endIN mnt := h.startBlock
  have hlow₁ : startBlock mnt d₁.bytes % 2 ^ 32 ≠ 0 := by
    rw [hblock₁]
    exact hlow
  have hc₁ := h.blocks.cursorsIn (hin₁.trans_le hle₁)
    (hblock₁.trans_le (Nat.le_trans (Nat.le_add_right _ 512) hend))
  obtain ⟨d₂, hcreate, -, hb₂, hf₂, hflags₂, he₂⟩ := create_root h.blocks hr hsize
    (h.live 0 (by decide)) (show 0 < 16 by decide) (fun l hl => absurd hl (Nat.not_lt_zero l))
    (h.slices 0 (Nat.zero_le _) 0 (by decide)) hfa hc₁ hlow₁
  have hin₂ : startIN mnt d₂.bytes = endIND mnt + 512 := by
    rw [he₂.startIN_create hr (hin₁.trans_le hle₁), hin₁]
  -- the second file
  have hfirst₂ : dirSlice mnt d₂.bytes 0 0 = endIND mnt := he₂.slice.trans hin₁
  have hblock₂ : startBlock mnt d₂.bytes = endIN mnt + 512 := by
    rw [hb₂.cursor, hin₂, hblock]
  have hlow₂ : startBlock mnt d₂.bytes % 2 ^ 32 ≠ 0 := by
    rw [hblock₂]
    exact hlow'
  have hc₂ := hb₂.cursorsIn (hin₂.trans_le hle₂) (hblock₂.trans_le hend)
  obtain ⟨d₃, hcreate', herr₃, hb₃, hf₃, hflags₃, he₃⟩ := create_root hb₂ hr hsize
    ((he₂.hash 0 (Nat.zero_le _)).trans (h.live 0 (by decide))) (show 1 < 16 by decide)
    (fun l hl => by
      obtain rfl : l = 0 := by omega
      exact hf₂.used)
    ((he₂.slice_other 0 (Nat.zero_le _) 1 (by decide) (.inr (by decide))).trans
      (h.slices 0 (Nat.zero_le _) 1 (by decide))) hfb hc₂ hlow₂
  have hin₃ : startIN mnt d₃.bytes ≤ endIN mnt := by
    rw [he₃.startIN_create hr (hin₂.trans_le hle₂), hin₂]
    exact hle₃
  have hslice₃ : dirSlice mnt d₃.bytes 0 0 = endIND mnt :=
    (he₃.slice_other 0 (Nat.zero_le _) 0 (by decide) (.inr (by decide))).trans hfirst₂
  have hslice₃' : dirSlice mnt d₃.bytes 0 1 = endIND mnt + 512 := he₃.slice.trans hin₂
  have hf₂' : FileAt mnt d₃.bytes ⟨[0x2F], [0x61], 0⟩ 0 0 :=
    (he₃.fileAt_iff hb₂.shape (.inr (by decide)) fun hk hl hne =>
      .inl (hb₂.below 0 hk 0 hl hne)).mpr hf₂
  refine ⟨d₁, d₂, d₃, hformat, hcreate, hcreate', hb₃, herr₃, endIND mnt, ?_, ?_, ?_, ?_⟩
  · rw [← hslice₃]
    exact hf₂'.nodeAt hin₃ ⟨by decide, by decide⟩ fun l hl => absurd hl (Nat.not_lt_zero l)
  · rw [← hslice₃']
    refine hf₃.nodeAt hin₃ ⟨by decide, by decide⟩ fun l hl => ?_
    obtain rfl : l = 0 := by omega
    rw [hf₂'.name]
    exact hnames
  · rw [hin₁] at hflags₂
    rw [← hflags₂]
    refine Field.get_congr fun k hk => he₃.off _ (.inr (Nat.le_add_right _ _)) (.inl ?_)
    rw [hin₂]
    simp only [HefsIndexNode.fFlags] at hk ⊢
    omega
  · rw [← hin₂]
    exact hflags₃

/-- A write of 1024 bytes to `/a` goes over the end of its block, and `/b` reads otherwise. -/
theorem write_spills :
    ∃ d₁ d₂ d₃ d₄ d₅ b₄ b₅, format gibDrive blankDisk 0x50 [] = some (true, d₁) ∧
      createINode gibDrive d₁ 0 [0x2F] [0x61] 0 = some (true, d₂) ∧
      createINode gibDrive d₂ 0 [0x2F] [0x62] 0 = some (true, d₃) ∧
      iNodeManip gibDrive d₃ (fun _ => 2) 1 [0x2F] [0x62] 0 = some (true, d₄) ∧
      iNodeManipInput gibDrive d₄ zeros 1 [0x2F] [0x62] 0 = some (true, b₄, d₄) ∧ b₄ 0 = 2 ∧
      iNodeManip gibDrive d₄ (fun _ => 1) 1024 [0x2F] [0x61] 0 = some (true, d₅) ∧
      iNodeManipInput gibDrive d₅ zeros 1 [0x2F] [0x62] 0 = some (true, b₅, d₅) ∧ b₅ 0 = 1 := by
  have hr := gibDrive_roomy
  have hname : hashPath [0x61] ≠ 0 := by decide +kernel
  have hname' : hashPath [0x62] ≠ 0 := by decide +kernel
  obtain ⟨d₁, d₂, d₃, hformat, ha, hb, h, herr, a, hn, hn', hflags, hflags'⟩ :=
    two_files hr blankDisk_blank 0x50 [] (by decide) gib_bounds.1
      (by rw [gib_bounds.2]; decide) (by rw [gib_bounds.2]; decide) (by rw [gib_bounds.2]; decide)
  obtain ⟨d₄, hwrite, hbytes, h₄, herr₄, hsame₄⟩ :=
    write_through hr h (by rw [herr]; decide) (fun _ => 2) 1 hname' hn' hflags'
  have hread : iNodeManipInput gibDrive d₄ zeros 1 [0x2F] [0x62] 0 = some (true,
      blit zeros 0 1 (slice d₄.bytes (blockOf gibDrive (a + 512))), d₄) :=
    read_node hr h₄ herr₄ hname' (hsame₄.nodeAt hn')
  obtain ⟨j, hj, i, hi, -, hslice⟩ := h.nodeAt_inUse hname hn
  have hflags₄ : HefsIndexNode.fFlags.get (slice d₄.bytes a) = 0 := by
    rw [← hflags, ← hslice]
    exact node_get (by decide) (hsame₄.node j hj i hi)
  obtain ⟨d₅, hwrite₅, hread₅⟩ := write_next hr h₄ herr₄ (fun _ => 1) 1024 hname hname'
    (hsame₄.nodeAt hn) (hsame₄.nodeAt hn') hflags₄
  refine ⟨d₁, d₂, d₃, d₄, d₅, _, _, hformat, ha, hb, hwrite, hread, ?_, hwrite₅,
    hread₅ zeros 1 (by decide), rfl⟩
  show slice d₄.bytes (blockOf gibDrive (a + 512)) 0 = 2
  rw [hbytes]
  exact slice_blit_same_apply (by decide)

end NeKernel.FS
