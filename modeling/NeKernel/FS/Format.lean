import NeKernel.FS.Contents

/-!
# Formatting, and the operations after it

The operations as one type with one step function, what a step does to a disk of the right shape
(`exec_cases`), and the disk `Format` makes of a drive that is blank from the boot node on
(`format_blank`): the default directories in the first seven records, and nothing else.
-/

namespace NeKernel.FS

open ByteStore Scan Detail HeFileSystemParser HefsIndexNodeDirectory

variable {mnt : DriveTrait} {m src r b boot : Store} {d d' w : Disk} {a j i v flags : Nat}
  {dir name : List UInt8} {del : Bool} {kind : UInt8}

/-! ## Operations -/

/-- The operations on directories and files. -/
inductive Op where
  | createDir (flags : Nat) (dir : List UInt8)
  | removeDir (flags : Nat) (dir : List UInt8)
  | createFile (flags : Nat) (dir name : List UInt8) (kind : UInt8)
  | deleteFile (flags : Nat) (dir name : List UInt8) (kind : UInt8)

def exec (mnt : DriveTrait) : Op → Disk → Option (Bool × Disk)
  | .createDir flags dir, d => createINodeDirectory mnt d flags dir
  | .removeDir flags dir, d => removeINodeDirectory mnt d flags dir
  | .createFile flags dir name kind, d => createINode mnt d flags dir name kind
  | .deleteFile flags dir name kind, d => deleteINode mnt d flags dir name kind

/-- A step has one outcome. -/
theorem forall_exec {P : Disk → Prop} {op : Op} {r : Bool} (h : exec mnt op d = some (r, d')) :
    (∀ r₁ d₁, exec mnt op d = some (r₁, d₁) → P d₁) ↔ P d' := by
  constructor
  · exact fun hall => hall r d' h
  · intro hp r₁ d₁ h₁
    rw [h] at h₁
    cases h₁
    exact hp

theorem exists_exec {P : Disk → Prop} {op : Op} {r : Bool} (h : exec mnt op d = some (r, d')) :
    (∃ r₁ d₁, exec mnt op d = some (r₁, d₁) ∧ P d₁) ↔ P d' := by
  constructor
  · rintro ⟨r₁, d₁, h₁, hp⟩
    rw [h] at h₁
    cases h₁
    exact hp
  · exact fun hp => ⟨r, d', h, hp⟩

/-- The operation finds a record, or a slice, to work on. -/
def Acts (mnt : DriveTrait) (d : Disk) : Op → Prop
  | .createDir _ dir =>
      DirName dir ∧ ∃ j ≤ lastSlot mnt, indWanted false dir (slotRec mnt d.bytes j) = true
  | .removeDir _ dir =>
      DirName dir ∧ ∃ j ≤ lastSlot mnt, indWanted true dir (slotRec mnt d.bytes j) = true
  | .createFile _ dir name _ =>
      FileName dir name ∧ CursorsIn (bootRec mnt d.bytes) ∧
        ∃ j ≤ lastSlot mnt, ∃ i < 16, Usable mnt d dir (hashPath name) false j i
  | .deleteFile _ dir name _ =>
      FileName dir name ∧ CursorsIn (bootRec mnt d.bytes) ∧
        ∃ j ≤ lastSlot mnt, ∃ i < 16, Usable mnt d dir (hashPath name) true j i

/-- `w` is the disk with what the operation writes before the rebalancing. -/
def Written (mnt : DriveTrait) (d : Disk) : Op → Disk → Prop
  | .createDir flags dir, w => ∃ j color, IndTarget mnt d.bytes dir false j ∧
      (j ≠ 0 → color = kOpenHeFSRed) ∧ w = indWritten mnt d dir flags false j color
  | .removeDir flags dir, w => ∃ j color, IndTarget mnt d.bytes dir true j ∧
      (j ≠ 0 → color = kOpenHeFSRed) ∧ w = indWritten mnt d dir flags true j color
  | .createFile flags dir name kind, w => CursorsIn (bootRec mnt d.bytes) ∧ ∃ j i,
      SliceTarget mnt d dir (hashPath name) false j i ∧
      w = inWritten mnt d (ctlNode flags name false kind) false j i
  | .deleteFile flags dir name kind, w => CursorsIn (bootRec mnt d.bytes) ∧ ∃ j i,
      SliceTarget mnt d dir (hashPath name) true j i ∧
      w = inWritten mnt d (ctlNode flags name true kind) true j i

theorem directory_exec (hr : Roomy mnt) (hs : Shape mnt d.bytes) (dir : List UInt8) (flags : Nat)
    (del : Bool) :
    (¬ (DirName dir ∧ ∃ j ≤ lastSlot mnt, indWanted del dir (slotRec mnt d.bytes j) = true) ∧
      ∃ e, e ≠ kErrorDiskIsCorrupted ∧
        iNodeDirectoryCtlManip mnt d flags dir del = some (false, d.setErr e)) ∨
    ((DirName dir ∧ ∃ j ≤ lastSlot mnt, indWanted del dir (slotRec mnt d.bytes j) = true) ∧
      ∃ w d', (∃ j color, IndTarget mnt d.bytes dir del j ∧ (j ≠ 0 → color = kOpenHeFSRed) ∧
          w = indWritten mnt d dir flags del j color) ∧
        iNodeDirectoryCtlManip mnt d flags dir del = some (true, d') ∧ Balanced mnt w d') := by
  rcases directoryCtl_cases hr hs dir flags del with
    ⟨hno, hexec⟩ | ⟨hname, j, color, d', ht, hred, hexec, hbal⟩
  · refine .inl ⟨?_, hexec⟩
    rintro ⟨hname, j, hj, hw⟩
    rcases hno with hno | hno
    · exact hno hname
    · rw [hno j hj] at hw
      cases hw
  · exact .inr ⟨⟨hname, j, ht.le, ht.wanted⟩, _, d', ⟨j, color, ht, hred, rfl⟩, hexec, hbal⟩

theorem file_exec (hr : Roomy mnt) (hs : Shape mnt d.bytes) (dir name : List UInt8) (flags : Nat)
    (kind : UInt8) (del : Bool) :
    (¬ (FileName dir name ∧ CursorsIn (bootRec mnt d.bytes) ∧
        ∃ j ≤ lastSlot mnt, ∃ i < 16, Usable mnt d dir (hashPath name) del j i) ∧
      ∃ e, e ≠ kErrorDiskIsCorrupted ∧
        iNodeCtlManip mnt d flags dir name del kind = some (false, d.setErr e)) ∨
    ((FileName dir name ∧ CursorsIn (bootRec mnt d.bytes) ∧
        ∃ j ≤ lastSlot mnt, ∃ i < 16, Usable mnt d dir (hashPath name) del j i) ∧
      ∃ w d', (CursorsIn (bootRec mnt d.bytes) ∧ ∃ j i,
          SliceTarget mnt d dir (hashPath name) del j i ∧
          w = inWritten mnt d (ctlNode flags name del kind) del j i) ∧
        iNodeCtlManip mnt d flags dir name del kind = some (true, d') ∧ Balanced mnt w d') := by
  rcases ctlManip_cases hr hs dir name flags kind del with
    ⟨hno, hexec⟩ | ⟨hname, hc, j, i, d', ht, hexec, hbal⟩
  · refine .inl ⟨?_, hexec⟩
    rintro ⟨hname, hc, j, hj, i, hi, hu⟩
    rcases hno with hno | hno | hno
    · exact hno hname
    · exact hno hc
    · exact hno j hj i hi hu
  · exact .inr ⟨⟨hname, hc, j, ht.le, i, ht.lt, ht.usable⟩, _, d', ⟨hc, j, i, ht, rfl⟩,
      hexec, hbal⟩

/-- **What a step does**: nothing but set the error, or what the operation writes and a
rebalancing. -/
theorem exec_cases (hr : Roomy mnt) (hs : Shape mnt d.bytes) (op : Op) :
    (¬ Acts mnt d op ∧ ∃ e, e ≠ kErrorDiskIsCorrupted ∧
      exec mnt op d = some (false, d.setErr e)) ∨
    (Acts mnt d op ∧ ∃ w d', Written mnt d op w ∧ exec mnt op d = some (true, d') ∧
      Balanced mnt w d') := by
  cases op with
  | createDir flags dir => exact directory_exec hr hs dir flags false
  | removeDir flags dir => exact directory_exec hr hs dir flags true
  | createFile flags dir name kind => exact file_exec hr hs dir name flags kind false
  | deleteFile flags dir name kind => exact file_exec hr hs dir name flags kind true

theorem Written.shape {op : Op} (h : Written mnt d op w) (hr : Roomy mnt)
    (hs : Shape mnt d.bytes) : Shape mnt w.bytes := by
  cases op with
  | createDir flags dir =>
      obtain ⟨j, color, ht, hred, rfl⟩ := h
      exact indWritten_shape hr hs ht.le hred
  | removeDir flags dir =>
      obtain ⟨j, color, ht, hred, rfl⟩ := h
      exact indWritten_shape hr hs ht.le hred
  | createFile flags dir name kind =>
      obtain ⟨hc, j, i, ht, rfl⟩ := h
      exact inWritten_shape _ hr hs hc ht
  | deleteFile flags dir name kind =>
      obtain ⟨hc, j, i, ht, rfl⟩ := h
      exact inWritten_shape _ hr hs hc ht

theorem indWritten_packets {color : Nat} :
    (indWritten mnt d dir flags del j color).packets =
      ⟨.bootNode, mnt.fLbaStart, 513⟩ :: ⟨.directory, slotAt mnt j, 512⟩ :: d.packets := rfl

theorem inWritten_packets {node : Store} : d.packets ⊆ (inWritten mnt d node del j i).packets := by
  intro p hp
  cases del
  · exact .tail _ (.tail _ (.tail _ hp))
  · exact .tail _ (.tail _ (.tail _ hp))

theorem Written.packets {op : Op} (h : Written mnt d op w) : d.packets ⊆ w.packets := by
  cases op with
  | createDir flags dir =>
      obtain ⟨j, color, ht, hred, rfl⟩ := h
      exact fun p hp => .tail _ (.tail _ hp)
  | removeDir flags dir =>
      obtain ⟨j, color, ht, hred, rfl⟩ := h
      exact fun p hp => .tail _ (.tail _ hp)
  | createFile flags dir name kind =>
      obtain ⟨hc, j, i, ht, rfl⟩ := h
      exact inWritten_packets
  | deleteFile flags dir name kind =>
      obtain ⟨hc, j, i, ht, rfl⟩ := h
      exact inWritten_packets

/-! ## The boot node of `Format` -/

/-- The bounds of the regions in the boot node as it is written over a buffer. -/
theorem formatBootNode_regions (hlt : endIN mnt < 2 ^ 64) (flags : Nat) (volName : List UInt8)
    (boot : Store) :
    let b := formatBootNode mnt flags volName boot
    HefsBootNode.fStartIND.get b = startIND mnt ∧ HefsBootNode.fEndIND.get b = endIND mnt ∧
      HefsBootNode.fStartIN.get b = endIND mnt ∧ HefsBootNode.fEndIN.get b = endIN mnt ∧
      HefsBootNode.fStartBlock.get b = endIN mnt := by
  have hle := endIND_le_endIN mnt
  have hst : startIND mnt ≤ endIND mnt := slotAt_le_endIND (Nat.zero_le _)
  have h₁ : u64 (mnt.fLbaStart + HefsBootNode.size) = startIND mnt := by
    rw [← startIND]
    exact u64_of_lt (by omega)
  have h₂ : u64 (startIND mnt + mnt.size / mnt.fSectorSz / 300) = endIND mnt := by
    rw [← dirMax, ← endIND]
    exact u64_of_lt (by omega)
  have h₃ : u64 (endIND mnt + mnt.size / mnt.fSectorSz / 400) = endIN mnt := by
    rw [← inodeMax, ← endIN]
    exact u64_of_lt (by omega)
  have fits : ∀ x, x < 2 ^ 64 → x % 256 ^ 8 = x := fun x hx => Nat.mod_eq_of_lt hx
  simp only [formatBootNode, sealBootNode, h₁, h₂, h₃]
  refine ⟨?_, ?_, ?_, ?_, ?_⟩ <;>
    simp (disch := decide) only [Field.get_set_of_apart, Field.get_set_same]
  · exact fits _ (by omega)
  · exact fits _ (by omega)
  · exact fits _ (by omega)
  · exact fits _ (by omega)
  · exact fits _ (by omega)

/-- The boot node as it is written over a buffer, by field. -/
theorem formatBootNode_get (hr : Roomy mnt) (flags : Nat) (volName : List UInt8) (boot : Store) :
    let b := formatBootNode mnt flags volName boot
    HefsBootNode.fVersion.get b = kOpenHeFSVersion ∧ HefsBootNode.fStartIND.get b = startIND mnt ∧
      HefsBootNode.fEndIND.get b = endIND mnt ∧ HefsBootNode.fStartIN.get b = endIND mnt ∧
      HefsBootNode.fEndIN.get b = endIN mnt ∧ HefsBootNode.fStartBlock.get b = endIN mnt ∧
      HefsBootNode.fEndBlock.get b = mnt.size := by
  have hlt : endIN mnt < 2 ^ 64 := Nat.lt_of_le_of_lt (Nat.le_add_right _ _) hr.noWrap
  obtain ⟨h₁, h₂, h₃, h₄, h₅⟩ := formatBootNode_regions hlt flags volName boot
  refine ⟨?_, h₁, h₂, h₃, h₄, h₅, ?_⟩ <;> simp only [formatBootNode, sealBootNode] <;>
    simp (disch := decide) only [Field.get_set_of_apart, Field.get_set_same]
  · rfl
  · exact Nat.mod_eq_of_lt hr.size

/-- The magic of the boot node: the eight characters `Format` copies, and the byte behind them,
which it leaves as it was. -/
theorem formatBootNode_magic (flags : Nat) (volName : List UInt8) (h : boot 8 = 0) :
    equalsMagic (formatBootNode mnt flags volName boot) = true := by
  have hset : ∀ (f : Field) (v i : Nat) (r : Store), i < 9 → 9 ≤ f.off → f.set v r i = r i :=
    fun f v i r hi hf => Field.set_apply (by omega)
  unfold equalsMagic
  rw [List.all_eq_true]
  intro i hi
  have hi : i < 9 := List.mem_range.mp hi
  simp only [formatBootNode, sealBootNode]
  simp (disch := first | exact hi | decide) only [hset]
  by_cases h8 : i = 8
  · subst h8
    rw [blit_apply_of_notMem (by decide), blit_apply_of_notMem (.inl (by decide)), h]
    rfl
  · rw [blit_apply_of_mem (Nat.zero_le i) (by simp only [kOpenHeFSMagicLen]; omega)]
    simp

theorem formatBootNode_shape (hr : Roomy mnt) (flags : Nat) (volName : List UInt8)
    (h : boot 8 = 0) :
    BootShape mnt (formatBootNode mnt flags volName boot) := by
  obtain ⟨hv, h₁, h₂, h₃, h₄, -, -⟩ := formatBootNode_get hr flags volName boot
  refine ⟨?_, h₁, h₂, h₄, Nat.le_of_eq h₃.symm⟩
  rw [bootValid, formatBootNode_magic flags volName h, hv]
  decide

/-! ## A blank drive -/

/-- The drive is zero in its first block and from the boot node on. -/
def Blank (mnt : DriveTrait) (m : Store) : Prop := ∀ x, x < 512 ∨ mnt.fLbaStart ≤ x → m x = 0

/-- A record of zeros has the right shape. -/
theorem slotShape_zeros : SlotShape mnt j zeros := by
  refine ⟨Field.get_zeros, .inl Field.get_zeros, .inl Field.get_zeros, .inl Field.get_zeros,
    fun h => absurd Field.get_zeros h, fun _ => .inr ⟨Field.get_zeros, Field.get_zeros⟩,
    fun i _ h => absurd Field.get_zeros h⟩

/-- The checksum of a record of zeros is not zero. -/
theorem wrongSum_zeros : WrongSum zeros := by
  rw [WrongSum, Field.get_zeros]
  decide +kernel

/-- The disk right after formatting and the creation of the directories with the hashes `hs`: they
are in the first records, in order, and there is nothing else. -/
structure Started (mnt : DriveTrait) (hs : List Nat) (d : Disk) : Prop where
  shape : Shape mnt d.bytes
  live : ∀ j (hj : j < hs.length), dirHash mnt d.bytes j = hs[j]
  free : ∀ j, hs.length ≤ j → j ≤ lastSlot mnt → dirHash mnt d.bytes j = 0
  slices : ∀ j ≤ lastSlot mnt, ∀ i < 16, dirSlice mnt d.bytes j i = 0
  startIN : startIN mnt d.bytes = endIND mnt
  startBlock : HefsBootNode.fStartBlock.get (bootRec mnt d.bytes) = endIN mnt
  endBlock : HefsBootNode.fEndBlock.get (bootRec mnt d.bytes) = mnt.size
  first : ∀ x < 512, d.bytes x = 0
  unsettled : Unsettled mnt d.bytes

/-- The disk with its first boot node. -/
def withBootNode (mnt : DriveTrait) (d : Disk) (flags : Nat) (volName : List UInt8) : Disk :=
  writeBootNode mnt (formatBootNode mnt flags volName (d.fInput mnt.fLbaStart)) d

theorem withBootNode_slotRec (hb : Blank mnt d.bytes) {volName : List UInt8} :
    slotRec mnt (withBootNode mnt d flags volName).bytes j i = zeros i := by
  refine slotRec_blit_boot.trans (hb _ (.inr ?_))
  rw [slotAt_eq]
  omega

theorem withBootNode_started (hr : Roomy mnt) (hb : Blank mnt d.bytes) (flags : Nat)
    (volName : List UInt8) :
    Started mnt [] (withBootNode mnt d flags volName) := by
  obtain ⟨-, -, -, hin, -, hblock, hend⟩ :=
    formatBootNode_get hr flags volName (d.fInput mnt.fLbaStart)
  have hstart := hr.start
  have hbytes : (withBootNode mnt d flags volName).bytes = blit d.bytes mnt.fLbaStart 513
      (formatBootNode mnt flags volName (d.fInput mnt.fLbaStart)) := rfl
  have hrec : ∀ j i, slotRec mnt (withBootNode mnt d flags volName).bytes j i = zeros i :=
    fun _ _ => withBootNode_slotRec hb
  have hzero : ∀ (f : Field) (j : Nat),
      f.get (slotRec mnt (withBootNode mnt d flags volName).bytes j) = 0 := fun f j =>
    (Field.get_congr fun i _ => hrec j _).trans Field.get_zeros
  have hboot : ∀ f : Field, f.off + f.width ≤ 513 →
      f.get (bootRec mnt (withBootNode mnt d flags volName).bytes) =
        f.get (formatBootNode mnt flags volName (d.fInput mnt.fLbaStart)) := fun f hf =>
    Field.get_congr fun i _ => bootRec_blit_same (by omega)
  refine ⟨⟨?_, fun j _ => ?_⟩, fun j hj => ?_, fun j _ _ => hzero _ j, fun j _ i _ => hzero _ j,
    (hboot _ (by decide)).trans hin, (hboot _ (by decide)).trans hblock,
    (hboot _ (by decide)).trans hend, ?_, ?_⟩
  · refine (formatBootNode_shape hr flags volName ?_).congr fun i hi => bootRec_blit_same hi
    exact hb _ (.inr (Nat.le_add_right _ _))
  · exact slotShape_zeros.congr fun i _ _ _ => hrec j i
  · exact absurd hj (Nat.not_lt_zero _)
  · intro x hx
    rw [hbytes, blit_apply_of_notMem (by omega)]
    exact hb x (.inl hx)
  · exact wrongSum_zeros.congr fun i _ => hrec _ i

theorem indWanted_create_iff (h : SlotShape mnt j r) :
    indWanted false dir r = true ↔ fHashPath.get r = 0 := h.indFree_iff

/-- The records behind the directories are the ones a new directory may go to. -/
theorem Started.wanted_iff {hs : List Nat} (h : Started mnt hs d) (hpos : ∀ x ∈ hs, x ≠ 0)
    (hj : j ≤ lastSlot mnt) :
    indWanted false dir (slotRec mnt d.bytes j) = true ↔ hs.length ≤ j := by
  rw [indWanted_create_iff (h.shape.slot j hj)]
  constructor
  · intro hzero
    by_contra hlt
    have hlive := h.live j (Nat.not_le.mp hlt)
    exact hpos _ (List.getElem_mem _) (hlive.symm.trans hzero)
  · exact fun hle => h.free j hle hj

/-- The disk with one directory more, after rebalancing. -/
theorem Started.written {hs : List Nat} {d' : Disk} {color : Nat} (h : Started mnt hs d)
    (hr : Roomy mnt) (flags : Nat) (hlen : hs.length < lastSlot mnt)
    (hred : hs.length ≠ 0 → color = kOpenHeFSRed)
    (hbal : Balanced mnt (indWritten mnt d dir flags false hs.length color) d') :
    Started mnt (hs ++ [hashPath dir]) d' := by
  have heff := (indWritten_effect (d := d) (j := hs.length) hr dir flags false color).upTo hr
    hbal.bytes
  have hs' : Shape mnt (indWritten mnt d dir flags false hs.length color).bytes :=
    indWritten_shape hr h.shape hlen.le hred
  refine ⟨hbal.bytes.shape hr hs', ?_, ?_, ?_, ?_, ?_, ?_, ?_, ?_⟩
  · intro j hj
    rw [List.length_append, List.length_singleton] at hj
    by_cases hjl : j = hs.length
    · subst hjl
      rw [heff.hash, List.getElem_append_right (Nat.le_refl _)]
      simp
    · rw [heff.hash_other j hjl, h.live j (by omega), List.getElem_append_left]
  · intro j hj hjl
    rw [List.length_append, List.length_singleton] at hj
    rw [heff.hash_other j (by omega)]
    exact h.free j (by omega) hjl
  · intro j hj i hi
    by_cases hjl : j = hs.length
    · subst hjl
      exact heff.slice i hi
    · rw [heff.slice_other j hjl i hi]
      exact h.slices j hj i hi
  · rw [heff.startIN]
    exact h.startIN
  · rw [heff.boot _ (by decide) (by decide) (by decide)]
    exact h.startBlock
  · rw [heff.boot _ (by decide) (by decide) (by decide)]
    exact h.endBlock
  · intro x hx
    have hstart := hr.start
    have hslot : slotAt mnt hs.length = mnt.fLbaStart + 513 + 512 * hs.length := rfl
    rw [hbal.bytes x (hr.not_touched_low hx)]
    exact (blit_apply_of_notMem (by omega)).trans
      ((blit_apply_of_notMem (by omega)).trans (h.first x hx))
  · -- the last record is not the one that was written
    have hlast : ∀ i < 512, slotRec mnt (indWritten mnt d dir flags false hs.length color).bytes
        (lastSlot mnt) i = slotRec mnt d.bytes (lastSlot mnt) i :=
      fun i hi => slotRec_blit_boot.trans (slotRec_blit_other (by omega) hi)
    exact (hbal.last (WrongSum.congr h.unsettled hlast)).2

/-- The next directory goes into the next record. -/
theorem Started.createDir {hs : List Nat} (h : Started mnt hs d) (hr : Roomy mnt) (flags : Nat)
    (hpos : ∀ x ∈ hs, x ≠ 0) (hlen : hs.length < lastSlot mnt) (hname : DirName dir) :
    ∃ d', createINodeDirectory mnt d flags dir = some (true, d') ∧
      Started mnt (hs ++ [hashPath dir]) d' ∧ d.packets ⊆ d'.packets := by
  have hnext : indWanted false dir (slotRec mnt d.bytes hs.length) = true :=
    (h.wanted_iff hpos hlen.le).mpr (Nat.le_refl hs.length)
  rcases directoryCtl_cases hr h.shape dir flags false with
    ⟨hno | hno, -⟩ | ⟨-, j, color, d', ht, hred, hexec, hbal⟩
  · exact absurd hname hno
  · rw [hno _ hlen.le] at hnext
    cases hnext
  · have hle : hs.length ≤ j := (h.wanted_iff hpos ht.le).mp ht.wanted
    have hge : ¬ hs.length < j := fun hlt => by
      rw [ht.first _ hlt] at hnext
      cases hnext
    obtain rfl : j = hs.length := Nat.le_antisymm (Nat.not_lt.mp hge) hle
    refine ⟨d', hexec, h.written hr flags hlen hred hbal, fun p hp => ?_⟩
    apply hbal.packets
    rw [indWritten_packets]
    exact .tail _ (.tail _ hp)

theorem Started.createDefaults {hs : List Nat} (h : Started mnt hs d) (hr : Roomy mnt)
    (hpos : ∀ x ∈ hs, x ≠ 0) (dirs : List (List UInt8))
    (hlen : hs.length + dirs.length ≤ lastSlot mnt) (hname : ∀ dir ∈ dirs, DirName dir)
    (hdir : ∀ dir ∈ dirs, hashPath dir ≠ 0) :
    ∃ d', HeFileSystemParser.createDefaults mnt d dirs = some d' ∧
      Started mnt (hs ++ dirs.map hashPath) d' := by
  induction dirs generalizing d hs with
  | nil => exact ⟨d, rfl, by simpa using h⟩
  | cons dir dirs ih =>
      rw [List.length_cons] at hlen
      obtain ⟨d₁, hexec, h₁, -⟩ := h.createDir hr kOpenHeFSEncodingFlagsUTF8 hpos
        (by omega) (hname dir List.mem_cons_self)
      have hpos₁ : ∀ x ∈ hs ++ [hashPath dir], x ≠ 0 := by
        intro x hx
        rcases List.mem_append.mp hx with hx | hx
        · exact hpos x hx
        · rw [List.mem_singleton.mp hx]
          exact hdir dir List.mem_cons_self
      have hlen₁ : (hs ++ [hashPath dir]).length + dirs.length ≤ lastSlot mnt := by
        rw [List.length_append, List.length_singleton]
        omega
      obtain ⟨d', hd', h'⟩ := ih h₁ hpos₁ hlen₁ (fun x hx => hname x (.tail _ hx))
        (fun x hx => hdir x (.tail _ hx))
      refine ⟨d', ?_, by simpa using h'⟩
      rw [HeFileSystemParser.createDefaults, hexec]
      exact hd'

theorem kFileMap_names : ∀ dir ∈ kFileMap, DirName dir := by decide

theorem kFileMap_hashes : ∀ dir ∈ kFileMap, hashPath dir ≠ 0 := by decide +kernel

/-- A blank boot node is no boot node, and has no checksum. -/
theorem blank_boot (hb : Blank mnt m) :
    bootValid (bootRec mnt m) = false ∧ checksumPasses (bootRec mnt m) = true := by
  have hz : ∀ i, bootRec mnt m i = 0 := fun i => hb _ (.inr (Nat.le_add_right _ _))
  constructor
  · have hmagic : equalsMagic (bootRec mnt m) = false :=
      (equalsMagic_congr (r := zeros) fun i _ => hz i).trans (by decide)
    rw [bootValid, hmagic, Bool.false_and]
  · have hsum : HefsBootNode.fChecksum.get (bootRec mnt m) = 0 :=
      (Field.get_congr fun i _ => hz _).trans Field.get_zeros
    simp [checksumPasses, hsum]

/-- `Format` of a blank drive is the boot node and the default directories. -/
theorem format_eq (hr : Roomy mnt) (hb : Blank mnt d.bytes) (volName : List UInt8) :
    format mnt d flags volName =
      (HeFileSystemParser.createDefaults mnt (withBootNode mnt d flags volName) kFileMap).map
        fun d => (true, d.setErr kErrorSuccess) := by
  obtain ⟨hv, hck⟩ := blank_boot hb
  have hin : d.fInput mnt.fLbaStart = bootRec mnt d.bytes := rfl
  have hlba := hr.lba
  unfold format
  simp only [hin, hv, hck]
  rw [if_neg Bool.false_ne_true, if_neg (by decide), if_neg (by omega), if_neg hr.sector]
  rfl

/-- **`Format` of a blank drive** returns YES and leaves the default directories in the first
seven records. -/
theorem format_blank (hr : Roomy mnt) (hb : Blank mnt d.bytes) (flags : Nat)
    (volName : List UInt8) :
    ∃ d', format mnt d flags volName = some (true, d') ∧ d'.errGlobal = kErrorSuccess ∧
      Started mnt (kFileMap.map hashPath) d' := by
  obtain ⟨d', hd', h'⟩ := (withBootNode_started hr hb flags volName).createDefaults hr
    (by simp) kFileMap hr.slots kFileMap_names kFileMap_hashes
  rw [format_eq hr hb, hd']
  exact ⟨_, rfl, rfl, ⟨h'.shape, h'.live, h'.free, h'.slices, h'.startIN, h'.startBlock,
    h'.endBlock, h'.first, h'.unsettled⟩⟩

/-! ## A drive of one gibibyte -/

/-- An unpartitioned drive of one gibibyte, with sectors of 512 bytes. -/
def gibDrive : DriveTrait where
  fKind := 0xDF
  fLbaStart := 0x400
  fLbaEnd := 2097151
  fSectorSz := 512
  sectorCount := 2097152
  size := 2 ^ 30

/-- The drive before it is formatted. -/
def blankDisk : Disk := ⟨zeros, kErrorSuccess, []⟩

theorem gibDrive_lastSlot : lastSlot gibDrive = 13 := by
  rw [lastSlot, dirMax]
  decide

theorem gibDrive_roomy : Roomy gibDrive := by
  refine ⟨by decide, by decide, by decide, ?_, ?_, ?_, by decide⟩
  · rw [gibDrive_lastSlot]
    decide
  · rw [dirMax]
    decide
  · rw [endIN, endIND, inodeMax, dirMax]
    decide

theorem blankDisk_blank : Blank mnt blankDisk.bytes := fun _ _ => rfl

end NeKernel.FS
