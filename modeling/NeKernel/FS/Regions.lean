import NeKernel.FS.Format

/-!
# Where the parser writes

The regions are those of the boot node `Format` writes. A step that finds nothing to work on
hands the drive no packet (`quiet_step`), on any disk. A step that does find something ends in a
rebalancing, and that goes wrong: its loop runs over the record behind the end of the directory
row, and it follows the link to the record at 512, which `hefsi_update_ind_status` stores as the
first child of every directory.
-/

namespace NeKernel.FS

open ByteStore Scan Detail HeFileSystemParser HefsIndexNodeDirectory

variable {mnt : DriveTrait} {m src r b boot : Store} {d d' w : Disk} {a j i v flags : Nat}
  {dir name : List UInt8} {del : Bool} {kind : UInt8} {op : Op}

/-! ## Steps that find nothing -/

/-- The addresses a scan of the directory row comes to. -/
def OnScan (boot : Store) (start : Nat) : Prop :=
  Visits nextStart (fun start => HefsBootNode.fEndIND.get boot < start || start = 0)
    (HefsBootNode.fStartIND.get boot) start

/-- A directory operation finds a record to work on. -/
def FindsInd (mnt : DriveTrait) (d : Disk) (dir : List UInt8) (del : Bool) : Prop :=
  DirName dir ∧ bootValid (bootRec mnt d.bytes) = true ∧
    ∃ start, OnScan (bootRec mnt d.bytes) start ∧ indWanted del dir (d.fInput start) = true

/-- A file operation finds a slice to work on. -/
def FindsSlice (mnt : DriveTrait) (d : Disk) (dir name : List UInt8) (del : Bool) : Prop :=
  FileName dir name ∧ bootValid (bootRec mnt d.bytes) = true ∧ CursorsIn (bootRec mnt d.bytes) ∧
    ∃ start, OnScan (bootRec mnt d.bytes) start ∧
      hashPath dir = fHashPath.get (d.fInput start) ∧
      ∃ i < 16, inWanted d (d.fInput start) (hashPath name) del i = true

/-- The operation finds something to work on. -/
def Finds (mnt : DriveTrait) (d : Disk) : Op → Prop
  | .createDir _ dir => FindsInd mnt d dir false
  | .removeDir _ dir => FindsInd mnt d dir true
  | .createFile _ dir name _ => FindsSlice mnt d dir name false
  | .deleteFile _ dir name _ => FindsSlice mnt d dir name true

/-- What a step that finds nothing does. -/
structure Quiet (mnt : DriveTrait) (d d' : Disk) (r : Bool) : Prop where
  bytes : d'.bytes = d.bytes
  packets : d'.packets = d.packets
  refused : bootValid (bootRec mnt d.bytes) = true → r = false

theorem directory_quiet {res : Bool} (hf : ¬ FindsInd mnt d dir del)
    (h : iNodeDirectoryCtlManip mnt d flags dir del = some (res, d')) : Quiet mnt d d' res := by
  have hin : d.fInput mnt.fLbaStart = bootRec mnt d.bytes := rfl
  unfold iNodeDirectoryCtlManip at h
  simp only [hin] at h
  split at h
  · cases h
    exact ⟨rfl, rfl, fun _ => rfl⟩
  next hlen =>
  split at h
  · next hv =>
      cases h
      refine ⟨rfl, rfl, fun h => ?_⟩
      rw [h] at hv
      cases hv
  next hv =>
  split at h
  · cases h
    exact ⟨rfl, rfl, fun _ => rfl⟩
  next hall =>
  unfold hefsiUpdateIndStatus at h
  split at h
  · cases h
  rcases hfind : hefsiFindInd (bootRec mnt d.bytes) d dir del with _ | _ | start
  · rw [hfind] at h
    cases h
  · rw [hfind] at h
    cases h
    exact ⟨rfl, rfl, fun _ => rfl⟩
  · obtain ⟨y, hy, hvisit⟩ := scan_visits hfind
    split at hvisit
    · next hw =>
        exact absurd ⟨⟨by omega, hall⟩, by simpa using hv, y, hy, hw⟩ hf
    · cases hvisit

theorem file_quiet {res : Bool} (hf : ¬ FindsSlice mnt d dir name del)
    (h : iNodeCtlManip mnt d flags dir name del kind = some (res, d')) : Quiet mnt d d' res := by
  have hin : d.fInput mnt.fLbaStart = bootRec mnt d.bytes := rfl
  unfold iNodeCtlManip at h
  simp only [hin] at h
  -- the guards in the order of the source; nothing is written before the search
  split at h
  · cases h
    exact ⟨rfl, rfl, fun _ => rfl⟩
  next hlen =>
  split at h
  · cases h
    exact ⟨rfl, rfl, fun _ => rfl⟩
  next hdlen =>
  split at h
  · next hv =>
      cases h
      refine ⟨rfl, rfl, fun h => ?_⟩
      rw [h] at hv
      cases hv
  next hv =>
  split at h
  · cases h
    exact ⟨rfl, rfl, fun _ => rfl⟩
  next hall =>
  split at h
  · cases h
    exact ⟨rfl, rfl, fun _ => rfl⟩
  next hslash =>
  unfold hefsiUpdateInStatus at h
  split at h
  · cases h
    exact ⟨rfl, rfl, fun _ => rfl⟩
  split at h
  · cases h
    exact ⟨rfl, rfl, fun _ => rfl⟩
  next hin' =>
  split at h
  · cases h
    exact ⟨rfl, rfl, fun _ => rfl⟩
  next hblock =>
  rw [fHashPath_ctlNode] at h
  rcases hfind : hefsiFindSlice (bootRec mnt d.bytes) d dir (hashPath name) del with _ | _ | x
  · rw [hfind] at h
    cases h
  · rw [hfind] at h
    cases h
    exact ⟨rfl, rfl, fun _ => rfl⟩
  · obtain ⟨y, hy, hvisit⟩ := scan_visits hfind
    unfold updateInVisit at hvisit
    simp only at hvisit
    split at hvisit
    · next hhash =>
        split at hvisit
        · next i hi =>
            obtain ⟨hlt, hw, -⟩ := firstSlice_some hi
            exact absurd ⟨⟨by omega, by omega, hall, Bool.eq_false_iff.mpr hslash⟩,
              by simpa using hv, ⟨by omega, by omega⟩, y, hy, hhash, i, hlt, hw⟩ hf
        · cases hvisit
    · cases hvisit

/-- **A step that finds nothing** writes nothing, and says NO on a disk with a boot node. -/
theorem quiet_step {res : Bool} (hf : ¬ Finds mnt d op) (h : exec mnt op d = some (res, d')) :
    Quiet mnt d d' res := by
  cases op with
  | createDir flags dir => exact directory_quiet hf h
  | removeDir flags dir => exact directory_quiet hf h
  | createFile flags dir name kind => exact file_quiet hf h
  | deleteFile flags dir name kind => exact file_quiet hf h

/-! ## On a disk of the right shape -/

/-- The cursor of a scan that stays in the row is at one of its records. -/
theorem visits_slot (hr : Roomy mnt) {leave : Nat → Bool} {y : Nat}
    (hl : ∀ x, leave x = false → x ≤ endIND mnt)
    (h : Visits nextStart leave (startIND mnt) y) : ∃ j ≤ lastSlot mnt, y = slotAt mnt j := by
  obtain ⟨k, rfl, hk⟩ := h
  suffices hpos : ∀ i ≤ k, i ≤ lastSlot mnt ∧ nextStart^[i] (startIND mnt) = slotAt mnt i from
    ⟨k, (hpos k (Nat.le_refl k)).1, (hpos k (Nat.le_refl k)).2⟩
  intro i hi
  induction i with
  | zero => exact ⟨Nat.zero_le _, rfl⟩
  | succ i ih =>
      obtain ⟨hle, hpos⟩ := ih (by omega)
      have hnext : nextStart^[i + 1] (startIND mnt) = slotAt mnt (i + 1) := by
        rw [Function.iterate_succ_apply', hpos, hr.nextStart_slotAt hle]
      have hin := hl _ (hk i (by omega))
      rw [hnext] at hin
      refine ⟨?_, hnext⟩
      by_contra hgt
      have := endIND_lt mnt
      rw [show i + 1 = lastSlot mnt + 1 by omega] at hin
      omega

theorem onScan_slot (hr : Roomy mnt) (hb : BootShape mnt boot) {y : Nat} (h : OnScan boot y) :
    ∃ j ≤ lastSlot mnt, y = slotAt mnt j := by
  unfold OnScan at h
  rw [hb.startIND] at h
  refine visits_slot hr (fun x hx => ?_) h
  simp only [hb.endIND, Bool.or_eq_false_iff, decide_eq_false_iff_not] at hx
  omega

theorem Finds.acts (hr : Roomy mnt) (hs : Shape mnt d.bytes) (h : Finds mnt d op) :
    Acts mnt d op := by
  cases op with
  | createDir flags dir =>
      obtain ⟨hname, -, y, hy, hw⟩ := h
      obtain ⟨j, hj, rfl⟩ := onScan_slot hr hs.boot hy
      exact ⟨hname, j, hj, hw⟩
  | removeDir flags dir =>
      obtain ⟨hname, -, y, hy, hw⟩ := h
      obtain ⟨j, hj, rfl⟩ := onScan_slot hr hs.boot hy
      exact ⟨hname, j, hj, hw⟩
  | createFile flags dir name kind =>
      obtain ⟨hname, -, hc, y, hy, hhash, i, hi, hw⟩ := h
      obtain ⟨j, hj, rfl⟩ := onScan_slot hr hs.boot hy
      exact ⟨hname, hc, j, hj, i, hi, hhash, hw⟩
  | deleteFile flags dir name kind =>
      obtain ⟨hname, -, hc, y, hy, hhash, i, hi, hw⟩ := h
      obtain ⟨j, hj, rfl⟩ := onScan_slot hr hs.boot hy
      exact ⟨hname, hc, j, hj, i, hi, hhash, hw⟩

/-! ## Calls -/

/-- The operations, and the writing of a file. -/
inductive Call where
  | op (o : Op)
  | write (block : Store) (blockSz : Nat) (dir name : List UInt8) (kind : UInt8)

def call (mnt : DriveTrait) : Call → Disk → Option (Bool × Disk)
  | .op o, d => exec mnt o d
  | .write block blockSz dir name kind, d => iNodeManip mnt d block blockSz dir name kind

/-- The disk with an empty log, so that what a step leaves in it is what the step has written. -/
def unlogged (d : Disk) : Disk := { d with packets := [] }

/-- The index node through which a write goes to the drive. -/
def WritesTo (mnt : DriveTrait) (d : Disk) (dir name : List UInt8) (kind : UInt8) (node : Store) :
    Prop :=
  dir.length ≤ kOpenHeFSFileNameLen ∧ name.length ≤ kOpenHeFSFileNameLen ∧
    bootValid (bootRec mnt d.bytes) = true ∧
    hefsiFetchIn (bootRec mnt d.bytes) d dir name kind = some (some node) ∧
    HefsIndexNode.fOffsetSliceLow.get node ≠ 0 ∧ HefsIndexNode.fHashPath.get node ≠ 0 ∧
    HefsIndexNode.fFlags.get node &&& kOpenHeFSFlagsReadOnly = 0

/-- The address of the block of an index node. -/
def blockLba (node : Store) : Nat :=
  HefsIndexNode.fOffsetSliceHigh.get node * 2 ^ 32 + HefsIndexNode.fOffsetSliceLow.get node

/-- **What a write does**: one packet for the block of the file, or nothing. -/
theorem write_cases {block : Store} {blockSz : Nat} {res : Bool}
    (h : iNodeManip mnt d block blockSz dir name kind = some (res, d')) :
    (∃ node, WritesTo mnt d dir name kind node ∧
      d' = d.fOutput .block (blockLba node) blockSz block) ∨
    ((∀ node, ¬ WritesTo mnt d dir name kind node) ∧ d'.bytes = d.bytes ∧
      d'.packets = d.packets) := by
  have hin : d.fInput mnt.fLbaStart = bootRec mnt d.bytes := rfl
  unfold iNodeManip at h
  simp only [hin] at h
  split at h
  · next hlen =>
      cases h
      exact .inr ⟨fun node hw => absurd hw.1 (by omega), rfl, rfl⟩
  next hlen =>
  split at h
  · next hnlen =>
      cases h
      exact .inr ⟨fun node hw => absurd hw.2.1 (by omega), rfl, rfl⟩
  next hnlen =>
  split at h
  · next hv =>
      cases h
      refine .inr ⟨fun node hw => ?_, rfl, rfl⟩
      rw [hw.2.2.1] at hv
      cases hv
  next hv =>
  have hv : bootValid (bootRec mnt d.bytes) = true := by simpa using hv
  rcases hfetch : hefsiFetchIn (bootRec mnt d.bytes) d dir name kind with _ | _ | node
  · rw [hfetch] at h
    cases h
  · rw [hfetch] at h
    cases h
    refine .inr ⟨fun node hw => ?_, rfl, rfl⟩
    rw [hw.2.2.2.1] at hfetch
    cases hfetch
  · -- the index node is found once, so the other conditions are about it
    have honly : ∀ node', WritesTo mnt d dir name kind node' → node' = node := by
      intro node' hw
      have := hw.2.2.2.1
      rw [hfetch] at this
      cases this
      rfl
    rw [hfetch] at h
    simp only [Option.map_some, Option.some.injEq] at h
    split at h
    · next hplace =>
        split at h
        · next hro =>
            cases h
            refine .inr ⟨fun node' hw => ?_, rfl, rfl⟩
            obtain rfl := honly node' hw
            exact hro hw.2.2.2.2.2.2
        · next hro =>
            cases h
            exact .inl ⟨node, ⟨by omega, by omega, hv, hfetch, hplace.1, hplace.2,
              by simpa using hro⟩, rfl⟩
    · next hplace =>
        cases h
        refine .inr ⟨fun node' hw => ?_, rfl, rfl⟩
        obtain rfl := honly node' hw
        exact hplace ⟨hw.2.2.2.2.1, hw.2.2.2.2.2.1⟩

/-! ## The regions -/

/-- The packet lies between `lo` and `hi`. -/
def Within (lo hi : Nat) (p : DrivePacket) : Prop :=
  lo ≤ p.fPacketLba ∧ p.fPacketLba + p.fPacketSize ≤ hi

/-- The boot node. -/
def InBoot (mnt : DriveTrait) (p : DrivePacket) : Prop :=
  Within mnt.fLbaStart (mnt.fLbaStart + HefsBootNode.size) p

/-- The directory region of the boot node `b`. -/
def InDirs (b : Store) (p : DrivePacket) : Prop :=
  Within (HefsBootNode.fStartIND.get b) (HefsBootNode.fEndIND.get b) p

/-- The index-node region of the boot node `b`. -/
def InNodes (b : Store) (p : DrivePacket) : Prop :=
  Within (HefsBootNode.fStartIN.get b) (HefsBootNode.fEndIN.get b) p

/-- The block region of the boot node `b`. -/
def InBlocks (b : Store) (p : DrivePacket) : Prop :=
  Within (HefsBootNode.fStartBlock.get b) (HefsBootNode.fEndBlock.get b) p

/-- Where a call may write: a directory operation into the boot node and the directory region,
the others into any region. -/
def Allowed (mnt : DriveTrait) (b : Store) : Call → DrivePacket → Prop
  | .op (.createDir _ _), p => InBoot mnt p ∨ InDirs b p
  | .op (.removeDir _ _), p => InBoot mnt p ∨ InDirs b p
  | _, p => InBoot mnt p ∨ InDirs b p ∨ InNodes b p ∨ InBlocks b p

/-- `P` holds of every call of the run and the disk it is made on. -/
def EveryCall (mnt : DriveTrait) (P : Call → Disk → Prop) : List Call → Disk → Prop
  | [], _ => True
  | c :: cs, d => P c d ∧
      ∀ res d', call mnt c (unlogged d) = some (res, d') → EveryCall mnt P cs d'

theorem EveryCall.mono {P Q : Call → Disk → Prop} {cs : List Call} (hpq : ∀ c d, P c d → Q c d)
    (h : EveryCall mnt P cs d) : EveryCall mnt Q cs d := by
  induction cs generalizing d with
  | nil => trivial
  | cons c cs ih => exact ⟨hpq c d h.1, fun res d' hcall => ih (h.2 res d' hcall)⟩

/-- Every packet of the call satisfies `ok`. -/
def Packets (mnt : DriveTrait) (ok : DrivePacket → Prop) (c : Call) (d : Disk) : Prop :=
  ∀ res d', call mnt c (unlogged d) = some (res, d') → ∀ p ∈ d'.packets, ok p

/-- The call writes where it may. -/
def WritesInside (mnt : DriveTrait) (b : Store) (c : Call) (d : Disk) : Prop :=
  Packets mnt (Allowed mnt b c) c d

/-- An operation finds nothing to work on, and a write goes to a place that is `ok`. -/
def Idle (mnt : DriveTrait) (ok : DrivePacket → Prop) (c : Call) (d : Disk) : Prop :=
  match c with
  | .op o => ¬ Finds mnt d o
  | .write _ blockSz dir name kind => ∀ node, WritesTo mnt d dir name kind node →
      ok ⟨.block, blockLba node, blockSz⟩

/-- The call finds nothing to work on, or is a write into a region. -/
def IdleInside (mnt : DriveTrait) (b : Store) (c : Call) (d : Disk) : Prop :=
  Idle mnt (Allowed mnt b c) c d

/-- The packets of an idle call, whatever the disk. -/
theorem Idle.packets {ok : DrivePacket → Prop} {c : Call} (h : Idle mnt ok c d) :
    Packets mnt ok c d := by
  intro res d' hcall p hp
  cases c with
  | op o =>
      rw [(quiet_step (d := unlogged d) h hcall).packets] at hp
      cases hp
  | write block blockSz dir name kind =>
      rcases write_cases hcall with ⟨node, hw, rfl⟩ | ⟨-, -, hpackets⟩
      · rw [List.mem_singleton.mp hp]
        exact h node hw
      · rw [hpackets] at hp
        cases hp

/-! ## The first step that finds something -/

/-- The last record reaches out of every region a directory operation may write to, and out of
the directory region. -/
theorem last_outside (hb : BootShape mnt b) :
    ¬ InBoot mnt ⟨.directory, slotAt mnt (lastSlot mnt), 512⟩ ∧
      ¬ InDirs b ⟨.directory, slotAt mnt (lastSlot mnt), 512⟩ := by
  have hend := endIND_lt mnt
  rw [slotAt_succ] at hend
  constructor
  · rintro ⟨-, h⟩
    rw [slotAt_eq, HefsBootNode.size] at h
    simp only at h
    omega
  · rintro ⟨-, h⟩
    rw [hb.endIND] at h
    simp only at h
    omega

/-- The record at 512 lies in front of every region. -/
theorem child_outside (hr : Roomy mnt) (hb : BootShape mnt b)
    (hblock : HefsBootNode.fStartBlock.get b = endIN mnt) :
    ¬ InBoot mnt ⟨.directory, 512, 512⟩ ∧ ¬ InDirs b ⟨.directory, 512, 512⟩ ∧
      ¬ InNodes b ⟨.directory, 512, 512⟩ ∧ ¬ InBlocks b ⟨.directory, 512, 512⟩ := by
  have hstart := hr.start
  have hrow : startIND mnt ≤ endIND mnt := slotAt_le_endIND (Nat.zero_le _)
  have hle := endIND_le_endIN mnt
  have hin := hb.startIN
  rw [startIND, HefsBootNode.size] at hrow
  refine ⟨?_, ?_, ?_, ?_⟩ <;> rintro ⟨h, -⟩ <;> simp only at h
  · omega
  · rw [hb.startIND, startIND, HefsBootNode.size] at h
    omega
  · omega
  · omega

/-- The fields of the first record stay when a file is created or deleted. -/
theorem inWritten_root {node : Store} {hashFile : Nat} (hr : Roomy mnt) (hs : Shape mnt d.bytes)
    (ht : SliceTarget mnt d dir hashFile del j i) :
    dirHash mnt (inWritten mnt d node del j i).bytes 0 = dirHash mnt d.bytes 0 := by
  have hslot := hs.slot j ht.le
  have hfill : ∀ k < 8, ∀ x : Store, (∀ l, l < 8 ∨ 22 ≤ l →
      x l = (fINSlices i).set (if del then 0 else HefsBootNode.fStartIN.get
        (bootRec mnt d.bytes)) (slotRec mnt d.bytes j) l) → x k = slotRec mnt d.bytes j k := by
    intro k hk x hx
    rw [hx k (.inl hk)]
    exact Field.set_apply (.inl (by simp only [fINSlices]; omega))
  suffices hbytes : ∀ k < 8, slotRec mnt (inWritten mnt d node del j i).bytes 0 k =
      slotRec mnt d.bytes 0 k from
    Field.get_congr fun k hk => hbytes _ (by simp only [fHashPath] at hk ⊢; omega)
  intro k hk
  cases del
  · rw [inWritten_create ht.lt]
    rw [slotRec_blit_boot, slotRec_blit_node hr (Nat.zero_le _) hs.boot.startIN (by omega)]
    by_cases hj : (0 : Nat) = j
    · subst hj
      rw [slotRec_blit_same (by omega)]
      exact hfill _ hk _ fun l hl => fillSlice_apply hl
    · exact slotRec_blit_other hj (by omega)
  · rw [inWritten_delete]
    by_cases hj : (0 : Nat) = j
    · subst hj
      rw [slotRec_blit_same (by omega)]
      exact hfill _ hk _ fun l hl => emptySlice_apply hl
    · rw [slotRec_blit_other hj (by omega), slotRec_blit_node hr (Nat.zero_le _)
        (hslot.slices i ht.lt ht.used).1 (by omega), slotRec_blit_boot]

/-- The packets a step must not contain: the last record from a directory operation, the record
at 512 from a file operation. -/
def strayPacket (mnt : DriveTrait) : Op → DrivePacket
  | .createDir _ _ => ⟨.directory, slotAt mnt (lastSlot mnt), 512⟩
  | .removeDir _ _ => ⟨.directory, slotAt mnt (lastSlot mnt), 512⟩
  | .createFile _ _ _ _ => ⟨.directory, 512, 512⟩
  | .deleteFile _ _ _ _ => ⟨.directory, 512, 512⟩

theorem indWritten_stray {color : Nat} (hu : Unsettled mnt d.bytes)
    (hbal : Balanced mnt (indWritten mnt d dir flags del j color) d') :
    ⟨.directory, slotAt mnt (lastSlot mnt), 512⟩ ∈ d'.packets := by
  by_cases hj : lastSlot mnt = j
  · -- the operation takes the last record itself
    subst hj
    apply hbal.packets
    rw [indWritten_packets]
    exact .tail _ (.head _)
  · have hlast : ∀ i < 512, slotRec mnt (indWritten mnt d dir flags del j color).bytes
        (lastSlot mnt) i = slotRec mnt d.bytes (lastSlot mnt) i :=
      fun i hi => slotRec_blit_boot.trans (slotRec_blit_other hj hi)
    exact (hbal.last (WrongSum.congr hu hlast)).1

/-- **The first step that finds something** writes where it must not. -/
theorem stray_step (op : Op) (hr : Roomy mnt) (hs : Shape mnt d.bytes) (hu : Unsettled mnt d.bytes)
    (hroot : dirHash mnt d.bytes 0 ≠ 0) (hf : Finds mnt d op) :
    ∃ d', exec mnt op d = some (true, d') ∧ strayPacket mnt op ∈ d'.packets := by
  rcases exec_cases hr hs op with ⟨hidle, -⟩ | ⟨-, w, d', hw, hexec, hbal⟩
  · exact absurd (hf.acts hr hs) hidle
  refine ⟨d', hexec, ?_⟩
  cases op with
  | createDir flags dir =>
      obtain ⟨j, color, ht, hred, rfl⟩ := hw
      exact indWritten_stray hu hbal
  | removeDir flags dir =>
      obtain ⟨j, color, ht, hred, rfl⟩ := hw
      exact indWritten_stray hu hbal
  | createFile flags dir name kind =>
      obtain ⟨hc, j, i, ht, rfl⟩ := hw
      apply hbal.child
      exact (inWritten_root hr hs ht).trans_ne hroot
  | deleteFile flags dir name kind =>
      obtain ⟨hc, j, i, ht, rfl⟩ := hw
      apply hbal.child
      exact (inWritten_root hr hs ht).trans_ne hroot

/-! ## Runs from a fresh disk -/

theorem Started.congr {hs : List Nat} (h : Started mnt hs d) (hd : d'.bytes = d.bytes) :
    Started mnt hs d' := by
  refine ⟨?_, ?_, ?_, ?_, ?_, ?_, ?_, ?_, ?_⟩ <;> rw [hd]
  · exact h.shape
  · exact h.live
  · exact h.free
  · exact h.slices
  · exact h.startIN
  · exact h.startBlock
  · exact h.endBlock
  · exact h.first
  · exact h.unsettled

/-- An index node that the lookup finds is one that a slice leads to. -/
theorem fetch_slice {node : Store} (hr : Roomy mnt) (hb : BootShape mnt boot)
    (hfetch : hefsiFetchIn boot d dir name kind = some (some node)) :
    HefsBootNode.fStartIN.get boot ≤ endIN mnt ∧ ∃ j ≤ lastSlot mnt, ∃ i < 16,
      node = d.fInput ((fINSlices i).get (d.fInput (slotAt mnt j))) := by
  unfold hefsiFetchIn at hfetch
  simp only at hfetch
  split at hfetch
  · cases hfetch
  split at hfetch
  · cases hfetch
  next hcur =>
  split at hfetch
  · cases hfetch
  rw [hb.endIN] at hcur
  refine ⟨Nat.not_lt.mp hcur, ?_⟩
  obtain ⟨y, hy, hvisit⟩ := scan_visits hfetch
  rw [hb.startIND] at hy
  obtain ⟨j, hj, rfl⟩ := visits_slot hr (fun x hx => by
    rw [hb.endIND, decide_eq_false_iff_not] at hx
    omega) hy
  unfold fetchVisit at hvisit
  simp only at hvisit
  split at hvisit
  · cases hvisit
  split at hvisit
  · split at hvisit
    · next i hi =>
        cases hvisit
        exact ⟨j, hj, i, (firstSlice_some hi).1, rfl⟩
    · cases hvisit
  · cases hvisit

/-- There is no file to write to: the lookup comes to the zeros at the start of the drive at
most. -/
theorem Started.no_write {hs : List Nat} {node : Store} (h : Started mnt hs d) (hr : Roomy mnt) :
    ¬ WritesTo mnt d dir name kind node := by
  rintro ⟨-, -, -, hfetch, hlow, -⟩
  obtain ⟨-, j, hj, i, hi, rfl⟩ := fetch_slice hr h.shape.boot hfetch
  have hz : (fINSlices i).get (d.fInput (slotAt mnt j)) = 0 := h.slices j hj i hi
  rw [hz] at hlow
  refine hlow ((Field.get_congr fun k hk => ?_).trans Field.get_zeros)
  refine h.first _ ?_
  simp only [HefsIndexNode.fOffsetSliceLow] at hk ⊢
  omega

/-- An idle call leaves a fresh disk fresh. -/
theorem Started.call {hs : List Nat} {ok : DrivePacket → Prop} {c : Call} {res : Bool}
    (h : Started mnt hs d) (hr : Roomy mnt) (hidle : Idle mnt ok c d)
    (hcall : FS.call mnt c (unlogged d) = some (res, d')) : Started mnt hs d' := by
  cases c with
  | op o => exact h.congr (quiet_step (d := unlogged d) hidle hcall).bytes
  | write block blockSz dir name kind =>
      rcases write_cases hcall with ⟨node, hw, -⟩ | ⟨-, hbytes, -⟩
      · have h' : Started mnt hs (unlogged d) := h.congr rfl
        exact absurd hw (h'.no_write hr)
      · exact h.congr hbytes

/-- A call with packets that are `ok` only is idle, if the stray packet is not `ok`. -/
theorem Started.idle {hs : List Nat} {ok : DrivePacket → Prop} {c : Call} (h : Started mnt hs d)
    (hr : Roomy mnt) (hroot : dirHash mnt d.bytes 0 ≠ 0)
    (hstray : ∀ o, c = .op o → ¬ ok (strayPacket mnt o)) (hp : Packets mnt ok c d) :
    Idle mnt ok c d := by
  cases c with
  | op o =>
      intro hf
      obtain ⟨d', hexec, hmem⟩ :=
        stray_step (d := unlogged d) o hr h.shape h.unsettled hroot hf
      exact hstray o rfl (hp true d' hexec _ hmem)
  | write block blockSz dir name kind => exact fun node hw => absurd hw (h.no_write hr)

/-- The first of the default directories is live. -/
theorem Started.root (h : Started mnt (kFileMap.map hashPath) d) : dirHash mnt d.bytes 0 ≠ 0 := by
  rw [h.live 0 (by decide)]
  exact kFileMap_hashes _ (by decide)

/-- **The run rule** for fresh disks: what a call on a fresh disk has, each call of the run has,
as long as it makes the calls idle. -/
theorem Started.everyCall {P Q : Call → Disk → Prop} {cs : List Call}
    (hpq : ∀ c d, Started mnt (kFileMap.map hashPath) d → P c d →
      Q c d ∧ ∃ ok, Idle mnt ok c d)
    (hr : Roomy mnt) (h : Started mnt (kFileMap.map hashPath) d) (hcs : EveryCall mnt P cs d) :
    EveryCall mnt Q cs d := by
  induction cs generalizing d with
  | nil => trivial
  | cons c cs ih =>
      obtain ⟨hq, ok, hidle⟩ := hpq c d h hcs.1
      exact ⟨hq, fun res d' hcall => ih (h.call hr hidle hcall) (hcs.2 res d' hcall)⟩

/-- The stray packet of an operation is not where the operation may write. -/
theorem stray_not_allowed (hr : Roomy mnt) {flags : Nat} {volName : List UInt8} (boot : Store)
    (h : boot 8 = 0) (o : Op) :
    ¬ Allowed mnt (formatBootNode mnt flags volName boot) (.op o) (strayPacket mnt o) := by
  have hb := formatBootNode_shape hr flags volName h
  obtain ⟨-, -, -, -, -, hblock, -⟩ := formatBootNode_get hr flags volName boot
  obtain ⟨hlast, hlast'⟩ := last_outside hb
  obtain ⟨h₁, h₂, h₃, h₄⟩ := child_outside hr hb hblock
  cases o with
  | createDir flags dir => exact fun hp => hp.elim hlast hlast'
  | removeDir flags dir => exact fun hp => hp.elim hlast hlast'
  | createFile flags dir name kind =>
      exact fun hp => hp.elim h₁ fun hp => hp.elim h₂ fun hp => hp.elim h₃ h₄
  | deleteFile flags dir name kind =>
      exact fun hp => hp.elim h₁ fun hp => hp.elim h₂ fun hp => hp.elim h₃ h₄

/-- **Where a run writes.** On every disk that `Format` has formatted, each call of a run writes
inside the regions if each call finds nothing to work on or is a write into a region. On a drive
that was blank the condition is also necessary: the first operation that does find something
writes the record over the end of the directory row, or the record at 512. -/
theorem writesInside_iff_idle (mnt : DriveTrait) (d : Disk) (flags : Nat) (volName : List UInt8) :
    let b := formatBootNode mnt flags volName (d.fInput mnt.fLbaStart)
    (∀ d', format mnt d flags volName = some (true, d') → ∀ cs,
      EveryCall mnt (IdleInside mnt b) cs d' → EveryCall mnt (WritesInside mnt b) cs d') ∧
    (Roomy mnt → Blank mnt d.bytes → ∃ d', format mnt d flags volName = some (true, d') ∧ ∀ cs,
      EveryCall mnt (WritesInside mnt b) cs d' ↔ EveryCall mnt (IdleInside mnt b) cs d') := by
  intro b
  let d₀ := d.fInput mnt.fLbaStart
  have hidle : ∀ c d, IdleInside mnt b c d → WritesInside mnt b c d := fun c d h => h.packets
  refine ⟨fun d' _ cs h => h.mono hidle, fun hr hb => ?_⟩
  obtain ⟨d', hformat, -, hstarted⟩ := format_blank hr hb flags volName
  refine ⟨d', hformat, fun cs => ⟨hstarted.everyCall (fun c d h hp => ?_) hr, .mono hidle⟩⟩
  have hzero : d₀ 8 = 0 := hb _ (.inr (Nat.le_add_right _ _))
  have hc : Idle mnt (Allowed mnt b c) c d :=
    h.idle hr h.root (fun o ho => ho ▸ stray_not_allowed hr d₀ hzero o) hp
  exact ⟨hc, _, hc⟩

theorem writesInside_iff_idle_gib :
    let b := formatBootNode gibDrive 0x50 [] (blankDisk.fInput gibDrive.fLbaStart)
    ∃ d', format gibDrive blankDisk 0x50 [] = some (true, d') ∧ ∀ cs,
      EveryCall gibDrive (WritesInside gibDrive b) cs d' ↔
        EveryCall gibDrive (IdleInside gibDrive b) cs d' :=
  (writesInside_iff_idle gibDrive blankDisk 0x50 []).2 gibDrive_roomy blankDisk_blank

/-- The first file of a fresh disk finds an empty slice of the directory `/`. -/
theorem Started.finds_file (h : Started mnt (kFileMap.map hashPath) d)
    (hsize : endIN mnt ≤ mnt.size) (hname : FileName [0x2F] name) :
    Finds mnt d (.createFile flags [0x2F] name kind) := by
  refine ⟨hname, h.shape.boot.valid, ⟨?_, ?_⟩, slotAt mnt 0, ?_, ?_, 0, by decide, ?_⟩
  · have hc : HefsBootNode.fStartIN.get (bootRec mnt d.bytes) = endIND mnt := h.startIN
    rw [hc, h.shape.boot.endIN]
    exact endIND_le_endIN mnt
  · rw [h.startBlock, h.endBlock]
    exact hsize
  · exact ⟨0, h.shape.boot.startIND.symm, fun i hi => absurd hi (Nat.not_lt_zero i)⟩
  · exact (h.live 0 (by decide)).symm
  · have hz : (fINSlices 0).get (d.fInput (slotAt mnt 0)) = 0 :=
      h.slices 0 (Nat.zero_le _) 0 (by decide)
    simp [inWanted, hz]

theorem endIN_gib : endIN gibDrive ≤ gibDrive.size := by
  rw [endIN, endIND, inodeMax, dirMax]
  decide

/-- A file created on a fresh drive of one gibibyte: the record at 512 is written, in front of
the boot node. -/
theorem createFile_writes_outside :
    let b := formatBootNode gibDrive 0x50 [] (blankDisk.fInput gibDrive.fLbaStart)
    ∃ d', format gibDrive blankDisk 0x50 [] = some (true, d') ∧
      ¬ EveryCall gibDrive (WritesInside gibDrive b) [.op (.createFile 0 [0x2F] [0x61] 0)] d' := by
  intro b
  obtain ⟨d', hformat, -, h⟩ := format_blank gibDrive_roomy blankDisk_blank 0x50 []
  have hfinds : Finds gibDrive d' (.createFile 0 [0x2F] [0x61] 0) :=
    h.finds_file endIN_gib (by decide)
  obtain ⟨d'', hexec, hmem⟩ := stray_step (d := unlogged d') (.createFile 0 [0x2F] [0x61] 0)
    gibDrive_roomy h.shape h.unsettled h.root hfinds
  refine ⟨d', hformat, fun hcs => ?_⟩
  exact stray_not_allowed gibDrive_roomy (blankDisk.fInput gibDrive.fLbaStart) rfl _
    (hcs.1 true d'' hexec _ hmem)

/-! ## Records in their own regions -/

/-- The packet lies in the region of its kind of record. -/
def InOwn (mnt : DriveTrait) (b : Store) (p : DrivePacket) : Prop :=
  match p.fPacketContent with
  | .bootNode => InBoot mnt p
  | .directory => InDirs b p
  | .indexNode => InNodes b p
  | .block => InBlocks b p

/-- The region a creation needs is full: no record that ends inside the directory row is free, or
one of the cursors has no 512 bytes in front of it. -/
def Full (mnt : DriveTrait) (c : Call) (d : Disk) : Prop :=
  let boot := bootRec mnt d.bytes
  match c with
  | .op (.createDir _ _) => ∀ k,
      HefsBootNode.fStartIND.get boot + size * (k + 1) ≤ HefsBootNode.fEndIND.get boot →
      indFree (d.fInput (HefsBootNode.fStartIND.get boot + size * k)) = false
  | .op (.createFile _ _ _ _) =>
      HefsBootNode.fEndIN.get boot < HefsBootNode.fStartIN.get boot + HefsIndexNode.size ∨
        HefsBootNode.fEndBlock.get boot < HefsBootNode.fStartBlock.get boot + kOpenHeFSBlockLen
  | _ => False

/-- Every record the call writes is in the region of its kind, and a creation without room says
NO and writes nothing. -/
def KeepsRegions (mnt : DriveTrait) (b : Store) (c : Call) (d : Disk) : Prop :=
  Packets mnt (InOwn mnt b) c d ∧
    ∀ res d', call mnt c (unlogged d) = some (res, d') → Full mnt c d →
      res = false ∧ d'.packets = []

/-- The call finds nothing to work on, or is a write into the block region; and when it is a
creation without room, there is a boot node. -/
def IdleOwn (mnt : DriveTrait) (b : Store) (c : Call) (d : Disk) : Prop :=
  Idle mnt (InOwn mnt b) c d ∧ (Full mnt c d → bootValid (bootRec mnt d.bytes) = true)

/-- The regions of the boot node share no byte. -/
def RegionsDisjoint (b : Store) : Prop :=
  let dirs := fun x => HefsBootNode.fStartIND.get b ≤ x ∧ x < HefsBootNode.fEndIND.get b
  let nodes := fun x => HefsBootNode.fStartIN.get b ≤ x ∧ x < HefsBootNode.fEndIN.get b
  let blocks := fun x => HefsBootNode.fStartBlock.get b ≤ x ∧ x < HefsBootNode.fEndBlock.get b
  ∀ x, ¬ (dirs x ∧ nodes x) ∧ ¬ (dirs x ∧ blocks x) ∧ ¬ (nodes x ∧ blocks x)

theorem formatBootNode_disjoint (h : endIN mnt < 2 ^ 64) {volName : List UInt8} :
    RegionsDisjoint (formatBootNode mnt flags volName boot) := by
  obtain ⟨-, h₂, h₃, h₄, h₅⟩ := formatBootNode_regions h flags volName boot
  have hle := endIND_le_endIN mnt
  intro x
  simp only [h₂, h₃, h₄, h₅]
  omega

theorem IdleOwn.keeps {c : Call} (h : IdleOwn mnt b c d) : KeepsRegions mnt b c d := by
  refine ⟨h.1.packets, fun res d' hcall hfull => ?_⟩
  cases c with
  | op o =>
      have hq := quiet_step (d := unlogged d) h.1 hcall
      exact ⟨hq.refused (h.2 hfull), hq.packets⟩
  | write block blockSz dir name kind => exact hfull.elim

/-- The stray packet of an operation is not in the directory region. -/
theorem stray_not_own (hr : Roomy mnt) {flags : Nat} {volName : List UInt8} (boot : Store)
    (h : boot 8 = 0) (o : Op) : ¬ InOwn mnt (formatBootNode mnt flags volName boot) (strayPacket mnt o) := by
  have hb := formatBootNode_shape hr flags volName h
  obtain ⟨-, -, -, -, -, hblock, -⟩ := formatBootNode_get hr flags volName boot
  cases o with
  | createDir flags dir => exact (last_outside hb).2
  | removeDir flags dir => exact (last_outside hb).2
  | createFile flags dir name kind => exact (child_outside hr hb hblock).2.1
  | deleteFile flags dir name kind => exact (child_outside hr hb hblock).2.1

/-- **The regions.** On every drive whose addresses do not wrap, the regions of a boot node that
`Format` writes are disjoint, and each call of a run keeps its records inside them if each call
finds nothing to work on or is a write into the block region. On a drive that was blank the
condition is also necessary. -/
theorem keepsRegions_iff_idle (mnt : DriveTrait) (d : Disk) (flags : Nat) (volName : List UInt8) :
    let b := formatBootNode mnt flags volName (d.fInput mnt.fLbaStart)
    (endIN mnt < 2 ^ 64 → RegionsDisjoint b) ∧
    (∀ d', format mnt d flags volName = some (true, d') → ∀ cs,
      EveryCall mnt (IdleOwn mnt b) cs d' → EveryCall mnt (KeepsRegions mnt b) cs d') ∧
    (Roomy mnt → Blank mnt d.bytes → ∃ d', format mnt d flags volName = some (true, d') ∧ ∀ cs,
      EveryCall mnt (KeepsRegions mnt b) cs d' ↔ EveryCall mnt (IdleOwn mnt b) cs d') := by
  intro b
  let d₀ := d.fInput mnt.fLbaStart
  have hidle : ∀ c d, IdleOwn mnt b c d → KeepsRegions mnt b c d := fun c d h => h.keeps
  refine ⟨fun h => formatBootNode_disjoint h, fun d' _ cs h => h.mono hidle, fun hr hb => ?_⟩
  obtain ⟨d', hformat, -, hstarted⟩ := format_blank hr hb flags volName
  refine ⟨d', hformat, fun cs => ⟨hstarted.everyCall (fun c d h hp => ?_) hr, .mono hidle⟩⟩
  have hzero : d₀ 8 = 0 := hb _ (.inr (Nat.le_add_right _ _))
  have hc : Idle mnt (InOwn mnt b) c d :=
    h.idle hr h.root (fun o _ => stray_not_own hr d₀ hzero o) hp.1
  exact ⟨⟨hc, fun _ => h.shape.boot.valid⟩, _, hc⟩

theorem keepsRegions_iff_idle_gib :
    let b := formatBootNode gibDrive 0x50 [] (blankDisk.fInput gibDrive.fLbaStart)
    RegionsDisjoint b ∧ ∃ d', format gibDrive blankDisk 0x50 [] = some (true, d') ∧ ∀ cs,
      EveryCall gibDrive (KeepsRegions gibDrive b) cs d' ↔
        EveryCall gibDrive (IdleOwn gibDrive b) cs d' :=
  ⟨(keepsRegions_iff_idle gibDrive blankDisk 0x50 []).1
      (Nat.lt_of_le_of_lt endIN_gib (by decide)),
    (keepsRegions_iff_idle gibDrive blankDisk 0x50 []).2.2 gibDrive_roomy blankDisk_blank⟩

/-- A directory created on a fresh drive of one gibibyte: the last record of the row is written,
and it reaches over `fEndIND`. -/
theorem createDir_leaves_region :
    let b := formatBootNode gibDrive 0x50 [] (blankDisk.fInput gibDrive.fLbaStart)
    ∃ d', format gibDrive blankDisk 0x50 [] = some (true, d') ∧
      ¬ EveryCall gibDrive (KeepsRegions gibDrive b) [.op (.createDir 0x50 [0x2F, 0x61])] d' := by
  intro b
  obtain ⟨d', hformat, -, h⟩ := format_blank gibDrive_roomy blankDisk_blank 0x50 []
  have hlen : (kFileMap.map hashPath).length < lastSlot gibDrive := by
    rw [gibDrive_lastSlot]
    decide
  have hfree : dirHash gibDrive d'.bytes 7 = 0 := h.free 7 (by decide) (Nat.le_of_lt hlen)
  have hacts : Acts gibDrive (unlogged d') (.createDir 0x50 [0x2F, 0x61]) :=
    ⟨by decide, 7, Nat.le_of_lt hlen,
      (indWanted_create_iff (h.shape.slot 7 (Nat.le_of_lt hlen))).mpr hfree⟩
  rcases exec_cases (d := unlogged d') gibDrive_roomy h.shape (.createDir 0x50 [0x2F, 0x61]) with
    ⟨hidle, -⟩ | ⟨-, w, d'', ⟨j, color, -, -, rfl⟩, hexec, hbal⟩
  · exact absurd hacts hidle
  refine ⟨d', hformat, fun hcs => ?_⟩
  have hstray := indWritten_stray (d := unlogged d') h.unsettled hbal
  exact stray_not_own gibDrive_roomy (blankDisk.fInput gibDrive.fLbaStart) rfl
    (.createDir 0x50 [0x2F, 0x61]) (hcs.1.1 true d'' hexec _ hstray)

end NeKernel.FS
