import NeKernel.FS.Format

/-!
# The checksum of the boot node

Every writer of the boot node takes the checksum over the node with its old checksum still in it,
while `Format` compares the stored checksum with the one of the node as it is now. By the way a
CRC depends on a window of four bytes, the two agree exactly when the checksum came out as the
one that was there before (`reseal_iff`); a checksum of zero passes as well.

`accepted_iff_lucky` follows this through whole runs from a blank drive: the disks a run goes
through are accepted by a later `Format` if and only if every write of the boot node was such a
coincidence.
-/

namespace NeKernel.FS

open ByteStore Scan Detail HeFileSystemParser

variable {mnt : DriveTrait} {m b boot : Store} {d d' w : Disk} {j i flags : Nat} {op : Op}

/-! ## Acceptance -/

/-- A later `Format` returns YES and leaves every byte of the disk alone. -/
def Accepted (mnt : DriveTrait) (d : Disk) : Prop :=
  ∀ flags volName, ∃ d', format mnt d flags volName = some (true, d') ∧ d'.bytes = d.bytes

theorem checksumPasses_iff : checksumPasses b = true ↔
    crcOf b HefsBootNode.size = HefsBootNode.fChecksum.get b ∨
      HefsBootNode.fChecksum.get b = 0 := by
  simp only [checksumPasses, Bool.not_eq_true', Bool.and_eq_false_iff, decide_eq_false_iff_not,
    not_not, Nat.not_lt, Nat.le_zero]

/-- On a disk with a boot node, the checksum decides. -/
theorem accepted_iff (hb : BootShape mnt (bootRec mnt d.bytes)) :
    Accepted mnt d ↔ checksumPasses (bootRec mnt d.bytes) = true := by
  have hin : d.fInput mnt.fLbaStart = bootRec mnt d.bytes := rfl
  have hformat : ∀ flags volName, format mnt d flags volName =
      if checksumPasses (bootRec mnt d.bytes) then some (true, d.setErr kErrorSuccess)
      else some (false, d.setErr kErrorDiskIsCorrupted) := by
    intro flags volName
    unfold format
    simp only [hin, hb.valid, if_true]
  constructor
  · intro h
    obtain ⟨d', hd', -⟩ := h 0 []
    rw [hformat] at hd'
    by_contra hp
    rw [if_neg hp] at hd'
    cases hd'
  · intro hp flags volName
    rw [hformat, if_pos hp]
    exact ⟨_, rfl, rfl⟩

theorem checksumPasses_congr (h : ∀ i < 513, boot i = b i) :
    checksumPasses boot = checksumPasses b := by
  have hcrc : keCalculateCrc32 boot HefsBootNode.size = keCalculateCrc32 b HefsBootNode.size :=
    keCalculateCrc32_congr h
  have hget : HefsBootNode.fChecksum.get boot = HefsBootNode.fChecksum.get b :=
    Field.get_congr fun i hi => h _ (by simp only [HefsBootNode.fChecksum] at *; omega)
  rw [checksumPasses, checksumPasses, crcOf, crcOf, hcrc, hget]

/-- A boot node that has just been sealed passes when its checksum came out as the old one, or as
zero. -/
theorem checksumPasses_seal : checksumPasses (sealBootNode b) = true ↔
    crcOf b HefsBootNode.size = HefsBootNode.fChecksum.get b ∨ crcOf b HefsBootNode.size = 0 := by
  have hget : HefsBootNode.fChecksum.get (sealBootNode b) = crcOf b HefsBootNode.size := by
    rw [sealBootNode, Field.get_set_same]
    exact Nat.mod_eq_of_lt (crcOf_lt b _)
  have hseal := reseal_iff (f := HefsBootNode.fChecksum) (n := HefsBootNode.size) (r := b) rfl
    (by decide)
  rw [checksumPasses_iff]
  constructor
  · rintro (h | h)
    · exact .inl (hseal.mp h)
    · exact .inr (hget.symm.trans h)
  · rintro (h | h)
    · exact .inl (hseal.mpr h)
    · exact .inr (hget.trans h)

/-! ## One step -/

/-- The boot node an operation that takes effect writes, before it is sealed. -/
def nextBoot : Op → Store → Store
  | .createDir _ _, boot => countInd false boot
  | .removeDir _ _, boot => countInd true boot
  | .createFile _ _ _ _, boot => bumpCursors boot
  | .deleteFile _ _ _ _, boot => boot

theorem nextBoot_checksum :
    HefsBootNode.fChecksum.get (nextBoot op boot) = HefsBootNode.fChecksum.get boot := by
  cases op with
  | createDir => exact Field.get_set_of_apart (by decide)
  | removeDir => exact Field.get_set_of_apart (by decide)
  | createFile =>
      exact (Field.get_set_of_apart (by decide)).trans (Field.get_set_of_apart (by decide))
  | deleteFile => rfl

theorem Written.boot_bytes (h : Written mnt d op w) (hs : Shape mnt d.bytes) :
    ∀ i < 513, FS.bootRec mnt w.bytes i =
      sealBootNode (nextBoot op (FS.bootRec mnt d.bytes)) i := by
  intro i hi
  cases op with
  | createDir flags dir =>
      obtain ⟨j, color, ht, hred, rfl⟩ := h
      exact bootRec_blit_same hi
  | removeDir flags dir =>
      obtain ⟨j, color, ht, hred, rfl⟩ := h
      exact bootRec_blit_same hi
  | createFile flags dir name kind =>
      obtain ⟨hc, j, k, ht, rfl⟩ := h
      rw [inWritten_create ht.lt]
      exact bootRec_blit_same hi
  | deleteFile flags dir name kind =>
      obtain ⟨hc, j, k, ht, rfl⟩ := h
      have hnode := ((hs.slot j ht.le).slices k ht.lt ht.used).1
      have hrow : startIND mnt ≤ endIND mnt := slotAt_le_endIND (Nat.zero_le _)
      have hslot : startIND mnt ≤ slotAt mnt j := slotAt_mono (Nat.zero_le j)
      rw [inWritten_delete, bootRec_blit_above hslot hi,
        bootRec_blit_above (Nat.le_trans hrow hnode) hi]
      exact bootRec_blit_same hi

/-- The checksum the operation is about to store is the one that is stored already, or zero. -/
def Lucky (mnt : DriveTrait) (d : Disk) (op : Op) : Prop :=
  crcOf (nextBoot op (bootRec mnt d.bytes)) HefsBootNode.size =
      HefsBootNode.fChecksum.get (bootRec mnt d.bytes) ∨
    crcOf (nextBoot op (bootRec mnt d.bytes)) HefsBootNode.size = 0

/-- **One step**: an operation that takes effect leaves a disk that is accepted exactly when it
was lucky. -/
theorem accepted_step (hr : Roomy mnt) (hs : Shape mnt d.bytes) (hw : Written mnt d op w)
    (hb : Balanced mnt w d') : Accepted mnt d' ↔ Lucky mnt d op := by
  have hs' : Shape mnt d'.bytes := hb.bytes.shape hr (hw.shape hr hs)
  have hboot : ∀ i < 513,
      bootRec mnt d'.bytes i = sealBootNode (nextBoot op (bootRec mnt d.bytes)) i :=
    fun i hi => (hb.bytes.bootRec_apply hr hi).trans (hw.boot_bytes hs i hi)
  rw [accepted_iff hs'.boot, checksumPasses_congr hboot, checksumPasses_seal, nextBoot_checksum]
  rfl

/-- An operation without effect changes nothing about acceptance. -/
theorem accepted_setErr {e : Int} (hs : Shape mnt d.bytes) :
    Accepted mnt (d.setErr e) ↔ Accepted mnt d := by
  rw [accepted_iff (d := d.setErr e) hs.boot, accepted_iff hs.boot]
  rfl

/-! ## Runs -/

/-- The run comes to its end, and every disk it goes through is accepted. -/
def AllAccepted (mnt : DriveTrait) : List Op → Disk → Prop
  | [], d => Accepted mnt d
  | op :: ops, d => Accepted mnt d ∧ ∃ r d', exec mnt op d = some (r, d') ∧ AllAccepted mnt ops d'

/-- Every operation of the run that takes effect is lucky. -/
def AllLucky (mnt : DriveTrait) : List Op → Disk → Prop
  | [], _ => True
  | op :: ops, d => (Acts mnt d op → Lucky mnt d op) ∧
      ∀ r d', exec mnt op d = some (r, d') → AllLucky mnt ops d'

theorem allAccepted_iff (hr : Roomy mnt) (ops : List Op) (hs : Shape mnt d.bytes) :
    AllAccepted mnt ops d ↔ Accepted mnt d ∧ AllLucky mnt ops d := by
  induction ops generalizing d with
  | nil => exact (and_true _).to_iff.symm
  | cons op ops ih =>
      rw [AllAccepted, AllLucky]
      refine and_congr_right fun hacc => ?_
      rcases exec_cases hr hs op with ⟨hidle, e, -, hexec⟩ | ⟨hacts, w, d₁, hw, hexec, hbal⟩
      · have hs' : Shape mnt (d.setErr e).bytes := hs
        have hacc' : Accepted mnt (d.setErr e) := (accepted_setErr hs).mpr hacc
        rw [exists_exec hexec, forall_exec hexec, ih hs']
        exact ⟨fun h => ⟨fun ha => absurd ha hidle, h.2⟩, fun h => ⟨hacc', h.2⟩⟩
      · have hs' : Shape mnt d₁.bytes := hbal.bytes.shape hr (hw.shape hr hs)
        have hstep := accepted_step hr hs hw hbal
        rw [exists_exec hexec, forall_exec hexec, ih hs', hstep]
        exact ⟨fun h => ⟨fun _ => h.1, h.2⟩, fun h => ⟨h.1 hacts, h.2⟩⟩

/-- The defaults, the last of them apart. -/
theorem createDefaults_append (dirs : List (List UInt8)) (dir : List UInt8) :
    createDefaults mnt d (dirs ++ [dir]) = (createDefaults mnt d dirs).bind fun d₁ =>
      (createINodeDirectory mnt d₁ kOpenHeFSEncodingFlagsUTF8 dir).map Prod.snd := by
  induction dirs generalizing d with
  | nil =>
      rw [List.nil_append, createDefaults, createDefaults, Option.bind_some, Option.map_eq_bind]
      rfl
  | cons x dirs ih =>
      rw [List.cons_append, createDefaults, createDefaults, Option.bind_assoc]
      exact congrArg _ (funext fun r => ih)

/-- The last of the default directories. -/
def lastDefault : Op := .createDir kOpenHeFSEncodingFlagsUTF8 [0x2F, 0x64, 0x65, 0x76]

/-- **The boot nodes a run leaves.** `Format` of a blank drive writes its boot node, makes six
directories and then the seventh. The disk it leaves, and every disk a run from there goes
through, is accepted by a later `Format` if and only if the seventh directory and every
operation of the run that takes effect were lucky. -/
theorem accepted_iff_lucky (hr : Roomy mnt) (hb : Blank mnt d.bytes) (flags : Nat)
    (volName : List UInt8) :
    ∃ d₆ d₇, createDefaults mnt (withBootNode mnt d flags volName) kFileMap.dropLast = some d₆ ∧
      format mnt d flags volName = some (true, d₇) ∧
      ∀ ops, AllAccepted mnt ops d₇ ↔ Lucky mnt d₆ lastDefault ∧ AllLucky mnt ops d₇ := by
  have hsix : kFileMap.dropLast.length ≤ lastSlot mnt := Nat.le_trans (by decide) hr.slots
  obtain ⟨d₆, hd₆, h₆⟩ := (withBootNode_started hr hb flags volName).createDefaults hr
    (by simp) kFileMap.dropLast (by simpa using hsix)
    (fun x hx => kFileMap_names x (List.dropLast_subset _ hx))
    (fun x hx => kFileMap_hashes x (List.dropLast_subset _ hx))
  have hacts : Acts mnt d₆ lastDefault := by
    refine ⟨by decide, 6, by have := hr.slots; omega, ?_⟩
    have hz : dirHash mnt d₆.bytes 6 = 0 := h₆.free 6 (by decide) (by have := hr.slots; omega)
    exact (indWanted_create_iff (h₆.shape.slot 6 (by have := hr.slots; omega))).mpr hz
  rcases exec_cases hr h₆.shape lastDefault with ⟨hidle, -⟩ | ⟨-, w, d₇, hw, hexec, hbal⟩
  · exact absurd hacts hidle
  have hs₇ : Shape mnt d₇.bytes := hbal.bytes.shape hr (hw.shape hr h₆.shape)
  have hall : createDefaults mnt (withBootNode mnt d flags volName) kFileMap = some d₇ := by
    have hsplit : kFileMap = kFileMap.dropLast ++ [[0x2F, 0x64, 0x65, 0x76]] := by decide
    rw [hsplit, createDefaults_append, hd₆, Option.bind_some]
    exact congrArg (Option.map Prod.snd) hexec
  refine ⟨d₆, d₇.setErr kErrorSuccess, hd₆, ?_, fun ops => ?_⟩
  · rw [format_eq hr hb, hall]
    rfl
  · rw [allAccepted_iff hr ops (show Shape mnt (d₇.setErr kErrorSuccess).bytes from hs₇),
      accepted_setErr hs₇, accepted_step hr h₆.shape hw hbal]

theorem accepted_iff_lucky_gib :
    ∃ d₆ d₇, createDefaults gibDrive (withBootNode gibDrive blankDisk 0x50 []) kFileMap.dropLast =
        some d₆ ∧
      format gibDrive blankDisk 0x50 [] = some (true, d₇) ∧
      ∀ ops, AllAccepted gibDrive ops d₇ ↔
        Lucky gibDrive d₆ lastDefault ∧ AllLucky gibDrive ops d₇ :=
  accepted_iff_lucky gibDrive_roomy blankDisk_blank 0x50 []

/-! ## A drive whose boot node is not accepted -/

/-- A drive of 64 MiB: its directory row is a single record. -/
def smallDrive : DriveTrait where
  fKind := 0xDF
  fLbaStart := 0x400
  fLbaEnd := 131071
  fSectorSz := 512
  sectorCount := 131072
  size := 2 ^ 26

/-- `Format` returns YES, and then NO for the disk it has made. -/
theorem format_rejects_own_disk :
    ((format smallDrive blankDisk 0x50 []).bind fun r =>
      (format smallDrive r.2 0x50 []).map fun r' => (r.1, r'.1)) = some (true, false) := by
  decide +kernel

end NeKernel.FS
