import NeKernel.FS.BootNode
import NeKernel.Tools.MkfsRegions

/-!
# `chk.hefs`

The tool that checks an OpenHeFS volume. It looks for the magic, for a sector and a size of the sectors in
the boot node, and counts the bad sectors; the version, the checksum and the regions it does not look at.

So it calls a volume of `mkfs.hefs` healthy as soon as the sectors have their size (`chk_mkfs_iff`), and a
volume of the kernel healthy at every moment of its use or at none (`chk_formatted_iff`), whether or not the
kernel itself takes the boot node.
-/

namespace NeKernel.Tools

open ByteStore FS Detail HeFileSystemParser

def kMkFsSectorSz : Nat := 512
def kMkFsMaxBadSectors : Nat := 128
def kMinArgs : Nat := 2

/-- What an input device holds. -/
structure InputDevice where
  bytes : Store
  size : Nat

/-- `strncmp(a, b, n) == 0`, from the `i`-th character on. -/
def strncmpEqual (a b : Store) : Nat → Nat → Bool
  | 0, _ => true
  | n + 1, i => if a i ≠ b i then false else if a i = 0 then true else strncmpEqual a b n (i + 1)

/-- How the check ends. -/
inductive Verdict where
  | usage
  | emptyPartition
  | invalidOrigin
  | cannotOpen
  | cannotSeek
  | notOpenHeFS
  | tooManyBadSectors
  | healthy
deriving DecidableEq

/-- `output_device.read` into an empty boot node: what lies behind the end of the device stays zero. -/
def InputDevice.readBootNode (dev : InputDevice) (origin : Nat) : Store := fun i =>
  if i < BootNode.size ∧ origin + i < dev.size then dev.bytes (origin + i) else 0

/-- What the tool says about the boot node it has read. -/
def checkBootNode (r : Store) : Verdict :=
  if strncmpEqual r (fun i => kOpenHeFSMagic.getD i 0) kOpenHeFSMagicLen 0 = false ∨
      (BootNode.member 4).get r < 1 ∨ (BootNode.member 5).get r < kMkFsSectorSz then .notOpenHeFS
  else if kMkFsMaxBadSectors < (BootNode.member 3).get r then .tooManyBadSectors
  else .healthy

/-- `main`, where `device` is what can be opened. A `seekg` to a negative offset fails. -/
def chkMain (argv : List (List UInt8)) (device : List UInt8 → Option InputDevice) : Verdict :=
  if argv.length < kMinArgs then .usage
  else
    let args := buildArgs argv
    let optDisk := getOption args (chars ['i', 'n'])
    let origin := getOption args (chars ['b'])
    if optDisk = [] then .emptyPartition
    else
      match parseSigned origin with
      | none => .invalidOrigin
      | some outOrigin =>
          match device optDisk with
          | none => .cannotOpen
          | some dev =>
              if 2 ^ 63 ≤ outOrigin then .cannotSeek
              else checkBootNode (dev.readBootNode outOrigin)

/-! ## The boot node that is healthy -/

variable {argv cargv : List (List UInt8)} {v : Volume} {m r r' a b : Store} {n i origin : Nat} {dev : InputDevice}
  {device : List UInt8 → Option InputDevice} {path : List UInt8} {mnt : DriveTrait} {d d' : Disk} {op : Op}

/-- Rows of characters of which only the last compared one may end the string. -/
theorem strncmpEqual_iff (hb : ∀ j, j + 1 < n → b (i + j) ≠ 0) :
    strncmpEqual a b n i = true ↔ ∀ j < n, a (i + j) = b (i + j) := by
  induction n generalizing i with
  | zero => exact iff_of_true rfl fun j hj => absurd hj (Nat.not_lt_zero j)
  | succ n ih =>
      have hrest : ∀ j, j + 1 < n → b (i + 1 + j) ≠ 0 := by
        intro j hj
        have hnext := hb (j + 1) (Nat.succ_lt_succ hj)
        rwa [Nat.add_comm j 1, ← Nat.add_assoc] at hnext
      rw [strncmpEqual, Nat.forall_lt_succ_left]
      by_cases heq : a i = b i
      · rw [if_neg (not_not_intro heq), and_iff_right (show a (i + 0) = b (i + 0) from heq)]
        by_cases hend : a i = 0
        · -- the string ends here, so nothing is left to compare
          have hlast : n = 0 := by
            by_contra hn
            exact hb 0 (by omega) (heq ▸ hend)
          subst hlast
          rw [if_pos hend]
          exact iff_of_true rfl fun j hj => absurd hj (Nat.not_lt_zero j)
        · rw [if_neg hend, ih hrest]
          simp only [Nat.add_comm, Nat.add_left_comm]
      · rw [if_pos heq]
        exact iff_of_false Bool.false_ne_true fun h => heq h.1

/-- The magic the tool looks for is the one the kernel looks for. -/
theorem strncmp_magic : strncmpEqual r (fun i => kOpenHeFSMagic.getD i 0) kOpenHeFSMagicLen 0 = equalsMagic r := by
  have hb : ∀ j, j + 1 < kOpenHeFSMagicLen → kOpenHeFSMagic.getD (0 + j) 0 ≠ 0 := by
    intro j hj
    have hj : j < 8 := Nat.lt_of_succ_lt_succ hj
    interval_cases j <;> decide
  rw [Bool.eq_iff_iff, strncmpEqual_iff hb, equalsMagic, List.all_eq_true]
  simp only [Nat.zero_add, List.mem_range, beq_iff_eq]

/-- **A healthy boot node** has the magic, a sector, sectors of 512 bytes or more, and few bad ones. -/
theorem checkBootNode_iff : checkBootNode r = .healthy ↔
    equalsMagic r = true ∧ 1 ≤ HefsBootNode.fSectorCount.get r ∧
      kMkFsSectorSz ≤ HefsBootNode.fSectorSize.get r ∧
      HefsBootNode.fBadSectors.get r ≤ kMkFsMaxBadSectors := by
  obtain ⟨-, hbad, hcount, hsize, -⟩ := BootNode.layout
  rw [checkBootNode, strncmp_magic, hbad, hcount, hsize]
  split
  · next h => simp only [reduceCtorEq, false_iff]; grind
  · next h =>
      split
      · next hb => simp only [reduceCtorEq, false_iff]; omega
      · next hb => simp only [true_iff]; grind

theorem get_congr_inside {f : Field} (hf : f.Inside BootNode.size) (h : ∀ i < BootNode.size, r i = r' i) :
    f.get r = f.get r' :=
  Field.get_congr fun _ hi => h _ (Nat.lt_of_lt_of_le (Nat.add_lt_add_left hi _) hf)

/-- The check depends on the boot node alone. -/
theorem checkBootNode_congr (h : ∀ i < BootNode.size, r i = r' i) : checkBootNode r = checkBootNode r' := by
  have hmagic : equalsMagic r = equalsMagic r' := by
    rw [Bool.eq_iff_iff]
    simp only [equalsMagic, List.all_eq_true, List.mem_range]
    exact forall₂_congr fun _ hi => by rw [h _ (Nat.lt_trans hi (by decide))]
  rw [checkBootNode, checkBootNode, strncmp_magic, strncmp_magic, hmagic,
    get_congr_inside (f := BootNode.member 3) (by decide) h,
    get_congr_inside (f := BootNode.member 4) (by decide) h,
    get_congr_inside (f := BootNode.member 5) (by decide) h]

/-- A boot node that the device holds whole is read as it is. -/
theorem readBootNode_apply (hfits : origin + BootNode.size ≤ dev.size) (hi : i < BootNode.size) :
    dev.readBootNode origin i = slice dev.bytes origin i :=
  if_pos ⟨hi, by omega⟩

/-- The command line names a device and the place to look at. -/
structure Checks (cargv : List (List UInt8)) (path : List UInt8) (origin : Nat) : Prop where
  args : kMinArgs ≤ cargv.length
  disk : getOption (buildArgs cargv) (chars ['i', 'n']) = path
  named : path ≠ []
  place : parseSigned (getOption (buildArgs cargv) (chars ['b'])) = some origin
  seek : origin < 2 ^ 63

theorem Checks.main_eq (h : Checks cargv path origin) (hopen : device path = some dev)
    (hfits : origin + BootNode.size ≤ dev.size) :
    chkMain cargv device = checkBootNode (slice dev.bytes origin) := by
  have hargs := h.args
  have hseek := h.seek
  rw [chkMain, if_neg (by omega)]
  simp only [h.disk, h.place, hopen]
  rw [if_neg h.named, if_neg (by omega)]
  exact checkBootNode_congr fun i hi => readBootNode_apply hfits hi

/-! ## Volumes of `mkfs.hefs` -/

/-- The sizes in the boot node of an accepted command line. -/
theorem main_sizes (h : main argv = some v) :
    v.bootNode.sectorSize = (signedOption argv ['s']).toUInt64 ∧
      v.bootNode.sectorCount = (v.diskSize / signedOption argv ['s']).toUInt64 ∧
      v.bootNode.badSectors = 0 ∧ v.diskSize < 2 ^ 64 := by
  simp only [main, Option.bind_eq_bind, Option.bind_eq_some_iff, Option.guard_eq_some', Option.pure_def,
    Option.some.injEq] at h
  obtain ⟨-, -, -, -, sectorSz, hs, -, -, -, -, gb, -, -, -, -, -, startInd, -, endInd, -, -, -,
    startBlock, -, endBlock, -, -, -, startIn, -, endIn, -, -, -, -, -, -, -, rfl⟩ := h
  have hsector : signedOption argv ['s'] = sectorSz := by rw [signedOption, hs, Option.getD_some]
  rw [hsector]
  exact ⟨rfl, rfl, rfl, Nat.mod_lt _ (Nat.two_pow_pos 64)⟩

/-- The boot node on the output device, where the zero at the end of the disk lies behind it. -/
theorem image_bootNode (hfits : v.start + BootNode.size < v.diskSize) (hi : i < BootNode.size) :
    slice (v.image m) v.start i = v.bootNode.bytes i := by
  rw [slice_apply, Volume.image, blit_apply_of_notMem (by omega), blit_apply_add hi]

/-- **The tools agree on the sizes of a volume.** A volume of `mkfs.hefs` whose boot node ends in front of
the last byte of the disk is called healthy exactly when the sectors have 512 bytes at least and one of them
fits on the disk, although the kernel takes none of these boot nodes. -/
theorem chk_mkfs_iff (h : main argv = some v) (hfits : v.start + BootNode.size < v.diskSize)
    (hbytes : dev.bytes = v.image m) (hsize : v.diskSize ≤ dev.size) (hc : Checks cargv path v.start)
    (hopen : device path = some dev) :
    bootValid (slice dev.bytes v.start) = false ∧
      (chkMain cargv device = .healthy ↔
        kMkFsSectorSz ≤ signedOption argv ['s'] ∧ signedOption argv ['s'] ≤ v.diskSize) := by
  have hread : ∀ i < BootNode.size, slice dev.bytes v.start i = v.bootNode.bytes i := fun i hi => by
    rw [hbytes, image_bootNode hfits hi]
  obtain ⟨hss, hsc, hbad, hdisk⟩ := main_sizes h
  obtain ⟨hgver, hgbad, hgsc, hgss, -⟩ := v.bootNode.get_bytes
  have hs0 := (main_accepted h).sector
  have hslt := signedOption_lt argv ['s']
  have hdiv : v.diskSize / signedOption argv ['s'] < 2 ^ 64 := Nat.lt_of_le_of_lt (Nat.div_le_self _ _) hdisk
  constructor
  · have hversion : HefsBootNode.fVersion.get (slice dev.bytes v.start) = 0x0101 :=
      (get_congr_inside (by decide) hread).trans (main_version h)
    rw [bootValid, hversion]
    exact Bool.and_false _
  · rw [hc.main_eq hopen (by omega), checkBootNode_congr hread, checkBootNode_iff, hgsc, hgss, hgbad, hsc, hss,
      hbad]
    have hpos : 1 ≤ v.diskSize / signedOption argv ['s'] ↔ signedOption argv ['s'] ≤ v.diskSize := by
      rw [Nat.le_div_iff_mul_le (Nat.pos_of_ne_zero hs0), Nat.one_mul]
    have hcount : (v.diskSize / signedOption argv ['s']).toUInt64.toNat = v.diskSize / signedOption argv ['s'] :=
      Nat.mod_eq_of_lt hdiv
    have hsector : (signedOption argv ['s']).toUInt64.toNat = signedOption argv ['s'] := Nat.mod_eq_of_lt hslt
    rw [hcount, hsector, hpos]
    constructor
    · rintro ⟨-, hle, hmin, -⟩
      exact ⟨hmin, hle⟩
    · rintro ⟨hmin, hle⟩
      exact ⟨main_magic h, hle, hmin, Nat.zero_le _⟩

/-- `chk.hefs -in=x -b=1024`. -/
def sampleCheck : List (List UInt8) :=
  [chars ['c', 'h', 'k', '.', 'h', 'e', 'f', 's'], chars ['-', 'i', 'n', '=', 'x'],
    chars ['-', 'b', '=', '1', '0', '2', '4']]

theorem sampleCheck_checks : Checks sampleCheck (chars ['x']) 1024 := by
  constructor <;> decide +kernel

theorem chk_mkfs_iff_sample : ∃ v, main sampleArgv = some v ∧
    (chkMain sampleCheck (fun _ => some ⟨v.image zeros, v.diskSize⟩) = .healthy ↔
      kMkFsSectorSz ≤ signedOption sampleArgv ['s'] ∧ signedOption sampleArgv ['s'] ≤ v.diskSize) := by
  obtain ⟨v, hv⟩ := Option.isSome_iff_exists.mp (show (main sampleArgv).isSome = true by decide +kernel)
  have hnum : (main sampleArgv).map (fun v => (v.start, v.diskSize)) = some (1024, 1073741824) := by
    decide +kernel
  rw [hv, Option.map_some, Option.some.injEq, Prod.mk.injEq] at hnum
  have hfits : v.start + BootNode.size < v.diskSize := by
    rw [hnum.1, hnum.2]
    decide
  have hc : Checks sampleCheck (chars ['x']) v.start := hnum.1.symm ▸ sampleCheck_checks
  exact ⟨v, hv, (chk_mkfs_iff (m := zeros) hv hfits rfl (Nat.le_refl _) hc rfl).2⟩

/-! ## Volumes of the kernel -/

/-- The operations one after another, whatever comes of each. -/
def runOps (mnt : DriveTrait) : List Op → Disk → Option Disk
  | [], d => some d
  | op :: ops, d => (exec mnt op d).bind fun r => runOps mnt ops r.2

/-- A field of the boot node that no operation counts in. -/
def Settled (f : Field) : Prop :=
  f.Inside HefsBootNode.size ∧ ∀ g ∈ [HefsBootNode.fChecksum, HefsBootNode.fINDCount, HefsBootNode.fStartIN,
    HefsBootNode.fStartBlock], f.Apart g

instance (f : Field) : Decidable (Settled f) := inferInstanceAs (Decidable (_ ∧ _))

theorem Settled.seal_nextBoot {f : Field} (hf : Settled f) :
    f.get (sealBootNode (nextBoot op r)) = f.get r := by
  have hsum : f.Apart HefsBootNode.fChecksum := hf.2 _ (by simp)
  have hdirs : f.Apart HefsBootNode.fINDCount := hf.2 _ (by simp)
  have hnodes : f.Apart HefsBootNode.fStartIN := hf.2 _ (by simp)
  have hblocks : f.Apart HefsBootNode.fStartBlock := hf.2 _ (by simp)
  rw [sealBootNode, Field.get_set_of_apart hsum]
  cases op with
  | createDir => exact Field.get_set_of_apart hdirs
  | removeDir => exact Field.get_set_of_apart hdirs
  | createFile => exact (Field.get_set_of_apart hblocks).trans (Field.get_set_of_apart hnodes)
  | deleteFile => rfl

/-- What an operation finds and keeps: the shape of the disk, and the settled fields. -/
structure Keeps (mnt : DriveTrait) (d d' : Disk) : Prop where
  shape : Shape mnt d'.bytes
  settled : ∀ f, Settled f → f.get (bootRec mnt d'.bytes) = f.get (bootRec mnt d.bytes)

theorem Keeps.trans {d'' : Disk} (h : Keeps mnt d d') (h' : Keeps mnt d' d'') : Keeps mnt d d'' :=
  ⟨h'.shape, fun f hf => (h'.settled f hf).trans (h.settled f hf)⟩

/-- **One operation** comes to an end and keeps the settled fields. -/
theorem exec_keeps (hr : Roomy mnt) (hs : Shape mnt d.bytes) (op : Op) :
    ∃ r d', exec mnt op d = some (r, d') ∧ Keeps mnt d d' := by
  rcases exec_cases hr hs op with ⟨-, e, -, hexec⟩ | ⟨-, w, d', hw, hexec, hbal⟩
  · exact ⟨false, d.setErr e, hexec, hs, fun _ _ => rfl⟩
  · refine ⟨true, d', hexec, hbal.bytes.shape hr (hw.shape hr hs), fun f hf => ?_⟩
    calc f.get (bootRec mnt d'.bytes)
        = f.get (sealBootNode (nextBoot op (bootRec mnt d.bytes))) := by
          apply get_congr_inside hf.1
          exact fun i hi => (hbal.bytes.bootRec_apply hr hi).trans (hw.boot_bytes hs i hi)
      _ = f.get (bootRec mnt d.bytes) := hf.seal_nextBoot

/-- **A run** of operations does too. -/
theorem runOps_keeps (hr : Roomy mnt) (ops : List Op) (hs : Shape mnt d.bytes) :
    ∃ d', runOps mnt ops d = some d' ∧ Keeps mnt d d' := by
  induction ops generalizing d with
  | nil => exact ⟨d, rfl, hs, fun _ _ => rfl⟩
  | cons op ops ih =>
      obtain ⟨r, d₁, hexec, hkeep⟩ := exec_keeps hr hs op
      obtain ⟨d₂, hrun, hrest⟩ := ih hkeep.shape
      refine ⟨d₂, ?_, hkeep.trans hrest⟩
      rw [runOps, hexec, Option.bind_some, hrun]

theorem createDefaults_eq_runOps (dirs : List (List UInt8)) : createDefaults mnt d dirs =
    runOps mnt (dirs.map fun dir => .createDir kOpenHeFSEncodingFlagsUTF8 dir) d := by
  induction dirs generalizing d with
  | nil => rfl
  | cons dir dirs ih =>
      rw [createDefaults, List.map_cons, runOps]
      exact congrArg _ (funext fun r => ih)

/-- The sizes `Format` writes. -/
theorem formatBootNode_sizes (hr : Roomy mnt) (flags : Nat) (volName : List UInt8) (boot : Store) :
    HefsBootNode.fSectorCount.get (formatBootNode mnt flags volName boot) = mnt.sectorCount % 2 ^ 64 ∧
      HefsBootNode.fSectorSize.get (formatBootNode mnt flags volName boot) = mnt.fSectorSz ∧
      HefsBootNode.fBadSectors.get (formatBootNode mnt flags volName boot) = 0 := by
  have hsector : mnt.fSectorSz < 2 ^ 64 := by
    -- a drive with room for directories has sectors no larger than itself
    by_contra hlarge
    have hnone : mnt.size / mnt.fSectorSz = 0 := Nat.div_eq_of_lt (Nat.lt_of_lt_of_le hr.size (Nat.not_lt.mp hlarge))
    have hslots := hr.slots
    rw [lastSlot, dirMax, hnone] at hslots
    exact absurd hslots (by decide)
  refine ⟨?_, ?_, ?_⟩ <;> simp only [formatBootNode, sealBootNode] <;>
    simp (disch := decide) only [Field.get_set_of_apart, Field.get_set_same]
  · rfl
  · exact Nat.mod_eq_of_lt hsector
  · rfl

/-- **A volume of the kernel** is healthy at every moment of its use or at none: after `Format` of a blank
drive and whatever operations, the kernel knows the boot node, and the check finds it healthy exactly when
the drive counts a sector and the sectors have 512 bytes at least. -/
theorem chk_formatted_iff (hr : Roomy mnt) (hb : Blank mnt d.bytes) (flags : Nat) (volName : List UInt8) :
    ∃ d₀, format mnt d flags volName = some (true, d₀) ∧
      ∀ ops, ∃ d', runOps mnt ops d₀ = some d' ∧ bootValid (bootRec mnt d'.bytes) = true ∧
        ∀ cargv path device size, Checks cargv path mnt.fLbaStart → device path = some ⟨d'.bytes, size⟩ →
          mnt.fLbaStart + BootNode.size ≤ size →
          (chkMain cargv device = .healthy ↔ 1 ≤ mnt.sectorCount % 2 ^ 64 ∧ kMkFsSectorSz ≤ mnt.fSectorSz) := by
  obtain ⟨d₁, hrun₁, hkeep₁⟩ := runOps_keeps hr
    (kFileMap.map fun dir => .createDir kOpenHeFSEncodingFlagsUTF8 dir)
    (withBootNode_started hr hb flags volName).shape
  refine ⟨d₁.setErr kErrorSuccess, ?_, fun ops => ?_⟩
  · rw [format_eq hr hb, createDefaults_eq_runOps, hrun₁]
    rfl
  · obtain ⟨d', hrun, hkeep⟩ := runOps_keeps (d := d₁.setErr kErrorSuccess) hr ops hkeep₁.shape
    have hvalid := hkeep.shape.boot.valid
    refine ⟨d', hrun, hvalid, fun cargv path device size hc hopen hfits => ?_⟩
    obtain ⟨hsc, hss, hbad⟩ := formatBootNode_sizes hr flags volName (d.fInput mnt.fLbaStart)
    have hget : ∀ f, Settled f → f.get (slice d'.bytes mnt.fLbaStart) =
        f.get (formatBootNode mnt flags volName (d.fInput mnt.fLbaStart)) := by
      intro f hf
      calc f.get (bootRec mnt d'.bytes)
          = f.get (bootRec mnt d₁.bytes) := hkeep.settled f hf
        _ = f.get (bootRec mnt (withBootNode mnt d flags volName).bytes) := hkeep₁.settled f hf
        _ = f.get (formatBootNode mnt flags volName (d.fInput mnt.fLbaStart)) :=
            get_congr_inside hf.1 fun i hi => bootRec_blit_same hi
    have hmagic : equalsMagic (slice d'.bytes mnt.fLbaStart) = true := (Bool.and_eq_true _ _ ▸ hvalid).1
    rw [hc.main_eq hopen hfits, checkBootNode_iff, hget _ (by decide), hget _ (by decide), hget _ (by decide),
      hsc, hss, hbad]
    constructor
    · rintro ⟨-, hcount, hsize, -⟩
      exact ⟨hcount, hsize⟩
    · rintro ⟨hcount, hsize⟩
      exact ⟨hmagic, hcount, hsize, Nat.zero_le _⟩

theorem chk_formatted_iff_gib : ∃ d₀, format gibDrive blankDisk 0x50 [] = some (true, d₀) ∧
    ∀ ops, ∃ d', runOps gibDrive ops d₀ = some d' ∧
      chkMain sampleCheck (fun _ => some ⟨d'.bytes, 2 ^ 30⟩) = .healthy := by
  obtain ⟨d₀, hformat, hall⟩ := chk_formatted_iff gibDrive_roomy blankDisk_blank 0x50 []
  refine ⟨d₀, hformat, fun ops => ?_⟩
  obtain ⟨d', hrun, -, hcheck⟩ := hall ops
  exact ⟨d', hrun, (hcheck _ _ _ _ sampleCheck_checks rfl (by decide)).mpr (by decide)⟩

end NeKernel.Tools
