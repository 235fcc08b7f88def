import NeKernel.FS.Regions

/-!
# `mkfs.hefs`

The tool that makes an OpenHeFS volume: how it reads its options, the boot node it fills in, and
where it writes it. The tool has its own packed structure for the boot node, with its own copies
of the constants. `decode` reads a boot node the way the kernel does, through the fields of
`HEFS_BOOT_NODE`.

Every field comes out as the tool put it in (`decode_bytes`), the magic included. The version does
not: the tool's `kOpenHeFSVersion` is not the kernel's, so the kernel takes no volume of the tool
for one of its own.
-/

namespace NeKernel.Tools

open ByteStore FS Detail HeFileSystemParser

/-! ## The boot node of the tool -/

/-- `kOpenHeFSVersion` of the tool. -/
def kVersion : UInt32 := 0x0101

def kOpenHeFSPartNameLen : Nat := 128
def kOpenHeFSHardDrive : UInt8 := 0xC0

/-- `u8"OpenHeFS Volume"`. -/
def kOpenHeFSDefaultVolumeName : List UInt8 :=
  [0x4F, 0x70, 0x65, 0x6E, 0x48, 0x65, 0x46, 0x53, 0x20, 0x56, 0x6F, 0x6C, 0x75, 0x6D, 0x65]

/-- `mkfs::hefs::BootNode`. -/
@[ext] structure BootNode where
  magic : Fin 9 → UInt8
  volumeName : Fin 128 → UInt8
  version : UInt32
  badSectors : UInt64
  sectorCount : UInt64
  sectorSize : UInt64
  checksum : UInt32
  diskKind : UInt8
  encoding : UInt8
  startIND : UInt64
  endIND : UInt64
  indCount : UInt64
  diskSize : UInt64
  diskStatus : UInt16
  diskFlags : UInt16
  vid : UInt16
  startIN : UInt64
  endIN : UInt64
  startBlock : UInt64
  endBlock : UInt64

namespace BootNode

/-- The widths of the members in the order of their declaration, the pad last. -/
def widths : List Nat :=
  [9, 128, 4, 8, 8, 8, 4, 1, 1, 8, 8, 8, 8, 2, 2, 2, 8, 8, 8, 8, 272]

/-- The place of a member in the packed structure. -/
def member (i : Nat) : Field := ⟨(widths.take i).sum, widths.getD i 0⟩

/-- `sizeof(BootNode)`. -/
def size : Nat := widths.sum

/-- The bytes of the structure. -/
def bytes (b : BootNode) : Store :=
  let r := blit zeros (member 0).off 9 fun i => if h : i < 9 then b.magic ⟨i, h⟩ else 0
  let r := blit r (member 1).off 128 fun i => if h : i < 128 then b.volumeName ⟨i, h⟩ else 0
  let r := (member 2).set b.version.toNat r
  let r := (member 3).set b.badSectors.toNat r
  let r := (member 4).set b.sectorCount.toNat r
  let r := (member 5).set b.sectorSize.toNat r
  let r := (member 6).set b.checksum.toNat r
  let r := (member 7).set b.diskKind.toNat r
  let r := (member 8).set b.encoding.toNat r
  let r := (member 9).set b.startIND.toNat r
  let r := (member 10).set b.endIND.toNat r
  let r := (member 11).set b.indCount.toNat r
  let r := (member 12).set b.diskSize.toNat r
  let r := (member 13).set b.diskStatus.toNat r
  let r := (member 14).set b.diskFlags.toNat r
  let r := (member 15).set b.vid.toNat r
  let r := (member 16).set b.startIN.toNat r
  let r := (member 17).set b.endIN.toNat r
  let r := (member 18).set b.startBlock.toNat r
  (member 19).set b.endBlock.toNat r

/-- What the kernel reads in the bytes of a boot node, by the fields of `HEFS_BOOT_NODE`. -/
def decode (r : Store) : BootNode where
  magic i := r i
  volumeName i := r (HefsBootNode.fVolName + i)
  version := (HefsBootNode.fVersion.get r).toUInt32
  badSectors := (HefsBootNode.fBadSectors.get r).toUInt64
  sectorCount := (HefsBootNode.fSectorCount.get r).toUInt64
  sectorSize := (HefsBootNode.fSectorSize.get r).toUInt64
  checksum := (HefsBootNode.fChecksum.get r).toUInt32
  diskKind := (HefsBootNode.fDiskKind.get r).toUInt8
  encoding := (HefsBootNode.fEncoding.get r).toUInt8
  startIND := (HefsBootNode.fStartIND.get r).toUInt64
  endIND := (HefsBootNode.fEndIND.get r).toUInt64
  indCount := (HefsBootNode.fINDCount.get r).toUInt64
  diskSize := (HefsBootNode.fDiskSize.get r).toUInt64
  diskStatus := (HefsBootNode.fDiskStatus.get r).toUInt16
  diskFlags := (HefsBootNode.fDiskFlags.get r).toUInt16
  vid := (HefsBootNode.fVID.get r).toUInt16
  startIN := (HefsBootNode.fStartIN.get r).toUInt64
  endIN := (HefsBootNode.fEndIN.get r).toUInt64
  startBlock := (HefsBootNode.fStartBlock.get r).toUInt64
  endBlock := (HefsBootNode.fEndBlock.get r).toUInt64

/-- The members of the tool's structure lie where the kernel has its fields. -/
theorem layout :
    member 2 = HefsBootNode.fVersion ∧ member 3 = HefsBootNode.fBadSectors ∧
    member 4 = HefsBootNode.fSectorCount ∧ member 5 = HefsBootNode.fSectorSize ∧
    member 6 = HefsBootNode.fChecksum ∧ member 7 = HefsBootNode.fDiskKind ∧
    member 8 = HefsBootNode.fEncoding ∧ member 9 = HefsBootNode.fStartIND ∧
    member 10 = HefsBootNode.fEndIND ∧ member 11 = HefsBootNode.fINDCount ∧
    member 12 = HefsBootNode.fDiskSize ∧ member 13 = HefsBootNode.fDiskStatus ∧
    member 14 = HefsBootNode.fDiskFlags ∧ member 15 = HefsBootNode.fVID ∧
    member 16 = HefsBootNode.fStartIN ∧ member 17 = HefsBootNode.fEndIN ∧
    member 18 = HefsBootNode.fStartBlock ∧ member 19 = HefsBootNode.fEndBlock := by
  refine ⟨?_, ?_, ?_, ?_, ?_, ?_, ?_, ?_, ?_, ?_, ?_, ?_, ?_, ?_, ?_, ?_, ?_, ?_⟩ <;> rfl

/-- Setting a member leaves the bytes in front of it alone. -/
theorem set_below {f : Field} {v k : Nat} {r : Store} (hk : k < f.off) : f.set v r k = r k :=
  Field.set_apply (.inl hk)

/-- The bytes in front of the version. -/
theorem bytes_low (b : BootNode) {k : Nat} (hk : k < 137) :
    b.bytes k = if h : k < 9 then b.magic ⟨k, h⟩
      else if h : k - 9 < 128 then b.volumeName ⟨k - 9, h⟩ else 0 := by
  have low : ∀ {f : Field} {v : Nat} {r : Store}, 137 ≤ f.off → f.set v r k = r k :=
    fun hf => set_below (by omega)
  simp only [bytes]
  iterate 18 rw [low (by decide)]
  have h₀ : (member 0).off = 0 := rfl
  have h₁ : (member 1).off = 9 := rfl
  rw [h₀, h₁]
  by_cases h : k < 9
  · rw [blit_apply_of_notMem (.inl h), blit_apply_of_mem (Nat.zero_le k) (by omega), dif_pos h]
    simp only [Nat.sub_zero, h, dif_pos]
  · rw [blit_apply_of_mem (by omega) (by omega), dif_neg h]

/-- The fields of the kernel in the bytes of the tool. -/
theorem get_bytes (b : BootNode) :
    HefsBootNode.fVersion.get b.bytes = b.version.toNat ∧
    HefsBootNode.fBadSectors.get b.bytes = b.badSectors.toNat ∧
    HefsBootNode.fSectorCount.get b.bytes = b.sectorCount.toNat ∧
    HefsBootNode.fSectorSize.get b.bytes = b.sectorSize.toNat ∧
    HefsBootNode.fChecksum.get b.bytes = b.checksum.toNat ∧
    HefsBootNode.fDiskKind.get b.bytes = b.diskKind.toNat ∧
    HefsBootNode.fEncoding.get b.bytes = b.encoding.toNat ∧
    HefsBootNode.fStartIND.get b.bytes = b.startIND.toNat ∧
    HefsBootNode.fEndIND.get b.bytes = b.endIND.toNat ∧
    HefsBootNode.fINDCount.get b.bytes = b.indCount.toNat ∧
    HefsBootNode.fDiskSize.get b.bytes = b.diskSize.toNat ∧
    HefsBootNode.fDiskStatus.get b.bytes = b.diskStatus.toNat ∧
    HefsBootNode.fDiskFlags.get b.bytes = b.diskFlags.toNat ∧
    HefsBootNode.fVID.get b.bytes = b.vid.toNat ∧
    HefsBootNode.fStartIN.get b.bytes = b.startIN.toNat ∧
    HefsBootNode.fEndIN.get b.bytes = b.endIN.toNat ∧
    HefsBootNode.fStartBlock.get b.bytes = b.startBlock.toNat ∧
    HefsBootNode.fEndBlock.get b.bytes = b.endBlock.toNat := by
  have one : ∀ v : UInt8, v.toNat % 256 ^ 1 = v.toNat := fun v => Nat.mod_eq_of_lt v.toNat_lt
  have two : ∀ v : UInt16, v.toNat % 256 ^ 2 = v.toNat := fun v => Nat.mod_eq_of_lt v.toNat_lt
  have four : ∀ v : UInt32, v.toNat % 256 ^ 4 = v.toNat := fun v => Nat.mod_eq_of_lt v.toNat_lt
  have eight : ∀ v : UInt64, v.toNat % 256 ^ 8 = v.toNat := fun v => Nat.mod_eq_of_lt v.toNat_lt
  obtain ⟨h₂, h₃, h₄, h₅, h₆, h₇, h₈, h₉, h₁₀, h₁₁, h₁₂, h₁₃, h₁₄, h₁₅, h₁₆, h₁₇, h₁₈, h₁₉⟩ := layout
  simp only [bytes, h₂, h₃, h₄, h₅, h₆, h₇, h₈, h₉, h₁₀, h₁₁, h₁₂, h₁₃, h₁₄, h₁₅, h₁₆, h₁₇, h₁₈, h₁₉]
  refine ⟨?_, ?_, ?_, ?_, ?_, ?_, ?_, ?_, ?_, ?_, ?_, ?_, ?_, ?_, ?_, ?_, ?_, ?_⟩ <;>
    simp (disch := decide) only [Field.get_set_of_apart, Field.get_set_same]
  · exact four _
  · exact eight _
  · exact eight _
  · exact eight _
  · exact four _
  · exact one _
  · exact one _
  · exact eight _
  · exact eight _
  · exact eight _
  · exact eight _
  · exact two _
  · exact two _
  · exact two _
  · exact eight _
  · exact eight _
  · exact eight _
  · exact eight _

/-- **The layouts agree**: the kernel reads in every field what the tool has put there. -/
theorem decode_bytes (b : BootNode) : decode b.bytes = b := by
  have hmagic : ∀ i : Fin 9, b.bytes i = b.magic i := fun i => by
    rw [bytes_low b (by omega), dif_pos i.isLt]
  have hname : ∀ i : Fin 128, b.bytes (HefsBootNode.fVolName + i) = b.volumeName i := fun i => by
    have hi : HefsBootNode.fVolName + (i : Nat) - 9 = i := Nat.add_sub_cancel_left 9 i
    rw [bytes_low b (by simp only [HefsBootNode.fVolName]; omega),
      dif_neg (by simp only [HefsBootNode.fVolName]; omega), dif_pos (by rw [hi]; exact i.isLt)]
    simp only [hi]
  obtain ⟨h₂, h₃, h₄, h₅, h₆, h₇, h₈, h₉, h₁₀, h₁₁, h₁₂, h₁₃, h₁₄, h₁₅, h₁₆, h₁₇, h₁₈, h₁₉⟩ :=
    get_bytes b
  simp only [decode, hmagic, hname, h₂, h₃, h₄, h₅, h₆, h₇, h₈, h₉, h₁₀, h₁₁, h₁₂, h₁₃, h₁₄, h₁₅, h₁₆,
    h₁₇, h₁₈, h₁₉, Nat.toUInt8_eq, Nat.toUInt16_eq, Nat.toUInt32_eq, Nat.toUInt64_eq,
    UInt8.ofNat_toNat, UInt16.ofNat_toNat, UInt32.ofNat_toNat, UInt64.ofNat_toNat]

end BootNode

/-! ## Options

A string of the command line is the list of its characters. `errno` is zero until a conversion
fails, and then the tool ends. -/

/-- The characters of a literal. -/
def chars (cs : List Char) : List UInt8 := cs.map fun c => c.toNat.toUInt8

def buildArgs (argv : List (List UInt8)) : List UInt8 :=
  (argv.drop 1).flatMap fun arg => arg ++ chars [' ']

/-- What follows the first occurrence of `pat`. -/
def behind (pat : List UInt8) : List UInt8 → Option (List UInt8)
  | [] => if pat.isEmpty then some [] else none
  | c :: s => if pat.isPrefixOf (c :: s) then some ((c :: s).drop pat.length) else behind pat s

/-- The value of an option, up to the next blank; without one it is empty. -/
def getOption (args option : List UInt8) : List UInt8 :=
  match behind (chars ['-'] ++ option ++ chars ['=']) args with
  | some rest => if rest.any (· == 0x20) then rest.takeWhile (· != 0x20) else []
  | none => []

def isSpace (c : UInt8) : Bool := c == 0x20 || (0x09 ≤ c && c ≤ 0x0D)

def isDigit (c : UInt8) : Bool := 0x30 ≤ c && c ≤ 0x39

/-- How `strtol` and `strtoull` read a string in base ten: the sign and the digits, if nothing
else follows. -/
def strto (opt : List UInt8) : Option (Bool × Nat) :=
  let s := opt.dropWhile isSpace
  let r : Bool × List UInt8 :=
    match s with
    | 0x2D :: s => (true, s)
    | 0x2B :: s => (false, s)
    | s => (false, s)
  if r.2.isEmpty || !r.2.all isDigit then none
  else some (r.1, r.2.foldl (fun n c => n * 10 + (c - 0x30).toNat) 0)

/-- A number as the unsigned type holds it. -/
def unsigned (neg : Bool) (n : Nat) : Nat := if neg then u64 (2 ^ 64 - u64 n) else u64 n

/-- `parse_decimal`: a number out of range becomes the largest. -/
def parseDecimal (opt : List UInt8) : Option Nat :=
  (strto opt).map fun r => if 2 ^ 64 ≤ r.2 then 2 ^ 64 - 1 else unsigned r.1 r.2

/-- `parse_signed`: nothing is zero, and a number out of range is refused. -/
def parseSigned (opt : List UInt8) : Option Nat :=
  if opt.isEmpty then some 0
  else
    (strto opt).bind fun r =>
      if (if r.1 then 2 ^ 63 < r.2 else 2 ^ 63 ≤ r.2) then none else some (unsigned r.1 r.2)

/-! ## The tool -/

/-- What the tool has written: the boot node, from `start` on, and the size of the disk. -/
structure Volume where
  outputPath : List UInt8
  start : Nat
  bootNode : BootNode
  diskSize : Nat

/-- The label as it is copied into the boot node. -/
def volumeName (label : List UInt8) : Fin 128 → UInt8 :=
  fun i => if (i : Nat) < min label.length (kOpenHeFSPartNameLen - 1) then label.getD i 0 else 0

/-- The boot node `main` fills in. -/
def makeBootNode (label : List UInt8) (diskSize sectorSz startInd endInd startIn endIn startBlock
    endBlock : Nat) : BootNode where
  magic i := kOpenHeFSMagic.getD i 0
  volumeName := volumeName label
  version := kVersion
  badSectors := 0
  sectorCount := (diskSize / sectorSz).toUInt64
  sectorSize := sectorSz.toUInt64
  checksum := 0
  diskKind := kOpenHeFSHardDrive
  encoding := kOpenHeFSEncodingFlagsUTF8.toUInt8
  startIND := (startInd + BootNode.size).toUInt64
  endIND := endInd.toUInt64
  indCount := 0
  diskSize := diskSize.toUInt64
  diskStatus := kOpenHeFSStatusUnlocked.toUInt16
  diskFlags := 0
  vid := 0
  startIN := startIn.toUInt64
  endIN := endIn.toUInt64
  startBlock := startBlock.toUInt64
  endBlock := endBlock.toUInt64

/-- `main`, on an output device that takes every write: the volume, if the options are accepted. A
`seekp` to a negative offset fails. -/
def main (argv : List (List UInt8)) : Option Volume := do
  guard (argv.length = 10)
  let args := buildArgs argv
  let outputPath := getOption args (chars ['o'])
  guard (outputPath ≠ [])
  let sectorSz ← parseSigned (getOption args (chars ['s']))
  guard (sectorSz ≠ 0)
  guard (sectorSz &&& (sectorSz - 1) = 0)
  let optL := getOption args (chars ['L'])
  let label := if optL = [] then kOpenHeFSDefaultVolumeName else optL
  let gb ← parseDecimal (getOption args (chars ['S']))
  guard (gb ≠ 0)
  guard (gb ≤ (2 ^ 64 - 1) / (1024 * 1024 * 1024))
  let diskSize := u64 (gb * 1024 * 1024 * 1024)
  let startInd ← parseSigned (getOption args (chars ['b']))
  let endInd ← parseSigned (getOption args (chars ['e']))
  guard (startInd < endInd)
  let startBlock ← parseSigned (getOption args (chars ['b', 's']))
  let endBlock ← parseSigned (getOption args (chars ['b', 'e']))
  guard (startBlock < endBlock)
  let startIn ← parseSigned (getOption args (chars ['i', 's']))
  let endIn ← parseSigned (getOption args (chars ['i', 'e']))
  guard (startIn < endIn)
  guard (u64 (endBlock * sectorSz) ≤ diskSize ∧ endInd ≤ diskSize ∧ endIn ≤ diskSize)
  guard (startInd < 2 ^ 63 ∧ diskSize - 1 < 2 ^ 63)
  pure {
    outputPath
    start := startInd
    bootNode := makeBootNode label diskSize sectorSz startInd endInd startIn endIn startBlock endBlock
    diskSize }

/-- The output device afterwards: the boot node, and a zero at the end of the disk. -/
def Volume.image (v : Volume) (m : Store) : Store :=
  blit (blit m v.start BootNode.size v.bootNode.bytes) (v.diskSize - 1) 1 zeros

/-! ## What the kernel makes of it -/

variable {argv : List (List UInt8)} {v : Volume} {m : Store} {mnt : DriveTrait} {d d' : Disk}

/-- The boot node of an accepted command line has the magic and the version of the tool. -/
theorem main_bootNode (h : main argv = some v) :
    (∀ i, v.bootNode.magic i = kOpenHeFSMagic.getD i 0) ∧ v.bootNode.version = kVersion := by
  have hmake : ∃ label a b c d e f g k,
      v.bootNode = makeBootNode label a b c d e f g k := by
    simp only [main, Option.bind_eq_bind, Option.bind_eq_some_iff] at h
    obtain ⟨-, -, -, -, sectorSz, -, -, -, -, -, gb, -, -, -, -, -, startInd, -, endInd, -, -, -,
      startBlock, -, endBlock, -, -, -, startIn, -, endIn, -, -, -, -, -, -, -, hv⟩ := h
    cases hv
    exact ⟨_, _, _, _, _, _, _, _, _, rfl⟩
  obtain ⟨label, a, b, c, d, e, f, g, k, hb⟩ := hmake
  rw [hb]
  exact ⟨fun _ => rfl, rfl⟩

/-- The kernel finds its magic in the boot node, and a version that is not its own. -/
theorem main_magic (h : main argv = some v) : equalsMagic v.bootNode.bytes = true := by
  unfold equalsMagic
  rw [List.all_eq_true]
  intro i hi
  have hi : i < 9 := List.mem_range.mp hi
  rw [v.bootNode.bytes_low (by omega), dif_pos hi, (main_bootNode h).1]
  exact beq_self_eq_true _

theorem main_version (h : main argv = some v) :
    HefsBootNode.fVersion.get v.bootNode.bytes = 0x0101 := by
  rw [v.bootNode.get_bytes.1, (main_bootNode h).2]
  rfl

theorem main_not_valid (h : main argv = some v) : bootValid v.bootNode.bytes = false := by
  rw [bootValid, main_version h]
  exact Bool.and_false _

/-- The zero at the end of the disk does not make another version of it. -/
theorem image_not_valid (h : main argv = some v) (hstart : mnt.fLbaStart = v.start) :
    bootValid (bootRec mnt (v.image m)) = false := by
  by_contra hvalid
  rw [Bool.not_eq_false, bootValid, Bool.and_eq_true] at hvalid
  have hread : HefsBootNode.fVersion.get (bootRec mnt (v.image m)) = kOpenHeFSVersion :=
    of_decide_eq_true hvalid.2
  have hwritten := main_version h
  have hread : (bootRec mnt (v.image m) 137).toNat +
      256 * getLE (bootRec mnt (v.image m)) 138 3 = 0x0104 := hread
  have hwritten : (v.bootNode.bytes 137).toNat + 256 * getLE v.bootNode.bytes 138 3 = 0x0101 :=
    hwritten
  have hbyte : bootRec mnt (v.image m) 137 = v.bootNode.bytes 137 ∨
      bootRec mnt (v.image m) 137 = 0 := by
    rw [bootRec, slice_apply, Volume.image, hstart]
    by_cases hlast : v.diskSize - 1 = v.start + 137
    · rw [hlast, blit_apply_of_mem (Nat.le_refl _) (Nat.lt_succ_self _)]
      exact .inr rfl
    · rw [blit_apply_of_notMem (by omega),
        blit_apply_of_mem (by omega) (by rw [show BootNode.size = 513 from rfl]; omega),
        Nat.add_sub_cancel_left]
      exact .inl rfl
  have h₁ := (bootRec mnt (v.image m) 137).toNat_lt
  have h₂ := (v.bootNode.bytes 137).toNat_lt
  rcases hbyte with hbyte | hbyte
  · rw [hbyte] at hread
    omega
  · rw [hbyte, UInt8.toNat_zero] at hread
    omega

/-- **Volumes of the tool.** For every command line `mkfs.hefs` accepts, the kernel reads every
field of the boot node as the tool wrote it, and finds its magic; but it never takes the version
for its own, so no operation on a volume that holds the boot node does anything. -/
theorem mkfs_volume_refused (h : main argv = some v) :
    BootNode.decode v.bootNode.bytes = v.bootNode ∧ equalsMagic v.bootNode.bytes = true ∧
      bootValid v.bootNode.bytes = false ∧
      ∀ m mnt d op res d', mnt.fLbaStart = v.start → d.bytes = v.image m →
        exec mnt op d = some (res, d') → d'.bytes = d.bytes ∧ d'.packets = d.packets := by
  refine ⟨v.bootNode.decode_bytes, main_magic h, main_not_valid h, ?_⟩
  intro m mnt d op res d' hstart hd hexec
  have hinvalid : bootValid (bootRec mnt d.bytes) = false := hd ▸ image_not_valid h hstart
  have hidle : ¬ Finds mnt d op := by
    intro hf
    have hvalid : bootValid (bootRec mnt d.bytes) = true := by
      cases op with
      | createDir flags dir => exact hf.2.1
      | removeDir flags dir => exact hf.2.1
      | createFile flags dir name kind => exact hf.2.1
      | deleteFile flags dir name kind => exact hf.2.1
    rw [hinvalid] at hvalid
    cases hvalid
  have hquiet := quiet_step hidle hexec
  exact ⟨hquiet.bytes, hquiet.packets⟩

/-- `mkfs.hefs -s=512 -b=1024 -e=4096 -bs=32 -be=64 -is=4096 -ie=8192 -S=1 -o=x`. -/
def sampleArgv : List (List UInt8) :=
  [chars ['m', 'k', 'f', 's', '.', 'h', 'e', 'f', 's'], chars ['-', 's', '=', '5', '1', '2'],
    chars ['-', 'b', '=', '1', '0', '2', '4'], chars ['-', 'e', '=', '4', '0', '9', '6'],
    chars ['-', 'b', 's', '=', '3', '2'], chars ['-', 'b', 'e', '=', '6', '4'],
    chars ['-', 'i', 's', '=', '4', '0', '9', '6'], chars ['-', 'i', 'e', '=', '8', '1', '9', '2'],
    chars ['-', 'S', '=', '1'], chars ['-', 'o', '=', 'x']]

theorem mkfs_volume_refused_sample :
    ∃ v, main sampleArgv = some v ∧ bootValid v.bootNode.bytes = false := by
  obtain ⟨v, hv⟩ := Option.isSome_iff_exists.mp (show (main sampleArgv).isSome = true by
    decide +kernel)
  exact ⟨v, hv, (mkfs_volume_refused hv).2.2.1⟩

/-- The tool accepts a command line, and the kernel refuses the boot node. -/
theorem mkfs_version_differs :
    (main sampleArgv).map (fun v => bootValid v.bootNode.bytes) = some false := by
  decide +kernel

end NeKernel.Tools
