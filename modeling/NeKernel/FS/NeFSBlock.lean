import NeKernel.FS.NeFSSteps
import NeKernel.Lib.Runs

/-!
# The partition block

Where the operations look for the partition block, and what the counters in it are worth. `Format`
writes the block where the drive starts, the operations transfer it at a fixed LBA. A creation
takes one from `FreeCatalog` and the sectors of a record from `FreeSectors`; a removal gives
neither back.
-/

namespace NeKernel.NeFS

open ByteStore Scan Runs

variable {drv : DriveTrait} {m m' : Store} {d d' d₀ : Disk} {name partName : CString}
  {flags kind n lba outLba startFree : Nat}

/-! ## The place of the block -/

/-- Every partition block transferred from `d` to `d'` was transferred at `lba`. -/
def WorksAt (lba : Nat) (d d' : Disk) : Prop :=
  ∃ ls, d'.blockLbas = ls ++ d.blockLbas ∧ ∀ l ∈ ls, l = lba

/-- An operation works at one LBA only, and that is where the drive starts for drives that start
there. -/
theorem run_worksAt_iff {c : Call} (h : c.run drv d = some d') :
    WorksAt drv.fLbaStart d d' ↔
      (drv.fLbaStart = kNeFSRootCatalogStartAddress ∨ ¬ c.reachesBlock) := by
  obtain ⟨n, hn, hpos⟩ := Call.run_touches h
  constructor
  · rintro ⟨ls, hls, hat⟩
    by_contra hno
    obtain ⟨hstart, hreach⟩ := not_or.mp hno
    have hn' : 0 < n := hpos.mpr (not_not.mp hreach)
    obtain rfl : ls = List.replicate n kNeFSRootCatalogStartAddress :=
      List.append_cancel_right (hls.symm.trans hn)
    exact hstart (hat _ (List.mem_replicate.mpr ⟨by omega, rfl⟩)).symm
  · intro hor
    refine ⟨_, hn, fun l hl => ?_⟩
    obtain ⟨hn', rfl⟩ := List.mem_replicate.mp hl
    rcases hor with hstart | hno
    · exact hstart.symm
    · exact absurd (hpos.mp (by omega)) hno

/-- `catalogEntries` of `Format`. -/
def catalogEntries (drv : DriveTrait) : Nat :=
  u64 (drv.sectorCount * drv.fSectorSz) / NefsCatalogStruct.size

/-- The block holds what `Format` records of the drive's catalogs. -/
structure Recorded (drv : DriveTrait) (block : Store) : Prop where
  start : NefsRootPartitionBlock.startCatalog.get block =
    u64 (drv.fLbaStart + catalogSectors drv.fSectorSz)
  count : NefsRootPartitionBlock.catalogCount.get block = catalogEntries drv
  free : NefsRootPartitionBlock.freeCatalog.get block = u64 (catalogEntries drv + 2 ^ 64 - 1)
  sectors : NefsRootPartitionBlock.freeSectors.get block =
    u64 (drv.sectorCount + 2 ^ 64 - catalogSectors drv.fSectorSz)
  diskSize : NefsRootPartitionBlock.diskSize.get block = u64 (drv.sectorCount * drv.fSectorSz)

theorem catalogEntries_lt (drv : DriveTrait) : catalogEntries drv < 2 ^ 55 := by
  have h : u64 (drv.sectorCount * drv.fSectorSz) < 2 ^ 64 := u64_lt _
  unfold catalogEntries
  show _ / 535 < _
  omega

theorem formattedBlock_recorded (drv : DriveTrait) (partName : CString) (block : Store) :
    Recorded drv (formattedBlock drv partName block) := by
  have hmod (x : Nat) : u64 x % 256 ^ 8 = u64 x := Nat.mod_eq_of_lt (u64_lt x)
  have hent : catalogEntries drv % 256 ^ 8 = catalogEntries drv :=
    Nat.mod_eq_of_lt (by have := catalogEntries_lt drv; omega)
  constructor <;> unfold formattedBlock <;>
    simp (disch := decide) only [Field.get_set_of_apart, Field.get_set_same] <;>
    first | exact hmod _ | exact hent

/-- The drive when `Format` has written it: it carried no partition block before. -/
structure Formatted (drv : DriveTrait) (partName : CString) (d₀ d : Disk) : Prop where
  fresh : hasIdent (d₀.fInput drv drv.fLbaStart) = false
  format : format drv partName d₀ = some (true, d)

theorem Formatted.bytes (h : Formatted drv partName d₀ d) :
    d.bytes = blit d₀.bytes (drv.fAddress drv.fLbaStart) NefsRootPartitionBlock.size
      (formattedBlock drv partName (d₀.fInput drv drv.fLbaStart)) := by
  have hf := h.format
  have hi : hasIdent (d₀.inputBlock drv drv.fLbaStart).1 = false := h.fresh
  unfold NeFS.format at hf
  simp only [hi, Bool.false_eq_true, if_false] at hf
  split at hf
  · cases hf
  split at hf
  · cases hf
  · cases hf
    rfl

/-- A field of the block is read back as `Format` wrote it. -/
theorem Formatted.get (h : Formatted drv partName d₀ d) {f : Field}
    (hf : f.off + f.width ≤ NefsRootPartitionBlock.size) :
    f.get (d.fInput drv drv.fLbaStart) =
      f.get (formattedBlock drv partName (d₀.fInput drv drv.fLbaStart)) := by
  show f.get (slice d.bytes _) = _
  rw [h.bytes]
  exact Field.get_slice_blit_same hf

theorem Formatted.recorded (h : Formatted drv partName d₀ d) :
    Recorded drv (d.fInput drv drv.fLbaStart) := by
  have hr := formattedBlock_recorded drv partName (d₀.fInput drv drv.fLbaStart)
  constructor
  · exact (h.get (by decide)).trans hr.start
  · exact (h.get (by decide)).trans hr.count
  · exact (h.get (by decide)).trans hr.free
  · exact (h.get (by decide)).trans hr.sectors
  · exact (h.get (by decide)).trans hr.diskSize

/-- **The operations work on the block `Format` wrote exactly on drives that start at
`kNeFSRootCatalogStartAddress`**, the calls apart that return before they come to the block. What
`Format` recorded stands where the drive starts. -/
theorem worksAt_formatted_iff (hf : Formatted drv partName d₀ d) {c : Call} {d₁ d₂ : Disk}
    (h : c.run drv d₁ = some d₂) :
    (WorksAt drv.fLbaStart d₁ d₂ ↔
      (drv.fLbaStart = kNeFSRootCatalogStartAddress ∨ ¬ c.reachesBlock)) ∧
      Recorded drv (d.fInput drv drv.fLbaStart) :=
  ⟨run_worksAt_iff h, hf.recorded⟩

/-- A drive of 4096 sectors that starts at `start`. -/
def smallDrive (start : Nat) : DriveTrait := ⟨start, 512, 4096, fun lba => lba * 512⟩

def blankDisk : Disk := ⟨zeros, []⟩

/-- `"NeFS"`. -/
def volumeName : CString := ⟨[0x4E, 0x65, 0x46, 0x53], by simp⟩

/-- The blank drive, formatted. -/
def smallDisk (start : Nat) : Disk :=
  { bytes := blit zeros (start * 512) NefsRootPartitionBlock.size
      (formattedBlock (smallDrive start) volumeName (slice zeros (start * 512)))
    blockLbas := [start, start] }

theorem smallDisk_formatted (start : Nat) :
    Formatted (smallDrive start) volumeName blankDisk (smallDisk start) where
  fresh := by
    show hasIdent (slice zeros (start * 512)) = false
    unfold hasIdent
    rfl
  format := by
    have hi : hasIdent (blankDisk.inputBlock (smallDrive start) start).1 = false := by
      unfold hasIdent
      rfl
    show NeFS.format (smallDrive start) volumeName blankDisk = _
    unfold NeFS.format
    rw [if_neg (by decide)]
    show (if hasIdent (blankDisk.inputBlock (smallDrive start) start).1 = true then _ else _) = _
    rw [hi]
    rfl

/-- `"/x"`. -/
def pathX : CString := ⟨[0x2F, 0x78], by simp⟩

/-- `"/y"`. -/
def pathY : CString := ⟨[0x2F, 0x79], by simp⟩

/-- A look for `/x` on the drive that starts at 1024. -/
theorem worksAt_formatted_iff_small : ∃ d',
    (WorksAt 1024 (smallDisk 1024) d' ↔
      (1024 = kNeFSRootCatalogStartAddress ∨
        ¬ (Call.findCatalog pathX true false).reachesBlock)) ∧
      Recorded (smallDrive 1024) ((smallDisk 1024).fInput (smallDrive 1024) 1024) := by
  obtain ⟨d', hd⟩ := Option.isSome_iff_exists.mp (by decide +kernel :
    (Call.run (smallDrive 1024) (.findCatalog pathX true false) (smallDisk 1024)).isSome = true)
  exact ⟨d', worksAt_formatted_iff (smallDisk_formatted 1024) hd⟩

/-- The same look on a drive that starts at 2048. -/
theorem find_misses_block : ∃ d',
    Call.run (smallDrive 2048) (.findCatalog pathX true false) (smallDisk 2048) = some d' ∧
      ¬ WorksAt 2048 (smallDisk 2048) d' := by
  obtain ⟨d', hd⟩ := Option.isSome_iff_exists.mp (by decide +kernel :
    (Call.run (smallDrive 2048) (.findCatalog pathX true false) (smallDisk 2048)).isSome = true)
  refine ⟨d', hd, fun hat => ?_⟩
  rcases (run_worksAt_iff hd).mp hat with h | h
  · exact absurd h (by decide)
  · exact h (List.cons_ne_nil _ _)

end NeKernel.NeFS
