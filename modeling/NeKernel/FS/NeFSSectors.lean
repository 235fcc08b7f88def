import NeKernel.FS.NeFSHistory

/-!
# Sectors under the block drivers

The parser counts LBAs in sectors, and the drivers of the kernel take the LBA of a packet for a
byte address: they divide it by the sector size. The first catalog is two LBAs behind the
partition block and so in the same sector. A run keeps the parts of the volume apart until a
creation gets through its checks.
-/

namespace NeKernel.NeFS

open ByteStore Scan Runs

variable {drv : DriveTrait} {m : Store} {d d₀ : Disk} {name partName q : CString}
  {flags kind lba outLba startFree : Nat} {hidden localSearch : Bool}

/-! ## The drivers -/

def kATASectorSize : Nat := 512
def kAHCISectorSize : Nat := 512

/-- `Lba /= SectorSz`. -/
def driverSector (lba : Nat) : Nat := lba / kATASectorSize

/-- A drive behind one of the drivers. -/
structure DriverAddressed (drv : DriveTrait) : Prop where
  sector : drv.fSectorSz = kNeFSSectorSz
  address : ∀ lba, drv.fAddress lba = driverSector lba * kATASectorSize

/-- The sectors of `len` bytes at an LBA: the first one and their number. -/
def sectorsOf (lba len : Nat) : Nat × Nat :=
  (driverSector lba, (len + kATASectorSize - 1) / kATASectorSize)

/-- Two runs of sectors without a common one. -/
def SectorsApart (a b : Nat × Nat) : Prop := a.1 + a.2 ≤ b.1 ∨ b.1 + b.2 ≤ a.1

/-! ## Volumes -/

/-- A history of catalogs, and the forks `CreateFork` has made: the LBA of the catalog each of
them belongs to, and its record. -/
structure Volume where
  history : History
  forks : List (Option Nat × Store)

/-- A call of `CreateCatalog`, `RemoveCatalog`, `CreateFork` or `WriteCatalog`. -/
inductive VolumeCall where
  | catalog (c : CatalogCall)
  | createFork (theFork : Store)
  | writeCatalog (name : CString) (isRsrcFork : Bool) (data : Store) (sizeOfData : Nat)
      (theForkName : CString)

/-- The volume after a call. The forks of a removed catalog are gone with it, and a fork that is
made again takes the place of the old one. -/
def VolumeCall.run (drv : DriveTrait) : VolumeCall → Volume → Option Volume
  | .catalog c, v => (c.run drv v.history).map fun h =>
      ⟨h, v.forks.filter fun f => f.1.any fun lba => h.live.contains lba⟩
  | .createFork theFork, v =>
      let catalogName := NefsForkStruct.catalogNameOf theFork
      let owner := (lookup drv v.history.disk.bytes catalogName true true).join.map Prod.fst
      (NeFS.createFork drv theFork v.history.disk).map fun x =>
        ⟨{ v.history with disk := x.2.2 },
          if x.1 then
            (owner, x.2.1) :: v.forks.filter fun f =>
              NefsForkStruct.dataOffset.get f.2 ≠ NefsForkStruct.dataOffset.get x.2.1
          else v.forks⟩
  | .writeCatalog name rsrc data sz fork, v =>
      (NeFS.writeCatalog drv name rsrc data sz fork v.history.disk).map fun x =>
        { v with history := { v.history with disk := x.2 } }

/-- A call as a step. -/
def VolumeStep (drv : DriveTrait) (v : Volume) (c : VolumeCall) (v' : Volume) : Prop :=
  c.run drv v = some v'

/-- The volume before the first call. -/
def Volume.start (d : Disk) : Volume := ⟨.start d, []⟩

/-- The sectors of the partition block, of the live catalogs, and of their forks and the data of
these. The record of a fork is in front of its data. -/
def Volume.regions (drv : DriveTrait) (v : Volume) : List (Nat × Nat) :=
  sectorsOf drv.fLbaStart NefsRootPartitionBlock.size ::
    (v.history.live.map (sectorsOf · NefsCatalogStruct.size) ++ v.forks.flatMap fun f =>
      let dataOffset := NefsForkStruct.dataOffset.get f.2
      [sectorsOf (u64 (dataOffset + 2 ^ 64 - 1)) NefsForkStruct.size,
        sectorsOf dataOffset (NefsForkStruct.dataSize.get f.2)])

/-- No sector of the volume belongs to two of its parts. -/
def Apart (drv : DriveTrait) (v : Volume) : Prop := (v.regions drv).Pairwise SectorsApart

/-- The call is a creation that gets through its checks on an empty partition. -/
def Accepted (drv : DriveTrait) : VolumeCall → Prop
  | .catalog (.create name _ kind) => nameAllowed name kind = true ∧ 2 ≤ name.length ∧
      (parentName name).isSome = true ∧ 2 ≤ catalogEntries drv ∧
      driverSector drv.fLbaStart = driverSector kNeFSRootCatalogStartAddress
  | _ => False

/-! ## The empty partition -/

/-- `Format` leaves what lies behind the fields of the block as it is. -/
theorem formattedBlock_apply {block : Store} {i : Nat} (hi : 112 ≤ i) :
    formattedBlock drv partName block i = block i := by
  have hcopy {src dst : Store} {off len room : Nat} (h : off + room ≤ 112) :
      rtCopyMemorySafe src dst off len room i = dst i := by
    unfold rtCopyMemorySafe
    split
    · exact blit_apply_of_notMem (.inr (by omega))
    · exact blit_apply_of_notMem (.inr (by omega))
  unfold formattedBlock
  rw [Field.set_apply, Field.set_apply, Field.set_apply, Field.set_apply, Field.set_apply,
    Field.set_apply, Field.set_apply, Field.set_apply, Field.set_apply, Field.set_apply,
    hcopy (by decide), hcopy (by decide)]
  all_goals
    right
    refine Nat.le_trans ?_ hi
    decide

/-- A drive that held zeros when it was formatted. -/
structure FormattedZeros (drv : DriveTrait) (partName : CString) (d₀ d : Disk) : Prop extends
    Formatted drv partName d₀ d where
  zeros : ∀ x, d₀.bytes x = 0

/-- Behind the fields of the block every sector holds zeros. -/
theorem FormattedZeros.bytes_zero (h : FormattedZeros drv partName d₀ d)
    (ha : DriverAddressed drv) {i : Nat} (h₁ : 112 ≤ i) (h₂ : i < 512) :
    d.bytes (drv.fAddress lba + i) = 0 := by
  have haddr := ha.address lba
  have hstart := ha.address drv.fLbaStart
  rw [h.bytes]
  by_cases hin : drv.fAddress drv.fLbaStart ≤ drv.fAddress lba + i ∧
      drv.fAddress lba + i < drv.fAddress drv.fLbaStart + NefsRootPartitionBlock.size
  · have heq : drv.fAddress lba = drv.fAddress drv.fLbaStart := by
      have hin' : _ ∧ drv.fAddress lba + i < drv.fAddress drv.fLbaStart + 512 := hin
      have haddr' : drv.fAddress lba = driverSector lba * 512 := haddr
      have hstart' : drv.fAddress drv.fLbaStart = driverSector drv.fLbaStart * 512 := hstart
      omega
    rw [blit_apply_of_mem hin.1 hin.2, heq, Nat.add_sub_cancel_left, formattedBlock_apply h₁]
    exact h.zeros _
  · rw [blit_apply_of_notMem (by omega)]
    exact h.zeros _

/-- There is no catalog on it. -/
theorem FormattedZeros.not_created (h : FormattedZeros drv partName d₀ d)
    (ha : DriverAddressed drv) (lba : Nat) :
    created (NefsCatalogStruct.flags.get (slice d.bytes (drv.fAddress lba))) = false := by
  have hzero : NefsCatalogStruct.flags.get (slice d.bytes (drv.fAddress lba)) = 0 := by
    apply getLE_eq_zero_iff.mpr
    intro i hi
    have hi' : i < 2 := hi
    exact h.bytes_zero ha (by show 112 ≤ 457 + i; omega) (by show 457 + i < 512; omega)
  rw [hzero]
  rfl

/-- No lookup finds one. -/
theorem FormattedZeros.not_found (h : FormattedZeros drv partName d₀ d) (ha : DriverAddressed drv)
    {hit : Nat × Store} : lookup drv d.bytes q hidden localSearch ≠ some (some hit) := by
  intro hl
  have hhit := lookup_hit hl
  have hcreated := hhit.created
  rw [hhit.record, h.not_created ha] at hcreated
  cases hcreated

/-- In another sector than the block's there is no partition block. -/
theorem FormattedZeros.no_block (h : FormattedZeros drv partName d₀ d) (ha : DriverAddressed drv)
    (hne : driverSector drv.fLbaStart ≠ driverSector kNeFSRootCatalogStartAddress) :
    NefsRootPartitionBlock.freeCatalog.get (partBlock drv d.bytes) = 0 := by
  have haddr : drv.fAddress kNeFSRootCatalogStartAddress =
      driverSector kNeFSRootCatalogStartAddress * 512 := ha.address _
  have hstart : drv.fAddress drv.fLbaStart = driverSector drv.fLbaStart * 512 := ha.address _
  apply getLE_eq_zero_iff.mpr
  intro i hi
  have hi' : i < 8 := hi
  show d.bytes (drv.fAddress kNeFSRootCatalogStartAddress + (72 + i)) = 0
  rw [h.bytes, blit_apply_of_notMem (by show _ ∨ _ + 512 ≤ _; omega)]
  exact h.zeros _

/-- In the same sector the operations see the block `Format` has written. -/
theorem FormattedZeros.block (h : FormattedZeros drv partName d₀ d) (ha : DriverAddressed drv)
    (heq : driverSector drv.fLbaStart = driverSector kNeFSRootCatalogStartAddress) :
    Recorded drv (partBlock drv d.bytes) := by
  have haddr : drv.fAddress kNeFSRootCatalogStartAddress = drv.fAddress drv.fLbaStart := by
    rw [ha.address, ha.address, heq]
  unfold partBlock
  rw [haddr]
  exact h.recorded

/-- A creation that stores a record has got through the checks, and has started at the first
catalog. -/
theorem FormattedZeros.accepted (h : FormattedZeros drv partName d₀ d) (ha : DriverAddressed drv)
    (hst : Stores drv d.bytes name kind outLba startFree) (flags : Nat) :
    Accepted drv (.catalog (.create name flags kind)) ∧
      startFree = NefsRootPartitionBlock.startCatalog.get (partBlock drv d.bytes) := by
  have hout : outLba = NefsRootPartitionBlock.startCatalog.get (partBlock drv d.bytes) := by
    obtain ⟨p, -, ⟨r, hr, -⟩ | ⟨-, hr⟩⟩ := hst.search.parent
    · exact absurd hr (h.not_found ha)
    · exact hr
  obtain ⟨-, -, hlimit, -, j, hj, hpassed⟩ := findSlot_free hst.slot
  have hsector : driverSector drv.fLbaStart = driverSector kNeFSRootCatalogStartAddress := by
    by_contra hne
    have hroom := hst.room
    rw [h.no_block ha hne] at hroom
    cases hroom
  have hr := h.block ha hsector
  have hent : 2 ≤ catalogEntries drv := by
    have hlt := catalogEntries_lt drv
    have hroom := hst.room
    rw [hr.free] at hroom
    by_contra hfew
    obtain h₀ | h₁ : catalogEntries drv = 0 ∨ catalogEntries drv = 1 := by omega
    · -- without a catalog the slot loop ends where it starts
      have hstart : NefsRootPartitionBlock.startCatalog.get (partBlock drv d.bytes) < 2 ^ 64 :=
        Field.get_lt
      rw [hout, slotLimit, hr.count, h₀, Nat.zero_mul] at hlimit
      unfold u64 at hlimit
      omega
    · rw [h₁] at hroom
      exact absurd hroom (by decide)
  obtain ⟨p, hp, -⟩ := hst.search.parent
  refine ⟨⟨hst.search.allowed, hst.search.length, by rw [hp]; rfl, hent, hsector⟩, ?_⟩
  rw [hj, ← hout]
  cases j with
  | zero => rfl
  | succ j =>
      have := (hpassed 0 (Nat.succ_pos j)).2
      rw [h.not_created ha] at this
      cases this

/-- A lookup comes to its end at the first catalog, where the block stands. -/
theorem FormattedZeros.lookup_none (h : FormattedZeros drv partName d₀ d)
    (ha : DriverAddressed drv)
    (hstart : 0 < NefsRootPartitionBlock.startCatalog.get (partBlock drv d.bytes))
    (hq : q.chars ≠ []) : lookup drv d.bytes q true false = some none := by
  have hnext : NefsCatalogStruct.nextSibling.get (slice d.bytes (drv.fAddress
      (NefsRootPartitionBlock.startCatalog.get (partBlock drv d.bytes)))) = 0 := by
    apply getLE_eq_zero_iff.mpr
    intro i hi
    have hi' : i < 8 := hi
    exact h.bytes_zero ha (by show 112 ≤ 499 + i; omega) (by show 499 + i < 512; omega)
  have hscan : scanFrom drv (partBlock drv d.bytes) d.bytes q true
      (NefsRootPartitionBlock.startCatalog.get (partBlock drv d.bytes)) = some none := by
    obtain ⟨fuel, hfuel⟩ : ∃ fuel, scanFuel = fuel + 1 := by
      unfold scanFuel
      exact ⟨2 ^ 64 - 1, rfl⟩
    simp only [scanFrom]
    rw [if_neg (Nat.lt_irrefl _), hfuel, scan]
    split
    · next found hv =>
        obtain ⟨rfl, -, hcreated⟩ := scanVisit_found hv
        rw [h.not_created ha] at hcreated
        cases hcreated
    · rfl
    · rw [if_pos (decide_eq_true (by rw [hnext]; exact hstart))]
  unfold lookup findCatalog
  rw [if_neg (by simp)]
  unfold findCatalogAnywhere
  rw [if_neg hq]
  show ((scanFrom drv (partBlock drv d.bytes) d.bytes q true
    (NefsRootPartitionBlock.startCatalog.get (partBlock drv d.bytes))).bind _).map _ = _
  rw [hscan]
  rfl

/-- A creation that gets through the checks stores its record there. -/
theorem FormattedZeros.stores (h : FormattedZeros drv partName d₀ d) (ha : DriverAddressed drv)
    (hstart : drv.fLbaStart = kNeFSRootCatalogStartAddress)
    (hc : Accepted drv (.catalog (.create name flags kind))) :
    Stores drv d.bytes name kind 1026 1026 := by
  obtain ⟨hallowed, hlen, hparent, hent, hsector⟩ := hc
  have hr := h.block ha hsector
  have hcs : catalogSectors drv.fSectorSz = 2 := by
    rw [ha.sector]
    rfl
  have hfirst : NefsRootPartitionBlock.startCatalog.get (partBlock drv d.bytes) = 1026 := by
    rw [hr.start, hstart, hcs]
    rfl
  have hlt := catalogEntries_lt drv
  have hne : name.chars ≠ [] := by
    intro hnil
    simp [CString.length, hnil] at hlen
  have hpos : 0 < NefsRootPartitionBlock.startCatalog.get (partBlock drv d.bytes) := by
    rw [hfirst]
    decide
  obtain ⟨p, hp⟩ := Option.isSome_iff_exists.mp hparent
  refine ⟨⟨hallowed, h.lookup_none ha hpos hne, hlen, p, hp, .inr ⟨?_, hfirst.symm⟩⟩, ?_, ?_⟩
  · exact h.lookup_none ha hpos (parentName_ne hp hne)
  · rw [hr.free]
    unfold u64
    omega
  · have hlimit : slotLimit drv (partBlock drv d.bytes) = 1026 + catalogEntries drv * 2 := by
      unfold slotLimit
      rw [hfirst, hr.count, hcs, u64_of_lt (x := catalogEntries drv * 2) (by omega)]
      exact u64_of_lt (by omega)
    obtain ⟨fuel, hfuel⟩ : ∃ fuel, scanFuel = fuel + 1 := by
      unfold scanFuel
      exact ⟨2 ^ 64 - 1, rfl⟩
    -- the first slot is free, so the search stops there
    have hvisit : slotVisit drv d.bytes name 1026 =
        .found (.free 1026 (slice d.bytes (drv.fAddress 1026))) := by
      simp only [slotVisit, h.not_created ha, Bool.not_false, if_true]
    unfold findSlot
    rw [if_neg (by omega), hfuel, scan, hvisit]

/-! ## Runs -/

variable {v v' : Volume} {c : VolumeCall}

/-- The volume is as `Format` has left it. -/
structure Untouched (d : Disk) (v : Volume) : Prop where
  bytes : v.history.disk.bytes = d.bytes
  live : v.history.live = []
  forks : v.forks = []

theorem untouched_start : Untouched d (.start d) := ⟨rfl, rfl, rfl⟩

/-- Its only part is the partition block. -/
theorem Untouched.apart (h : Untouched d v) : Apart drv v := by
  unfold Apart Volume.regions
  rw [h.live, h.forks]
  exact List.pairwise_singleton _ _

/-- A call that is not an accepted creation leaves it so. -/
theorem VolumeStep.untouched (h : FormattedZeros drv partName d₀ d) (ha : DriverAddressed drv)
    (hv : Untouched d v) (hno : ¬ Accepted drv c) (hst : VolumeStep drv v c v') :
    Untouched d v' := by
  unfold VolumeStep at hst
  cases c with
  | catalog c =>
      obtain ⟨hist, hrun, rfl⟩ := Option.map_eq_some_iff.mp hst
      rcases CatalogStep.cases hrun with ⟨hk, -⟩ |
        ⟨name, flags, kind, outLba, startFree, rfl, hstored⟩ | ⟨name, outLba, m', -, hr⟩
      · exact ⟨hk.bytes.trans hv.bytes, hk.live.trans hv.live, by rw [hv.forks]; rfl⟩
      · have hstores := hstored.stores
        rw [hv.bytes] at hstores
        exact absurd (h.accepted ha hstores flags).1 hno
      · have hfound := hr.removes.found
        rw [hv.bytes] at hfound
        exact absurd hfound (h.not_found ha)
  | createFork theFork =>
      obtain ⟨⟨res, theFork', e⟩, hrun, rfl⟩ := Option.map_eq_some_iff.mp hst
      obtain ⟨-, ⟨rfl, hb⟩ | ⟨-, outLba, catalog, d₁, place, d₂, hl, -⟩⟩ := createFork_cases hrun
      · exact ⟨hb.trans hv.bytes, hv.live, hv.forks⟩
      · rw [hv.bytes] at hl
        exact absurd hl (h.not_found ha)
  | writeCatalog name rsrc data sz fork =>
      obtain ⟨⟨res, e⟩, hrun, rfl⟩ := Option.map_eq_some_iff.mp hst
      obtain ⟨-, ⟨-, hb⟩ | ⟨-, hit, hl, -⟩⟩ := writeCatalog_cases hrun
      · exact ⟨hb.trans hv.bytes, hv.live, hv.forks⟩
      · rw [hv.bytes] at hl
        exact absurd hl (h.not_found ha)

/-- An accepted creation puts the record into the sector of the block. -/
theorem VolumeStep.not_apart (h : FormattedZeros drv partName d₀ d) (ha : DriverAddressed drv)
    (hstart : drv.fLbaStart = kNeFSRootCatalogStartAddress) (hv : Untouched d v)
    (hc : Accepted drv c) (hst : VolumeStep drv v c v') : ¬ Apart drv v' := by
  rcases c with (⟨name, flags, kind⟩ | name) | theFork | ⟨name, rsrc, data, sz, fork⟩
  · obtain ⟨hist, hrun, rfl⟩ := Option.map_eq_some_iff.mp hst
    have hstores : Stores drv v.history.disk.bytes name kind 1026 1026 := by
      rw [hv.bytes]
      exact h.stores ha hstart hc
    rcases CatalogStep.cases hrun with ⟨-, href⟩ |
      ⟨name', flags', kind', outLba, startFree, heq, hstored⟩ | ⟨name', outLba, m', heq, -⟩
    · exact absurd hstores (href 1026 1026)
    · cases heq
      have hstores' := hstored.stores
      rw [hv.bytes] at hstores' hstores
      obtain rfl : startFree = 1026 :=
        (h.accepted ha hstores' flags).2.trans (h.accepted ha hstores flags).2.symm
      intro hapart
      have hall := (List.pairwise_cons.mp hapart).1
      -- the block and the record, sector 2 both
      have := hall (sectorsOf 1026 NefsCatalogStruct.size) (by
        show _ ∈ List.map _ hist.live ++ _
        rw [hstored.live]
        exact List.mem_append_left _ List.mem_cons_self)
      rw [hstart] at this
      exact absurd this (by unfold SectorsApart; decide)
    · cases heq
  all_goals exact hc.elim

theorem reach_untouched (h : FormattedZeros drv partName d₀ d) (ha : DriverAddressed drv)
    (hreach : Reach (VolumeStep drv) (fun _ c => ¬ Accepted drv c) (.start d) v) :
    Untouched d v :=
  hreach.inv (I := Untouched d) untouched_start fun _ _ _ hv hno hst => hst.untouched h ha hv hno

/-- **The parts of a volume stay apart as long as no creation gets through its checks.** On a
partition that starts at `kNeFSRootCatalogStartAddress` the first creation that does puts its
record into the sector of the partition block. -/
theorem apart_iff_not_accepted (h : FormattedZeros drv partName d₀ d) (ha : DriverAddressed drv) :
    (∀ v, Reach (VolumeStep drv) (fun _ c => ¬ Accepted drv c) (.start d) v → Apart drv v) ∧
      (drv.fLbaStart = kNeFSRootCatalogStartAddress → ∀ v,
        Reach (VolumeStep drv) (fun _ c => ¬ Accepted drv c) (.start d) v →
          ∀ c v', VolumeStep drv v c v' → (Apart drv v' ↔ ¬ Accepted drv c)) := by
  constructor
  · intro v hreach
    exact (reach_untouched h ha hreach).apart
  · intro hstart v hreach c v' hst
    have hv := reach_untouched h ha hreach
    constructor
    · intro hapart hc
      exact hst.not_apart h ha hstart hv hc hapart
    · intro hno
      exact (hst.untouched h ha hv hno).apart

/-- A drive of 64 sectors behind a driver, with the partition at 1024. -/
def driverDrive : DriveTrait := ⟨1024, 512, 64, fun lba => lba / 512 * 512⟩

theorem driverDrive_addressed : DriverAddressed driverDrive := ⟨rfl, fun _ => rfl⟩

theorem driverDrive_zeros :
    FormattedZeros driverDrive volumeName blankDisk
      { bytes := blit zeros 1024 NefsRootPartitionBlock.size
          (formattedBlock driverDrive volumeName (slice zeros 1024))
        blockLbas := [1024, 1024] } where
  fresh := by
    show hasIdent (slice zeros (1024 / 512 * 512)) = false
    unfold hasIdent
    rfl
  format := by
    have hi : hasIdent (blankDisk.inputBlock driverDrive 1024).1 = false := by
      unfold hasIdent
      rfl
    unfold NeFS.format
    rw [if_neg (by decide)]
    show (if hasIdent (blankDisk.inputBlock driverDrive 1024).1 = true then _ else _) = _
    rw [hi]
    rfl
  zeros := fun _ => rfl

/-- The drive behind a driver. -/
theorem apart_iff_not_accepted_driver : ∃ d,
    (∀ v, Reach (VolumeStep driverDrive) (fun _ c => ¬ Accepted driverDrive c) (.start d) v →
      Apart driverDrive v) ∧
      (driverDrive.fLbaStart = kNeFSRootCatalogStartAddress → ∀ v,
        Reach (VolumeStep driverDrive) (fun _ c => ¬ Accepted driverDrive c) (.start d) v →
          ∀ c v', VolumeStep driverDrive v c v' →
            (Apart driverDrive v' ↔ ¬ Accepted driverDrive c)) :=
  ⟨_, apart_iff_not_accepted driverDrive_zeros driverDrive_addressed⟩

/-- After the creation of `/x` the block and the record share a sector. -/
theorem create_shares_sector : ∃ d v, FormattedZeros driverDrive volumeName blankDisk d ∧
    Reachable (VolumeStep driverDrive) (.start d) v ∧ v.history.stored = [(pathX, 1026)] ∧
      ¬ Apart driverDrive v := by
  have hrun : ((VolumeCall.catalog (.create pathX 0 1)).run driverDrive (.start
      { bytes := blit zeros 1024 NefsRootPartitionBlock.size
          (formattedBlock driverDrive volumeName (slice zeros 1024))
        blockLbas := [1024, 1024] })).map (fun v => (v.history.stored, v.regions driverDrive)) =
          some ([(pathX, 1026)], [(2, 1), (2, 2)]) := by decide +kernel
  obtain ⟨v, hv, heq⟩ := Option.map_eq_some_iff.mp hrun
  obtain ⟨hstored, hregions⟩ := Prod.mk.inj heq
  refine ⟨_, v, driverDrive_zeros, .step _ .init trivial hv, hstored, ?_⟩
  unfold Apart SectorsApart
  rw [hregions]
  decide

end NeKernel.NeFS
