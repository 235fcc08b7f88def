import NeKernel.FS.NeFSBlock

/-!
# Runs of creations and removals

A drive addressed by sector numbers, and what a run of `CreateCatalog` and `RemoveCatalog` keeps
on it: the partition block stays apart from the records, and a slot is never in front of the first
catalog. `History` is a disk together with what the run has stored and removed.
-/

namespace NeKernel.NeFS

open ByteStore Scan Runs

variable {drv : DriveTrait} {m m' : Store} {d d' d₀ : Disk} {name partName : CString}
  {flags kind n lba outLba startFree : Nat}

/-! ## Addressing by sectors -/

/-- A drive addressed by sector numbers that starts at `kNeFSRootCatalogStartAddress`. -/
structure SectorAddressed (drv : DriveTrait) : Prop where
  start : drv.fLbaStart = kNeFSRootCatalogStartAddress
  sector : kNeFSSectorSz ≤ drv.fSectorSz
  address : ∀ lba, drv.fAddress lba = lba * drv.fSectorSz

/-- The LBA of the first catalog. -/
def firstCatalog (drv : DriveTrait) : Nat :=
  kNeFSRootCatalogStartAddress + catalogSectors drv.fSectorSz

namespace SectorAddressed

variable (hs : SectorAddressed drv)
include hs

theorem sector' : 512 ≤ drv.fSectorSz := hs.sector

theorem catalogSectors_pos : 1 ≤ catalogSectors drv.fSectorSz := by
  have h := hs.sector'
  show 1 ≤ (535 + drv.fSectorSz - 1) / drv.fSectorSz
  rw [Nat.le_div_iff_mul_le (by omega)]
  omega

theorem catalogSectors_le : catalogSectors drv.fSectorSz ≤ 2 := by
  have h := hs.sector'
  show (535 + drv.fSectorSz - 1) / drv.fSectorSz ≤ 2
  have : (535 + drv.fSectorSz - 1) / drv.fSectorSz < 3 := by
    rw [Nat.div_lt_iff_lt_mul (by omega)]
    omega
  omega

/-- The sectors of a record hold it. -/
theorem le_catalogSectors_mul :
    NefsCatalogStruct.size ≤ catalogSectors drv.fSectorSz * drv.fSectorSz := by
  have h := hs.sector'
  have hmod : (535 + drv.fSectorSz - 1) % drv.fSectorSz < drv.fSectorSz :=
    Nat.mod_lt _ (by omega)
  have hdiv := Nat.div_add_mod (535 + drv.fSectorSz - 1) drv.fSectorSz
  show 535 ≤ (535 + drv.fSectorSz - 1) / drv.fSectorSz * drv.fSectorSz
  rw [Nat.mul_comm]
  omega

/-- LBAs in order are addresses in order. -/
theorem address_le {a b : Nat} (h : a ≤ b) : drv.fAddress a ≤ drv.fAddress b := by
  rw [hs.address, hs.address]
  exact Nat.mul_le_mul_right _ h

theorem address_add (a b : Nat) :
    drv.fAddress (a + b) = drv.fAddress a + b * drv.fSectorSz := by
  rw [hs.address, hs.address, Nat.add_mul]

/-- The first catalog lies behind the partition block. -/
theorem block_below (h : firstCatalog drv ≤ lba) :
    drv.fAddress kNeFSRootCatalogStartAddress + NefsRootPartitionBlock.size ≤
      drv.fAddress lba := by
  have h₁ := hs.address_le h
  have h₂ := hs.address_add kNeFSRootCatalogStartAddress (catalogSectors drv.fSectorSz)
  have h₃ : 535 ≤ catalogSectors drv.fSectorSz * drv.fSectorSz := hs.le_catalogSectors_mul
  show _ + 512 ≤ _
  unfold firstCatalog at h₁
  omega

/-- So does every LBA a fork may be at. -/
theorem firstCatalog_le : firstCatalog drv ≤ kNeFSCatalogStartAddress := by
  have h := hs.catalogSectors_le
  show 1024 + _ ≤ 1536
  omega

/-- What is written at an LBA from the first catalog on leaves the partition block alone. -/
theorem block_get {f : Field} {src : Store} {sz : Nat}
    (hf : f.off + f.width ≤ NefsRootPartitionBlock.size) (h : firstCatalog drv ≤ lba) :
    f.get (partBlock drv (blit m (drv.fAddress lba) sz src)) = f.get (partBlock drv m) := by
  have hb := hs.block_below h
  apply Field.get_slice_blit_of_disjoint
  omega

end SectorAddressed

theorem smallDrive_addressed : SectorAddressed (smallDrive 1024) := ⟨rfl, by decide, fun _ => rfl⟩

/-- A field of the block, when the block has been written. -/
theorem get_outputBlock {f : Field} {block : Store}
    (hf : f.off + f.width ≤ NefsRootPartitionBlock.size) :
    f.get (partBlock drv (blit m (drv.fAddress kNeFSRootCatalogStartAddress)
      NefsRootPartitionBlock.size block)) = f.get block :=
  Field.get_slice_blit_same hf

/-! ## The counters -/

/-- The fields of the block the operations look at. -/
@[ext] structure Counters where
  startCatalog : Nat
  diskSize : Nat
  catalogCount : Nat
  freeCatalog : Nat
  freeSectors : Nat

/-- The counters in a block. -/
def countersOf (block : Store) : Counters where
  startCatalog := NefsRootPartitionBlock.startCatalog.get block
  diskSize := NefsRootPartitionBlock.diskSize.get block
  catalogCount := NefsRootPartitionBlock.catalogCount.get block
  freeCatalog := NefsRootPartitionBlock.freeCatalog.get block
  freeSectors := NefsRootPartitionBlock.freeSectors.get block

/-- The counters on a drive with the bytes `m`. -/
def counters (drv : DriveTrait) (m : Store) : Counters := countersOf (partBlock drv m)

/-- What is written from the first catalog on leaves the counters alone. -/
theorem counters_blit (hs : SectorAddressed drv) (h : firstCatalog drv ≤ lba) (sz : Nat)
    (src : Store) : counters drv (blit m (drv.fAddress lba) sz src) = counters drv m := by
  unfold counters countersOf
  rw [hs.block_get (by decide) h, hs.block_get (by decide) h, hs.block_get (by decide) h,
    hs.block_get (by decide) h, hs.block_get (by decide) h]

theorem counters_block {block : Store} : counters drv (blit m
    (drv.fAddress kNeFSRootCatalogStartAddress) NefsRootPartitionBlock.size block) =
      countersOf block := by
  unfold counters countersOf
  rw [get_outputBlock (by decide), get_outputBlock (by decide), get_outputBlock (by decide),
    get_outputBlock (by decide), get_outputBlock (by decide)]

theorem mod_u64 {x : Nat} : u64 x % 256 ^ 8 = u64 x := Nat.mod_eq_of_lt (u64_lt x)

/-- The counters when a catalog is stored. -/
def Counters.store (drv : DriveTrait) (c : Counters) : Counters :=
  { c with
    catalogCount := u64 (c.catalogCount + 1)
    freeCatalog := u64 (c.freeCatalog + 2 ^ 64 - 1)
    freeSectors := u64 (c.freeSectors + 2 ^ 64 - catalogSectors drv.fSectorSz) }

/-- The counters when a catalog is removed. -/
def Counters.remove (c : Counters) : Counters :=
  { c with
    catalogCount := c.catalogCount - 1
    freeSectors := u64 (c.freeSectors + 1) }

theorem countersOf_blockWithCatalog {block : Store} :
    countersOf (blockWithCatalog drv block) = (countersOf block).store drv := by
  apply Counters.ext
  all_goals
    unfold countersOf blockWithCatalog Counters.store
    simp (disch := decide) only [Field.get_set_of_apart, Field.get_set_same]
  · exact mod_u64
  · exact mod_u64
  · exact mod_u64

theorem countersOf_blockWithoutCatalog {block : Store} :
    countersOf (blockWithoutCatalog block) = (countersOf block).remove := by
  by_cases hpos : 0 < NefsRootPartitionBlock.catalogCount.get block
  · apply Counters.ext
    all_goals
      unfold countersOf blockWithoutCatalog Counters.remove
      simp (disch := decide) only [hpos, if_true, Field.get_set_of_apart, Field.get_set_same]
    · exact Nat.mod_eq_of_lt (Nat.lt_of_le_of_lt (Nat.sub_le _ _) Field.get_lt)
    · exact mod_u64
  · apply Counters.ext
    all_goals
      unfold countersOf blockWithoutCatalog Counters.remove
      simp (disch := decide) only [hpos, if_false, Field.get_set_of_apart, Field.get_set_same]
    · omega
    · exact mod_u64

/-- The counters after a creation. -/
theorem counters_storedBytes (hs : SectorAddressed drv) (h : firstCatalog drv ≤ startFree) :
    counters drv (storedBytes drv name flags kind outLba startFree m) =
      (counters drv m).store drv := by
  unfold storedBytes
  rw [counters_block, countersOf_blockWithCatalog]
  show (counters drv _).store drv = _
  rw [counters_blit hs h]

/-- Marking forks leaves the counters alone. -/
theorem counters_markFork (hs : SectorAddressed drv) (h : kNeFSCatalogStartAddress ≤ lba) :
    counters drv (markFork drv lba m) = counters drv m :=
  counters_blit hs (hs.firstCatalog_le.trans h) _ _

/-- The counters after a removal. -/
theorem Removes.counters (hs : SectorAddressed drv) {d d' : Disk}
    (h : Removes drv d d' name outLba m') (hstart : firstCatalog drv ≤ outLba) :
    counters drv d'.bytes = (counters drv d.bytes).remove := by
  have hmarked : NeFS.counters drv m' = NeFS.counters drv d.bytes := by
    apply h.marked fun m => NeFS.counters drv m = NeFS.counters drv d.bytes
    · intro m lba hlba hm
      exact (counters_markFork hs hlba).trans hm
    · rfl
  rw [h.bytes]
  unfold removedBytes
  rw [counters_block, countersOf_blockWithoutCatalog]
  show (NeFS.counters drv _).remove = _
  rw [counters_blit hs hstart, hmarked]

/-! ## Mounted partitions -/

/-- The block is `Format`'s as far as the slots are concerned: the catalogs begin where they
should, and there are not so many that their LBAs could wrap. -/
structure Mounted (drv : DriveTrait) (m : Store) : Prop where
  start : (counters drv m).startCatalog = firstCatalog drv
  small : (counters drv m).catalogCount = 0 ∨
    (counters drv m).catalogCount + (counters drv m).freeCatalog < 2 ^ 60

theorem Formatted.counters (hs : SectorAddressed drv) (h : Formatted drv partName d₀ d) :
    counters drv d.bytes =
      { startCatalog := firstCatalog drv
        diskSize := u64 (drv.sectorCount * drv.fSectorSz)
        catalogCount := catalogEntries drv
        freeCatalog := u64 (catalogEntries drv + 2 ^ 64 - 1)
        freeSectors := u64 (drv.sectorCount + 2 ^ 64 - catalogSectors drv.fSectorSz) } := by
  have hr := h.recorded
  rw [hs.start] at hr
  have hcs := hs.catalogSectors_le
  apply Counters.ext
  · refine hr.start.trans ?_
    rw [hs.start]
    apply u64_of_lt
    show 1024 + _ < _
    omega
  · exact hr.diskSize
  · exact hr.count
  · exact hr.free
  · exact hr.sectors

theorem Formatted.mounted (hs : SectorAddressed drv) (h : Formatted drv partName d₀ d) :
    Mounted drv d.bytes := by
  have hlt := catalogEntries_lt drv
  constructor
  · rw [h.counters hs]
  · rw [h.counters hs]
    show catalogEntries drv = 0 ∨ catalogEntries drv + u64 _ < _
    by_cases h₀ : catalogEntries drv = 0
    · exact .inl h₀
    · right
      unfold u64
      omega

/-- The slots a loop comes to, when none of them wraps. -/
theorem nextSlot_iterate {limit a j : Nat} (hlimit : limit + catalogSectors drv.fSectorSz ≤ 2 ^ 64)
    (ha : a < limit) (hj : ∀ i < j, (nextSlot drv)^[i + 1] a < limit) {i : Nat} (hi : i ≤ j) :
    (nextSlot drv)^[i] a = a + i * catalogSectors drv.fSectorSz := by
  induction i with
  | zero => simp
  | succ i ih =>
      have hlt : a + i * catalogSectors drv.fSectorSz < limit := by
        cases i with
        | zero => simpa using ha
        | succ i =>
            have := hj i (by omega)
            rwa [ih (by omega)] at this
      rw [Function.iterate_succ_apply', ih (by omega)]
      show u64 (a + i * _ + _) = _
      rw [u64_of_lt (by omega), Nat.add_mul, Nat.one_mul, Nat.add_assoc]

/-- Where the slot loop ends on a mounted partition. -/
theorem Mounted.slotLimit (hs : SectorAddressed drv) (hm : Mounted drv m) :
    slotLimit drv (partBlock drv m) =
        firstCatalog drv + (counters drv m).catalogCount * catalogSectors drv.fSectorSz ∧
      (counters drv m).catalogCount < 2 ^ 60 := by
  have hcs := hs.catalogSectors_le
  have hcount : (counters drv m).catalogCount < 2 ^ 60 := by
    rcases hm.small with h | h <;> omega
  have hmul : (counters drv m).catalogCount * catalogSectors drv.fSectorSz ≤
      (counters drv m).catalogCount * 2 := Nat.mul_le_mul_left _ hcs
  refine ⟨?_, hcount⟩
  show u64 ((counters drv m).startCatalog + u64 ((counters drv m).catalogCount * _)) = _
  rw [hm.start, u64_of_lt (show (counters drv m).catalogCount * _ < 2 ^ 64 by omega)]
  apply u64_of_lt
  show 1024 + _ + _ < _
  omega

theorem IsHit.first {hit : Nat × Store} (h : IsHit drv m name hit) (hm : Mounted drv m) :
    firstCatalog drv ≤ hit.1 := by
  have := h.start
  rwa [show NefsRootPartitionBlock.startCatalog.get (partBlock drv m) = firstCatalog drv
    from hm.start] at this

/-- Where the record of a new catalog goes on a mounted partition: to the first free slot from
`outLba` on. -/
theorem Stores.slot_cases (hs : SectorAddressed drv) (hm : Mounted drv m)
    (h : Stores drv m name kind outLba startFree) :
    firstCatalog drv ≤ outLba ∧
      startFree <
        firstCatalog drv + (counters drv m).catalogCount * catalogSectors drv.fSectorSz ∧
      created (NefsCatalogStruct.flags.get (slice m (drv.fAddress startFree))) = false ∧
      ∃ j, startFree = outLba + j * catalogSectors drv.fSectorSz ∧
        ∀ i < j, created (NefsCatalogStruct.flags.get
          (slice m (drv.fAddress (outLba + i * catalogSectors drv.fSectorSz)))) = true := by
  have hcs := hs.catalogSectors_le
  obtain ⟨hlimit, hcount⟩ := hm.slotLimit hs
  have hmul : (counters drv m).catalogCount * catalogSectors drv.fSectorSz ≤
      (counters drv m).catalogCount * 2 := Nat.mul_le_mul_left _ hcs
  have hout : firstCatalog drv ≤ outLba := by
    obtain ⟨p, -, ⟨r, hr, -⟩ | ⟨-, hr⟩⟩ := h.search.parent
    · exact (lookup_hit hr).first hm
    · exact (hr.trans hm.start).ge
  obtain ⟨-, hfree, hin, hlt, j, hj, hpassed⟩ := findSlot_free h.slot
  have hpos {i : Nat} (hi : i ≤ j) :
      (nextSlot drv)^[i] outLba = outLba + i * catalogSectors drv.fSectorSz := by
    refine nextSlot_iterate ?_ hin (fun i hi => (hpassed i hi).1) hi
    rw [hlimit]
    show 1024 + _ + _ + _ ≤ _
    omega
  refine ⟨hout, hlimit ▸ hlt, hfree, j, hj.trans (hpos (Nat.le_refl j)), fun i hi => ?_⟩
  have := (hpassed i hi).2
  rwa [hpos (Nat.le_of_lt hi)] at this

/-- The slot is not in front of the first catalog. -/
theorem Stores.first (hs : SectorAddressed drv) (hm : Mounted drv m)
    (h : Stores drv m name kind outLba startFree) : firstCatalog drv ≤ startFree := by
  obtain ⟨hout, -, -, j, hj, -⟩ := h.slot_cases hs hm
  omega

/-- A creation needs a slot, so there was a catalog to count. -/
theorem Stores.small (hs : SectorAddressed drv) (hm : Mounted drv m)
    (h : Stores drv m name kind outLba startFree) :
    (counters drv m).catalogCount + (counters drv m).freeCatalog < 2 ^ 60 := by
  obtain ⟨hout, hlt, -, j, hj, -⟩ := h.slot_cases hs hm
  rcases hm.small with h₀ | h₀
  · rw [h₀, Nat.zero_mul] at hlt
    omega
  · exact h₀

/-- The counters after the creation of a record in a slot. -/
theorem Stores.counters (hs : SectorAddressed drv) (hm : Mounted drv m)
    (h : Stores drv m name kind outLba startFree) :
    counters drv (storedBytes drv name flags kind outLba startFree m) =
      (counters drv m).store drv := counters_storedBytes hs (h.first hs hm)

theorem Stores.mounted (hs : SectorAddressed drv) (hm : Mounted drv m)
    (h : Stores drv m name kind outLba startFree) :
    Mounted drv (storedBytes drv name flags kind outLba startFree m) := by
  have hsmall := h.small hs hm
  have hroom : 1 ≤ (NeFS.counters drv m).freeCatalog := h.room
  refine ⟨?_, .inr ?_⟩
  · rw [h.counters hs hm]
    exact hm.start
  · rw [h.counters hs hm]
    show u64 _ + u64 _ < _
    unfold u64
    omega

theorem Removes.first (hm : Mounted drv d.bytes) (h : Removes drv d d' name outLba m') :
    firstCatalog drv ≤ outLba := (lookup_hit h.found).first hm

theorem Removes.mounted (hs : SectorAddressed drv) (hm : Mounted drv d.bytes)
    (h : Removes drv d d' name outLba m') : Mounted drv d'.bytes := by
  have hc := h.counters hs (h.first hm)
  constructor
  · rw [hc]
    exact hm.start
  · rw [hc]
    show _ - 1 = 0 ∨ _ - 1 + _ < _
    rcases hm.small with h₀ | h₀
    · exact .inl (by omega)
    · exact .inr (by show _ - 1 + (NeFS.counters drv d.bytes).freeCatalog < _; omega)

/-! ## Histories -/

/-- A disk and what a run has done on it: the paths whose catalogs it has stored and the LBAs they
went to, the LBAs of the catalogs it has stored and not removed, and how often it has removed. -/
structure History where
  disk : Disk
  stored : List (CString × Nat)
  live : List Nat
  removed : Nat

/-- A call of `CreateCatalog` or `RemoveCatalog`. -/
inductive CatalogCall where
  | create (name : CString) (flags kind : Nat)
  | remove (name : CString)

/-- The history after a call. -/
def CatalogCall.run (drv : DriveTrait) : CatalogCall → History → Option History
  | .create name flags kind, s => do
      let (r, d) ← createCatalogAt drv name flags kind s.disk
      match r with
      | .stored startFree _ =>
          some { s with
            disk := d
            stored := (name, startFree) :: s.stored
            live := startFree :: s.live }
      | _ => some { s with disk := d }
  | .remove name, s => do
      let (res, d) ← removeCatalog drv name s.disk
      if res then
        let found ← lookup drv s.disk.bytes name true true
        some { s with
          disk := d
          live := s.live.filter fun lba => found.map Prod.fst ≠ some lba
          removed := s.removed + 1 }
      else some { s with disk := d }

/-- A call as a step. -/
def CatalogStep (drv : DriveTrait) (s : History) (c : CatalogCall) (s' : History) : Prop :=
  c.run drv s = some s'

/-- The history before the first call. -/
def History.start (d : Disk) : History := ⟨d, [], [], 0⟩

/-- A step that changes nothing. -/
structure Kept (s s' : History) : Prop where
  bytes : s'.disk.bytes = s.disk.bytes
  stored : s'.stored = s.stored
  live : s'.live = s.live
  removed : s'.removed = s.removed

/-- The call has nothing to do. -/
def Refused (drv : DriveTrait) (s : History) : CatalogCall → Prop
  | .create name _ kind => ∀ outLba startFree, ¬ Stores drv s.disk.bytes name kind outLba startFree
  | .remove name => name = kNeFSRoot ∨ lookup drv s.disk.bytes name true true = some none

/-- A step that stores a record. -/
structure Stored (drv : DriveTrait) (s s' : History) (name : CString)
    (flags kind outLba startFree : Nat) : Prop where
  stores : Stores drv s.disk.bytes name kind outLba startFree
  bytes : s'.disk.bytes = storedBytes drv name flags kind outLba startFree s.disk.bytes
  stored : s'.stored = (name, startFree) :: s.stored
  live : s'.live = startFree :: s.live
  removed : s'.removed = s.removed

/-- A step that removes a catalog. -/
structure Removed (drv : DriveTrait) (s s' : History) (name : CString) (outLba : Nat)
    (m' : Store) : Prop where
  removes : Removes drv s.disk s'.disk name outLba m'
  stored : s'.stored = s.stored
  live : s'.live = s.live.filter (· ≠ outLba)
  removed : s'.removed = s.removed + 1

variable {s s' : History} {c : CatalogCall}

/-- **What a step can do.** -/
theorem CatalogStep.cases (h : CatalogStep drv s c s') :
    (Kept s s' ∧ Refused drv s c) ∨
      (∃ name flags kind outLba startFree, c = .create name flags kind ∧
        Stored drv s s' name flags kind outLba startFree) ∨
      ∃ name outLba m', c = .remove name ∧ Removed drv s s' name outLba m' := by
  unfold CatalogStep at h
  cases c with
  | create name flags kind =>
      obtain ⟨⟨r, d⟩, hr, h⟩ := Option.bind_eq_some_iff.mp h
      obtain ⟨-, ⟨hb, hno⟩ | ⟨outLba, startFree, hst, rfl, hb⟩⟩ := createCatalogAt_cases hr
      · have hrefused : Refused drv s (.create name flags kind) := by
          intro outLba startFree hst
          obtain ⟨tmp, d', hr'⟩ := hst.createCatalogAt flags
          rw [hr] at hr'
          rcases hno with rfl | ⟨tmp, -, rfl, -⟩ <;> cases hr'
        left
        rcases hno with rfl | ⟨tmp, -, rfl, -⟩ <;> cases h <;> exact ⟨⟨hb, rfl, rfl, rfl⟩, hrefused⟩
      · cases h
        exact .inr (.inl ⟨name, flags, kind, outLba, startFree, rfl, hst, hb, rfl, rfl, rfl⟩)
  | remove name =>
      obtain ⟨⟨res, d⟩, hr, h⟩ := Option.bind_eq_some_iff.mp h
      obtain ⟨-, ⟨rfl, hb, hno⟩ | ⟨rfl, outLba, m', hrem⟩⟩ := removeCatalog_cases hr
      · cases h
        exact .inl ⟨⟨hb, rfl, rfl, rfl⟩, hno⟩
      · simp only [if_true, hrem.found] at h
        cases h
        refine .inr (.inr ⟨name, outLba, m', rfl, hrem, rfl, ?_, rfl⟩)
        apply List.filter_congr
        intro lba _
        simp [eq_comm]

theorem CatalogStep.mounted (hs : SectorAddressed drv) (hm : Mounted drv s.disk.bytes)
    (h : CatalogStep drv s c s') : Mounted drv s'.disk.bytes := by
  rcases h.cases with ⟨hk, -⟩ | ⟨name, flags, kind, outLba, startFree, -, hst⟩ | ⟨name, outLba, m', -, hr⟩
  · rwa [hk.bytes]
  · rw [hst.bytes]
    exact hst.stores.mounted hs hm
  · exact hr.removes.mounted hs hm

/-- Every disk a run reaches is mounted. -/
theorem reach_mounted (hs : SectorAddressed drv) (hf : Formatted drv partName d₀ d)
    {ok : History → CatalogCall → Prop} (h : Reach (CatalogStep drv) ok (.start d) s) :
    Mounted drv s.disk.bytes :=
  h.inv (hf.mounted hs) fun _ _ _ hm _ hst => hst.mounted hs hm

end NeKernel.NeFS
