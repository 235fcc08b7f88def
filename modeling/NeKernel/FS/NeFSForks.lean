import NeKernel.FS.NeFSPaths

/-!
# Forks without a size

`CreateCatalog` puts the forks of a catalog behind the row of catalogs and gives them no size, and
`CreateFork` does not change that: it links the fork and leaves the record of its catalog alone.
So `WriteCatalog` and `ReadCatalog`, which go by the sizes in the record, refuse every fork of a
catalog that has been created on a drive that was blank when it was formatted.
-/

namespace NeKernel.NeFS

open ByteStore Scan Runs

variable {drv : DriveTrait} {m m' r part theFork theFork' : Store} {d d' d₀ d₁ d₂ : Disk}
  {name partName theForkName p q : CString} {s : History} {c : CatalogCall}
  {flags kind n lba outLba startFree i j : Nat} {rsrc : Bool} {paths : List (CString × Nat)}

/-! ## Where the forks go -/

/-- `DataFork` and `ResourceFork` of the catalog that goes to `lba`. -/
def forkLba (drv : DriveTrait) (lba : Nat) : Nat :=
  u64 (u64 (drv.sectorCount * drv.fSectorSz) + 2 ^ 64 - lba)

theorem slotLba_le (hs : SectorAddressed drv) (i : Nat) : slotLba drv i ≤ 1026 + 2 * i := by
  have hcs := hs.catalogSectors_le
  have hmul : i * catalogSectors drv.fSectorSz ≤ i * 2 := Nat.mul_le_mul_left _ hcs
  show 1024 + _ + _ ≤ _
  omega

/-- A fork that the parser accepts lies behind every slot of the partition. -/
theorem forkLba_behind (hs : SectorAddressed drv) (hi : i + 2 ≤ n) (hn : n ≤ catalogEntries drv)
    (h : kNeFSCatalogStartAddress ≤ forkLba drv (slotLba drv i)) :
    slotLba drv n ≤ forkLba drv (slotLba drv i) := by
  have hlba := slotLba_le hs i
  have hend := slotLba_le hs n
  have hlt := catalogEntries_lt drv
  have hdisk : catalogEntries drv * 535 ≤ u64 (drv.sectorCount * drv.fSectorSz) :=
    Nat.div_mul_le_self _ _
  have hlt' := u64_lt (drv.sectorCount * drv.fSectorSz)
  have h' : 1536 ≤ forkLba drv (slotLba drv i) := h
  unfold forkLba at *
  generalize u64 (drv.sectorCount * drv.fSectorSz) = size at *
  unfold u64 at *
  -- a partition with at most 255 catalogs ends below 1536, and a larger one is mostly room
  omega

/-- The forks of different slots are apart. -/
theorem forkLba_inj (hi : slotLba drv i < 2 ^ 63) (hj : slotLba drv j < 2 ^ 63)
    (h : forkLba drv (slotLba drv i) = forkLba drv (slotLba drv j)) :
    slotLba drv i = slotLba drv j := by
  have hlt := u64_lt (drv.sectorCount * drv.fSectorSz)
  unfold forkLba at h
  generalize u64 (drv.sectorCount * drv.fSectorSz) = size at *
  unfold u64 at h
  omega

/-- The record at `lba` gives its forks no size and has both at the same place. -/
structure NoSize (drv : DriveTrait) (m : Store) (lba : Nat) : Prop where
  data : NefsCatalogStruct.dataForkSize.get (slice m (drv.fAddress lba)) = 0
  resource : NefsCatalogStruct.resourceForkSize.get (slice m (drv.fAddress lba)) = 0
  dataFork : NefsCatalogStruct.dataFork.get (slice m (drv.fAddress lba)) = forkLba drv lba
  resourceFork : NefsCatalogStruct.resourceFork.get (slice m (drv.fAddress lba)) = forkLba drv lba

theorem NoSize.congr (h : NoSize drv m lba) (hm : ∀ i, 459 ≤ i → i < NefsCatalogStruct.size →
    slice m' (drv.fAddress lba) i = slice m (drv.fAddress lba) i) : NoSize drv m' lba := by
  have hfield {f : Field} (h₁ : 459 ≤ f.off) (h₂ : f.off + f.width ≤ NefsCatalogStruct.size) :
      f.get (slice m' (drv.fAddress lba)) = f.get (slice m (drv.fAddress lba)) :=
    Field.get_congr fun i hi => hm _ (by omega) (by omega)
  constructor
  · rw [hfield (by decide) (by decide)]
    exact h.data
  · rw [hfield (by decide) (by decide)]
    exact h.resource
  · rw [hfield (by decide) (by decide)]
    exact h.dataFork
  · rw [hfield (by decide) (by decide)]
    exact h.resourceFork

/-- The size `WriteCatalog` and `ReadCatalog` take from the record. -/
theorem NoSize.size (h : NoSize drv m lba) (rsrc : Bool) :
    (forkOfCatalog (slice m (drv.fAddress lba)) rsrc).1 = 0 := by
  unfold forkOfCatalog
  split
  · exact h.resource
  · exact h.data

/-- The record of a new catalog. -/
theorem NoSize.stored (hblock : drv.fAddress kNeFSRootCatalogStartAddress +
    NefsRootPartitionBlock.size ≤ drv.fAddress startFree)
    (hsize : (counters drv m).diskSize = u64 (drv.sectorCount * drv.fSectorSz)) :
    NoSize drv (storedBytes drv name flags kind outLba startFree m) startFree := by
  have hfield {f : Field} (hf : f.off + f.width ≤ NefsCatalogStruct.size) :
      f.get (slice (storedBytes drv name flags kind outLba startFree m)
        (drv.fAddress startFree)) = f.get (placedCatalog drv (partBlock drv m)
          (childCatalog name flags kind outLba) startFree) :=
    Field.get_congr fun i hi => storedBytes_record hblock (by omega)
  have hfork : forkLba drv startFree =
      u64 (NefsRootPartitionBlock.diskSize.get (partBlock drv m) + 2 ^ 64 - startFree) := by
    unfold forkLba
    rw [← hsize]
    rfl
  constructor
  · rw [hfield (by decide)]
    unfold placedCatalog childCatalog
    simp (disch := decide) only [Field.get_set_of_apart]
    rw [rtCopyMemorySafe_get (by decide)]
    simp (disch := decide) only [Field.get_set_of_apart, Field.get_zeros]
  · rw [hfield (by decide)]
    unfold placedCatalog childCatalog
    simp (disch := decide) only [Field.get_set_of_apart]
    rw [rtCopyMemorySafe_get (by decide)]
    simp (disch := decide) only [Field.get_set_of_apart, Field.get_zeros]
  · rw [hfield (by decide), hfork]
    unfold placedCatalog
    simp (disch := decide) only [Field.get_set_of_apart, Field.get_set_same]
    exact mod_u64
  · rw [hfield (by decide), hfork]
    unfold placedCatalog
    simp (disch := decide) only [Field.get_set_same]
    exact mod_u64

/-! ## What creations and removals keep -/

/-- Behind the row of catalogs there is nothing but the marks removals have left on forks. -/
structure Unforked (drv : DriveTrait) (m : Store) (paths : List (CString × Nat)) : Prop where
  size : (counters drv m).diskSize = u64 (drv.sectorCount * drv.fSectorSz)
  room : (paths = [] ∧ (counters drv m).catalogCount = 0) ∨
    paths.length + (counters drv m).freeCatalog < catalogEntries drv
  noSize : ∀ x ∈ paths, NoSize drv m x.2
  blank : ∀ x, drv.fAddress (slotLba drv paths.length) ≤ x → m x ≠ 0 →
    ∃ y ∈ paths, x = drv.fAddress (forkLba drv y.2) + 456

theorem FormattedBlank.unforked (h : FormattedBlank drv partName d₀ d) (hs : SectorAddressed drv) :
    Unforked drv d.bytes [] := by
  have hc := h.counters hs
  have hlt := catalogEntries_lt drv
  refine ⟨by rw [hc], ?_, fun x hx => (List.not_mem_nil hx).elim, fun x hx hne => ?_⟩
  · rw [hc]
    show ([] = [] ∧ catalogEntries drv = 0) ∨ 0 + u64 (catalogEntries drv + 2 ^ 64 - 1) < _
    by_cases h₀ : catalogEntries drv = 0
    · exact .inl ⟨rfl, h₀⟩
    · right
      unfold u64
      omega
  · rw [List.length_nil, slotLba_zero] at hx
    exact absurd (h.bytes_zero hs hx) hne

/-- There are slots behind the last one of a row. -/
theorem Unforked.room_of_stores (h : Unforked drv m paths) (hs : SectorAddressed drv)
    (hm : Mounted drv m) (hst : Stores drv m name kind outLba startFree) :
    paths.length + 2 ≤ catalogEntries drv ∧
      paths.length + (counters drv m).freeCatalog < catalogEntries drv := by
  have hroom : 1 ≤ (counters drv m).freeCatalog := hst.room
  rcases h.room with ⟨-, h₀⟩ | h₁
  · obtain ⟨hout, hlt, -, j, hj, -⟩ := hst.slot_cases hs hm
    rw [h₀, Nat.zero_mul] at hlt
    omega
  · exact ⟨by omega, h₁⟩

/-- A creation keeps it. -/
theorem Unforked.stores (h : Unforked drv m paths) (hs : SectorAddressed drv)
    (hrow : Row drv m paths) (hst : Stores drv m name kind outLba startFree) :
    Unforked drv (storedBytes drv name flags kind outLba startFree m)
      (paths ++ [(name, startFree)]) := by
  have hslot := hrow.slot hs hst
  have hc : counters drv (storedBytes drv name flags kind outLba startFree m) =
      (counters drv m).store drv := hst.counters hs hrow.mounted
  have hblock := hs.block_below (hst.first hs hrow.mounted)
  obtain ⟨-, hroom⟩ := h.room_of_stores hs hrow.mounted hst
  have hfree : 1 ≤ (counters drv m).freeCatalog := hst.room
  refine ⟨by rw [hc]; exact h.size, .inr ?_, fun x hx => ?_, fun x hx hne => ?_⟩
  · rw [hc, List.length_append, List.length_singleton]
    show _ + u64 ((counters drv m).freeCatalog + 2 ^ 64 - 1) < _
    have hlt := catalogEntries_lt drv
    unfold u64
    omega
  · rcases List.mem_append.mp hx with hx | hx
    · obtain ⟨i, hi⟩ := List.mem_iff_getElem?.mp hx
      have hlen : i + 1 ≤ paths.length := (List.getElem?_eq_some_iff.mp hi).1
      obtain ⟨hlba, -⟩ := hrow.holds i x.1 x.2 hi
      have hend := hs.slot_end (slotLba_mono hlen)
      have hbelow := hs.block_below (first_le_slotLba i)
      refine (h.noSize x hx).congr fun k _ hk => ?_
      rw [hlba]
      apply storedBytes_apply
      · left
        rw [hslot]
        omega
      · omega
    · -- the new catalog has no size, those before it are not touched
      obtain rfl : x = (name, startFree) := List.mem_singleton.mp hx
      exact NoSize.stored hblock h.size
  · rw [List.length_append, List.length_singleton] at hx
    have hend := hs.slot_end (Nat.le_refl (slotLba drv (paths.length + 1)))
    have hmono : drv.fAddress (slotLba drv paths.length) ≤
        drv.fAddress (slotLba drv (paths.length + 1)) :=
      hs.address_le (slotLba_mono (Nat.le_succ _))
    rw [hslot] at hblock
    rw [storedBytes_apply (by rw [hslot]; omega) (by omega)] at hne
    obtain ⟨y, hy, hxy⟩ := h.blank x (hmono.trans hx) hne
    exact ⟨y, List.mem_append_left _ hy, hxy⟩

/-- What `RemoveCatalog` does to the forks. -/
theorem removeCatalog_forks (h : removeCatalog drv name d = some (true, d')) :
    ∃ hit d₁ d₂ d₃, lookup drv d.bytes name true true = some (some hit) ∧ d₁.bytes = d.bytes ∧
      removeForks drv scanFuel (NefsCatalogStruct.dataFork.get hit.2) d₁ = some d₂ ∧
      removeForks drv scanFuel (NefsCatalogStruct.resourceFork.get hit.2) d₂ = some d₃ ∧
      d'.bytes = removedBytes drv hit.1 hit.2 d₃.bytes := by
  unfold removeCatalog at h
  split at h
  · cases h
  obtain ⟨⟨found, d₁⟩, h₁, h⟩ := Option.bind_eq_some_iff.mp h
  obtain ⟨hb₁, -, -⟩ := findCatalog_reads _ _ _ h₁
  cases found with
  | none => cases h
  | some hit =>
      simp only [Option.bind_eq_bind] at h
      obtain ⟨d₂, h₂, h⟩ := Option.bind_eq_some_iff.mp h
      obtain ⟨d₃, h₃, h⟩ := Option.bind_eq_some_iff.mp h
      rw [if_pos (.inr (findCatalog_hit h₁).created)] at h
      cases h
      exact ⟨hit, d₁, d₂, d₃, lookup_iff.mpr ⟨d₁, h₁⟩, hb₁, h₂, h₃, rfl⟩

/-- The loop over the forks marks the first one and ends, when that one is linked to nothing. -/
theorem removeForks_once {fork : Nat} (hnext : kNeFSCatalogStartAddress ≤ fork →
      NefsForkStruct.nextSibling.get (slice d.bytes (drv.fAddress fork)) = 0)
    (h : removeForks drv scanFuel fork d = some d') {x : Nat} (hx : d'.bytes x ≠ d.bytes x) :
    kNeFSCatalogStartAddress ≤ fork ∧ x = drv.fAddress fork + 456 := by
  obtain ⟨fuel, hfuel⟩ : ∃ fuel, scanFuel = fuel + 2 := by
    unfold scanFuel
    exact ⟨2 ^ 64 - 2, rfl⟩
  rw [hfuel, removeForks] at h
  split at h
  · cases h
    exact absurd rfl hx
  next hfork =>
  have hfork' : kNeFSCatalogStartAddress ≤ fork := Nat.le_of_not_lt hfork
  refine ⟨hfork', ?_⟩
  simp only [Disk.fInput] at h
  rw [Field.get_set_of_apart (by decide), hnext hfork', removeForks, if_pos (by decide)] at h
  cases h
  by_contra hno
  exact hx (markFork_apply hno)

/-- A removal keeps it. -/
theorem Unforked.removes (h : Unforked drv d.bytes paths) (hs : SectorAddressed drv)
    (hrow : Row drv d.bytes paths) (hr : Removes drv d d' name outLba m')
    (hd : removeCatalog drv name d = some (true, d')) : Unforked drv d'.bytes paths := by
  have hc := hr.counters hs (hr.first hrow.mounted)
  have hsame := hr.sameChain hs hrow.mounted
  have hstart : NefsRootPartitionBlock.startCatalog.get (partBlock drv d.bytes) =
      firstCatalog drv := hrow.mounted.start
  obtain ⟨hit, d₁, d₂, d₃, hl, hb₁, h₂, h₃, hb⟩ := removeCatalog_forks hd
  obtain ⟨found, hwalk, hl'⟩ := hrow.lined.lookup_walk (lookup_walks hl)
  rw [hl] at hl'
  cases hl'
  cases hwalk with
  | @found i p hi hget hend =>
  have hmem : (p, slotLba drv i) ∈ paths := List.mem_of_getElem? hget
  have hlen : i + 1 ≤ paths.length := (List.getElem?_eq_some_iff.mp hget).1
  have hno := h.noSize _ hmem
  have hroom : paths.length < catalogEntries drv := by
    rcases h.room with ⟨rfl, -⟩ | h₁
    · cases hmem
    · omega
  refine ⟨by rw [hc]; exact h.size, ?_, fun x hx => ?_, fun x hx hne => ?_⟩
  · rw [hc]
    rcases h.room with ⟨h₁, h₂⟩ | h₁
    · exact .inl ⟨h₁, by show _ - 1 = 0; omega⟩
    · exact .inr h₁
  · obtain ⟨j, hj⟩ := List.mem_iff_getElem?.mp hx
    obtain ⟨hlba, -⟩ := hrow.holds j x.1 x.2 hj
    rw [hlba]
    have hsame := hsame.catalog _ (hstart.trans_le (first_le_slotLba j))
    exact (hlba ▸ h.noSize x hx).congr fun k hk hk' => hsame.back k hk hk'
  · -- the fork of the record is linked to nothing, so it is the only one that gets a mark
    have hnext (e : Disk) (he : ∀ x, e.bytes x ≠ d.bytes x →
          x = drv.fAddress (forkLba drv (slotLba drv i)) + 456)
        (hfork : kNeFSCatalogStartAddress ≤ forkLba drv (slotLba drv i)) :
        NefsForkStruct.nextSibling.get
          (slice e.bytes (drv.fAddress (forkLba drv (slotLba drv i)))) = 0 := by
      have hbehind := hs.address_le ((slotLba_mono (Nat.le_succ paths.length)).trans
        (forkLba_behind hs (Nat.succ_le_succ hlen) hroom hfork))
      apply getLE_eq_zero_iff.mpr
      intro k hk
      have hk' : k < 8 := hk
      show e.bytes (drv.fAddress (forkLba drv (slotLba drv i)) + (496 + k)) = 0
      by_contra hne
      have hne' : d.bytes (drv.fAddress (forkLba drv (slotLba drv i)) + (496 + k)) ≠ 0 := by
        by_cases heq : e.bytes (drv.fAddress (forkLba drv (slotLba drv i)) + (496 + k)) =
            d.bytes (drv.fAddress (forkLba drv (slotLba drv i)) + (496 + k))
        · rwa [← heq]
        · have := he _ heq
          omega
      obtain ⟨y, -, hy⟩ := h.blank _ (by omega) hne'
      have := hs.mark_offset (by show 496 + k < 535; omega) hy
      omega
    have h₂ : removeForks drv scanFuel (forkLba drv (slotLba drv i)) d₁ = some d₂ :=
      hno.dataFork ▸ h₂
    have h₃ : removeForks drv scanFuel (forkLba drv (slotLba drv i)) d₂ = some d₃ :=
      hno.resourceFork ▸ h₃
    have hmark₂ : ∀ x, d₂.bytes x ≠ d.bytes x →
        x = drv.fAddress (forkLba drv (slotLba drv i)) + 456 := by
      intro x hx
      rw [← hb₁] at hx
      exact (removeForks_once (hnext d₁ fun x hx => absurd (congrFun hb₁ x) hx) h₂ hx).2
    have hmark₃ : ∀ x, d₃.bytes x ≠ d.bytes x →
        x = drv.fAddress (forkLba drv (slotLba drv i)) + 456 := by
      intro x hx
      by_cases heq : d₃.bytes x = d₂.bytes x
      · rw [heq] at hx
        exact hmark₂ x hx
      · exact (removeForks_once (hnext d₂ hmark₂) h₃ heq).2
    have hend := hs.slot_end (slotLba_mono hlen)
    have hbelow := hs.block_below (first_le_slotLba paths.length)
    have hb : d'.bytes = removedBytes drv (slotLba drv i)
        (slice d.bytes (drv.fAddress (slotLba drv i))) d₃.bytes := hb
    rw [hb, removedBytes, blit_apply_of_notMem (.inr (by omega)),
      blit_apply_of_notMem (.inr (by omega))] at hne
    by_cases heq : d₃.bytes x = d.bytes x
    · rw [heq] at hne
      exact h.blank x hx hne
    · exact ⟨_, hmem, hmark₃ x heq⟩

/-- The call behind a step that removes. -/
theorem CatalogStep.removeCatalog {s' : History} (h : CatalogStep drv s (.remove name) s')
    (hr : Removed drv s s' name outLba m') :
    removeCatalog drv name s.disk = some (true, s'.disk) := by
  obtain ⟨⟨res, d⟩, hrem, h⟩ := Option.bind_eq_some_iff.mp h
  cases res with
  | false =>
      cases h
      have := hr.removed
      simp at this
  | true =>
      obtain ⟨found, -, h⟩ := Option.bind_eq_some_iff.mp h
      cases h
      exact hrem

/-- A step of a run keeps it. -/
theorem CatalogStep.unforked {s' : History} (hs : SectorAddressed drv)
    (hrow : Row drv s.disk.bytes s.stored.reverse)
    (h : Unforked drv s.disk.bytes s.stored.reverse) (hst : CatalogStep drv s c s') :
    Unforked drv s'.disk.bytes s'.stored.reverse := by
  rcases hst.cases with ⟨hk, -⟩ | ⟨name, flags, kind, outLba, startFree, -, hstored⟩ |
    ⟨name, outLba, m', rfl, hr⟩
  · rwa [hk.bytes, hk.stored]
  · rw [hstored.bytes, hstored.stored, List.reverse_cons]
    exact h.stores hs hrow hstored.stores
  · rw [hr.stored]
    exact h.removes hs hrow hr.removes (hst.removeCatalog hr)

theorem reach_unforked (hs : SectorAddressed drv) (hf : FormattedBlank drv partName d₀ d)
    (h : Reachable (CatalogStep drv) (.start d) s) :
    Row drv s.disk.bytes s.stored.reverse ∧ Unforked drv s.disk.bytes s.stored.reverse :=
  h.inv (I := fun s => Row drv s.disk.bytes s.stored.reverse ∧
      Unforked drv s.disk.bytes s.stored.reverse) ⟨hf.row hs, hf.unforked hs⟩
    fun _ _ _ hI _ hst => ⟨hst.row hs hI.1, hst.unforked hs hI.1 hI.2⟩

/-! ## A fork of a new catalog -/

/-- A creation that returns a catalog has stored it. -/
theorem Row.created_stores (h : Row drv d.bytes paths) (hs : SectorAddressed drv) {tmp : Store}
    (hc : createCatalog drv name flags kind d = some (some tmp, d')) :
    ∃ outLba, Stores drv d.bytes name kind outLba (slotLba drv paths.length) ∧
      d'.bytes = storedBytes drv name flags kind outLba (slotLba drv paths.length) d.bytes := by
  obtain ⟨r, hr, hcat⟩ := createCatalog_at hc
  obtain ⟨-, ⟨-, rfl | ⟨c, outLba, -, hcomes⟩⟩ | ⟨outLba, startFree, hst, -, hb⟩⟩ :=
    createCatalogAt_cases hr
  · cases hcat
  · exact absurd hcomes.slot (h.not_existing hs hcomes.search)
  · obtain rfl := h.slot hs hst
    exact ⟨outLba, hst, hb⟩

/-- The path of a new catalog is found at its record, and nowhere else. -/
theorem Row.stores_lookup (h : Row drv m paths)
    (hst : Stores drv m name kind outLba startFree)
    (hl : Lined drv m' (paths ++ [(name, startFree)])) {hit : Nat × Store}
    (hhit : lookup drv m' name true true = some (some hit)) :
    hit = (startFree, slice m' (drv.fAddress startFree)) := by
  obtain ⟨found, hwalk, hl'⟩ := hl.lookup_walk (lookup_walks hhit)
  rw [hhit] at hl'
  cases hl'
  cases hwalk with
  | @found i p hi hget hend =>
  rcases List.mem_append.mp (List.mem_of_getElem? hget) with hold | hnew
  · -- the path has not been found before, so no earlier record is meant
    have hfound : Found drv m name false := by
      refine h.lined.found_iff.mpr ⟨⟨(lookup_walks hhit).1, by simp⟩, _, hold, hend⟩
    obtain ⟨hit', hbefore⟩ := hfound
    rw [hst.search.absent] at hbefore
    cases hbefore
  · obtain ⟨-, rfl⟩ := Prod.mk.inj (List.mem_singleton.mp hnew)
    rfl

/-- Where the fork of a new catalog goes there is no fork. -/
theorem Unforked.fork_free (h : Unforked drv m paths) (hs : SectorAddressed drv)
    (hrow : Row drv m paths) (hst : Stores drv m name kind outLba startFree)
    (hfork : kNeFSCatalogStartAddress ≤ forkLba drv startFree) :
    NefsForkStruct.flags.get (slice (storedBytes drv name flags kind outLba startFree m)
      (drv.fAddress (forkLba drv startFree))) = 0 := by
  have hslot := hrow.slot hs hst
  obtain ⟨hroom, -⟩ := h.room_of_stores hs hrow.mounted hst
  have hlt := catalogEntries_lt drv
  have hsmall {k : Nat} (hk : k ≤ paths.length) : slotLba drv k < 2 ^ 63 := by
    have := slotLba_le hs k
    omega
  subst hslot
  have hbehind := hs.address_le ((slotLba_mono (Nat.le_succ (paths.length + 1))).trans
    (forkLba_behind hs (Nat.le_refl _) hroom hfork))
  have hend := hs.slot_end (Nat.le_refl (slotLba drv (paths.length + 1)))
  have hbelow := hs.block_below (first_le_slotLba (paths.length + 1))
  apply getLE_eq_zero_iff.mpr
  intro k hk
  have hk' : k < 4 := hk
  show storedBytes drv name flags kind outLba _ m
    (drv.fAddress (forkLba drv (slotLba drv paths.length)) + (456 + k)) = 0
  rw [storedBytes_apply (by omega) (by omega)]
  by_contra hne
  have hmono : drv.fAddress (slotLba drv paths.length) ≤
      drv.fAddress (slotLba drv (paths.length + 1)) := hs.address_le (slotLba_mono (Nat.le_succ _))
  obtain ⟨y, hy, hxy⟩ := h.blank _ (by omega) hne
  -- a mark in this place would be on the fork of an earlier slot
  obtain rfl : k = 0 := by
    have := hs.mark_offset (by show 456 + k < 535; omega) hxy
    omega
  obtain ⟨i, hi⟩ := List.mem_iff_getElem?.mp hy
  obtain ⟨hlba, -⟩ := hrow.holds i y.1 y.2 hi
  have hi' : i < paths.length := (List.getElem?_eq_some_iff.mp hi).1
  have haddr : forkLba drv (slotLba drv paths.length) = forkLba drv (slotLba drv i) := by
    rw [hlba] at hxy
    have heq : drv.fAddress (forkLba drv (slotLba drv paths.length)) =
        drv.fAddress (forkLba drv (slotLba drv i)) := by omega
    rw [hs.address, hs.address] at heq
    exact Nat.eq_of_mul_eq_mul_right (by have := hs.sector'; omega) heq
  have heq := forkLba_inj (hsmall (Nat.le_refl _)) (hsmall (Nat.le_of_lt hi')) haddr
  have hlt : slotLba drv (i + 1) ≤ slotLba drv paths.length := slotLba_mono hi'
  have hpos := hs.catalogSectors_pos
  rw [slotLba_succ] at hlt
  omega

/-- Where there is no fork yet, `CreateFork` writes the fork there and nothing else. -/
theorem createFork_first (h : createFork drv theFork d = some (true, theFork', d')) :
    0 < NefsForkStruct.dataSize.get theFork ∧
    ∃ hit, lookup drv d.bytes (NefsForkStruct.catalogNameOf theFork) true true = some (some hit) ∧
      kNeFSCatalogStartAddress ≤ NefsCatalogStruct.dataFork.get hit.2 ∧
      (NefsForkStruct.flags.get
          (slice d.bytes (drv.fAddress (NefsCatalogStruct.dataFork.get hit.2))) = 0 →
        d'.bytes = blit d.bytes (drv.fAddress (NefsCatalogStruct.dataFork.get hit.2))
          NefsForkStruct.size theFork') := by
  obtain ⟨-, ⟨hfalse, -⟩ | ⟨-, outLba, catalog, d₁, place, d₂, hl, hlba, hb₁, hplace, -, hb⟩⟩ :=
    createFork_cases h
  · cases hfalse
  have hpos : NefsForkStruct.dataSize.get theFork ≠ 0 := by
    intro h₀
    rw [createFork, if_pos (.inr (.inr h₀))] at h
    cases h
  refine ⟨Nat.pos_of_ne_zero hpos, (outLba, catalog), hl, hlba, fun hfree => ?_⟩
  have hfree' : created (NefsForkStruct.flags.get
      (d₁.fInput drv (NefsCatalogStruct.dataFork.get catalog))) = false := by
    show created (NefsForkStruct.flags.get (slice d₁.bytes _)) = false
    rw [hb₁, hfree]
    rfl
  obtain ⟨fuel, hfuel⟩ : ∃ fuel, scanFuel = fuel + 1 := by
    unfold scanFuel
    exact ⟨2 ^ 64 - 1, rfl⟩
  rw [hfuel] at hplace
  simp only [findForkPlace, hfree', Bool.false_eq_true, if_false, if_pos hlba] at hplace
  cases hplace
  rw [hb, Disk.fOutput_bytes, hb₁, blit_blit_same]

/-- A write behind the row leaves what a walk comes to alone. -/
theorem Lined.blit (h : Lined drv m paths) (hs : SectorAddressed drv) {fork sz : Nat} {src : Store}
    (hfork : slotLba drv (paths.length + 1) ≤ fork) :
    Lined drv (blit m (drv.fAddress fork) sz src) paths := by
  have hend := hs.slot_end hfork
  have hsame {k : Nat} (hk : k ≤ paths.length) {i : Nat} (hi : i < NefsCatalogStruct.size) :
      slice (ByteStore.blit m (drv.fAddress fork) sz src) (drv.fAddress (slotLba drv k)) i =
        slice m (drv.fAddress (slotLba drv k)) i := by
    have hmono : drv.fAddress (slotLba drv k) ≤ drv.fAddress (slotLba drv paths.length) :=
      hs.address_le (slotLba_mono hk)
    exact blit_apply_of_notMem (.inl (by omega))
  have hc := counters_blit hs ((first_le_slotLba _).trans hfork) sz src (m := m)
  refine ⟨⟨?_, ?_⟩, h.short, fun i p lba hget => ?_, ?_, ?_⟩
  · rw [hc]
    exact h.mounted.start
  · rw [hc]
    exact h.mounted.small
  · obtain ⟨rfl, hh⟩ := h.holds i p lba hget
    have hi : i ≤ paths.length := Nat.le_of_lt (List.getElem?_eq_some_iff.mp hget).1
    exact ⟨rfl, hh.congr fun x hx => hsame hi hx⟩
  · rw [hsame (Nat.le_refl _) (by decide)]
    exact h.stop.name
  · have hflags : NefsCatalogStruct.flags.get (slice (ByteStore.blit m (drv.fAddress fork) sz src)
          (drv.fAddress (slotLba drv paths.length))) =
        NefsCatalogStruct.flags.get (slice m (drv.fAddress (slotLba drv paths.length))) :=
      Field.get_congr fun i hi => hsame (Nat.le_refl _) (by
        have hi' : i < 2 := hi
        show 457 + i < 535
        omega)
    rw [hflags]
    exact h.stop.free

/-! ## Writing to it and reading from it -/

/-- `WriteCatalog` refuses a catalog that gives its forks no size. -/
theorem writeCatalog_noSize {hit : Nat × Store} (theForkName : CString) (data : Store)
    (hl : lookup drv d.bytes name true true = some (some hit)) (hn : 0 < n)
    (h₀ : (forkOfCatalog hit.2 rsrc).1 = 0) :
    ∃ d', writeCatalog drv name rsrc data n theForkName d = some (false, d') ∧
      d'.bytes = d.bytes := by
  obtain ⟨d₁, h₁⟩ := lookup_iff.mp hl
  refine ⟨d₁, ?_, (findCatalog_reads _ _ _ h₁).1⟩
  have hvalid : isValidSize n (forkOfCatalog hit.2 rsrc).1 = false := by
    rw [h₀]
    unfold isValidSize
    simp [Nat.pos_iff_ne_zero.mp hn]
  simp [writeCatalog, getCatalog, h₁, show ¬ n < 1 by omega, hvalid]

/-- So does `ReadCatalog`. -/
theorem readCatalog_noSize {catalog : Store} (d : Disk) (theForkName : CString) (hn : 0 < n)
    (h₀ : (forkOfCatalog catalog rsrc).1 = 0) :
    readCatalog drv (some catalog) rsrc n theForkName d = some (none, d) := by
  have hvalid : isValidSize n (forkOfCatalog catalog rsrc).1 = false := by
    rw [h₀]
    unfold isValidSize
    simp [Nat.pos_iff_ne_zero.mp hn]
  simp [readCatalog, hvalid]

/-- The data is written to the fork and read back from it. -/
def RoundTrips (drv : DriveTrait) (d : Disk) (name theForkName : CString) (isRsrcFork : Bool)
    (data : Store) (n : Nat) : Prop :=
  ∃ d₁ hit d₂ buf d₃, writeCatalog drv name isRsrcFork data n theForkName d = some (true, d₁) ∧
    getCatalog drv name d₁ = some (some hit, d₂) ∧
    readCatalog drv (some hit.2) isRsrcFork n theForkName d₂ = some (some buf, d₃) ∧
    ∀ i < n, buf i = data i

/-- **No fork of a new catalog can be written or read.** On every disk that creations and removals
reach, after `CreateCatalog` of a path and `CreateFork` of a fork of that path with `n` bytes have
succeeded, `WriteCatalog` of `n` bytes to the fork returns false, whatever the bytes are, and
`ReadCatalog` of `n` bytes of it returns nothing. -/
theorem fork_never_written (hs : SectorAddressed drv) (hf : FormattedBlank drv partName d₀ d)
    (h : Reachable (CatalogStep drv) (.start d) s) {tmp : Store}
    (hc : createCatalog drv name flags kind s.disk = some (some tmp, d₁))
    (hname : NefsForkStruct.catalogNameOf theFork = name)
    (hn : NefsForkStruct.dataSize.get theFork = n)
    (hfork : createFork drv theFork d₁ = some (true, theFork', d₂)) (rsrc : Bool) (data : Store) :
    ¬ RoundTrips drv d₂ name (NefsForkStruct.forkNameOf theFork) rsrc data n ∧
      ∃ d₃ hit d₄,
        writeCatalog drv name rsrc data n (NefsForkStruct.forkNameOf theFork) d₂ =
          some (false, d₃) ∧
        getCatalog drv name d₃ = some (some hit, d₄) ∧
        readCatalog drv (some hit.2) rsrc n (NefsForkStruct.forkNameOf theFork) d₄ =
          some (none, d₄) := by
  obtain ⟨hrow, hun⟩ := reach_unforked hs hf h
  obtain ⟨outLba, hst, hb₁⟩ := hrow.created_stores hs hc
  generalize s.stored.reverse = paths at *
  obtain ⟨hroom, -⟩ := hun.room_of_stores hs hrow.mounted hst
  have hrow' : Row drv d₁.bytes (paths ++ [(name, slotLba drv paths.length)]) := by
    rw [hb₁]
    exact hrow.stores hs hst
  have hno : NoSize drv d₁.bytes (slotLba drv paths.length) := by
    rw [hb₁]
    exact (hun.stores hs hrow hst).noSize _ (List.mem_append_right _ (List.mem_singleton_self _))
  -- the fork belongs to the new record, and there is none before it
  obtain ⟨hpos, hit, hl, hlba, hbytes⟩ := createFork_first hfork
  rw [hname] at hl
  obtain rfl := hrow.stores_lookup hst hrow'.lined hl
  simp only [hno.dataFork] at hlba hbytes
  have hb₂ : d₂.bytes = blit d₁.bytes (drv.fAddress (forkLba drv (slotLba drv paths.length)))
      NefsForkStruct.size theFork' := by
    apply hbytes
    rw [hb₁]
    exact hun.fork_free hs hrow hst hlba
  have hbehind := forkLba_behind hs (Nat.le_refl _) hroom hlba
  have hlined : Lined drv d₂.bytes (paths ++ [(name, slotLba drv paths.length)]) := by
    rw [hb₂]
    apply hrow'.lined.blit hs
    rwa [List.length_append, List.length_singleton]
  have hno₂ : NoSize drv d₂.bytes (slotLba drv paths.length) := by
    have hend := hs.slot_end ((slotLba_mono (Nat.le_succ (paths.length + 1))).trans hbehind)
    rw [hb₂]
    exact hno.congr fun i _ hi => blit_apply_of_notMem (.inl (by omega))
  -- so the path leads to the same record as before, without a size for the fork
  obtain ⟨hit, hl₂⟩ : Found drv d₂.bytes name true :=
    hlined.found_iff.mpr (hrow'.lined.found_iff.mp ⟨_, hl⟩)
  obtain rfl := hrow.stores_lookup hst hlined hl₂
  obtain ⟨d₃, hw, hb₃⟩ := writeCatalog_noSize (NefsForkStruct.forkNameOf theFork) data hl₂
    (hn ▸ hpos) (hno₂.size rsrc)
  have hl₃ := hl₂
  rw [← hb₃] at hl₃
  obtain ⟨d₄, hg⟩ := lookup_iff.mp hl₃
  have hr : readCatalog drv (some (slice d₃.bytes (drv.fAddress (slotLba drv paths.length)))) rsrc n
      (NefsForkStruct.forkNameOf theFork) d₄ = some (none, d₄) := by
    rw [hb₃]
    exact readCatalog_noSize d₄ _ (hn ▸ hpos) (hno₂.size rsrc)
  refine ⟨?_, d₃, _, d₄, hw, hg, hr⟩
  rintro ⟨d₁', -, -, -, -, hw', -⟩
  rw [hw] at hw'
  cases hw'

/-- A fork `"d"` of `/x` with five bytes. -/
def forkX : Store :=
  NefsForkStruct.dataSize.set 5 (blit (blit NefsForkStruct.fresh NefsForkStruct.forkName 1
    fun _ => 0x64) NefsForkStruct.catalogName 2 pathX.bytes)

/-- `"hello"`. -/
def helloBytes : Store := fun i => [0x68, 0x65, 0x6C, 0x6C, 0x6F].getD i 0

/-- The fork of `/x` on the small drive. -/
theorem fork_never_written_small : ∃ tmp d₁ theFork' d₂,
    createCatalog (smallDrive 1024) pathX 0 1 (smallDisk 1024) = some (some tmp, d₁) ∧
    createFork (smallDrive 1024) forkX d₁ = some (true, theFork', d₂) ∧
      ¬ RoundTrips (smallDrive 1024) d₂ pathX (NefsForkStruct.forkNameOf forkX) false
        helloBytes 5 ∧
      ∃ d₃ hit d₄,
        writeCatalog (smallDrive 1024) pathX false helloBytes 5 (NefsForkStruct.forkNameOf forkX)
          d₂ = some (false, d₃) ∧
        getCatalog (smallDrive 1024) pathX d₃ = some (some hit, d₄) ∧
        readCatalog (smallDrive 1024) (some hit.2) false 5 (NefsForkStruct.forkNameOf forkX) d₄ =
          some (none, d₄) := by
  have hrun : (createCatalog (smallDrive 1024) pathX 0 1 (smallDisk 1024)).bind (fun x =>
      (createFork (smallDrive 1024) forkX x.2).map fun y => (x.1.isSome, y.1)) =
        some (true, true) := by decide +kernel
  obtain ⟨⟨c, d₁⟩, hc, hrun⟩ := Option.bind_eq_some_iff.mp hrun
  obtain ⟨⟨res, theFork', d₂⟩, hfork, heq⟩ := Option.map_eq_some_iff.mp hrun
  obtain ⟨hsome, rfl⟩ := Prod.mk.inj heq
  obtain ⟨tmp, rfl⟩ := Option.isSome_iff_exists.mp hsome
  exact ⟨tmp, d₁, theFork', d₂, hc, hfork, fork_never_written smallDrive_addressed smallDisk_blank
    .init hc (by decide +kernel) (by decide +kernel) hfork false helloBytes⟩

/-- Create `/x`, create a fork of it for five bytes, and write five bytes. -/
theorem fork_write_refused :
    (createCatalog (smallDrive 1024) pathX 0 1 (smallDisk 1024)).bind (fun x =>
      (createFork (smallDrive 1024) forkX x.2).bind fun y =>
        (writeCatalog (smallDrive 1024) pathX false helloBytes 5 (NefsForkStruct.forkNameOf forkX)
          y.2.2).map fun z => (x.1.isSome, y.1, z.1)) = some (true, true, false) := by
  decide +kernel

end NeKernel.NeFS
