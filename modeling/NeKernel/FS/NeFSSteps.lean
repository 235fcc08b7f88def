import NeKernel.FS.NeFSAccesses

/-!
# The steps of the NeFS parser

What each operation of the parser can do, said once: what `FindCatalog` finds, where
`CreateCatalog` stores a record, and what `RemoveCatalog`, `CreateFork` and `WriteCatalog` hand to
the drive.
-/

namespace NeKernel.NeFS

open ByteStore Scan

variable {drv : DriveTrait} {m m' part child src theFork : Store} {d d' d'' : Disk}
  {name theForkName : CString} {hidden localSearch rsrc : Bool}
  {flags kind n k sz lba outLba fuel : Nat} {r : CreateResult}

/-! ## `FindCatalog` -/

/-- The record `FindCatalog` returns is the one at the LBA it returns: it carries a flag of
`kNeFSFlagCreated`, and its name is the end of the path. -/
structure IsHit (drv : DriveTrait) (m : Store) (name : CString) (hit : Nat × Store) : Prop where
  record : hit.2 = slice m (drv.fAddress hit.1)
  suffix : (NefsCatalogStruct.nameOf hit.2).chars <:+ name.chars
  created : created (NefsCatalogStruct.flags.get hit.2) = true
  start : NefsRootPartitionBlock.startCatalog.get (partBlock drv m) ≤ hit.1

theorem scanVisit_found {hit : Nat × Store} (h : scanVisit drv m name hidden lba = .found hit) :
    hit = (lba, slice m (drv.fAddress lba)) ∧
      (NefsCatalogStruct.nameOf hit.2).chars <:+ name.chars ∧
      created (NefsCatalogStruct.flags.get hit.2) = true := by
  simp only [scanVisit] at h
  split at h
  · next hs =>
      split at h
      · cases h
      split at h
      · next hc =>
          cases h
          exact ⟨rfl, List.isSuffixOf_iff_suffix.mp hs, hc⟩
      · cases h
  · cases h

theorem scanFrom_found {hit : Nat × Store}
    (h : scanFrom drv (partBlock drv m) m name hidden lba = some (some hit)) :
    IsHit drv m name hit := by
  simp only [scanFrom] at h
  split at h
  · cases h
  · next hstart =>
      obtain ⟨y, hy, hv⟩ := scan_visits h
      obtain ⟨rfl, hs, hc⟩ := scanVisit_found hv
      refine ⟨rfl, hs, hc, ?_⟩
      -- the cursor is checked before the first turn and after every move
      obtain ⟨j, rfl, hj⟩ := hy
      cases j with
      | zero => exact Nat.le_of_not_lt hstart
      | succ j => exact Nat.le_of_not_lt (of_decide_eq_false (hj j (Nat.lt_succ_self j)))

theorem scanLocal_found {parentCatalog : Option (Nat × Store)} {hit : Nat × Store}
    (h : scanLocal drv (partBlock drv m) m name hidden parentCatalog = some (some hit)) :
    IsHit drv m name hit := by
  cases parentCatalog with
  | none =>
      simp only [scanLocal] at h
      exact scanFrom_found h
  | some parent =>
      simp only [scanLocal, Option.bind_eq_bind] at h
      obtain ⟨found, hf, h⟩ := Option.bind_eq_some_iff.mp h
      split at h
      · cases h
        exact scanFrom_found hf
      · exact scanFrom_found h

/-- What `FindCatalog` without `local_search` returns, on the bytes alone. -/
theorem findCatalogAnywhere_some {found : Option (Nat × Store)}
    (h : findCatalogAnywhere drv name hidden d = some (found, d')) (hn : name.chars ≠ []) :
    scanFrom drv (partBlock drv d.bytes) d.bytes name hidden
      (NefsRootPartitionBlock.startCatalog.get (partBlock drv d.bytes)) = some found := by
  unfold findCatalogAnywhere at h
  rw [if_neg hn] at h
  obtain ⟨a, ha, h⟩ := Option.bind_eq_some_iff.mp h
  cases h
  exact ha

/-- Nothing is found without a name. -/
theorem findCatalog_named {hit : Nat × Store}
    (h : findCatalog drv name hidden localSearch d = some (some hit, d')) : name.chars ≠ [] := by
  intro hn
  simp [findCatalog, findCatalogLocal, findCatalogAnywhere, hn] at h

/-- What `FindCatalog` finds. -/
theorem findCatalog_hit {hit : Nat × Store}
    (h : findCatalog drv name hidden localSearch d = some (some hit, d')) :
    IsHit drv d.bytes name hit := by
  have hn : name.chars ≠ [] := findCatalog_named h
  unfold findCatalog at h
  split at h
  · simp only [findCatalogLocal, hn, if_false] at h
    split at h
    · cases h
    split at h
    · cases h
    split at h
    · cases h
    · obtain ⟨⟨parentCatalog, d₁⟩, h₁, h⟩ := Option.bind_eq_some_iff.mp h
      obtain ⟨found, hf, h⟩ := Option.bind_eq_some_iff.mp h
      cases h
      have hb : d₁.bytes = d.bytes := (findCatalogAnywhere_reads _ _ _ h₁).1
      rw [hb] at hf
      exact scanLocal_found hf
  · exact scanFrom_found (findCatalogAnywhere_some h hn)

theorem lookup_iff {found : Option (Nat × Store)} :
    lookup drv d.bytes name hidden localSearch = some found ↔
      ∃ d', findCatalog drv name hidden localSearch d = some (found, d') :=
  findCatalog_reads.iff

theorem lookup_hit {hit : Nat × Store}
    (h : lookup drv m name hidden localSearch = some (some hit)) : IsHit drv m name hit := by
  obtain ⟨d', hd⟩ := (lookup_iff (d := ⟨m, []⟩)).mp h
  exact findCatalog_hit hd

/-! ## `CreateCatalog` -/

/-- What the checks before the slot loop have found out when they let it start from `outLba`. -/
structure SlotSearch (drv : DriveTrait) (m : Store) (name : CString) (kind outLba : Nat) :
    Prop where
  allowed : nameAllowed name kind = true
  absent : lookup drv m name true false = some none
  length : 2 ≤ name.length
  parent : ∃ p, parentName name = some p ∧
    ((∃ r, lookup drv m p true false = some (some (outLba, r)) ∧
        NefsCatalogStruct.kind.get r ≠ kNeFSCatalogKindFile) ∨
      (lookup drv m p true false = some none ∧
        outLba = NefsRootPartitionBlock.startCatalog.get (partBlock drv m)))

theorem createCatalogParent_some
    (h : createCatalogParent drv name kind d = some (some outLba, d')) :
    SlotSearch drv d.bytes name kind outLba := by
  unfold createCatalogParent at h
  split at h
  · cases h
  next hname =>
  obtain ⟨⟨catalogCopy, d₁⟩, h₁, h⟩ := Option.bind_eq_some_iff.mp h
  dsimp only at h
  split at h
  · cases h
  next hskip =>
  obtain ⟨hcopy, hlen⟩ := not_or.mp hskip
  obtain rfl : catalogCopy = none := by simpa using hcopy
  have hb₁ : d₁.bytes = d.bytes := (findCatalog_reads _ _ _ h₁).1
  split at h
  · cases h
  · next parent hp =>
      obtain ⟨⟨catalog, d₂⟩, h₂, h⟩ := Option.bind_eq_some_iff.mp h
      have hb₂ : d₂.bytes = d.bytes := (findCatalog_reads _ _ _ h₂).1.trans hb₁
      have hl₂ : lookup drv d.bytes parent true false = some catalog := by
        rw [← hb₁]
        exact lookup_iff.mpr ⟨d₂, h₂⟩
      refine ⟨by simpa using hname, lookup_iff.mpr ⟨d₁, h₁⟩, by omega, parent, hp, ?_⟩
      cases catalog with
      | none =>
          simp only [outLbaOf, Option.some.injEq, Prod.mk.injEq, Disk.inputBlock_fst] at h
          refine .inr ⟨hl₂, ?_⟩
          rw [← h.1, hb₂, partBlock]
      | some found =>
          simp only [outLbaOf] at h
          split at h
          · cases h
          · next hkind =>
              cases h
              exact .inl ⟨found.2, hl₂, hkind⟩

/-- The next slot. -/
def nextSlot (drv : DriveTrait) (startFree : Nat) : Nat :=
  u64 (startFree + catalogSectors drv.fSectorSz)

/-- What the loop comes to is at a slot below the limit, and the slots it has passed on the way are
not free. -/
theorem findSlot_some {slot : Slot}
    (h : findSlot drv part m name outLba = some (some slot)) :
    outLba < slotLimit drv part ∧ ∃ j,
      slotVisit drv m name ((nextSlot drv)^[j] outLba) = .found slot ∧
      (nextSlot drv)^[j] outLba < slotLimit drv part ∧
        ∀ i < j, (nextSlot drv)^[i + 1] outLba < slotLimit drv part ∧
          created (NefsCatalogStruct.flags.get
            (slice m (drv.fAddress ((nextSlot drv)^[i] outLba)))) = true := by
  simp only [findSlot] at h
  split at h
  · cases h
  next hlimit =>
  obtain ⟨j, hj, hnext, hv⟩ := scan_first h
  have hlt : ∀ i < j, (nextSlot drv)^[i + 1] outLba < slotLimit drv part := fun i hi =>
    Nat.lt_of_not_le (of_decide_eq_false (hj i hi))
  have hend : (nextSlot drv)^[j] outLba < slotLimit drv part := by
    cases j with
    | zero => exact Nat.lt_of_not_le hlimit
    | succ j => exact hlt j (Nat.lt_succ_self j)
  refine ⟨Nat.lt_of_not_le hlimit, j, hv, hend, fun i hi => ⟨hlt i hi, ?_⟩⟩
  have hi' := hnext i hi
  simp only [slotVisit] at hi'
  split at hi'
  · cases hi'
  · next hc =>
      apply Bool.eq_true_of_not_eq_false
      intro hno
      exact hc (congrArg (!·) hno)

/-- A slot the loop takes is free. -/
theorem findSlot_free {startFree : Nat} {tmp : Store}
    (h : findSlot drv part m name outLba = some (some (.free startFree tmp))) :
    tmp = slice m (drv.fAddress startFree) ∧
      created (NefsCatalogStruct.flags.get tmp) = false ∧ outLba < slotLimit drv part ∧
      startFree < slotLimit drv part ∧ ∃ j, startFree = (nextSlot drv)^[j] outLba ∧
        ∀ i < j, (nextSlot drv)^[i + 1] outLba < slotLimit drv part ∧
          created (NefsCatalogStruct.flags.get
            (slice m (drv.fAddress ((nextSlot drv)^[i] outLba)))) = true := by
  obtain ⟨hlimit, j, hv, hend, hpassed⟩ := findSlot_some h
  simp only [slotVisit] at hv
  split at hv
  · next hc =>
      cases hv
      exact ⟨rfl, by simpa using hc, hlimit, hend, j, rfl, hpassed⟩
  · split at hv <;> cases hv

/-- One that is there already carries the path as its name. -/
theorem findSlot_existing {tmp : Store}
    (h : findSlot drv part m name outLba = some (some (.existing tmp))) :
    outLba < slotLimit drv part ∧ ∃ j,
      created (NefsCatalogStruct.flags.get
        (slice m (drv.fAddress ((nextSlot drv)^[j] outLba)))) = true ∧
      NefsCatalogStruct.nameOf (slice m (drv.fAddress ((nextSlot drv)^[j] outLba))) = name ∧
        ∀ i < j, (nextSlot drv)^[i + 1] outLba < slotLimit drv part := by
  obtain ⟨hlimit, j, hv, -, hpassed⟩ := findSlot_some h
  simp only [slotVisit] at hv
  split at hv
  · cases hv
  · next hc =>
      split at hv
      · next hname => exact ⟨hlimit, j, by simpa using hc, hname, fun i hi => (hpassed i hi).1⟩
      · cases hv

/-- `CreateCatalog` stores a record at `startFree`. -/
structure Stores (drv : DriveTrait) (m : Store) (name : CString)
    (kind outLba startFree : Nat) : Prop where
  search : SlotSearch drv m name kind outLba
  room : 1 ≤ NefsRootPartitionBlock.freeCatalog.get (partBlock drv m)
  slot : findSlot drv (partBlock drv m) m name outLba =
    some (some (.free startFree (slice m (drv.fAddress startFree))))

/-- The slot loop of `CreateCatalog` ends at a record that has the whole path as its name. -/
structure ComesTo (drv : DriveTrait) (m : Store) (name : CString) (kind outLba : Nat) (c : Store) :
    Prop where
  search : SlotSearch drv m name kind outLba
  room : 1 ≤ NefsRootPartitionBlock.freeCatalog.get (partBlock drv m)
  slot : findSlot drv (partBlock drv m) m name outLba = some (some (.existing c))

/-- The bytes of the drive when `CreateCatalog` has stored a record. -/
def storedBytes (drv : DriveTrait) (name : CString) (flags kind outLba startFree : Nat)
    (m : Store) : Store :=
  let m' := blit m (drv.fAddress startFree) NefsCatalogStruct.size
    (placedCatalog drv (partBlock drv m) (childCatalog name flags kind outLba) startFree)
  blit m' (drv.fAddress kNeFSRootCatalogStartAddress) NefsRootPartitionBlock.size
    (blockWithCatalog drv (partBlock drv m'))

theorem storeCatalog_bytes (d : Disk) (name : CString) (flags kind outLba startFree : Nat) :
    (storeCatalog drv (partBlock drv d.bytes) (childCatalog name flags kind outLba) startFree
      d).bytes = storedBytes drv name flags kind outLba startFree d.bytes := by
  simp only [storeCatalog, Disk.outputBlock_bytes, Disk.inputBlock_bytes, Disk.inputBlock_fst,
    Disk.fOutput_bytes, blit_blit_same, storedBytes, partBlock]

theorem storeCatalog_touches {startFree : Nat} :
    Touches True d (storeCatalog drv part child startFree d) := ⟨2, rfl, by simp⟩

/-- **What `CreateCatalog` can do**: leave the drive as it is, or store one record. -/
theorem createCatalogAt_cases (h : createCatalogAt drv name flags kind d = some (r, d')) :
    Touches (nameAllowed name kind = true) d d' ∧
      ((d'.bytes = d.bytes ∧ (r = .refused ∨ ∃ c outLba, r = .existing c ∧
          ComesTo drv d.bytes name kind outLba c)) ∨
        ∃ outLba startFree, Stores drv d.bytes name kind outLba startFree ∧
          r = .stored startFree (slice d.bytes (drv.fAddress startFree)) ∧
          d'.bytes = storedBytes drv name flags kind outLba startFree d.bytes) := by
  simp only [createCatalogAt, Option.bind_eq_bind] at h
  obtain ⟨⟨parent, d₁⟩, h₁, h⟩ := Option.bind_eq_some_iff.mp h
  obtain ⟨hb₁, ht₁, -⟩ := createCatalogParent_reads _ _ _ h₁
  cases parent with
  | none =>
      cases h
      exact ⟨ht₁, .inl ⟨hb₁, .inl rfl⟩⟩
  | some outLba =>
      have hs : SlotSearch drv d.bytes name kind outLba := createCatalogParent_some h₁
      -- the block has been read by now, so that no later access changes anything
      have htouch {q : Prop} {d₂ : Disk} (ht : Touches q (d₁.inputBlock drv
          kNeFSRootCatalogStartAddress).2 d₂) : Touches (nameAllowed name kind = true) d d₂ :=
        (ht₁.trans ((Touches.inputBlock drv).trans ht)).congr (by simp [hs.allowed])
      have hpart : (d₁.inputBlock drv kNeFSRootCatalogStartAddress).1 = partBlock drv d.bytes := by
        rw [← hb₁]
        rfl
      simp only [hpart, Disk.inputBlock_bytes, hb₁] at h
      split at h
      · cases h
        exact ⟨htouch .refl, .inl ⟨hb₁, .inl rfl⟩⟩
      next hroom =>
      obtain ⟨slot, hslot, h⟩ := Option.bind_eq_some_iff.mp h
      split at h
      · cases h
        exact ⟨htouch .refl, .inl ⟨hb₁, .inl rfl⟩⟩
      · next c =>
          cases h
          exact ⟨htouch .refl, .inl ⟨hb₁, .inr ⟨c, outLba, rfl, hs, by omega, hslot⟩⟩⟩
      · next startFree tmp =>
          obtain ⟨rfl, -⟩ := findSlot_free hslot
          cases h
          refine ⟨htouch storeCatalog_touches, .inr ⟨outLba, startFree, ⟨hs, by omega, hslot⟩, rfl,
            ?_⟩⟩
          rw [← hb₁]
          exact storeCatalog_bytes (d₁.inputBlock drv kNeFSRootCatalogStartAddress).2 name flags
            kind outLba startFree

/-- The checks let the loop start where they have found out it should. -/
theorem SlotSearch.createCatalogParent (h : SlotSearch drv d.bytes name kind outLba) :
    ∃ d', createCatalogParent drv name kind d = some (some outLba, d') := by
  obtain ⟨d₁, h₁⟩ := lookup_iff.mp h.absent
  have hb₁ : d₁.bytes = d.bytes := (findCatalog_reads _ _ _ h₁).1
  have hlen : ¬ name.length < 2 := Nat.not_lt.mpr h.length
  unfold NeFS.createCatalogParent
  obtain ⟨parent, hp, ⟨r, hr, hkind⟩ | ⟨hr, hout⟩⟩ := h.parent <;> rw [← hb₁] at hr <;>
    obtain ⟨d₂, h₂⟩ := lookup_iff.mp hr
  · refine ⟨d₂, ?_⟩
    simp [h.allowed, h₁, hlen, hp, h₂, outLbaOf, hkind]
  · have hb₂ : d₂.bytes = d.bytes := (findCatalog_reads _ _ _ h₂).1.trans hb₁
    refine ⟨(d₂.inputBlock drv kNeFSRootCatalogStartAddress).2, ?_⟩
    simp [h.allowed, h₁, hlen, hp, h₂, outLbaOf, hb₂, hout, partBlock]

/-- What the slot loop comes to is what `CreateCatalog` comes to. -/
theorem SlotSearch.createCatalogAt {slot : Slot} (h : SlotSearch drv d.bytes name kind outLba)
    (hroom : 1 ≤ NefsRootPartitionBlock.freeCatalog.get (partBlock drv d.bytes))
    (hslot : findSlot drv (partBlock drv d.bytes) d.bytes name outLba = some (some slot))
    (flags : Nat) :
    ∃ r d', createCatalogAt drv name flags kind d = some (r, d') ∧
      match slot with
      | .free startFree tmp => r = .stored startFree tmp
      | .existing tmp => r = .existing tmp := by
  obtain ⟨d₁, h₁⟩ := h.createCatalogParent
  have hb₁ : d₁.bytes = d.bytes := (createCatalogParent_reads _ _ _ h₁).1
  have hpart : d₁.fInput drv kNeFSRootCatalogStartAddress = partBlock drv d.bytes := by
    rw [← hb₁]
    rfl
  have hfree : ¬ NefsRootPartitionBlock.freeCatalog.get (partBlock drv d.bytes) < 1 := by omega
  cases slot with
  | free startFree tmp =>
      refine ⟨_, storeCatalog drv (partBlock drv d.bytes) (childCatalog name flags kind outLba) startFree
        (d₁.inputBlock drv kNeFSRootCatalogStartAddress).2, ?_, rfl⟩
      simp only [NeFS.createCatalogAt, Option.bind_eq_bind, h₁, Option.bind_some, Disk.inputBlock,
        hpart, hb₁, hfree, if_false, hslot]
      rfl
  | existing tmp =>
      refine ⟨_, (d₁.inputBlock drv kNeFSRootCatalogStartAddress).2, ?_, rfl⟩
      simp only [NeFS.createCatalogAt, Option.bind_eq_bind, h₁, Option.bind_some, Disk.inputBlock,
        hpart, hb₁, hfree, if_false, hslot]
      rfl

/-- `CreateCatalog` stores a record where a slot is found for it. -/
theorem Stores.createCatalogAt {startFree : Nat}
    (h : Stores drv d.bytes name kind outLba startFree) (flags : Nat) :
    ∃ tmp d', createCatalogAt drv name flags kind d = some (.stored startFree tmp, d') := by
  obtain ⟨r, d', hr, rfl⟩ := h.search.createCatalogAt h.room h.slot flags
  exact ⟨_, d', hr⟩

theorem createCatalog_at {c : Option Store}
    (h : createCatalog drv name flags kind d = some (c, d')) :
    ∃ r, createCatalogAt drv name flags kind d = some (r, d') ∧ c = r.catalog := by
  obtain ⟨⟨r, d₁⟩, hr, hc⟩ := Option.bind_eq_some_iff.mp h
  cases hc
  exact ⟨r, hr, rfl⟩

/-! ## `RemoveCatalog` -/

/-- The bytes of the drive when the fork at `lba` has been marked. -/
def markFork (drv : DriveTrait) (lba : Nat) (m : Store) : Store :=
  let fork := slice m (drv.fAddress lba)
  blit m (drv.fAddress lba) NefsForkStruct.size
    (NefsForkStruct.flags.set (markDeleted 32 (NefsForkStruct.flags.get fork)) fork)

/-- What every marking of a fork keeps, the loop over the forks keeps. -/
theorem removeForks_inv {P : Store → Prop}
    (hmark : ∀ m lba, kNeFSCatalogStartAddress ≤ lba → P m → P (markFork drv lba m))
    (h : removeForks drv fuel lba d = some d') (h₀ : P d.bytes) :
    P d'.bytes ∧ d'.blockLbas = d.blockLbas := by
  induction fuel generalizing lba d with
  | zero => cases h
  | succ fuel ih =>
      rw [removeForks] at h
      split at h
      · cases h
        exact ⟨h₀, rfl⟩
      · next hlba =>
          have hrest := ih h (hmark d.bytes lba (Nat.le_of_not_lt hlba) h₀)
          exact hrest

/-- The bytes of the drive when the forks are marked and the record is written. -/
def removedBytes (drv : DriveTrait) (outLba : Nat) (catalog m : Store) : Store :=
  let m' := blit m (drv.fAddress outLba) NefsCatalogStruct.size
    (NefsCatalogStruct.flags.set (markDeleted 16 (NefsCatalogStruct.flags.get catalog)) catalog)
  blit m' (drv.fAddress kNeFSRootCatalogStartAddress) NefsRootPartitionBlock.size
    (blockWithoutCatalog (partBlock drv m'))

/-- What `RemoveCatalog` does when it returns true: `m'` is what the loops over the forks left. -/
structure Removes (drv : DriveTrait) (d d' : Disk) (name : CString) (outLba : Nat) (m' : Store) :
    Prop where
  root : name ≠ kNeFSRoot
  found : lookup drv d.bytes name true true =
    some (some (outLba, slice d.bytes (drv.fAddress outLba)))
  marked : ∀ P : Store → Prop,
    (∀ m lba, kNeFSCatalogStartAddress ≤ lba → P m → P (markFork drv lba m)) → P d.bytes → P m'
  bytes : d'.bytes = removedBytes drv outLba (slice d.bytes (drv.fAddress outLba)) m'

/-- **What `RemoveCatalog` can do**: leave the drive as it is, or mark what it has found. -/
theorem removeCatalog_cases {res : Bool} (h : removeCatalog drv name d = some (res, d')) :
    Touches (name ≠ kNeFSRoot ∧ name.chars ≠ []) d d' ∧
      ((res = false ∧ d'.bytes = d.bytes ∧
          (name = kNeFSRoot ∨ lookup drv d.bytes name true true = some none)) ∨
        (res = true ∧ ∃ outLba m', Removes drv d d' name outLba m')) := by
  unfold removeCatalog at h
  split at h
  · next hroot =>
      cases h
      exact ⟨Touches.refl.congr (by simp [hroot]), .inl ⟨rfl, rfl, .inl hroot⟩⟩
  next hroot =>
  obtain ⟨⟨found, d₁⟩, h₁, h⟩ := Option.bind_eq_some_iff.mp h
  obtain ⟨hb₁, ht₁, -⟩ := findCatalog_reads _ _ _ h₁
  cases found with
  | none =>
      cases h
      exact ⟨ht₁.congr (by simp [hroot]), .inl ⟨rfl, hb₁, .inr (lookup_iff.mpr ⟨_, h₁⟩)⟩⟩
  | some hit =>
      have hhit : IsHit drv d.bytes name hit := findCatalog_hit h₁
      have hn : name.chars ≠ [] := findCatalog_named h₁
      simp only [Option.bind_eq_bind] at h
      obtain ⟨d₂, h₂, h⟩ := Option.bind_eq_some_iff.mp h
      obtain ⟨d₃, h₃, h⟩ := Option.bind_eq_some_iff.mp h
      rw [if_pos (.inr hhit.created)] at h
      cases h
      -- marking the forks reads no block
      have hlog : d₃.blockLbas = d₁.blockLbas :=
        (removeForks_inv (P := fun _ => True) (fun _ _ _ h => h) h₃ trivial).2.trans
          (removeForks_inv (P := fun _ => True) (fun _ _ _ h => h) h₂ trivial).2
      have ht₃ : Touches True d₁ ((d₃.fOutput drv hit.1 NefsCatalogStruct.size
          (NefsCatalogStruct.flags.set (markDeleted 16 (NefsCatalogStruct.flags.get hit.2))
            hit.2)).inputBlock drv kNeFSRootCatalogStartAddress).2 := by
        refine ⟨1, ?_, by simp⟩
        show _ :: d₃.blockLbas = _
        rw [hlog]
        rfl
      refine ⟨(ht₁.trans (ht₃.trans Touches.outputBlock)).congr (by simp [hroot, hn]),
        .inr ⟨rfl, hit.1, d₃.bytes, hroot, ?_, ?_, ?_⟩⟩
      · rw [← hhit.record]
        exact lookup_iff.mpr ⟨d₁, h₁⟩
      · intro P hmark h₀
        rw [← hb₁] at h₀
        exact (removeForks_inv hmark h₃ (removeForks_inv hmark h₂ h₀).1).1
      · rw [← hhit.record]
        rfl

/-! ## `CreateFork` and `WriteCatalog` -/

theorem findForkPlace_blockLbas {lbaPrev : Nat} {prevFork : Store} {place : Nat × Nat}
    (h : findForkPlace drv theFork fuel lba lbaPrev prevFork d = some (place, d')) :
    d'.blockLbas = d.blockLbas := by
  induction fuel generalizing lba lbaPrev prevFork with
  | zero => cases h
  | succ fuel ih =>
      simp only [findForkPlace] at h
      split at h
      · split at h
        · cases h
          rfl
        · exact ih h
      · split at h <;> cases h <;> rfl

/-- **What `CreateFork` can do**: leave the drive as it is, or write a fork of the catalog it has
found. -/
theorem createFork_cases {res : Bool} {theFork' : Store}
    (h : createFork drv theFork d = some (res, theFork', d')) :
    Touches (theFork NefsForkStruct.forkName ≠ 0 ∧ theFork NefsForkStruct.catalogName ≠ 0 ∧
        NefsForkStruct.dataSize.get theFork ≠ 0) d d' ∧
      ((res = false ∧ d'.bytes = d.bytes) ∨
        (res = true ∧ ∃ outLba catalog d₁ place d₂,
          lookup drv d.bytes (NefsForkStruct.catalogNameOf theFork) true true =
            some (some (outLba, catalog)) ∧
          kNeFSCatalogStartAddress ≤ NefsCatalogStruct.dataFork.get catalog ∧
          d₁.bytes = d.bytes ∧
          findForkPlace drv theFork scanFuel (NefsCatalogStruct.dataFork.get catalog)
            (NefsCatalogStruct.dataFork.get catalog) NefsForkStruct.fresh d₁ = some (place, d₂) ∧
          theFork' = placedFork theFork place.1 place.2 ∧
          d'.bytes = blit d₂.bytes (drv.fAddress place.1) NefsForkStruct.size theFork')) := by
  unfold createFork at h
  split at h
  · next hbad =>
      cases h
      exact ⟨Touches.refl.congr (iff_of_false not_false fun ⟨h₁, h₂, h₃⟩ =>
        hbad.elim h₁ fun hbad => hbad.elim h₂ h₃), .inl ⟨rfl, rfl⟩⟩
  next hgood =>
  -- past the guard there is a catalog name to look up, and the lookup decides
  obtain ⟨hname, hgood⟩ := not_or.mp hgood
  obtain ⟨hcat, hsz⟩ := not_or.mp hgood
  have hne : (NefsForkStruct.catalogNameOf theFork).chars ≠ [] := by
    show charsAt theFork NefsForkStruct.catalogName (311 + 1) ≠ []
    rw [charsAt, if_neg hcat]
    exact List.cons_ne_nil _ _
  have hp : (theFork NefsForkStruct.forkName ≠ 0 ∧ theFork NefsForkStruct.catalogName ≠ 0 ∧
      NefsForkStruct.dataSize.get theFork ≠ 0) ↔ True :=
    iff_of_true ⟨hname, hcat, hsz⟩ trivial
  simp only [Option.bind_eq_bind, getCatalog] at h
  obtain ⟨⟨found, d₁⟩, h₁, h⟩ := Option.bind_eq_some_iff.mp h
  obtain ⟨hb₁, ht₁, -⟩ := findCatalog_reads _ _ _ h₁
  cases found with
  | none =>
      cases h
      exact ⟨ht₁.congr (by simp [hp, hne]), .inl ⟨rfl, hb₁⟩⟩
  | some hit =>
      dsimp only at h
      split at h
      · cases h
        exact ⟨ht₁.congr (by simp [hp, hne]), .inl ⟨rfl, hb₁⟩⟩
      next hlba =>
      obtain ⟨⟨place, d₂⟩, h₂, h⟩ := Option.bind_eq_some_iff.mp h
      cases h
      have hlog : d₂.blockLbas = d₁.blockLbas := findForkPlace_blockLbas h₂
      refine ⟨?_, .inr ⟨rfl, hit.1, hit.2, d₁, place, d₂, lookup_iff.mpr ⟨d₁, h₁⟩, by omega, hb₁,
        h₂, rfl, ?_⟩⟩
      · obtain ⟨j, hj, hj'⟩ := ht₁
        refine ⟨j, ?_, by simp [hj', hp, hne]⟩
        show d₂.blockLbas = _
        rw [hlog]
        exact hj
      · simp only [Disk.fOutput_bytes, blit_blit_same]

theorem writeChunks_blockLbas {buf : Store} {baseLba bytesLeft offset : Nat} :
    (writeChunks drv buf baseLba fuel bytesLeft offset d).blockLbas = d.blockLbas := by
  induction fuel generalizing bytesLeft offset d with
  | zero => rfl
  | succ fuel ih =>
      rw [writeChunks]
      split
      · rfl
      · rw [ih]
        rfl

/-- **What `WriteCatalog` can do**: leave the drive as it is, or write to a fork of a catalog that
has room for the data. -/
theorem writeCatalog_cases {res : Bool} {data : Store}
    (h : writeCatalog drv name rsrc data sz theForkName d = some (res, d')) :
    Touches (0 < sz ∧ name.chars ≠ []) d d' ∧
      ((res = false ∧ d'.bytes = d.bytes) ∨
        (res = true ∧ ∃ hit, lookup drv d.bytes name true true = some (some hit) ∧
          isValidSize sz (forkOfCatalog hit.2 rsrc).1 = true)) := by
  unfold writeCatalog at h
  split at h
  · next hsz =>
      cases h
      exact ⟨Touches.refl.congr (by simp [show ¬ 0 < sz by omega]), .inl ⟨rfl, rfl⟩⟩
  next hsz =>
  have hpos : 0 < sz := by omega
  simp only [Option.bind_eq_bind, getCatalog] at h
  obtain ⟨⟨found, d₁⟩, h₁, h⟩ := Option.bind_eq_some_iff.mp h
  obtain ⟨hb₁, ht₁, -⟩ := findCatalog_reads _ _ _ h₁
  cases found with
  | none =>
      cases h
      exact ⟨ht₁.congr (by simp [hpos]), .inl ⟨rfl, hb₁⟩⟩
  | some hit =>
      have hn : name.chars ≠ [] := findCatalog_named h₁
      -- each way out from here has read blocks and written none
      have htouch {q : Prop} {d₂ : Disk} (ht : Touches q d₁ d₂) :
          Touches (0 < sz ∧ name.chars ≠ []) d d₂ := (ht₁.trans ht).congr (by simp [hpos, hn])
      dsimp only at h
      split at h
      · cases h
        exact ⟨htouch .refl, .inl ⟨rfl, hb₁⟩⟩
      next hvalid =>
      obtain ⟨⟨valid, d₂⟩, h₂, h⟩ := Option.bind_eq_some_iff.mp h
      obtain ⟨hb₂, ht₂, -⟩ := isValidLba_reads _ _ _ h₂
      dsimp only at h
      split at h
      · cases h
        exact ⟨htouch ht₂, .inl ⟨rfl, hb₂.trans hb₁⟩⟩
      split at h
      · cases h
        exact ⟨htouch (ht₂.trans (.inputBlock _)), .inl ⟨rfl, hb₂.trans hb₁⟩⟩
      obtain ⟨fork, h₃, h⟩ := Option.bind_eq_some_iff.mp h
      cases fork with
      | none =>
          cases h
          exact ⟨htouch (ht₂.trans (.inputBlock _)), .inl ⟨rfl, hb₂.trans hb₁⟩⟩
      | some fork =>
          cases h
          refine ⟨?_, .inr ⟨rfl, hit, lookup_iff.mpr ⟨d₁, h₁⟩, by simpa using hvalid⟩⟩
          obtain ⟨j, hj, hj'⟩ := htouch (ht₂.trans (Touches.inputBlock drv))
          refine ⟨j, ?_, hj'⟩
          unfold Accesses
          rw [writeChunks_blockLbas]
          exact hj

/-! ## Calls -/

/-- A call of one of the operations. -/
inductive Call where
  | createCatalog (name : CString) (flags kind : Nat)
  | createFork (theFork : Store)
  | findCatalog (name : CString) (searchHidden localSearch : Bool)
  | writeCatalog (name : CString) (isRsrcFork : Bool) (data : Store) (sizeOfData : Nat)
      (theForkName : CString)
  | readCatalog (catalog : Option Store) (isRsrcFork : Bool) (dataSz : Nat) (theForkName : CString)
  | removeCatalog (name : CString)

/-- The disk after the call. -/
def Call.run (drv : DriveTrait) : Call → Disk → Option Disk
  | .createCatalog name flags kind, d => (NeFS.createCatalog drv name flags kind d).map (·.2)
  | .createFork theFork, d => (NeFS.createFork drv theFork d).map (·.2.2)
  | .findCatalog name hidden loc, d => (NeFS.findCatalog drv name hidden loc d).map (·.2)
  | .writeCatalog name rsrc data sz fork, d =>
      (NeFS.writeCatalog drv name rsrc data sz fork d).map (·.2)
  | .readCatalog catalog rsrc sz fork, d =>
      (NeFS.readCatalog drv catalog rsrc sz fork d).map (·.2)
  | .removeCatalog name, d => (NeFS.removeCatalog drv name d).map (·.2)

/-- A call as a step of the drive. -/
def step (drv : DriveTrait) (d : Disk) (c : Call) (d' : Disk) : Prop := c.run drv d = some d'

/-- The call gets as far as the partition block. -/
def Call.reachesBlock : Call → Prop
  | .createCatalog name _ kind => nameAllowed name kind = true
  | .createFork theFork => theFork NefsForkStruct.forkName ≠ 0 ∧
      theFork NefsForkStruct.catalogName ≠ 0 ∧ NefsForkStruct.dataSize.get theFork ≠ 0
  | .findCatalog name _ _ => name.chars ≠ []
  | .writeCatalog name _ _ sz _ => 0 < sz ∧ name.chars ≠ []
  | .readCatalog catalog rsrc sz _ =>
      ∃ r, catalog = some r ∧ isValidSize sz (forkOfCatalog r rsrc).1 = true
  | .removeCatalog name => name ≠ kNeFSRoot ∧ name.chars ≠ []

theorem Call.run_touches {c : Call} (h : c.run drv d = some d') :
    Touches c.reachesBlock d d' := by
  cases c with
  | createCatalog name flags kind =>
      obtain ⟨⟨c, d₁⟩, hc, rfl⟩ := Option.map_eq_some_iff.mp h
      obtain ⟨r, hr, -⟩ := createCatalog_at hc
      exact (createCatalogAt_cases hr).1
  | createFork theFork =>
      obtain ⟨⟨r, f, d₁⟩, hr, rfl⟩ := Option.map_eq_some_iff.mp h
      exact (createFork_cases hr).1
  | findCatalog name hidden loc =>
      obtain ⟨⟨r, d₁⟩, hr, rfl⟩ := Option.map_eq_some_iff.mp h
      exact (findCatalog_reads _ _ _ hr).2.1
  | writeCatalog name rsrc data sz fork =>
      obtain ⟨⟨r, d₁⟩, hr, rfl⟩ := Option.map_eq_some_iff.mp h
      exact (writeCatalog_cases hr).1
  | readCatalog catalog rsrc sz fork =>
      obtain ⟨⟨r, d₁⟩, hr, rfl⟩ := Option.map_eq_some_iff.mp h
      exact (readCatalog_reads _ _ _ hr).2.1
  | removeCatalog name =>
      obtain ⟨⟨r, d₁⟩, hr, rfl⟩ := Option.map_eq_some_iff.mp h
      exact (removeCatalog_cases hr).1

end NeKernel.NeFS
