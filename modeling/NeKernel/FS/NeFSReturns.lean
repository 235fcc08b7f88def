import NeKernel.FS.NeFSPaths

/-!
# What `CreateCatalog` returns

`CreateCatalog` reads every slot it comes to into `temporary_catalog` and hands out a copy of that, also
when it has stored `child_catalog` in the slot: the caller gets what stood there before. The flags tell the
two apart, a slot is only taken when it does not carry `kNeFSFlagCreated` and the record that is stored
does.
-/

namespace NeKernel.NeFS

open ByteStore Scan Runs

variable {drv : DriveTrait} {m : Store} {d d₀ d' : Disk} {name partName : CString} {s : History}
  {flags kind outLba startFree : Nat} {c r : Store} {paths : List (CString × Nat)}

/-- The records agree in their names, kinds, flags, forks and siblings. -/
structure SameRecord (c r : Store) : Prop where
  name : NefsCatalogStruct.nameOf c = NefsCatalogStruct.nameOf r
  kind : NefsCatalogStruct.kind.get c = NefsCatalogStruct.kind.get r
  flags : NefsCatalogStruct.flags.get c = NefsCatalogStruct.flags.get r
  catalogFlags : NefsCatalogStruct.catalogFlags.get c = NefsCatalogStruct.catalogFlags.get r
  dataFork : NefsCatalogStruct.dataFork.get c = NefsCatalogStruct.dataFork.get r
  resourceFork : NefsCatalogStruct.resourceFork.get c = NefsCatalogStruct.resourceFork.get r
  nextSibling : NefsCatalogStruct.nextSibling.get c = NefsCatalogStruct.nextSibling.get r
  prevSibling : NefsCatalogStruct.prevSibling.get c = NefsCatalogStruct.prevSibling.get r

theorem SameRecord.refl : SameRecord c c := ⟨rfl, rfl, rfl, rfl, rfl, rfl, rfl, rfl⟩

/-- A catalog that is returned is the one stored in the slot that was taken (a slot whose record was there
before holds what was read from it), and the one a following `GetCatalog` of the path returns. -/
structure ReturnsRecord (drv : DriveTrait) (name : CString) (flags kind : Nat) (d : Disk) : Prop where
  stored : ∀ startFree tmp d', createCatalogAt drv name flags kind d = some (.stored startFree tmp, d') →
    SameRecord tmp (slice d'.bytes (drv.fAddress startFree))
  found : ∀ c d', createCatalog drv name flags kind d = some (some c, d') →
    ∃ hit, lookup drv d'.bytes name true true = some (some hit) ∧ SameRecord c hit.2

/-- The record in the slot carries `kNeFSFlagCreated`. -/
theorem storedBytes_flags (hs : SectorAddressed drv) (hfirst : firstCatalog drv ≤ startFree) :
    NefsCatalogStruct.flags.get (slice (storedBytes drv name flags kind outLba startFree m)
      (drv.fAddress startFree)) = kNeFSFlagCreated := by
  have hrec : ∀ i < NefsCatalogStruct.flags.width, slice (storedBytes drv name flags kind outLba startFree m)
      (drv.fAddress startFree) (NefsCatalogStruct.flags.off + i) =
        placedCatalog drv (partBlock drv m) (childCatalog name flags kind outLba) startFree
          (NefsCatalogStruct.flags.off + i) := fun i hi => by
    have hi' : i < 2 := hi
    exact storedBytes_record (hs.block_below hfirst) (by show 457 + i < 535; omega)
  rw [Field.get_congr hrec, placedCatalog_flags]

/-- What is returned for a record that has been stored is not that record. -/
theorem Stores.not_same (hs : SectorAddressed drv) (hm : Mounted drv m)
    (h : Stores drv m name kind outLba startFree) :
    ¬ SameRecord (slice m (drv.fAddress startFree))
      (slice (storedBytes drv name flags kind outLba startFree m) (drv.fAddress startFree)) := by
  intro hsame
  obtain ⟨-, -, hfree, -⟩ := h.slot_cases hs hm
  rw [hsame.flags, storedBytes_flags hs (h.first hs hm)] at hfree
  exact absurd hfree (by decide)

/-- **What is returned is what is stored** exactly when nothing is stored: on a mounted partition, a call
returns the record of its slot and of a following `GetCatalog` if and only if it takes no free slot, and a
record that it comes to (which no lookup had found) is found by `GetCatalog`. -/
theorem returnsRecord_iff (hs : SectorAddressed drv) (hm : Mounted drv d.bytes) :
    ReturnsRecord drv name flags kind d ↔
      (∀ outLba startFree, ¬ Stores drv d.bytes name kind outLba startFree) ∧
      ∀ c outLba, ComesTo drv d.bytes name kind outLba c →
        ∃ hit, lookup drv d.bytes name true true = some (some hit) ∧ SameRecord c hit.2 := by
  constructor
  · intro h
    refine ⟨fun outLba startFree hst => ?_, fun c outLba hc => ?_⟩
    · obtain ⟨tmp, d', hcall⟩ := hst.createCatalogAt flags
      obtain ⟨-, ⟨-, habs | ⟨c, outLba', habs, -⟩⟩ | ⟨outLba', startFree', hst', heq, hbytes⟩⟩ :=
        createCatalogAt_cases hcall
      · cases habs
      · cases habs
      · cases heq
        have hsame := h.stored _ _ _ hcall
        rw [hbytes] at hsame
        exact hst'.not_same hs hm hsame
    · obtain ⟨r, d', hcall, hr⟩ := hc.search.createCatalogAt hc.room hc.slot flags
      have hr : r = .existing c := hr
      subst hr
      obtain ⟨-, ⟨hbytes, -⟩ | ⟨_, _, _, habs, -⟩⟩ := createCatalogAt_cases hcall
      · have hreturn : createCatalog drv name flags kind d = some (some c, d') := by
          rw [createCatalog, hcall]
          rfl
        obtain ⟨hit, hhit, hsame⟩ := h.found c d' hreturn
        rw [hbytes] at hhit
        exact ⟨hit, hhit, hsame⟩
      · cases habs
  · rintro ⟨hnone, hexisting⟩
    refine ⟨fun startFree tmp d' hcall => ?_, fun c d' hcall => ?_⟩
    · obtain ⟨-, ⟨-, habs | ⟨c, outLba, habs, -⟩⟩ | ⟨outLba, startFree', hst, -⟩⟩ :=
        createCatalogAt_cases hcall
      · cases habs
      · cases habs
      · exact absurd hst (hnone _ _)
    · obtain ⟨r, hr, hc⟩ := createCatalog_at hcall
      obtain ⟨-, ⟨hbytes, rfl | ⟨c', outLba, rfl, hcomes⟩⟩ | ⟨outLba, startFree', hst, -⟩⟩ :=
        createCatalogAt_cases hr
      · cases hc
      · cases hc
        rw [hbytes]
        exact hexisting c outLba hcomes
      · exact absurd hst (hnone _ _)

/-- On a drive that held zeros when it was formatted no call comes to a record: what it returns is never
what it stores. -/
theorem Row.returns_iff_stores_nothing (h : Row drv d.bytes paths) (hs : SectorAddressed drv) :
    ReturnsRecord drv name flags kind d ↔ ∀ outLba startFree, ¬ Stores drv d.bytes name kind outLba startFree := by
  rw [returnsRecord_iff hs h.mounted]
  refine ⟨fun hr => hr.1, fun hr => ⟨hr, fun c outLba hc => ?_⟩⟩
  exact absurd hc.slot (h.not_existing hs hc.search)

/-- A name that is refused is no catalog's. -/
theorem returnsRecord_iff_small : ReturnsRecord (smallDrive 1024) kNeFSRoot 0 1 (smallDisk 1024) :=
  (returnsRecord_iff smallDrive_addressed ((smallDisk_formatted 1024).mounted smallDrive_addressed)).mpr
    ⟨fun _ _ hst => absurd hst.search.allowed (by decide), fun _ _ hc => absurd hc.search.allowed (by decide)⟩

/-- The slot a record was stored in, and what stood there before. -/
def CreateResult.slot : CreateResult → Option (Nat × Store)
  | .stored startFree tmp => some (startFree, tmp)
  | _ => none

theorem CreateResult.slot_eq_some {res : CreateResult} {x : Nat × Store} (h : res.slot = some x) :
    res = .stored x.1 x.2 := by
  cases res with
  | stored startFree tmp =>
      cases h
      rfl
  | refused => cases h
  | existing c => cases h

/-- `CreateCatalog("/x")` returns the zeros that stood in the slot. -/
theorem create_returns_zeros : ∃ tmp d',
    createCatalogAt (smallDrive 1024) pathX 0 1 (smallDisk 1024) = some (.stored 1026 tmp, d') ∧
      createCatalog (smallDrive 1024) pathX 0 1 (smallDisk 1024) = some (some tmp, d') ∧
      NefsCatalogStruct.nameOf tmp ≠ pathX ∧ NefsCatalogStruct.flags.get tmp = 0 ∧
      NefsCatalogStruct.flags.get (slice d'.bytes ((smallDrive 1024).fAddress 1026)) = kNeFSFlagCreated ∧
      ¬ ReturnsRecord (smallDrive 1024) pathX 0 1 (smallDisk 1024) := by
  have hrun : (createCatalogAt (smallDrive 1024) pathX 0 1 (smallDisk 1024)).bind (fun x =>
      x.1.slot.map fun y => (y.1, (NefsCatalogStruct.nameOf y.2).chars, NefsCatalogStruct.flags.get y.2,
        NefsCatalogStruct.flags.get (slice x.2.bytes ((smallDrive 1024).fAddress y.1)))) =
          some (1026, [], 0, kNeFSFlagCreated) := by decide +kernel
  obtain ⟨⟨res, d'⟩, hcall, heq⟩ := Option.bind_eq_some_iff.mp hrun
  obtain ⟨⟨startFree, tmp⟩, hslot, heq⟩ := Option.map_eq_some_iff.mp heq
  obtain rfl : res = .stored startFree tmp := CreateResult.slot_eq_some hslot
  simp only [Prod.mk.injEq] at heq
  obtain ⟨rfl, hname, htmp, hflags⟩ := heq
  refine ⟨tmp, d', hcall, by rw [createCatalog, hcall]; rfl, fun h => ?_, htmp, hflags, fun h => ?_⟩
  · rw [h] at hname
    cases hname
  · have hsame := (h.stored _ _ _ hcall).flags
    rw [htmp, hflags] at hsame
    cases hsame

end NeKernel.NeFS
