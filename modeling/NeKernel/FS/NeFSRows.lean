import NeKernel.FS.NeFSRemoval

/-!
# The row of catalogs

On a drive that was blank when it was formatted the catalogs fill the slots in order, each linked
to the next, and behind the last one lies a slot that ends every walk (`Row`). A lookup is then a
search for the first record whose name the path ends in. The record keeps the last component of
its path alone, so a path is found as soon as any path with the same ending has been created.
-/

namespace NeKernel.NeFS

open ByteStore Scan Runs

variable {drv : DriveTrait} {m m' r : Store} {d d' d₀ : Disk} {name partName p q : CString}
  {s s' : History} {c : CatalogCall} {flags kind n k off room lba outLba startFree i j : Nat}
  {localSearch : Bool} {paths : List (CString × Nat)}

/-! ## Slots -/

/-- The `i`-th slot. -/
def slotLba (drv : DriveTrait) (i : Nat) : Nat :=
  firstCatalog drv + i * catalogSectors drv.fSectorSz

theorem slotLba_succ : slotLba drv (i + 1) = slotLba drv i + catalogSectors drv.fSectorSz := by
  unfold slotLba
  rw [Nat.add_mul, Nat.one_mul, Nat.add_assoc]

theorem first_le_slotLba (i : Nat) : firstCatalog drv ≤ slotLba drv i := Nat.le_add_right _ _

theorem slotLba_mono (h : i ≤ j) : slotLba drv i ≤ slotLba drv j :=
  Nat.add_le_add_left (Nat.mul_le_mul_right _ h) _

/-- The record of a slot ends before the next slot. -/
theorem SectorAddressed.slot_end (hs : SectorAddressed drv) (h : slotLba drv (i + 1) ≤ lba) :
    drv.fAddress (slotLba drv i) + NefsCatalogStruct.size ≤ drv.fAddress lba := by
  have h₁ := hs.address_le h
  have h₂ := hs.le_catalogSectors_mul
  rw [slotLba_succ, hs.address_add] at h₁
  omega

/-- The name that goes to the record of a path: its last component, or nothing when that is too
long. -/
def storedName (name : CString) : CString :=
  let component := name.drop (componentIndex name)
  if kNeFSCatalogNameLen < component.length then ⟨[], by simp⟩ else component

/-- The path ends in the name of the other path's record. -/
def EndsIn (q p : CString) : Prop := (storedName p).chars <:+ q.chars

/-- The record at `lba` is that of a path. -/
structure Holds (drv : DriveTrait) (m : Store) (lba : Nat) (p : CString) : Prop where
  name : (NefsCatalogStruct.nameOf (slice m (drv.fAddress lba))).chars = (storedName p).chars
  created : created (NefsCatalogStruct.flags.get (slice m (drv.fAddress lba))) = true
  next : NefsCatalogStruct.nextSibling.get (slice m (drv.fAddress lba)) =
    lba + catalogSectors drv.fSectorSz

/-- The record at `lba` has neither name nor flags. -/
structure Vacant (drv : DriveTrait) (m : Store) (lba : Nat) : Prop where
  name : slice m (drv.fAddress lba) NefsCatalogStruct.name = 0
  free : created (NefsCatalogStruct.flags.get (slice m (drv.fAddress lba))) = false

/-- The records of the paths fill the slots in order, and nothing is behind them. -/
structure Row (drv : DriveTrait) (m : Store) (paths : List (CString × Nat)) : Prop where
  mounted : Mounted drv m
  short : paths.length ≤ 2 ^ 60
  holds : ∀ i p lba, paths[i]? = some (p, lba) → lba = slotLba drv i ∧ Holds drv m lba p
  vacant : ∀ lba, slotLba drv paths.length ≤ lba → Vacant drv m lba

/-- As much of a row as a walk comes to: the records, and the slot behind the last one. -/
structure Lined (drv : DriveTrait) (m : Store) (paths : List (CString × Nat)) : Prop where
  mounted : Mounted drv m
  short : paths.length ≤ 2 ^ 60
  holds : ∀ i p lba, paths[i]? = some (p, lba) → lba = slotLba drv i ∧ Holds drv m lba p
  stop : Vacant drv m (slotLba drv paths.length)

theorem Row.lined (h : Row drv m paths) : Lined drv m paths :=
  ⟨h.mounted, h.short, h.holds, h.vacant _ (Nat.le_refl _)⟩

theorem Lined.hold (h : Lined drv m paths) (hi : i < paths.length) :
    ∃ p, paths[i]? = some (p, slotLba drv i) ∧ Holds drv m (slotLba drv i) p := by
  rcases hx : paths[i] with ⟨p, lba⟩
  have hget : paths[i]? = some (p, lba) := by rw [List.getElem?_eq_getElem hi, hx]
  obtain ⟨rfl, hh⟩ := h.holds i p lba hget
  exact ⟨p, hget, hh⟩

/-! ## Lookups -/

theorem Holds.visit (h : Holds drv m lba p) :
    scanVisit drv m q true lba =
      if (storedName p).chars.isSuffixOf q.chars then
        .found (lba, slice m (drv.fAddress lba)) else .next := by
  simp [scanVisit, h.name, h.created]

theorem Vacant.visit (h : Vacant drv m lba) : scanVisit drv m q true lba = .stop := by
  have hname : (NefsCatalogStruct.nameOf (slice m (drv.fAddress lba))).chars = [] := by
    show charsAt _ NefsCatalogStruct.name (533 + 1) = []
    rw [charsAt, if_pos h.name]
  simp [scanVisit, hname, h.free]

/-- What a walk along the row comes to: the first record the path ends in, or nothing. -/
inductive Walk (drv : DriveTrait) (m : Store) (paths : List (CString × Nat)) (q : CString)
    (j : Nat) : Option (Nat × Store) → Prop
  | found {i : Nat} {p : CString} : j ≤ i → paths[i]? = some (p, slotLba drv i) → EndsIn q p →
      Walk drv m paths q j (some (slotLba drv i, slice m (drv.fAddress (slotLba drv i))))
  | absent : (∀ i p lba, j ≤ i → paths[i]? = some (p, lba) → ¬ EndsIn q p) →
      Walk drv m paths q j none

theorem Lined.scan_walk (h : Lined drv m paths) (hj : j + n = paths.length) {fuel : Nat}
    (hfuel : n < fuel) :
    ∃ found, Walk drv m paths q j found ∧
      scan (fun cursor => NefsCatalogStruct.nextSibling.get (slice m (drv.fAddress cursor)))
        (fun cursor => cursor < firstCatalog drv) (scanVisit drv m q true) fuel (slotLba drv j) =
          some found := by
  induction n generalizing j fuel with
  | zero =>
      obtain ⟨fuel, rfl⟩ : ∃ f, fuel = f + 1 := ⟨fuel - 1, by omega⟩
      refine ⟨none, .absent fun i p lba hi hget => ?_, ?_⟩
      · have := (List.getElem?_eq_some_iff.mp hget).1
        omega
      · rw [scan, show j = paths.length by omega, h.stop.visit]
  | succ n ih =>
      obtain ⟨fuel, rfl⟩ : ∃ f, fuel = f + 1 := ⟨fuel - 1, by omega⟩
      obtain ⟨p, hget, hh⟩ := h.hold (i := j) (by omega)
      -- the scan stops at this slot, or goes on where the induction takes over
      by_cases hend : EndsIn q p
      · refine ⟨_, .found (Nat.le_refl j) hget hend, ?_⟩
        rw [scan, hh.visit, if_pos (List.isSuffixOf_iff_suffix.mpr hend)]
      · obtain ⟨found, hwalk, hscan⟩ := ih (j := j + 1) (by omega) (show n < fuel by omega)
        refine ⟨found, ?_, ?_⟩
        · cases hwalk with
          | found hi hget' hend' => exact .found (by omega) hget' hend'
          | absent hno =>
              refine .absent fun i p' lba hi hget' => ?_
              rcases Nat.lt_or_ge j i with hlt | hge
              · exact hno i p' lba hlt hget'
              · obtain rfl : i = j := by omega
                rw [hget] at hget'
                cases hget'
                exact hend
        · have hin : ¬ slotLba drv (j + 1) < firstCatalog drv :=
            Nat.not_lt.mpr (first_le_slotLba _)
          rw [scan, hh.visit, if_neg (fun hs => hend (List.isSuffixOf_iff_suffix.mp hs))]
          simp only [hh.next, ← slotLba_succ, hin, decide_false, Bool.false_eq_true, if_false]
          exact hscan

/-- A walk from a slot on. -/
theorem Lined.scanFrom_walk (h : Lined drv m paths) (hj : j ≤ paths.length) (q : CString) :
    ∃ found, Walk drv m paths q j found ∧
      scanFrom drv (partBlock drv m) m q true (slotLba drv j) = some found := by
  have hstart : NefsRootPartitionBlock.startCatalog.get (partBlock drv m) = firstCatalog drv :=
    h.mounted.start
  have hshort := h.short
  have hfuel : paths.length - j < scanFuel := by
    unfold scanFuel
    omega
  obtain ⟨found, hwalk, hscan⟩ := h.scan_walk (q := q) (Nat.add_sub_of_le hj) hfuel
  refine ⟨found, hwalk, ?_⟩
  simp only [scanFrom, hstart]
  rw [if_neg (Nat.not_lt.mpr (first_le_slotLba _))]
  exact hscan

theorem slotLba_zero : slotLba drv 0 = firstCatalog drv := by
  unfold slotLba
  omega

/-- `FindCatalog` without `local_search` walks the whole row. -/
theorem Lined.findCatalogAnywhere (h : Lined drv d.bytes paths) (hq : q.chars ≠ []) :
    ∃ found d', Walk drv d.bytes paths q 0 found ∧
      findCatalogAnywhere drv q true d = some (found, d') ∧ d'.bytes = d.bytes := by
  obtain ⟨found, hwalk, hscan⟩ := h.scanFrom_walk (Nat.zero_le _) q
  have hstart : NefsRootPartitionBlock.startCatalog.get (partBlock drv d.bytes) =
      slotLba drv 0 := by
    rw [slotLba_zero]
    exact h.mounted.start
  refine ⟨found, (d.inputBlock drv kNeFSRootCatalogStartAddress).2, hwalk, ?_, rfl⟩
  unfold NeFS.findCatalogAnywhere
  rw [if_neg hq]
  show (scanFrom drv (partBlock drv d.bytes) d.bytes q true
    (NefsRootPartitionBlock.startCatalog.get (partBlock drv d.bytes))).bind _ = _
  rw [hstart, hscan]
  rfl

/-- The path gets through the checks in front of a local search. -/
def Searchable (q : CString) : Prop :=
  q ≠ kNeFSRoot → q.length < kNeFSCatalogNameLen ∧ (parentName q).isSome = true

/-- `GetCatalog` comes to a record of the row the path ends in, if there is one. -/
theorem Lined.scanLocal (h : Lined drv m paths) {parent : Option (Nat × Store)}
    (hp : Walk drv m paths p 0 parent) (q : CString) :
    ∃ found, (Walk drv m paths q 0 found) ∧
      scanLocal drv (partBlock drv m) m q true parent = some found := by
  have hstart : NefsRootPartitionBlock.startCatalog.get (partBlock drv m) = slotLba drv 0 := by
    rw [slotLba_zero]
    exact h.mounted.start
  obtain ⟨found, hwalk, hscan⟩ := h.scanFrom_walk (Nat.zero_le _) q
  cases hp with
  | absent =>
      refine ⟨found, hwalk, ?_⟩
      simp only [NeFS.scanLocal, hstart]
      exact hscan
  | @found i p' hi hget hend =>
      have hlt : i < paths.length := (List.getElem?_eq_some_iff.mp hget).1
      obtain ⟨-, hh⟩ := h.holds _ _ _ hget
      obtain ⟨after, hafter, hscan'⟩ := h.scanFrom_walk (j := i + 1) hlt q
      simp only [NeFS.scanLocal, hstart, hh.next, ← slotLba_succ, hscan', Option.bind_eq_bind,
        Option.bind_some]
      cases hafter with
      | found hi' hget' hend' => exact ⟨_, .found (Nat.zero_le _) hget' hend', rfl⟩
      | absent =>
          refine ⟨found, hwalk, ?_⟩
          simp only [Option.isSome_none, Bool.false_eq_true, if_false]
          exact hscan

theorem Lined.findCatalogLocal (h : Lined drv d.bytes paths) (hq : q.chars ≠ [])
    (hroot : q ≠ kNeFSRoot) (hs : Searchable q) :
    ∃ found d', Walk drv d.bytes paths q 0 found ∧
      findCatalogLocal drv q true d = some (found, d') := by
  obtain ⟨hlen, hparent⟩ := hs hroot
  obtain ⟨parent, hp⟩ := Option.isSome_iff_exists.mp hparent
  have hd : (d.inputBlock drv kNeFSRootCatalogStartAddress).2.bytes = d.bytes := rfl
  rw [← hd] at h
  obtain ⟨found, d₁, hwalk, hfind, hb⟩ := h.findCatalogAnywhere (parentName_ne hp hq)
  obtain ⟨found', hwalk', hscan⟩ := h.scanLocal hwalk q
  refine ⟨found', d₁, hwalk', ?_⟩
  unfold NeFS.findCatalogLocal
  simp only [hq, if_false, show ¬ kNeFSCatalogNameLen < q.length by omega,
    show q.length ≠ kNeFSCatalogNameLen by omega, hp, Option.bind_eq_bind, hfind, Option.bind_some]
  rw [hb]
  show (NeFS.scanLocal drv (partBlock drv d.bytes) _ q true found).bind _ = _
  rw [show NeFS.scanLocal drv (partBlock drv d.bytes)
    (d.inputBlock drv kNeFSRootCatalogStartAddress).2.bytes q true found = some found' from hscan]
  rfl

/-- A lookup that gets as far as a walk. -/
def Walks (q : CString) (localSearch : Bool) : Prop :=
  q.chars ≠ [] ∧ (localSearch = true → Searchable q)

/-- **What a lookup on the row comes to.** -/
theorem Lined.lookup_walk (h : Lined drv m paths) (hw : Walks q localSearch) :
    ∃ found, Walk drv m paths q 0 found ∧ lookup drv m q true localSearch = some found := by
  have hd : Lined drv (⟨m, []⟩ : Disk).bytes paths := h
  unfold lookup findCatalog
  split
  · next hl =>
      obtain ⟨found, d', hwalk, hfind⟩ := hd.findCatalogLocal hw.1 hl.2 (hw.2 hl.1)
      exact ⟨found, hwalk, by rw [hfind]; rfl⟩
  · obtain ⟨found, d', hwalk, hfind, -⟩ := hd.findCatalogAnywhere hw.1
    exact ⟨found, hwalk, by rw [hfind]; rfl⟩

/-- No other lookup finds anything. -/
theorem lookup_walks {hit : Nat × Store} (h : lookup drv m q true localSearch = some (some hit)) :
    Walks q localSearch := by
  obtain ⟨d', hd⟩ := (lookup_iff (d := ⟨m, []⟩)).mp h
  have hne : q.chars ≠ [] := by
    intro hn
    simp [findCatalog, NeFS.findCatalogLocal, NeFS.findCatalogAnywhere, hn] at hd
  refine ⟨hne, fun hl hroot => ?_⟩
  unfold findCatalog at hd
  rw [if_pos ⟨hl, hroot⟩] at hd
  simp only [NeFS.findCatalogLocal, hne, if_false] at hd
  split at hd
  · cases hd
  split at hd
  · cases hd
  · split at hd
    · cases hd
    · next parent hp => exact ⟨by omega, by rw [hp]; rfl⟩

/-- The lookup finds a catalog. -/
def Found (drv : DriveTrait) (m : Store) (q : CString) (localSearch : Bool) : Prop :=
  ∃ hit, lookup drv m q true localSearch = some (some hit)

/-- A path is found when the row has a record it ends in. -/
theorem Lined.found_iff (h : Lined drv m paths) :
    Found drv m q localSearch ↔ Walks q localSearch ∧ ∃ x ∈ paths, EndsIn q x.1 := by
  constructor
  · rintro ⟨hit, hl⟩
    have hw := lookup_walks hl
    obtain ⟨found, hwalk, hl'⟩ := h.lookup_walk hw
    rw [hl] at hl'
    cases hl'
    cases hwalk with
    | found hi hget hend => exact ⟨hw, _, List.mem_of_getElem? hget, hend⟩
  · rintro ⟨hw, x, hx, hend⟩
    obtain ⟨found, hwalk, hl⟩ := h.lookup_walk hw
    cases hwalk with
    | found hi hget hend => exact ⟨_, hl⟩
    | absent hno =>
        obtain ⟨i, hi⟩ := List.mem_iff_getElem?.mp hx
        exact absurd hend (hno i x.1 x.2 (Nat.zero_le _) hi)

/-! ## The record of a new catalog -/

/-- The copy of a name into a record touches the bytes of the name only. -/
theorem rtCopyMemorySafe_get {src dst : Store} {f : Field} (h : off + room ≤ f.off) :
    f.get (rtCopyMemorySafe src dst off n room) = f.get dst := by
  unfold rtCopyMemorySafe
  split
  · exact getLE_blit_of_disjoint (.inr h)
  · exact getLE_blit_of_disjoint (.inr (by omega))

section
variable {part : Store}

theorem childCatalog_apply {i : Nat} (hi : i < 457) :
    childCatalog name flags kind outLba i =
      rtCopyMemorySafe (name.drop (componentIndex name)).bytes zeros NefsCatalogStruct.name
        (name.drop (componentIndex name)).length kNeFSCatalogNameLen i := by
  unfold childCatalog
  have hbase : (NefsCatalogStruct.catalogFlags.set flags (NefsCatalogStruct.flags.set
      kNeFSFlagCreated (NefsCatalogStruct.kind.set kind (NefsCatalogStruct.prevSibling.set outLba
        (NefsCatalogStruct.nextSibling.set outLba zeros))))) i = zeros i := by
    rw [Field.set_apply, Field.set_apply, Field.set_apply, Field.set_apply, Field.set_apply]
    all_goals
      left
      refine Nat.lt_of_lt_of_le hi ?_
      decide
  unfold rtCopyMemorySafe
  split
  · show blit _ _ _ _ i = blit _ _ _ _ i
    unfold blit
    split
    · rfl
    · exact hbase
  · unfold blit
    split
    · rfl
    · exact hbase

theorem placedCatalog_apply {child : Store} {i : Nat} (hi : i < 457) :
    placedCatalog drv part child startFree i = child i := by
  unfold placedCatalog
  rw [Field.set_apply, Field.set_apply, Field.set_apply]
  all_goals
    left
    refine Nat.lt_of_lt_of_le hi ?_
    decide

/-- The name in the record of a new catalog. -/
theorem placedCatalog_name :
    (NefsCatalogStruct.nameOf (placedCatalog drv part (childCatalog name flags kind outLba)
      startFree)).chars = (storedName name).chars := by
  show charsAt _ 1 534 = _
  have hbyte : ∀ i < 457, placedCatalog drv part (childCatalog name flags kind outLba) startFree i =
      rtCopyMemorySafe (name.drop (componentIndex name)).bytes zeros 1
        (name.drop (componentIndex name)).length 256 i := fun i hi =>
    (placedCatalog_apply hi).trans (childCatalog_apply hi)
  unfold storedName
  generalize name.drop (componentIndex name) = component at hbyte ⊢
  have hlen : component.length = component.chars.length := rfl
  by_cases hlong : 256 < component.length
  · dsimp only
    rw [if_pos (show kNeFSCatalogNameLen < component.length from hlong)]
    apply charsAt_eq (by decide) (by simp) (by simp)
    rw [hbyte _ (by decide), rtCopyMemorySafe, if_pos hlong]
    rfl
  · dsimp only
    rw [if_neg (show ¬ kNeFSCatalogNameLen < component.length from hlong)]
    apply charsAt_eq (by omega) component.noNul
    · intro i hi
      rw [hbyte _ (by omega), rtCopyMemorySafe, if_neg hlong,
        blit_apply_of_mem (by omega) (by omega), Nat.add_sub_cancel_left]
      rfl
    · rw [hbyte _ (by omega), rtCopyMemorySafe, if_neg hlong,
        blit_apply_of_notMem (.inr (by omega))]
      rfl

theorem placedCatalog_flags :
    NefsCatalogStruct.flags.get (placedCatalog drv part (childCatalog name flags kind outLba)
      startFree) = kNeFSFlagCreated := by
  unfold placedCatalog childCatalog
  simp (disch := decide) only [Field.get_set_of_apart]
  rw [rtCopyMemorySafe_get (by decide)]
  simp (disch := decide) only [Field.get_set_of_apart, Field.get_set_same]
  decide

theorem placedCatalog_next {child : Store} :
    NefsCatalogStruct.nextSibling.get (placedCatalog drv part child startFree) =
      u64 (startFree + catalogSectors drv.fSectorSz) := by
  unfold placedCatalog
  simp (disch := decide) only [Field.get_set_of_apart, Field.get_set_same]
  exact mod_u64

end

/-! ## What keeps the row -/

theorem charsAt_congr (h : ∀ i < room, m' (off + i) = m (off + i)) :
    charsAt m' off room = charsAt m off room := by
  induction room generalizing off with
  | zero => rfl
  | succ room ih =>
      have h₀ : m' off = m off := h 0 (Nat.succ_pos _)
      rw [charsAt, charsAt, h₀, ih fun i hi => ?_]
      have := h (i + 1) (Nat.succ_lt_succ hi)
      rwa [show off + (i + 1) = off + 1 + i by omega] at this

/-- A record that has not been written to is still that of its path. -/
theorem Holds.congr (h : Holds drv m lba p) (hm : ∀ i < NefsCatalogStruct.size,
    slice m' (drv.fAddress lba) i = slice m (drv.fAddress lba) i) : Holds drv m' lba p := by
  have hfield {f : Field} (hf : f.off + f.width ≤ NefsCatalogStruct.size) :
      f.get (slice m' (drv.fAddress lba)) = f.get (slice m (drv.fAddress lba)) :=
    Field.get_congr fun i hi => hm _ (by omega)
  constructor
  · rw [← h.name]
    apply charsAt_congr
    intro i hi
    have hi' : i < 534 := hi
    exact hm (1 + i) (by show _ < 535; omega)
  · rw [hfield (by decide)]
    exact h.created
  · rw [hfield (by decide)]
    exact h.next

/-- So is one that looks the same. -/
theorem Holds.same (h : Holds drv m lba p)
    (hc : SameCatalog (slice m (drv.fAddress lba)) (slice m' (drv.fAddress lba))) :
    Holds drv m' lba p := by
  constructor
  · rw [← h.name]
    have hagree : ∀ i < 455, slice m' (drv.fAddress lba) (1 + i) =
        slice m (drv.fAddress lba) (1 + i) := fun i hi => hc.front (1 + i) (by omega)
    rcases charsAt_agree 534 (by omega) hagree with heq | ⟨-, hlong⟩
    · exact heq
    · exfalso
      -- a stored name is not that long
      have hlen : (storedName p).chars.length ≤ 256 := by
        unfold storedName
        dsimp only
        split
        · simp
        · next hle => exact Nat.le_of_not_lt hle
      have hname : charsAt (slice m (drv.fAddress lba)) 1 534 = (storedName p).chars := h.name
      rw [hname] at hlong
      omega
  · rw [hc.created]
    exact h.created
  · rw [hc.field (by decide) (by decide)]
    exact h.next

theorem Vacant.same (h : Vacant drv m lba)
    (hc : SameCatalog (slice m (drv.fAddress lba)) (slice m' (drv.fAddress lba))) :
    Vacant drv m' lba :=
  ⟨(hc.front 1 (by decide)).trans h.name, hc.created.trans h.free⟩

/-- A removal keeps the row. -/
theorem Row.removes (h : Row drv d.bytes paths) (hs : SectorAddressed drv)
    (hr : Removes drv d d' name outLba m') : Row drv d'.bytes paths := by
  have hc := hr.sameChain hs h.mounted
  have hstart : NefsRootPartitionBlock.startCatalog.get (partBlock drv d.bytes) =
      firstCatalog drv := h.mounted.start
  refine ⟨hr.mounted hs h.mounted, h.short, fun i p lba hget => ?_, fun lba hlba => ?_⟩
  · obtain ⟨rfl, hh⟩ := h.holds i p lba hget
    exact ⟨rfl, hh.same (hc.catalog _ (hstart.trans_le (first_le_slotLba _)))⟩
  · exact (h.vacant lba hlba).same
      (hc.catalog _ (hstart.trans_le ((first_le_slotLba _).trans hlba)))

/-- The slot loop starts at a slot of the row, or behind the last one. -/
theorem Row.slot_start (h : Row drv m paths) (hst : SlotSearch drv m name kind outLba) :
    ∃ j ≤ paths.length, outLba = slotLba drv j := by
  obtain ⟨p, -, ⟨r, hr, -⟩ | ⟨-, hr⟩⟩ := hst.parent
  · obtain ⟨found, hwalk, hl⟩ := h.lined.lookup_walk (lookup_walks hr)
    rw [hr] at hl
    cases hl
    cases hwalk with
    | @found i p' hi hget hend =>
        exact ⟨i, Nat.le_of_lt (List.getElem?_eq_some_iff.mp hget).1, rfl⟩
  · refine ⟨0, Nat.zero_le _, ?_⟩
    rw [hr, slotLba_zero]
    exact h.mounted.start

theorem slotLba_add (i j : Nat) :
    slotLba drv i + j * catalogSectors drv.fSectorSz = slotLba drv (i + j) := by
  unfold slotLba
  rw [Nat.add_mul, Nat.add_assoc]

/-- The record of a new catalog goes behind the last one. -/
theorem Row.slot (h : Row drv m paths) (hs : SectorAddressed drv)
    (hst : Stores drv m name kind outLba startFree) : startFree = slotLba drv paths.length := by
  obtain ⟨-, -, hfree, t, ht, hpassed⟩ := hst.slot_cases hs h.mounted
  obtain ⟨j, hj, rfl⟩ := h.slot_start hst.search
  rw [slotLba_add] at ht
  rcases Nat.lt_trichotomy (j + t) paths.length with hlt | heq | hgt
  · obtain ⟨p, -, hh⟩ := h.lined.hold hlt
    rw [ht, hh.created] at hfree
    cases hfree
  · rw [ht, heq]
  · have hcreated := hpassed (paths.length - j) (by omega)
    rw [slotLba_add, Nat.add_sub_of_le hj, (h.vacant _ (Nat.le_refl _)).free] at hcreated
    cases hcreated

/-- No slot the loop comes to carries the path as its name, since no lookup has found the path. -/
theorem Row.not_existing (h : Row drv m paths) (hs : SectorAddressed drv) {tmp : Store}
    (hst : SlotSearch drv m name kind outLba) :
    findSlot drv (partBlock drv m) m name outLba ≠ some (some (.existing tmp)) := by
  intro hslot
  have hcs := hs.catalogSectors_le
  obtain ⟨j₀, -, rfl⟩ := h.slot_start hst
  obtain ⟨hin, j, hcreated, hname, hpassed⟩ := findSlot_existing hslot
  obtain ⟨hlimit, hcount⟩ := h.mounted.slotLimit hs
  have hmul : (counters drv m).catalogCount * catalogSectors drv.fSectorSz ≤
      (counters drv m).catalogCount * 2 := Nat.mul_le_mul_left _ hcs
  rw [nextSlot_iterate (by rw [hlimit]; show 1024 + _ + _ + _ ≤ _; omega) hin hpassed
    (Nat.le_refl j), slotLba_add] at hcreated hname
  rcases Nat.lt_or_ge (j₀ + j) paths.length with hlt | hge
  · obtain ⟨p, hget, hh⟩ := h.lined.hold hlt
    have hsame : (storedName p).chars = name.chars := by rw [← hh.name, hname]
    have hend : EndsIn name p := ⟨[], hsame⟩
    have hne : name.chars ≠ [] := by
      intro hnil
      have := hst.length
      simp [CString.length, hnil] at this
    have hfound : Found drv m name false :=
      h.lined.found_iff.mpr ⟨⟨hne, by simp⟩, _, List.mem_of_getElem? hget, hend⟩
    obtain ⟨hit, hl⟩ := hfound
    rw [hst.absent] at hl
    cases hl
  · rw [(h.vacant _ (slotLba_mono hge)).free] at hcreated
    cases hcreated

/-- Outside of the record and the block a creation writes nothing. -/
theorem storedBytes_apply {x : Nat}
    (hrec : x < drv.fAddress startFree ∨ drv.fAddress startFree + NefsCatalogStruct.size ≤ x)
    (hblock : drv.fAddress kNeFSRootCatalogStartAddress + NefsRootPartitionBlock.size ≤ x) :
    storedBytes drv name flags kind outLba startFree m x = m x := by
  unfold storedBytes
  rw [blit_apply_of_notMem (.inr hblock), blit_apply_of_notMem hrec]

/-- The record as it stands on the drive. -/
theorem storedBytes_record (hblock : drv.fAddress kNeFSRootCatalogStartAddress +
    NefsRootPartitionBlock.size ≤ drv.fAddress startFree) {i : Nat}
    (hi : i < NefsCatalogStruct.size) :
    slice (storedBytes drv name flags kind outLba startFree m) (drv.fAddress startFree) i =
      placedCatalog drv (partBlock drv m) (childCatalog name flags kind outLba) startFree i := by
  unfold storedBytes
  rw [slice_apply, blit_apply_of_notMem (.inr (by omega)), blit_apply_of_mem (by omega) (by omega),
    Nat.add_sub_cancel_left]

theorem Holds.stored (hs : SectorAddressed drv) (hfirst : firstCatalog drv ≤ startFree)
    (hlt : startFree + catalogSectors drv.fSectorSz < 2 ^ 64) :
    Holds drv (storedBytes drv name flags kind outLba startFree m) startFree name := by
  have hrec : ∀ i < NefsCatalogStruct.size,
      slice (storedBytes drv name flags kind outLba startFree m) (drv.fAddress startFree) i =
        placedCatalog drv (partBlock drv m) (childCatalog name flags kind outLba) startFree i :=
    fun i hi => storedBytes_record (hs.block_below hfirst) hi
  have hfield {f : Field} (hf : f.off + f.width ≤ NefsCatalogStruct.size) :
      f.get (slice (storedBytes drv name flags kind outLba startFree m)
        (drv.fAddress startFree)) = f.get (placedCatalog drv (partBlock drv m)
          (childCatalog name flags kind outLba) startFree) :=
    Field.get_congr fun i hi => hrec _ (by omega)
  constructor
  · have hname : charsAt (placedCatalog drv (partBlock drv m)
        (childCatalog name flags kind outLba) startFree) 1 534 = (storedName name).chars :=
      placedCatalog_name
    rw [← hname]
    apply charsAt_congr
    intro i hi
    have hi' : i < 534 := hi
    exact hrec (1 + i) (by show _ < 535; omega)
  · rw [hfield (by decide), placedCatalog_flags]
    decide
  · rw [hfield (by decide), placedCatalog_next, u64_of_lt hlt]

/-- **A creation adds one record to the row.** -/
theorem Row.stores (h : Row drv m paths) (hs : SectorAddressed drv)
    (hst : Stores drv m name kind outLba startFree) :
    Row drv (storedBytes drv name flags kind outLba startFree m)
      (paths ++ [(name, startFree)]) := by
  have hslot := h.slot hs hst
  have hfirst := hst.first hs h.mounted
  have hcs := hs.catalogSectors_le
  have hpos := hs.catalogSectors_pos
  have hblock := hs.block_below hfirst
  have hshort : paths.length < 2 ^ 60 := by
    obtain ⟨-, hlt, -⟩ := hst.slot_cases hs h.mounted
    have hcount := (h.mounted.slotLimit hs).2
    rw [hslot, slotLba] at hlt
    have hmul := Nat.lt_of_mul_lt_mul_right (Nat.lt_of_add_lt_add_left hlt)
    omega
  have hlt : startFree + catalogSectors drv.fSectorSz < 2 ^ 64 := by
    have hmul : paths.length * catalogSectors drv.fSectorSz ≤ paths.length * 2 :=
      Nat.mul_le_mul_left _ hcs
    rw [hslot]
    show 1024 + _ + _ + _ < _
    omega
  refine ⟨hst.mounted hs h.mounted, ?_, fun i p lba hget => ?_, fun lba hlba => ?_⟩
  · rw [List.length_append, List.length_singleton]
    omega
  · rcases Nat.lt_or_ge i paths.length with hi | hi
    · -- the catalogs that were there lie below the new one
      rw [List.getElem?_append_left hi] at hget
      obtain ⟨rfl, hh⟩ := h.holds i p lba hget
      refine ⟨rfl, hh.congr fun x hx => ?_⟩
      have hend := hs.slot_end (slotLba_mono (show i + 1 ≤ paths.length from hi))
      have hbelow := hs.block_below (first_le_slotLba i)
      apply storedBytes_apply
      · left
        rw [hslot]
        omega
      · omega
    · rw [List.getElem?_append_right hi] at hget
      obtain ⟨hi₀, hx⟩ : i - paths.length = 0 ∧ (name, startFree) = (p, lba) := by
        rcases hz : i - paths.length with _ | z <;> rw [hz] at hget
        · exact ⟨rfl, by simpa using hget⟩
        · simp at hget
      cases hx
      refine ⟨?_, Holds.stored hs hfirst hlt⟩
      rw [hslot]
      congr 1
      omega
  · rw [List.length_append, List.length_singleton] at hlba
    have hend := hs.slot_end hlba
    rw [← hslot] at hend
    have hv := h.vacant lba ((slotLba_mono (Nat.le_succ _)).trans hlba)
    -- the slots behind it are as they were
    have happly : ∀ i, slice (storedBytes drv name flags kind outLba startFree m)
        (drv.fAddress lba) i = slice m (drv.fAddress lba) i := by
      intro i
      apply storedBytes_apply <;> omega
    refine ⟨(happly _).trans hv.name, ?_⟩
    rw [Field.get_congr fun i _ => happly _]
    exact hv.free

end NeKernel.NeFS
