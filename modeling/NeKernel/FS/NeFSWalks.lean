import NeKernel.FS.NeFSSteps
import NeKernel.Lib.Trails

/-!
# The walks of a search

`FindCatalog` follows the `NextSibling` of the records it reads and stops at a record it looks for, or at an
address in front of the catalogs. Nothing keeps a record from linking back: a search comes to an end exactly
when none of its walks comes back to a record before one of its exits, and what it comes to then is what
they find (`lookup_iff_walks`).
-/

namespace NeKernel.NeFS

open ByteStore Scan

variable {drv : DriveTrait} {m : Store} {d d' : Disk} {name parent : CString} {hidden localSearch : Bool}
  {lba : Nat} {r : Nat × Store}

/-! ## The walks -/

/-- `StartCatalog`, as the operations read it. -/
@[irreducible] def startOf (drv : DriveTrait) (m : Store) : Nat :=
  NefsRootPartitionBlock.startCatalog.get (partBlock drv m)

/-- The walk of `scan_from`. -/
def catalogWalk (drv : DriveTrait) (m : Store) (name : CString) (hidden : Bool) (lbaStart : Nat) :
    Trail (Nat × Store) where
  move cursor := NefsCatalogStruct.nextSibling.get (slice m (drv.fAddress cursor))
  leave cursor := cursor < startOf drv m
  visit := scanVisit drv m name hidden
  start := lbaStart

/-! ## Links are words -/

theorem scanFuel_eq : scanFuel = 2 ^ 64 := by rw [scanFuel]

theorem word_lt {f : Field} {r : Store} (hf : f.width = 8) : f.get r < 2 ^ 64 := by
  have hlt : f.get r < 256 ^ f.width := Field.get_lt
  rw [hf] at hlt
  exact hlt

/-- A walk whose moves are links stays among the addresses. -/
theorem walk_lt {α : Type*} {w : Trail α} (hstart : w.start < 2 ^ 64)
    (hmove : ∀ x < 2 ^ 64, w.move x < 2 ^ 64) (k : Nat) : w.at_ k < 2 ^ 64 := by
  induction k with
  | zero => exact hstart
  | succ k ih =>
      rw [Trail.at_succ]
      exact hmove _ ih

/-! ## `FindCatalog` -/

theorem catalogWalk_lt (hlba : lba < 2 ^ 64) (k : Nat) :
    (catalogWalk drv m name hidden lba).at_ k < 2 ^ 64 :=
  walk_lt hlba (fun _ _ => word_lt rfl) k

/-- `scan_from` is that walk, where it does not begin in front of the catalogs. -/
theorem scanFrom_eq : scanFrom drv (partBlock drv m) m name hidden lba =
    if lba < startOf drv m then some none else (catalogWalk drv m name hidden lba).run scanFuel := by
  unfold scanFrom Trail.run catalogWalk startOf
  simp only

theorem scanFrom_none_iff (hlba : lba < 2 ^ 64) :
    scanFrom drv (partBlock drv m) m name hidden lba = none ↔
      startOf drv m ≤ lba ∧ (catalogWalk drv m name hidden lba).Circles := by
  rw [scanFrom_eq]
  by_cases hout : lba < startOf drv m
  · rw [if_pos hout]
    exact iff_of_false (by simp) fun h => absurd h.1 (Nat.not_le.mpr hout)
  · rw [if_neg hout, Trail.run_none_iff (catalogWalk_lt hlba) scanFuel_eq.ge]
    exact (and_iff_right (Nat.le_of_not_lt hout)).symm

theorem scanFrom_found_iff (hlba : lba < 2 ^ 64) :
    scanFrom drv (partBlock drv m) m name hidden lba = some (some r) ↔
      startOf drv m ≤ lba ∧ (catalogWalk drv m name hidden lba).Finds r := by
  rw [scanFrom_eq]
  by_cases hout : lba < startOf drv m
  · rw [if_pos hout]
    exact iff_of_false (by simp) fun h => absurd h.1 (Nat.not_le.mpr hout)
  · rw [if_neg hout, Trail.run_found_iff (catalogWalk_lt hlba) scanFuel_eq.ge]
    exact (and_iff_right (Nat.le_of_not_lt hout)).symm

/-- The walk over all catalogs. -/
def allWalk (drv : DriveTrait) (m : Store) (name : CString) (hidden : Bool) : Trail (Nat × Store) :=
  catalogWalk drv m name hidden (startOf drv m)

/-- The walk behind the catalog of the parent, where it is made and what it comes to. -/
def Behind (drv : DriveTrait) (m : Store) (name parent : CString) (hidden : Bool)
    (P : Trail (Nat × Store) → Prop) : Prop :=
  ∃ hit, (allWalk drv m parent hidden).Finds hit ∧
    startOf drv m ≤ NefsCatalogStruct.nextSibling.get hit.2 ∧
    P (catalogWalk drv m name hidden (NefsCatalogStruct.nextSibling.get hit.2))

/-- One of the walks of a local search circles: that to the catalog of the parent, that behind it, or, when
nothing is found there, that over all catalogs. -/
def LocalCircles (drv : DriveTrait) (m : Store) (name parent : CString) (hidden : Bool) : Prop :=
  (allWalk drv m parent hidden).Circles ∨ Behind drv m name parent hidden Trail.Circles ∨
    (¬ Behind drv m name parent hidden (fun w => ∃ r, w.Finds r) ∧ (allWalk drv m name hidden).Circles)

/-- What a local search finds. -/
def LocalFinds (drv : DriveTrait) (m : Store) (name parent : CString) (hidden : Bool) (r : Nat × Store) :
    Prop :=
  Behind drv m name parent hidden (·.Finds r) ∨
    (¬ (allWalk drv m parent hidden).Circles ∧ ¬ Behind drv m name parent hidden Trail.Circles ∧
      ¬ Behind drv m name parent hidden (fun w => ∃ r, w.Finds r) ∧ (allWalk drv m name hidden).Finds r)

theorem startOf_eq : startOf drv m = NefsRootPartitionBlock.startCatalog.get (partBlock drv m) := by
  rw [startOf]

theorem startOf_lt : startOf drv m < 2 ^ 64 := by
  rw [startOf]
  exact word_lt rfl

theorem allWalk_none_iff :
    scanFrom drv (partBlock drv m) m name hidden (startOf drv m) = none ↔
      (allWalk drv m name hidden).Circles :=
  (scanFrom_none_iff startOf_lt).trans (and_iff_right (Nat.le_refl _))

theorem allWalk_found_iff :
    scanFrom drv (partBlock drv m) m name hidden (startOf drv m) = some (some r) ↔
      (allWalk drv m name hidden).Finds r :=
  (scanFrom_found_iff startOf_lt).trans (and_iff_right (Nat.le_refl _))

theorem behind_iff {P : Trail (Nat × Store) → Prop} (h : (allWalk drv m parent hidden).Finds r) :
    Behind drv m name parent hidden P ↔ startOf drv m ≤ NefsCatalogStruct.nextSibling.get r.2 ∧
      P (catalogWalk drv m name hidden (NefsCatalogStruct.nextSibling.get r.2)) := by
  constructor
  · rintro ⟨hit, hhit, hP⟩
    rw [h.unique hhit]
    exact hP
  · exact fun hP => ⟨r, h, hP⟩

theorem scanLocal_none : scanLocal drv (partBlock drv m) m name hidden none =
    scanFrom drv (partBlock drv m) m name hidden (startOf drv m) := by
  simp only [scanLocal, startOf]

theorem scanLocal_some (hit : Nat × Store) :
    scanLocal drv (partBlock drv m) m name hidden (some hit) =
      (scanFrom drv (partBlock drv m) m name hidden (NefsCatalogStruct.nextSibling.get hit.2)).bind
        fun found => if found.isSome then some found
          else scanFrom drv (partBlock drv m) m name hidden (startOf drv m) := by
  unfold scanLocal startOf
  simp only [Option.bind_eq_bind]
  rfl

/-- **What a local search comes to**: no end, a record, or nothing, as its walks do. -/
theorem local_iff :
    ((scanFrom drv (partBlock drv m) m parent hidden (startOf drv m)).bind
        (scanLocal drv (partBlock drv m) m name hidden) = none ↔ LocalCircles drv m name parent hidden) ∧
      ((scanFrom drv (partBlock drv m) m parent hidden (startOf drv m)).bind
        (scanLocal drv (partBlock drv m) m name hidden) = some (some r) ↔
          LocalFinds drv m name parent hidden r) := by
  have hnext : ∀ {hit : Nat × Store}, NefsCatalogStruct.nextSibling.get hit.2 < 2 ^ 64 := word_lt rfl
  unfold LocalCircles LocalFinds
  cases hparent : scanFrom drv (partBlock drv m) m parent hidden (startOf drv m) with
  | none =>
      have hcircle := allWalk_none_iff.mp hparent
      have hno : ∀ {P}, ¬ Behind drv m name parent hidden P := by
        rintro P ⟨hit, hhit, -⟩
        exact hhit.not_circles hcircle
      simp [hcircle, hno]
  | some found =>
      have hparent' : ¬ (allWalk drv m parent hidden).Circles := by
        rw [← allWalk_none_iff, hparent]
        exact Option.some_ne_none _
      cases found with
      | none =>
          have hno : ∀ {P}, ¬ Behind drv m name parent hidden P := by
            rintro P ⟨hit, hhit, -⟩
            rw [← allWalk_found_iff, hparent] at hhit
            cases hhit
          simp only [hparent', hno, false_or, not_false_eq_true, true_and]
          rw [Option.bind_some, scanLocal_none]
          exact ⟨allWalk_none_iff, allWalk_found_iff⟩
      | some hit =>
          have hhit := allWalk_found_iff.mp hparent
          simp only [hparent', behind_iff hhit, false_or, not_false_eq_true, true_and, ← allWalk_none_iff,
            ← allWalk_found_iff, ← scanFrom_none_iff hnext, ← exists_and_left, ← scanFrom_found_iff hnext]
          rw [Option.bind_some, scanLocal_some]
          cases scanFrom drv (partBlock drv m) m name hidden (NefsCatalogStruct.nextSibling.get hit.2) with
          | none => simp
          | some found =>
              cases found with
              | none => simp
              | some hit => simp

/-- `FindCatalog` searches behind the parent. -/
def SearchesLocal (name : CString) (localSearch : Bool) : Prop := localSearch = true ∧ name ≠ kNeFSRoot

instance : Decidable (SearchesLocal name localSearch) := inferInstanceAs (Decidable (_ ∧ _))

/-- A walk of `FindCatalog` circles. -/
def FindCircles (drv : DriveTrait) (m : Store) (name : CString) (hidden localSearch : Bool) : Prop :=
  name.chars ≠ [] ∧
    if SearchesLocal name localSearch then
      name.length < kNeFSCatalogNameLen ∧
        ∃ parent, parentName name = some parent ∧ LocalCircles drv m name parent hidden
    else (allWalk drv m name hidden).Circles

/-- What `FindCatalog` finds. -/
def FindFinds (drv : DriveTrait) (m : Store) (name : CString) (hidden localSearch : Bool)
    (r : Nat × Store) : Prop :=
  name.chars ≠ [] ∧
    if SearchesLocal name localSearch then
      name.length < kNeFSCatalogNameLen ∧
        ∃ parent, parentName name = some parent ∧ LocalFinds drv m name parent hidden r
    else (allWalk drv m name hidden).Finds r

/-- The path fits the buffer a local search copies it to, and no walk circles. -/
def FindEnds (drv : DriveTrait) (m : Store) (name : CString) (hidden localSearch : Bool) : Prop :=
  (SearchesLocal name localSearch → name.length ≤ kNeFSCatalogNameLen) ∧
    ¬ FindCircles drv m name hidden localSearch

theorem findCatalogAnywhere_fst (hn : name.chars ≠ []) :
    (findCatalogAnywhere drv name hidden d).map Prod.fst =
      scanFrom drv (partBlock drv d.bytes) d.bytes name hidden (startOf drv d.bytes) := by
  unfold findCatalogAnywhere startOf partBlock
  simp only [hn, if_false, Disk.inputBlock_fst, Disk.inputBlock_bytes]
  simp

theorem findCatalogAnywhere_bytes {found : Option (Nat × Store)}
    (h : findCatalogAnywhere drv name hidden d = some (found, d')) : d'.bytes = d.bytes :=
  (findCatalogAnywhere_reads _ _ _ h).1

theorem findCatalogLocal_fst (hn : name.chars ≠ []) (hlen : name.length < kNeFSCatalogNameLen)
    (hp : parentName name = some parent) :
    (findCatalogLocal drv name hidden d).map Prod.fst =
      (scanFrom drv (partBlock drv d.bytes) d.bytes parent hidden (startOf drv d.bytes)).bind
        (scanLocal drv (partBlock drv d.bytes) d.bytes name hidden) := by
  have hfst : (findCatalogAnywhere drv parent hidden (d.inputBlock drv kNeFSRootCatalogStartAddress).2).map
      Prod.fst = scanFrom drv (partBlock drv d.bytes) d.bytes parent hidden (startOf drv d.bytes) :=
    findCatalogAnywhere_fst (parentName_ne hp hn)
  unfold findCatalogLocal
  simp only [hn, if_false, Nat.not_lt.mpr (Nat.le_of_lt hlen), Nat.ne_of_lt hlen, hp, ← hfst]
  cases hany : findCatalogAnywhere drv parent hidden (d.inputBlock drv kNeFSRootCatalogStartAddress).2 with
  | none => rfl
  | some x =>
      have hb := findCatalogAnywhere_bytes hany
      rw [Disk.inputBlock_bytes] at hb
      simp [hb, partBlock]

/-- A local search that comes to no walk. -/
theorem findCatalogLocal_noWalk (hn : name.chars ≠ []) (hlen : name.length ≤ kNeFSCatalogNameLen)
    (hno : name.length < kNeFSCatalogNameLen → parentName name = none) :
    (findCatalogLocal drv name hidden d).map Prod.fst = some none := by
  unfold findCatalogLocal
  simp only [hn, if_false, Nat.not_lt.mpr hlen]
  split
  · rfl
  · next hne =>
      rw [hno (Nat.lt_of_le_of_ne hlen hne)]
      rfl

/-- **Every lookup** that ends comes to what its walks find. -/
theorem lookup_iff_walks :
    (lookup drv m name hidden localSearch = none ↔ ¬ FindEnds drv m name hidden localSearch) ∧
      (lookup drv m name hidden localSearch = some (some r) ↔
        FindFinds drv m name hidden localSearch r) := by
  unfold lookup FindEnds FindCircles FindFinds findCatalog
  by_cases hn : name.chars = []
  · have hlen : name.length ≤ kNeFSCatalogNameLen := by simp [CString.length, hn]
    by_cases hlocal : SearchesLocal name localSearch
    · simp [show localSearch = true ∧ name ≠ kNeFSRoot from hlocal, findCatalogLocal, hn, hlen]
    · simp [hlocal, show ¬ (localSearch = true ∧ name ≠ kNeFSRoot) from hlocal, findCatalogAnywhere, hn]
  by_cases hlocal : SearchesLocal name localSearch
  · rw [if_pos (show localSearch = true ∧ name ≠ kNeFSRoot from hlocal)]
    simp only [hlocal, hn, ne_eq, not_false_eq_true, true_and, if_true, forall_const]
    rcases Nat.lt_trichotomy name.length kNeFSCatalogNameLen with hlt | heq | hgt
    · cases hp : parentName name with
      | none =>
          rw [findCatalogLocal_noWalk hn (Nat.le_of_lt hlt) fun _ => hp]
          simp [Nat.le_of_lt hlt]
      | some parent =>
          rw [findCatalogLocal_fst hn hlt hp]
          simp only [Nat.le_of_lt hlt, hlt, true_and, not_not, Option.some.injEq, exists_eq_left']
          exact local_iff
    · rw [findCatalogLocal_noWalk hn (Nat.le_of_eq heq) fun hlt => absurd heq (Nat.ne_of_lt hlt)]
      simp [heq]
    · simp [findCatalogLocal, hn, hgt, Nat.not_le.mpr hgt, Nat.not_lt.mpr (Nat.le_of_lt hgt)]
  · rw [if_neg (show ¬ (localSearch = true ∧ name ≠ kNeFSRoot) from hlocal), findCatalogAnywhere_fst hn]
    simp only [hlocal, hn, ne_eq, not_false_eq_true, true_and, if_false, false_implies, not_not]
    exact ⟨allWalk_none_iff, allWalk_found_iff⟩

theorem lookup_none_iff :
    lookup drv m name hidden localSearch = none ↔ ¬ FindEnds drv m name hidden localSearch :=
  (lookup_iff_walks (r := (0, zeros))).1

theorem lookup_found_iff : lookup drv m name hidden localSearch = some (some r) ↔
    FindFinds drv m name hidden localSearch r := lookup_iff_walks.2

end NeKernel.NeFS
