import NeKernel.FS.NeFSDrive
import NeKernel.FS.NeFSWalks

/-!
# Searches on a drive with an end

`FindCatalog` looks at `fPacketGood` before each turn, so a read that fails ends its search with nothing,
and every search after it. Otherwise it comes to what its walks find, or to no end where one of them comes
back to a record (`findCatalog_settles`). Where every transfer is taken, that is what it comes to in the
parser without failures (`findCatalog_endless`).
-/

namespace NeKernel.NeFS.Ended

open ByteStore Scan

variable {drv : EndedDrive} {m : Store} {s s' : Medium} {name parent : CString}
  {hidden localSearch : Bool} {lba : Nat} {r : Nat × Store} {c : Cursor}

/-! ## `scan_from` -/

/-- The walk of `scan_from`. Where a read fails, it comes to nothing and no other walk is made. -/
def catalogWalk (drv : EndedDrive) (m : Store) (name : CString) (hidden : Bool) (lbaStart : Nat) :
    Trail (Option (Nat × Store)) where
  move cursor := NefsCatalogStruct.nextSibling.get (slice m (drv.fAddress cursor))
  leave _ := false
  visit cursor :=
    if cursor < startOf drv.toDriveTrait m then .stop
    else if drv.fReaches cursor NefsCatalogStruct.size then
      match scanVisit drv.toDriveTrait m name hidden cursor with
      | .found hit => .found (some hit)
      | .stop => .stop
      | .next => .next
    else .found none
  start := lbaStart

theorem catalogWalk_lt (hlba : lba < 2 ^ 64) (k : Nat) :
    (catalogWalk drv m name hidden lba).at_ k < 2 ^ 64 :=
  walk_lt hlba (fun _ _ => word_lt rfl) k

/-- A buffer with nothing in it that the search returns. -/
def PassedBy (name : CString) (hidden : Bool) (buf : Store) : Prop :=
  (NefsCatalogStruct.nameOf buf).chars.isSuffixOf name.chars = true →
    NefsCatalogStruct.status.get buf = kNeFSStatusLocked ∧ hidden = false ∨
      created (NefsCatalogStruct.flags.get buf) = false

/-- What `scan_from` returns when its walk has come to `res`. -/
def comesTo (s : Medium) : Option (Option (Nat × Store)) → Option (Nat × Store) × Medium
  | some (some hit) => (some hit, s)
  | some none => (none, s.failed)
  | none => (none, s)

section
variable {startCatalog : Nat} (hstart : startCatalog ≤ c.lba) (hgood : c.medium.fPacketGood = true)
include hstart hgood

theorem scanTurn_reached (hin : drv.fReaches c.lba NefsCatalogStruct.size = true) :
    scanTurn drv startCatalog name hidden c =
      match scanVisit drv.toDriveTrait c.medium.bytes name hidden c.lba with
      | .found hit => .leave (some hit, c.medium)
      | .stop => .leave (none, c.medium)
      | .next => .again ⟨NefsCatalogStruct.nextSibling.get (slice c.medium.bytes (drv.fAddress c.lba)),
          slice c.medium.bytes (drv.fAddress c.lba), c.medium⟩ := by
  unfold scanTurn scanVisit
  simp only [hstart, hgood, Medium.fInput_reached hin, and_self, if_true]
  by_cases hname : (NefsCatalogStruct.nameOf
      (slice c.medium.bytes (drv.fAddress c.lba))).chars.isSuffixOf name.chars = true
  · simp only [hname, if_true]
    by_cases hlocked : NefsCatalogStruct.status.get (slice c.medium.bytes (drv.fAddress c.lba)) =
        kNeFSStatusLocked ∧ !hidden
    · rw [if_pos hlocked, if_pos hlocked]
    · rw [if_neg hlocked, if_neg hlocked]
      cases created (NefsCatalogStruct.flags.get (slice c.medium.bytes (drv.fAddress c.lba))) <;> rfl
  · simp only [hname]
    rfl

theorem scanTurn_fails (hout : drv.fReaches c.lba NefsCatalogStruct.size = false)
    (hbuf : PassedBy name hidden c.buf) :
    Trail.LeavesSoon (scanTurn drv startCatalog name hidden) c (none, c.medium.failed) := by
  have hread : c.medium.fInput drv c.lba NefsCatalogStruct.size c.buf = (c.buf, c.medium.failed) :=
    Medium.fInput_failed hout
  by_cases hname : (NefsCatalogStruct.nameOf c.buf).chars.isSuffixOf name.chars = true
  · left
    unfold scanTurn
    simp only [hstart, hgood, hread, hname, and_self, if_true]
    rcases hbuf hname with ⟨hlocked, rfl⟩ | hcreated
    · simp [hlocked]
    · simp [hcreated]
  · right
    refine ⟨⟨NefsCatalogStruct.nextSibling.get c.buf, c.buf, c.medium.failed⟩, ?_, ?_⟩
    · unfold scanTurn
      simp only [hstart, hgood, hread, hname, and_self, if_true]
      rfl
    · unfold scanTurn Medium.failed
      simp

end

theorem scanVisit_next (h : scanVisit drv.toDriveTrait m name hidden lba = .next) :
    PassedBy name hidden (slice m (drv.fAddress lba)) := by
  intro hname
  unfold scanVisit at h
  simp only [hname, if_true] at h
  split at h
  · cases h
  · split at h <;> cases h

theorem scanTurn_follows (hgood : s.fPacketGood = true) :
    Trail.Follows (scanTurn drv (startOf drv.toDriveTrait s.bytes) name hidden)
      (catalogWalk drv s.bytes name hidden lba) Cursor.lba
      (fun c => c.medium = s ∧ PassedBy name hidden c.buf) (fun res b => b = comesTo s res) where
  stays _ := rfl
  does := by
    rintro c ⟨rfl, hbuf⟩
    simp only [catalogWalk]
    split
    · next hlow =>
        have hturn : scanTurn drv (startOf drv.toDriveTrait c.medium.bytes) name hidden c =
            .leave (none, c.medium) := by
          unfold scanTurn
          rw [if_neg fun h => absurd h.1 (Nat.not_le.mpr hlow)]
        exact ⟨_, .inl hturn, rfl⟩
    next hlow =>
    have hstart := Nat.le_of_not_lt hlow
    split
    · next hin =>
        have hturn := @scanTurn_reached drv name hidden c _ hstart hgood hin
        cases hscan : scanVisit drv.toDriveTrait c.medium.bytes name hidden c.lba <;>
          simp only [hscan] at hturn
        · exact ⟨_, .inl hturn, rfl⟩
        · exact ⟨_, .inl hturn, rfl⟩
        · exact ⟨_, hturn, rfl, rfl, scanVisit_next hscan⟩
    · next hout =>
        exact ⟨_, scanTurn_fails hstart hgood (Bool.eq_false_iff.mpr hout) hbuf, rfl⟩

/-- On a packet that is not good nothing is read. -/
theorem scanFrom_failed {startCatalog : Nat} (h : s.fPacketGood = false) :
    scanFrom drv startCatalog name hidden lba s = some (none, s) := by
  unfold scanFrom
  rw [whileLoop, scanTurn, if_neg fun hgood => by simp [h] at hgood]

/-- What `scan_from` comes to is what its walk comes to. -/
theorem scanFrom_cases (hgood : s.fPacketGood = true) (hlba : lba < 2 ^ 64) :
    ((catalogWalk drv s.bytes name hidden lba).Circles ∧
      scanFrom drv (startOf drv.toDriveTrait s.bytes) name hidden lba s = none) ∨
    (¬ (catalogWalk drv s.bytes name hidden lba).Circles ∧ ∃ res,
      scanFrom drv (startOf drv.toDriveTrait s.bytes) name hidden lba s = some (comesTo s res) ∧
        ∀ a, res = some a ↔ (catalogWalk drv s.bytes name hidden lba).Finds a) := by
  have hfresh : PassedBy name hidden zeros := fun _ => .inr (by decide)
  rcases (scanTurn_follows hgood).cases (s := ⟨lba, zeros, s⟩) (catalogWalk_lt hlba)
    scanFuel_eq.ge ⟨rfl, hfresh⟩ rfl with h | ⟨hcircle, res, b, hloop, rfl, hfinds⟩
  · exact .inl h
  · exact .inr ⟨hcircle, res, hloop, hfinds⟩

/-! ## `FindCatalog` -/

/-- The walk over all catalogs. -/
def allWalk (drv : EndedDrive) (m : Store) (name : CString) (hidden : Bool) :
    Trail (Option (Nat × Store)) :=
  catalogWalk drv m name hidden (startOf drv.toDriveTrait m)

/-- The walk behind the catalog of the parent is made, and it is such a walk. -/
def Behind (drv : EndedDrive) (m : Store) (name parent : CString) (hidden : Bool)
    (P : Trail (Option (Nat × Store)) → Prop) : Prop :=
  ∃ hit, (allWalk drv m parent hidden).Finds (some hit) ∧
    P (catalogWalk drv m name hidden (NefsCatalogStruct.nextSibling.get hit.2))

/-- A local search goes on to all catalogs: the walks to the parent and behind it have come to an end, no
read has failed, and nothing is found there. -/
def SearchesAll (drv : EndedDrive) (m : Store) (name parent : CString) (hidden : Bool) : Prop :=
  ¬ (allWalk drv m parent hidden).Circles ∧ ¬ (allWalk drv m parent hidden).Finds none ∧
    ¬ Behind drv m name parent hidden Trail.Circles ∧
      ¬ Behind drv m name parent hidden fun w => ∃ res, w.Finds res

/-- One of the walks of a local search circles. -/
def LocalCircles (drv : EndedDrive) (m : Store) (name parent : CString) (hidden : Bool) : Prop :=
  (allWalk drv m parent hidden).Circles ∨ Behind drv m name parent hidden Trail.Circles ∨
    (SearchesAll drv m name parent hidden ∧ (allWalk drv m name hidden).Circles)

/-- What a local search finds. -/
def LocalFinds (drv : EndedDrive) (m : Store) (name parent : CString) (hidden : Bool) (r : Nat × Store) :
    Prop :=
  Behind drv m name parent hidden (·.Finds (some r)) ∨
    (SearchesAll drv m name parent hidden ∧ (allWalk drv m name hidden).Finds (some r))

/-- A search from `s` comes to no end when `circles`, and otherwise to the record that `finds` holds of,
with the drive as it was. -/
structure Settles (s : Medium) (found : Option (Option (Nat × Store) × Medium)) (circles : Prop)
    (finds : Nat × Store → Prop) : Prop where
  none_iff : found = none ↔ circles
  found_iff : ∀ r s', found = some (some r, s') ↔ s' = s ∧ finds r

theorem Settles.nothing {circles : Prop} {finds : Nat × Store → Prop} (hcircles : ¬ circles)
    (hfinds : ∀ r, ¬ finds r) : Settles s (some (none, s')) circles finds :=
  ⟨iff_of_false (by simp) hcircles, fun r _ => iff_of_false (by simp) fun h => hfinds r h.2⟩

theorem Settles.endless {circles : Prop} {finds : Nat × Store → Prop} (hcircles : circles)
    (hfinds : ∀ r, ¬ finds r) : Settles s none circles finds :=
  ⟨iff_of_true rfl hcircles, fun r _ => iff_of_false (by simp) fun h => hfinds r h.2⟩

theorem Settles.congr {found : Option (Option (Nat × Store) × Medium)} {circles circles' : Prop}
    {finds finds' : Nat × Store → Prop} (h : Settles s found circles finds) (hcircles : circles ↔ circles')
    (hfinds : ∀ r, finds r ↔ finds' r) : Settles s found circles' finds' :=
  ⟨h.none_iff.trans hcircles, fun r s' => (h.found_iff r s').trans (and_congr_right fun _ => hfinds r)⟩

theorem scanFrom_settles (hgood : s.fPacketGood = true) (hlba : lba < 2 ^ 64) :
    Settles s (scanFrom drv (startOf drv.toDriveTrait s.bytes) name hidden lba s)
      (catalogWalk drv s.bytes name hidden lba).Circles
      (fun r => (catalogWalk drv s.bytes name hidden lba).Finds (some r)) := by
  rcases scanFrom_cases hgood hlba with ⟨hcircle, hnone⟩ | ⟨hcircle, res, hscan, hfinds⟩
  · rw [hnone]
    exact .endless hcircle fun r h => h.not_circles hcircle
  · rw [hscan]
    refine ⟨iff_of_false (by simp) hcircle, fun r s' => ?_⟩
    rw [← hfinds]
    rcases res with _ | _ | hit <;> simp [comesTo, eq_comm, and_comm]

theorem behind_iff {P : Trail (Option (Nat × Store)) → Prop}
    (h : (allWalk drv m parent hidden).Finds (some r)) :
    Behind drv m name parent hidden P ↔
      P (catalogWalk drv m name hidden (NefsCatalogStruct.nextSibling.get r.2)) := by
  constructor
  · rintro ⟨hit, hhit, hP⟩
    cases h.unique hhit
    exact hP
  · exact fun hP => ⟨r, h, hP⟩

/-- The walk behind the catalog of the parent, and the one over all catalogs when no read has failed and
nothing is found there. -/
theorem scanLocal_settles (hgood : s.fPacketGood = true) (hit : Nat × Store)
    {behind : Trail (Option (Nat × Store))}
    (hbehind : behind = catalogWalk drv s.bytes name hidden (NefsCatalogStruct.nextSibling.get hit.2)) :
    Settles s (scanLocal drv (startOf drv.toDriveTrait s.bytes) name hidden (some hit) s)
      (behind.Circles ∨ (¬ behind.Circles ∧ ¬ ∃ res, behind.Finds res) ∧
        (allWalk drv s.bytes name hidden).Circles)
      (fun r => behind.Finds (some r) ∨ (¬ behind.Circles ∧ ¬ ∃ res, behind.Finds res) ∧
        (allWalk drv s.bytes name hidden).Finds (some r)) := by
  subst hbehind
  have hall : Settles s (scanFrom drv (startOf drv.toDriveTrait s.bytes) name hidden
      (startOf drv.toDriveTrait s.bytes) s) (allWalk drv s.bytes name hidden).Circles
      (fun r => (allWalk drv s.bytes name hidden).Finds (some r)) := scanFrom_settles hgood startOf_lt
  unfold scanLocal
  rcases @scanFrom_cases drv s name hidden (NefsCatalogStruct.nextSibling.get hit.2) hgood (word_lt rfl) with
    ⟨hcircle, hnone⟩ | ⟨hcircle, res, hscan, hfinds⟩
  · simp only [hnone, Option.bind_eq_bind, Option.bind_none]
    refine .endless (.inl hcircle) fun r h => ?_
    rcases h with h | h
    · exact h.not_circles hcircle
    · exact h.1.1 hcircle
  simp only [hscan, hcircle, Option.bind_eq_bind, Option.bind_some, false_or, not_false_eq_true, true_and,
    ← hfinds]
  clear hscan hfinds hcircle
  rcases res with _ | _ | hit'
  · simp only [comesTo, Option.isSome_none, Bool.false_eq_true, if_false]
    exact hall.congr (by simp) (by simp)
  · -- a read behind the parent has failed
    simp only [comesTo, Option.isSome_none, Bool.false_eq_true, if_false]
    rw [scanFrom_failed rfl]
    exact .nothing (by simp) (by simp)
  · refine ⟨by simp [comesTo], fun r s' => ?_⟩
    simp [comesTo, eq_comm, and_comm]

/-- The walks of a local search, one after the other. -/
theorem local_settles (hgood : s.fPacketGood = true) :
    Settles s
      ((scanFrom drv (startOf drv.toDriveTrait s.bytes) parent hidden (startOf drv.toDriveTrait s.bytes)
        s).bind fun x => scanLocal drv (startOf drv.toDriveTrait s.bytes) name hidden x.1 x.2)
      (LocalCircles drv s.bytes name parent hidden) (LocalFinds drv s.bytes name parent hidden) := by
  have hall : Settles s (scanFrom drv (startOf drv.toDriveTrait s.bytes) name hidden
      (startOf drv.toDriveTrait s.bytes) s) (allWalk drv s.bytes name hidden).Circles
      (fun r => (allWalk drv s.bytes name hidden).Finds (some r)) := scanFrom_settles hgood startOf_lt
  have hparent : ((allWalk drv s.bytes parent hidden).Circles ∧ scanFrom drv
      (startOf drv.toDriveTrait s.bytes) parent hidden (startOf drv.toDriveTrait s.bytes) s = none) ∨ _ :=
    scanFrom_cases hgood startOf_lt
  unfold LocalCircles LocalFinds SearchesAll
  rcases hparent with ⟨hcircle, hnone⟩ | ⟨hcircle, res, hscan, hfinds⟩
  · rw [hnone, Option.bind_none]
    refine .endless (.inl hcircle) fun r h => ?_
    rcases h with ⟨hit, hhit, -⟩ | h
    · exact hhit.not_circles hcircle
    · exact h.1.1 hcircle
  rw [hscan, Option.bind_some]
  change ¬ (allWalk drv s.bytes parent hidden).Circles at hcircle
  change ∀ a, res = some a ↔ (allWalk drv s.bytes parent hidden).Finds a at hfinds
  rcases res with _ | _ | hit
  · -- there is no such parent
    have hno : ∀ {P}, ¬ Behind drv s.bytes name parent hidden P := by
      rintro P ⟨hit, hhit, -⟩
      cases (hfinds _).mpr hhit
    have hgoes : ¬ (allWalk drv s.bytes parent hidden).Finds none := fun h => by cases (hfinds _).mpr h
    exact hall.congr (by simp [hcircle, hno, hgoes]) (by simp [hcircle, hno, hgoes])
  · -- a read on the way to the parent has failed
    have hfails : (allWalk drv s.bytes parent hidden).Finds none := (hfinds none).mp rfl
    have hno : ∀ {P}, ¬ Behind drv s.bytes name parent hidden P := by
      rintro P ⟨hit, hhit, -⟩
      cases hfails.unique hhit
    have hscan' : scanLocal drv (startOf drv.toDriveTrait s.bytes) name hidden none s.failed =
        some (none, s.failed) := scanFrom_failed rfl
    simp only [comesTo, hscan']
    exact .nothing (by simp [hcircle, hno, hfails]) (by simp [hno, hfails])
  · have hhit : (allWalk drv s.bytes parent hidden).Finds (some hit) := (hfinds _).mp rfl
    have hgoes : ¬ (allWalk drv s.bytes parent hidden).Finds none := fun h => by cases h.unique hhit
    simp only [hcircle, hgoes, behind_iff hhit, false_or, not_false_eq_true, true_and, comesTo]
    exact scanLocal_settles hgood hit rfl

/-- The packet is good, and the partition block can be read. -/
def Ready (drv : EndedDrive) (s : Medium) : Prop :=
  s.fPacketGood = true ∧ drv.fReaches kNeFSRootCatalogStartAddress NefsRootPartitionBlock.size = true

theorem inputBlock_ready (h : Ready drv s) :
    s.inputBlock drv = (partBlock drv.toDriveTrait s.bytes, s) := by
  unfold Medium.inputBlock
  rw [Medium.fInput_reached h.2]
  rfl

theorem inputBlock_failed (h : ¬ Ready drv s) : (s.inputBlock drv).2.fPacketGood = false := by
  unfold Medium.inputBlock Medium.fInput
  split
  · next hin => exact Bool.eq_false_iff.mpr fun hgood => h ⟨hgood, hin⟩
  · rfl

/-- A walk of `FindCatalog` circles. -/
def FindCircles (drv : EndedDrive) (s : Medium) (name : CString) (hidden localSearch : Bool) : Prop :=
  Ready drv s ∧ name.chars ≠ [] ∧
    if SearchesLocal name localSearch then
      name.length < kNeFSCatalogNameLen ∧
        ∃ parent, parentName name = some parent ∧ LocalCircles drv s.bytes name parent hidden
    else (allWalk drv s.bytes name hidden).Circles

/-- What `FindCatalog` finds. -/
def FindFinds (drv : EndedDrive) (s : Medium) (name : CString) (hidden localSearch : Bool)
    (r : Nat × Store) : Prop :=
  Ready drv s ∧ name.chars ≠ [] ∧
    if SearchesLocal name localSearch then
      name.length < kNeFSCatalogNameLen ∧
        ∃ parent, parentName name = some parent ∧ LocalFinds drv s.bytes name parent hidden r
    else (allWalk drv s.bytes name hidden).Finds (some r)

/-- The path fits the buffer a local search copies it to, and no walk circles. -/
def FindEnds (drv : EndedDrive) (s : Medium) (name : CString) (hidden localSearch : Bool) : Prop :=
  (SearchesLocal name localSearch → name.length ≤ kNeFSCatalogNameLen) ∧
    ¬ FindCircles drv s name hidden localSearch

theorem findCatalogAnywhere_ready (h : Ready drv s) (hn : name.chars ≠ []) :
    findCatalogAnywhere drv name hidden s = scanFrom drv (startOf drv.toDriveTrait s.bytes) name hidden
      (startOf drv.toDriveTrait s.bytes) s := by
  unfold findCatalogAnywhere startOf
  rw [if_neg hn, inputBlock_ready h]

theorem findCatalogAnywhere_failed (h : ¬ Ready drv s) (hn : name.chars ≠ []) :
    ∃ s', findCatalogAnywhere drv name hidden s = some (none, s') ∧ s'.fPacketGood = false := by
  have hgood := inputBlock_failed h
  unfold findCatalogAnywhere
  rw [if_neg hn]
  exact ⟨_, scanFrom_failed hgood, hgood⟩

theorem findCatalogAnywhere_settles : Settles s (findCatalogAnywhere drv name hidden s)
    (Ready drv s ∧ name.chars ≠ [] ∧ (allWalk drv s.bytes name hidden).Circles)
    (fun r => Ready drv s ∧ name.chars ≠ [] ∧ (allWalk drv s.bytes name hidden).Finds (some r)) := by
  by_cases hn : name.chars = []
  · unfold findCatalogAnywhere
    rw [if_pos hn]
    exact .nothing (fun h => h.2.1 hn) fun r h => h.2.1 hn
  by_cases hready : Ready drv s
  · rw [findCatalogAnywhere_ready hready hn]
    exact (scanFrom_settles hready.1 startOf_lt).congr (by simp [hready, hn, allWalk])
      (by simp [hready, hn, allWalk])
  · obtain ⟨s', hfind, -⟩ := @findCatalogAnywhere_failed drv s name hidden hready hn
    rw [hfind]
    exact .nothing (fun h => hready h.1) fun r h => hready h.1

/-- A local search on a packet that is not good. -/
theorem findCatalogLocal_failed (h : ¬ Ready drv s) (hlen : name.length ≤ kNeFSCatalogNameLen) :
    ∃ s', findCatalogLocal drv name hidden s = some (none, s') := by
  have hready : ¬ Ready drv (s.inputBlock drv).2 := fun hr =>
    Bool.false_ne_true ((inputBlock_failed h).symm.trans hr.1)
  unfold findCatalogLocal
  by_cases hn : name.chars = []
  · exact ⟨s, if_pos hn⟩
  simp only [hn, if_false, Nat.not_lt.mpr hlen]
  split
  · exact ⟨_, rfl⟩
  cases hparent : parentName name with
  | none => exact ⟨_, rfl⟩
  | some parent =>
      obtain ⟨s', hfind, hgood⟩ :=
        @findCatalogAnywhere_failed drv _ parent hidden hready (parentName_ne hparent hn)
      simp only [hfind, Option.bind_eq_bind, Option.bind_some, scanLocal]
      exact ⟨s', scanFrom_failed hgood⟩

/-- The checks in front of a local search. -/
theorem findCatalogLocal_ready (h : Ready drv s) (hn : name.chars ≠ [])
    (hlen : name.length < kNeFSCatalogNameLen) (hparent : parentName name = some parent) :
    findCatalogLocal drv name hidden s =
      (scanFrom drv (startOf drv.toDriveTrait s.bytes) parent hidden (startOf drv.toDriveTrait s.bytes)
        s).bind fun x => scanLocal drv (startOf drv.toDriveTrait s.bytes) name hidden x.1 x.2 := by
  rw [← findCatalogAnywhere_ready h (parentName_ne hparent hn)]
  unfold findCatalogLocal startOf
  simp only [hn, if_false, inputBlock_ready h, Nat.not_lt.mpr (Nat.le_of_lt hlen), Nat.ne_of_lt hlen, hparent]
  rfl

theorem findCatalogLocal_settles (hroom : name.length ≤ kNeFSCatalogNameLen) :
    Settles s (findCatalogLocal drv name hidden s)
      (Ready drv s ∧ name.chars ≠ [] ∧ name.length < kNeFSCatalogNameLen ∧
        ∃ parent, parentName name = some parent ∧ LocalCircles drv s.bytes name parent hidden)
      (fun r => Ready drv s ∧ name.chars ≠ [] ∧ name.length < kNeFSCatalogNameLen ∧
        ∃ parent, parentName name = some parent ∧ LocalFinds drv s.bytes name parent hidden r) := by
  by_cases hready : Ready drv s
  · by_cases hn : name.chars = []
    · unfold findCatalogLocal
      rw [if_pos hn]
      exact .nothing (fun h => h.2.1 hn) fun r h => h.2.1 hn
    rcases Nat.lt_or_eq_of_le hroom with hlen | hlen
    · cases hparent : parentName name with
      | none =>
          unfold findCatalogLocal
          simp only [hn, if_false, Nat.not_lt.mpr hroom, Nat.ne_of_lt hlen, hparent]
          exact .nothing (by simp) (by simp)
      | some parent =>
          rw [findCatalogLocal_ready hready hn hlen hparent]
          exact (local_settles hready.1).congr (by simp [hready, hn, hlen]) (by simp [hready, hn, hlen])
    · unfold findCatalogLocal
      simp only [hn, if_false, hlen, if_true, Nat.lt_irrefl]
      exact .nothing (by simp) (by simp)
  · obtain ⟨s', hfind⟩ := @findCatalogLocal_failed drv s name hidden hready hroom
    rw [hfind]
    exact .nothing (fun h => hready h.1) fun r h => hready h.1

/-- **Every search** that ends comes to what its walks find. -/
theorem findCatalog_settles : Settles s (findCatalog drv name hidden localSearch s)
    (¬ FindEnds drv s name hidden localSearch) (FindFinds drv s name hidden localSearch) := by
  unfold findCatalog FindEnds FindCircles FindFinds
  by_cases hlocal : SearchesLocal name localSearch
  · rw [if_pos (show localSearch = true ∧ name ≠ kNeFSRoot from hlocal)]
    simp only [hlocal, if_true, forall_const]
    by_cases hroom : name.length ≤ kNeFSCatalogNameLen
    · exact (findCatalogLocal_settles hroom).congr (by simp [hroom]) fun r => Iff.rfl
    · have hn : name.chars ≠ [] := by
        intro hnil
        simp [CString.length, hnil] at hroom
      have hlong := Nat.lt_of_not_le hroom
      unfold findCatalogLocal
      simp only [hn, if_false, hlong, if_true]
      exact .endless (by simp [hroom]) fun r h => Nat.lt_asymm hlong h.2.2.1
  · rw [if_neg (show ¬ (localSearch = true ∧ name ≠ kNeFSRoot) from hlocal)]
    exact findCatalogAnywhere_settles.congr (by simp [hlocal]) (by simp [hlocal])

theorem findCatalog_isSome_iff : (findCatalog drv name hidden localSearch s).isSome ↔
    FindEnds drv s name hidden localSearch := by
  rw [Option.isSome_iff_ne_none, ne_eq, findCatalog_settles.none_iff, not_not]

/-- An operation that goes on with the catalog it has found. -/
theorem findCatalog_bind_isSome_iff {β : Type*} {g : Option (Nat × Store) × Medium → Option β}
    {P : Nat × Store → Prop} (hnone : ∀ s', (g (none, s')).isSome)
    (hsome : ∀ r, FindFinds drv s name hidden localSearch r → ((g (some r, s)).isSome ↔ P r)) :
    ((findCatalog drv name hidden localSearch s).bind g).isSome ↔
      FindEnds drv s name hidden localSearch ∧
        ∀ r, FindFinds drv s name hidden localSearch r → P r := by
  have hfound := (@findCatalog_settles drv s name hidden localSearch).found_iff
  rw [← findCatalog_isSome_iff]
  rcases hfind : findCatalog drv name hidden localSearch s with _ | ⟨_ | r, s'⟩
  · simp
  · have hno : ∀ r, ¬ FindFinds drv s name hidden localSearch r := by
      intro r hr
      cases hfind.symm.trans ((hfound r s).mpr ⟨rfl, hr⟩)
    simp [hnone, hno]
  · obtain ⟨rfl, hr⟩ := (hfound r s').mp hfind
    have honly : ∀ r', FindFinds drv s' name hidden localSearch r' → r' = r := by
      intro r' hr'
      cases hfind.symm.trans ((hfound r' s').mpr ⟨rfl, hr'⟩)
      rfl
    rw [Option.bind_some, hsome r hr]
    constructor
    · intro hP
      refine ⟨rfl, fun r' hr' => ?_⟩
      rw [honly r' hr']
      exact hP
    · exact fun h => h.2 r hr

/-! ## A drive without an end

Where every transfer is taken, a search comes to what it comes to in the parser without failures. -/

section
variable (hend : ∀ lba sz, drv.fReaches lba sz = true)
include hend

theorem catalogWalk_endless : catalogWalk drv m name hidden lba =
    (NeFS.catalogWalk drv.toDriveTrait m name hidden lba).headed.map some := by
  unfold catalogWalk NeFS.catalogWalk Trail.map Trail.headed
  congr 1
  funext cursor
  simp only [hend, if_true]
  by_cases hlow : cursor < startOf drv.toDriveTrait m
  · simp only [hlow, decide_true, if_true]
  · simp only [hlow, decide_false, Bool.false_eq_true, if_false]
    cases scanVisit drv.toDriveTrait m name hidden cursor <;> rfl

theorem scanFrom_endless (hgood : s.fPacketGood = true) (hlba : lba < 2 ^ 64) :
    scanFrom drv (startOf drv.toDriveTrait s.bytes) name hidden lba s =
      (NeFS.scanFrom drv.toDriveTrait (partBlock drv.toDriveTrait s.bytes) s.bytes name hidden lba).map
        fun found => (found, s) := by
  have hin : (NeFS.catalogWalk drv.toDriveTrait s.bytes name hidden lba).leave lba = false ↔
      startOf drv.toDriveTrait s.bytes ≤ lba := by
    show decide (lba < startOf drv.toDriveTrait s.bytes) = false ↔ _
    rw [decide_eq_false_iff_not, Nat.not_lt]
  have hcircles : (catalogWalk drv s.bytes name hidden lba).Circles ↔
      NeFS.scanFrom drv.toDriveTrait (partBlock drv.toDriveTrait s.bytes) s.bytes name hidden lba = none := by
    rw [catalogWalk_endless hend, Trail.map_circles_iff, Trail.headed_circles_iff, scanFrom_none_iff hlba,
      ← hin]
    rfl
  have hfinds (a : Option (Nat × Store)) : (catalogWalk drv s.bytes name hidden lba).Finds a ↔
      ∃ r, some r = a ∧ NeFS.scanFrom drv.toDriveTrait (partBlock drv.toDriveTrait s.bytes) s.bytes name
        hidden lba = some (some r) := by
    simp only [catalogWalk_endless hend, Trail.map_finds_iff, Trail.headed_finds_iff, scanFrom_found_iff hlba,
      ← hin]
    rfl
  rcases @scanFrom_cases drv s name hidden lba hgood hlba with
    ⟨hcircle, hscan⟩ | ⟨hcircle, res, hscan, hres⟩
  · rw [hscan, hcircles.mp hcircle, Option.map_none]
  rw [hcircles] at hcircle
  simp only [hfinds] at hres
  rw [hscan]
  cases hold : NeFS.scanFrom drv.toDriveTrait (partBlock drv.toDriveTrait s.bytes) s.bytes name hidden lba with
  | none => exact absurd hold hcircle
  | some found =>
      cases found with
      | none =>
          have hnone : res = none := by
            cases res with
            | none => rfl
            | some a =>
                obtain ⟨r, -, hr⟩ := (hres a).mp rfl
                cases hold.symm.trans hr
          rw [hnone]
          rfl
      | some r =>
          rw [(hres (some r)).mpr ⟨r, rfl, hold⟩]
          rfl

theorem scanLocal_endless (hgood : s.fPacketGood = true) (parentCatalog : Option (Nat × Store)) :
    scanLocal drv (startOf drv.toDriveTrait s.bytes) name hidden parentCatalog s =
      (NeFS.scanLocal drv.toDriveTrait (partBlock drv.toDriveTrait s.bytes) s.bytes name hidden
        parentCatalog).map fun found => (found, s) := by
  cases parentCatalog with
  | none =>
      rw [scanLocal_none]
      exact scanFrom_endless hend hgood startOf_lt
  | some hit =>
      rw [scanLocal_some]
      simp only [scanLocal]
      rw [scanFrom_endless hend hgood (word_lt rfl)]
      cases NeFS.scanFrom drv.toDriveTrait (partBlock drv.toDriveTrait s.bytes) s.bytes name hidden
        (NefsCatalogStruct.nextSibling.get hit.2) with
      | none => rfl
      | some found =>
          cases found with
          | none =>
              simp only [Option.map_some, Option.bind_eq_bind, Option.bind_some, Option.isSome_none,
                Bool.false_eq_true, if_false]
              rw [scanFrom_endless hend hgood startOf_lt]
          | some hit' =>
              simp only [Option.map_some, Option.bind_eq_bind, Option.bind_some, Option.isSome_some, if_true]
              rfl

/-- **Without an end** `FindCatalog` comes to what it comes to where no transfer fails. -/
theorem findCatalog_endless (hgood : s.fPacketGood = true) :
    findCatalog drv name hidden localSearch s =
      (lookup drv.toDriveTrait s.bytes name hidden localSearch).map fun found => (found, s) := by
  have hready : Ready drv s := ⟨hgood, hend _ _⟩
  unfold findCatalog lookup NeFS.findCatalog
  by_cases hn : name.chars = []
  · split <;> simp [findCatalogLocal, findCatalogAnywhere, NeFS.findCatalogLocal, NeFS.findCatalogAnywhere, hn]
  split
  · rcases Nat.lt_trichotomy name.length kNeFSCatalogNameLen with hlt | heq | hgt
    · cases hp : parentName name with
      | none =>
          rw [findCatalogLocal_noWalk hn (Nat.le_of_lt hlt) fun _ => hp]
          simp [findCatalogLocal, hn, Nat.le_of_lt hlt, Nat.ne_of_lt hlt, hp, inputBlock_ready hready]
      | some parent =>
          rw [findCatalogLocal_fst hn hlt hp, findCatalogLocal_ready hready hn hlt hp,
            scanFrom_endless hend hgood startOf_lt]
          cases NeFS.scanFrom drv.toDriveTrait (partBlock drv.toDriveTrait s.bytes) s.bytes parent hidden
            (startOf drv.toDriveTrait s.bytes) with
          | none => rfl
          | some found => exact scanLocal_endless hend hgood found
    · rw [findCatalogLocal_noWalk hn (Nat.le_of_eq heq) fun hlt => absurd heq (Nat.ne_of_lt hlt)]
      simp [findCatalogLocal, hn, heq, inputBlock_ready hready]
    · simp [findCatalogLocal, NeFS.findCatalogLocal, hn, hgt]
  · rw [findCatalogAnywhere_fst hn, findCatalogAnywhere_ready hready hn, scanFrom_endless hend hgood startOf_lt]

end

end NeKernel.NeFS.Ended
