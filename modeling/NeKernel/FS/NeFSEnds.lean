import NeKernel.FS.NeFSRemoval
import NeKernel.FS.NeFSSearches

/-!
# Walks that come to no end

The loops of the parser follow the `NextSibling` of the records they read and stop at a record they look
for, or at an address in front of the catalogs. Nothing keeps a record from linking back, and behind the
end of the drive a loop that does not look at `fPacketGood` reads its last record again and again: a walk
comes to an end exactly when it does not come back to a place before one of its exits. `FindFork` is the
exception, it never makes a second turn, since the IFS reports every read as failed.
-/

namespace NeKernel.NeFS.Ended

open ByteStore Scan KernelKit.Ifs

variable {drv : EndedDrive} {m : Store} {s s' : Medium} {name catalogName theForkName : CString}
  {lba sizeOfData : Nat} {theFork buf : Store} {c : Cursor}

/-! ## The walks along the forks -/

/-- The next record along the forks. Where a read fails, the buffer holds the record that has led there. -/
def nextFork (drv : EndedDrive) (m : Store) (lba : Nat) : Nat :=
  if drv.fReaches lba NefsForkStruct.size then
    NefsForkStruct.nextSibling.get (slice m (drv.fAddress lba))
  else lba

/-- The walk of `CreateFork`. It looks for a fork of the names, or a record without one. -/
def placeWalk (drv : EndedDrive) (m theFork : Store) (lba : Nat) : Trail Nat where
  move := nextFork drv m
  leave _ := false
  visit lba :=
    let curFork := slice m (drv.fAddress lba)
    if drv.fReaches lba NefsForkStruct.size then
      if created (NefsForkStruct.flags.get curFork) then
        if NefsForkStruct.forkNameOf curFork = NefsForkStruct.forkNameOf theFork ∧
            NefsForkStruct.catalogNameOf curFork = NefsForkStruct.catalogNameOf theFork then .found lba
        else .next
      else .found lba
    else .stop
  start := lba

/-- The walk of `WriteCatalog`. -/
def writeWalk (drv : EndedDrive) (m : Store) (catalogName theForkName : CString)
    (sizeOfData startFork : Nat) : Trail Store where
  move := nextFork drv m
  leave _ := false
  visit lba :=
    if lba < startOf drv.toDriveTrait m then .stop
    else if drv.fReaches lba NefsForkStruct.size then
      writeVisit drv.toDriveTrait m catalogName theForkName sizeOfData lba
    else .stop
  start := startFork

/-- The walk of `ReadCatalog`. -/
def readWalk (drv : EndedDrive) (m : Store) (catalogName theForkName : CString)
    (dataForkLba : Nat) : Trail Store where
  move := nextFork drv m
  leave _ := false
  visit lba :=
    if lba < kNeFSCatalogStartAddress then .stop
    else if drv.fReaches lba NefsForkStruct.size then
      readVisit drv.toDriveTrait m catalogName theForkName lba
    else .next
  start := dataForkLba

/-- A walk of `RemoveCatalog`, which marks every record. -/
def removeWalk (drv : EndedDrive) (m : Store) (forkLba : Nat) : Trail Unit where
  move := nextFork drv m
  leave _ := false
  visit lba := if lba < kNeFSCatalogStartAddress then .stop else .next
  start := forkLba

theorem nextFork_lt : ∀ x < 2 ^ 64, nextFork drv m x < 2 ^ 64 := by
  intro x hx
  unfold nextFork
  split
  · exact word_lt rfl
  · exact hx

/-! ## `CreateFork` -/

theorem placeTurn_reached {p : PlaceCursor} (hgood : p.medium.fPacketGood = true)
    (hin : drv.fReaches p.lba NefsForkStruct.size = true) :
    placeTurn drv theFork p =
      let curFork := slice p.medium.bytes (drv.fAddress p.lba)
      if created (NefsForkStruct.flags.get curFork) then
        if NefsForkStruct.forkNameOf curFork = NefsForkStruct.forkNameOf theFork ∧
            NefsForkStruct.catalogNameOf curFork = NefsForkStruct.catalogNameOf theFork then
          .leave (some (p.lba, p.lbaPrev), p.medium)
        else .again ⟨⟨NefsForkStruct.nextSibling.get curFork, curFork, p.medium⟩, p.lba, curFork⟩
      else if kNeFSCatalogStartAddress ≤ p.lba then
        .leave (some (p.lba, p.lbaPrev), p.medium.fOutput drv p.lbaPrev NefsForkStruct.size
          (NefsForkStruct.nextSibling.set p.lba p.prevFork))
      else .leave (some (p.lba, p.lbaPrev), p.medium) := by
  unfold placeTurn
  simp only [Medium.fInput_reached hin, hgood]
  rfl

theorem placeTurn_fails {p : PlaceCursor} (hout : drv.fReaches p.lba NefsForkStruct.size = false) :
    placeTurn drv theFork p = .leave (none, p.medium.failed) := by
  unfold placeTurn
  simp only [Medium.fInput_failed hout]
  rfl

theorem placeTurn_follows (hgood : s.fPacketGood = true) :
    Trail.Follows (placeTurn drv theFork) (placeWalk drv s.bytes theFork lba) (fun p => p.lba)
      (fun p => p.medium = s) (fun _ _ => True) where
  stays _ := rfl
  does := by
    rintro p rfl
    simp only [placeWalk]
    split
    · next hin =>
        have hturn := @placeTurn_reached drv theFork p hgood hin
        split
        · next hcreated =>
            simp only [hcreated, if_true] at hturn
            split
            · next hnames =>
                rw [if_pos hnames] at hturn
                exact ⟨_, .inl hturn, trivial⟩
            · next hnames =>
                rw [if_neg hnames] at hturn
                exact ⟨_, hturn, by simp only [nextFork, hin, if_true], rfl⟩
        · next hcreated =>
            simp only [hcreated] at hturn
            by_cases hlow : kNeFSCatalogStartAddress ≤ p.lba
            · rw [if_neg Bool.false_ne_true, if_pos hlow] at hturn
              exact ⟨_, .inl hturn, trivial⟩
            · rw [if_neg Bool.false_ne_true, if_neg hlow] at hturn
              exact ⟨_, .inl hturn, trivial⟩
    · next hout => exact ⟨_, .inl (placeTurn_fails (Bool.eq_false_iff.mpr hout)), trivial⟩

/-- `CreateFork` comes to an end. -/
def ForkEnds (drv : EndedDrive) (s : Medium) (theFork : Store) : Prop :=
  theFork NefsForkStruct.forkName ≠ 0 ∧ theFork NefsForkStruct.catalogName ≠ 0 ∧
      NefsForkStruct.dataSize.get theFork ≠ 0 →
    FindEnds drv s (NefsForkStruct.catalogNameOf theFork) true true ∧
      ∀ r, FindFinds drv s (NefsForkStruct.catalogNameOf theFork) true true r →
        kNeFSCatalogStartAddress ≤ NefsCatalogStruct.dataFork.get r.2 →
          ¬ (placeWalk drv s.bytes theFork (NefsCatalogStruct.dataFork.get r.2)).Circles

/-- An operation that ends when its loop does. -/
theorem bind_some_isSome_iff {α β : Type*} {x : Option α} {f : α → Option β} (hf : ∀ a, (f a).isSome) :
    (x.bind f).isSome ↔ ¬ x = none := by
  cases x with
  | none => simp
  | some a => simp [hf]

theorem createFork_isSome_iff : (createFork drv theFork s).isSome ↔ ForkEnds drv s theFork := by
  unfold createFork ForkEnds
  by_cases hempty : theFork NefsForkStruct.forkName = 0 ∨ theFork NefsForkStruct.catalogName = 0 ∨
      NefsForkStruct.dataSize.get theFork = 0
  · rw [if_pos hempty]
    refine iff_of_true rfl fun hfull => ?_
    rcases hempty with h | h | h
    · exact absurd h hfull.1
    · exact absurd h hfull.2.1
    · exact absurd h hfull.2.2
  rw [if_neg hempty]
  simp only [not_or] at hempty
  rw [imp_iff_right hempty]
  refine findCatalog_bind_isSome_iff (fun _ => rfl) fun r hr => ?_
  simp only
  by_cases hlba : NefsCatalogStruct.dataFork.get r.2 < kNeFSCatalogStartAddress
  · rw [if_pos hlba]
    exact iff_of_true rfl fun habs => absurd habs (Nat.not_le.mpr hlba)
  · rw [if_neg hlba, imp_iff_right (Nat.le_of_not_lt hlba),
      ← (placeTurn_follows hr.1.1).none_iff
        (s := ⟨⟨NefsCatalogStruct.dataFork.get r.2, NefsForkStruct.fresh, s⟩,
          NefsCatalogStruct.dataFork.get r.2, NefsForkStruct.fresh⟩)
        (walk_lt (word_lt rfl) nextFork_lt) scanFuel_eq.ge rfl rfl]
    refine bind_some_isSome_iff fun x => ?_
    obtain ⟨_ | _, s'⟩ := x <;> rfl

/-! ## `WriteCatalog` -/

/-- What `is_valid_lba` returns when it has read the partition block. -/
def validLba (drv : EndedDrive) (m : Store) (lba : Nat) : Bool :=
  startOf drv.toDriveTrait m ≤ lba &&
    lba < NefsRootPartitionBlock.diskSize.get (partBlock drv.toDriveTrait m) / drv.fSectorSz

theorem isValidLba_ready (h : Ready drv s) : isValidLba drv lba s =
    if drv.fSectorSz = 0 then none else some (validLba drv s.bytes lba, s) := by
  unfold isValidLba validLba startOf
  simp only [inputBlock_ready h, h.1, Bool.not_true, Bool.false_eq_true, if_false]

theorem isValidLba_failed (h : ¬ Ready drv s) : ∃ s', isValidLba drv lba s = some (false, s') := by
  unfold isValidLba
  simp only [inputBlock_failed h, Bool.not_false, if_true]
  exact ⟨_, rfl⟩

theorem forkOfCatalog_lt {catalog : Store} {rsrc : Bool} : (forkOfCatalog catalog rsrc).2 < 2 ^ 64 := by
  cases rsrc <;> exact word_lt rfl

variable {isRsrcFork : Bool} {data : Store}

theorem writeTurn_low {startCatalog : Nat} (hlow : c.lba < startCatalog) :
    writeTurn drv startCatalog catalogName theForkName data sizeOfData c = .leave (false, c.medium) := by
  unfold writeTurn
  rw [if_neg fun h => absurd h.1 (Nat.not_le.mpr hlow)]

theorem writeTurn_fails {startCatalog : Nat} (hstart : startCatalog ≤ c.lba)
    (hgood : c.medium.fPacketGood = true) (hout : drv.fReaches c.lba NefsForkStruct.size = false) :
    writeTurn drv startCatalog catalogName theForkName data sizeOfData c =
      .leave (false, c.medium.failed) := by
  unfold writeTurn
  rw [if_pos ⟨hstart, hgood⟩]
  simp only [Medium.fInput_failed hout]
  rfl

theorem writeTurn_reached {startCatalog : Nat} (hstart : startCatalog ≤ c.lba)
    (hgood : c.medium.fPacketGood = true) (hin : drv.fReaches c.lba NefsForkStruct.size = true) :
    writeTurn drv startCatalog catalogName theForkName data sizeOfData c =
      match writeVisit drv.toDriveTrait c.medium.bytes catalogName theForkName sizeOfData c.lba with
      | .found fork => .leave (true, writeChunks drv data (NefsForkStruct.dataOffset.get fork) sizeOfData
          sizeOfData 0 c.medium)
      | .stop => .leave (false, c.medium)
      | .next => .again ⟨NefsForkStruct.nextSibling.get (slice c.medium.bytes (drv.fAddress c.lba)),
          slice c.medium.bytes (drv.fAddress c.lba), c.medium⟩ := by
  unfold writeTurn writeVisit
  rw [if_pos ⟨hstart, hgood⟩]
  simp only [Medium.fInput_reached hin, hgood, Bool.not_true, Bool.false_eq_true, if_false]
  split <;> rfl

theorem writeTurn_follows (hgood : s.fPacketGood = true) :
    Trail.Follows (writeTurn drv (startOf drv.toDriveTrait s.bytes) catalogName theForkName data sizeOfData)
      (writeWalk drv s.bytes catalogName theForkName sizeOfData lba) Cursor.lba (fun c => c.medium = s)
      (fun _ _ => True) where
  stays _ := rfl
  does := by
    rintro c rfl
    simp only [writeWalk]
    split
    · next hlow => exact ⟨_, .inl (writeTurn_low hlow), trivial⟩
    next hlow =>
    have hstart := Nat.le_of_not_lt hlow
    split
    · next hin =>
        have hturn := @writeTurn_reached drv catalogName theForkName sizeOfData c data _ hstart hgood hin
        cases hvisit : writeVisit drv.toDriveTrait c.medium.bytes catalogName theForkName sizeOfData c.lba <;>
          simp only [hvisit] at hturn
        · exact ⟨_, .inl hturn, trivial⟩
        · exact ⟨_, .inl hturn, trivial⟩
        · exact ⟨_, hturn, by simp only [nextFork, hin, if_true], rfl⟩
    · next hout => exact ⟨_, .inl (writeTurn_fails hstart hgood (Bool.eq_false_iff.mpr hout)), trivial⟩

/-- `WriteCatalog` comes to an end. -/
def WriteEnds (drv : EndedDrive) (s : Medium) (catalogName : CString) (isRsrcFork : Bool) (sizeOfData : Nat)
    (theForkName : CString) : Prop :=
  0 < sizeOfData → FindEnds drv s catalogName true true ∧
    ∀ r, FindFinds drv s catalogName true true r →
      isValidSize sizeOfData (forkOfCatalog r.2 isRsrcFork).1 = true →
        drv.fSectorSz ≠ 0 ∧ (validLba drv s.bytes (forkOfCatalog r.2 isRsrcFork).2 = true →
          ¬ (writeWalk drv s.bytes catalogName theForkName sizeOfData
            (forkOfCatalog r.2 isRsrcFork).2).Circles)

theorem writeCatalog_isSome_iff :
    (writeCatalog drv catalogName isRsrcFork data sizeOfData theForkName s).isSome ↔
      WriteEnds drv s catalogName isRsrcFork sizeOfData theForkName := by
  unfold writeCatalog WriteEnds
  by_cases hzero : sizeOfData < 1
  · rw [if_pos hzero]
    exact iff_of_true rfl fun hpos => absurd hpos (by omega)
  rw [if_neg hzero, imp_iff_right (Nat.pos_of_ne_zero (by omega))]
  refine findCatalog_bind_isSome_iff (fun _ => rfl) fun r hr => ?_
  simp only
  by_cases hsize : isValidSize sizeOfData (forkOfCatalog r.2 isRsrcFork).1 = true
  · rw [imp_iff_right hsize]
    simp only [hsize, Bool.not_true, Bool.false_eq_true, if_false, isValidLba_ready hr.1]
    by_cases hsz : drv.fSectorSz = 0
    · simp [hsz]
    rw [if_neg hsz, and_iff_right hsz, Option.bind_eq_bind, Option.bind_some]
    cases hvalid : validLba drv s.bytes (forkOfCatalog r.2 isRsrcFork).2 with
    | false => simp
    | true =>
        simp only [inputBlock_ready hr.1, Bool.not_true, Bool.false_eq_true, if_false, forall_const, ← startOf_eq]
        rw [← (@writeTurn_follows drv s catalogName theForkName _ sizeOfData data hr.1.1).none_iff
          (s := ⟨(forkOfCatalog r.2 isRsrcFork).2, NefsForkStruct.fresh, s⟩)
          (walk_lt forkOfCatalog_lt nextFork_lt) scanFuel_eq.ge rfl rfl, Option.isSome_iff_ne_none, ne_eq]
  · simp [hsize]

/-! ## `ReadCatalog` -/

/-- A loop that is left in one of its first two turns. -/
theorem leavesSoon_scanFuel {β σ : Type*} {turn : σ → Turn β σ} {x : σ} {b : β}
    (h : Trail.LeavesSoon turn x b) : whileLoop turn (scanFuel + 1) x = some b := by
  rw [scanFuel_eq]
  exact @Trail.LeavesSoon.whileLoop_eq _ _ _ (2 ^ 64 - 1) _ _ h

theorem readTurn_low (hlow : c.lba < kNeFSCatalogStartAddress) :
    readTurn drv catalogName theForkName c = .leave (none, c.medium) := by
  unfold readTurn
  rw [if_neg (Nat.not_le.mpr hlow)]

/-- The fork `ReadCatalog` looks for. -/
def Wanted (catalogName theForkName : CString) (fork : Store) : Prop :=
  theForkName = NefsForkStruct.forkNameOf fork ∧ catalogName = NefsForkStruct.catalogNameOf fork

instance : Decidable (Wanted catalogName theForkName buf) := inferInstanceAs (Decidable (_ ∧ _))

section
variable (hstart : kNeFSCatalogStartAddress ≤ c.lba)
include hstart

theorem readTurn_reached (hin : drv.fReaches c.lba NefsForkStruct.size = true) :
    readTurn drv catalogName theForkName c =
      let fork := slice c.medium.bytes (drv.fAddress c.lba)
      if Wanted catalogName theForkName fork then .leave (some fork, c.medium)
      else .again ⟨NefsForkStruct.nextSibling.get fork, fork, c.medium⟩ := by
  unfold readTurn
  rw [if_pos hstart]
  simp only [Medium.fInput_reached hin]
  rfl

theorem readTurn_fails (hout : drv.fReaches c.lba NefsForkStruct.size = false) :
    readTurn drv catalogName theForkName c =
      if Wanted catalogName theForkName c.buf then .leave (some c.buf, c.medium.failed)
      else .again ⟨NefsForkStruct.nextSibling.get c.buf, c.buf, c.medium.failed⟩ := by
  unfold readTurn
  rw [if_pos hstart]
  simp only [Medium.fInput_failed hout]
  rfl

end

/-- What the loop of `ReadCatalog` keeps: behind the end of the drive its buffer holds the fork that has led
there. -/
structure ReadsOn (drv : EndedDrive) (m : Store) (catalogName theForkName : CString) (c : Cursor) :
    Prop where
  bytes : c.medium.bytes = m
  led : c.lba < kNeFSCatalogStartAddress ∨ drv.fReaches c.lba NefsForkStruct.size = true ∨
    (NefsForkStruct.nextSibling.get c.buf = c.lba ∧ ¬ Wanted catalogName theForkName c.buf)

theorem readTurn_follows :
    Trail.Follows (readTurn drv catalogName theForkName) (readWalk drv m catalogName theForkName lba)
      Cursor.lba (ReadsOn drv m catalogName theForkName) (fun _ _ => True) where
  stays _ := rfl
  does := by
    rintro c ⟨rfl, hled⟩
    simp only [readWalk]
    split
    · next hlow => exact ⟨_, .inl (readTurn_low hlow), trivial⟩
    next hlow =>
    have hstart := Nat.le_of_not_lt hlow
    split
    · next hin =>
        have hturn := @readTurn_reached drv catalogName theForkName c hstart hin
        unfold readVisit
        by_cases hwanted : Wanted catalogName theForkName (slice c.medium.bytes (drv.fAddress c.lba))
        · rw [if_pos hwanted] at hturn
          rw [if_pos (show _ ∧ _ from hwanted)]
          exact ⟨_, .inl hturn, trivial⟩
        · rw [if_neg hwanted] at hturn
          rw [if_neg (show ¬ (_ ∧ _) from hwanted)]
          exact ⟨_, hturn, by simp only [nextFork, hin, if_true], rfl, .inr (.inr ⟨rfl, hwanted⟩)⟩
    · next hout =>
        have hout := Bool.eq_false_iff.mpr hout
        have hturn := @readTurn_fails drv catalogName theForkName c hstart hout
        obtain ⟨hnext, hwanted⟩ : NefsForkStruct.nextSibling.get c.buf = c.lba ∧
            ¬ Wanted catalogName theForkName c.buf := by
          rcases hled with hled | hled | hled
          · exact absurd hled hlow
          · exact absurd hled (Bool.eq_false_iff.mp hout)
          · exact hled
        rw [if_neg hwanted] at hturn
        refine ⟨_, hturn, ?_, rfl, .inr (.inr ⟨rfl, hwanted⟩)⟩
        simp only [nextFork, hout, Bool.false_eq_true, if_false]
        exact hnext

theorem fresh_next : NefsForkStruct.nextSibling.get NefsForkStruct.fresh = 0 := by decide

/-- A walk that begins behind the end of the drive finds nothing in the fresh buffer to go on with. -/
theorem read_behind_end (hstart : kNeFSCatalogStartAddress ≤ lba)
    (hout : drv.fReaches lba NefsForkStruct.size = false) : ∃ b,
    Trail.LeavesSoon (readTurn drv catalogName theForkName) ⟨lba, NefsForkStruct.fresh, s⟩ b := by
  have hturn := @readTurn_fails drv catalogName theForkName ⟨lba, NefsForkStruct.fresh, s⟩ hstart hout
  by_cases hwanted : Wanted catalogName theForkName NefsForkStruct.fresh
  · rw [if_pos hwanted] at hturn
    exact ⟨_, .inl hturn⟩
  · rw [if_neg hwanted, fresh_next] at hturn
    exact ⟨_, .inr ⟨_, hturn, readTurn_low (Nat.succ_pos _)⟩⟩

theorem readLoop_isSome_iff (hlba : lba < 2 ^ 64) :
    (whileLoop (readTurn drv catalogName theForkName) (scanFuel + 1)
      ⟨lba, NefsForkStruct.fresh, s⟩).isSome ↔
        (drv.fReaches lba NefsForkStruct.size = true →
          ¬ (readWalk drv s.bytes catalogName theForkName lba).Circles) := by
  by_cases hbegins : lba < kNeFSCatalogStartAddress ∨ drv.fReaches lba NefsForkStruct.size = true
  · have hnone := readTurn_follows.none_iff (s := ⟨lba, NefsForkStruct.fresh, s⟩)
      (w := readWalk drv s.bytes catalogName theForkName lba) (walk_lt hlba nextFork_lt) scanFuel_eq.ge
      ⟨rfl, hbegins.imp_right .inl⟩ rfl
    rw [Option.isSome_iff_ne_none, ne_eq, hnone]
    rcases hbegins with hlow | hin
    · refine iff_of_true (fun hcircle => ?_) fun _ hcircle => ?_ <;>
      · have hvisit := (hcircle.goesOn 0).1
        simp [Trail.at_, readWalk, hlow] at hvisit
    · rw [imp_iff_right hin]
  · obtain ⟨hstart, hout⟩ := not_or.mp hbegins
    obtain ⟨b, hsoon⟩ := @read_behind_end drv s catalogName theForkName lba
      (Nat.le_of_not_lt hstart) (Bool.eq_false_iff.mpr hout)
    rw [leavesSoon_scanFuel hsoon]
    exact iff_of_true rfl fun hin => absurd hin hout

/-- `ReadCatalog` comes to an end. -/
def ReadEnds (drv : EndedDrive) (s : Medium) (catalog : Option Store) (isRsrcFork : Bool) (dataSz : Nat)
    (theForkName : CString) : Prop :=
  ∀ r, catalog = some r → isValidSize dataSz (forkOfCatalog r isRsrcFork).1 = true → Ready drv s →
    drv.fSectorSz ≠ 0 ∧ (validLba drv s.bytes (forkOfCatalog r isRsrcFork).2 = true →
      drv.fReaches (forkOfCatalog r isRsrcFork).2 NefsForkStruct.size = true →
        ¬ (readWalk drv s.bytes (NefsCatalogStruct.nameOf r) theForkName
          (forkOfCatalog r isRsrcFork).2).Circles)

theorem readCatalog_isSome_iff {catalog : Option Store} {dataSz : Nat} :
    (readCatalog drv catalog isRsrcFork dataSz theForkName s).isSome ↔
      ReadEnds drv s catalog isRsrcFork dataSz theForkName := by
  unfold readCatalog ReadEnds
  cases catalog with
  | none => simp
  | some r =>
      simp only [Option.some.injEq, forall_eq']
      by_cases hsize : isValidSize dataSz (forkOfCatalog r isRsrcFork).1 = true
      · simp only [hsize, Bool.not_true, Bool.false_eq_true, if_false, forall_const]
        by_cases hready : Ready drv s
        · rw [isValidLba_ready hready, imp_iff_right hready]
          by_cases hsz : drv.fSectorSz = 0
          · simp [hsz]
          rw [if_neg hsz, and_iff_right hsz, Option.bind_eq_bind, Option.bind_some]
          cases hvalid : validLba drv s.bytes (forkOfCatalog r isRsrcFork).2 with
          | false => simp
          | true =>
              simp only [Bool.not_true, Bool.false_eq_true, if_false, forall_const]
              exact readLoop_isSome_iff forkOfCatalog_lt
        · obtain ⟨s', hvalid⟩ := @isValidLba_failed drv s (forkOfCatalog r isRsrcFork).2 hready
          simp [hvalid, hready]
      · simp [hsize]

/-! ## `RemoveCatalog` -/

theorem removeTurn_low (hlow : c.lba < kNeFSCatalogStartAddress) :
    removeTurn drv c = .leave (c.buf, c.medium) := by
  unfold removeTurn
  rw [if_neg (Nat.not_le.mpr hlow)]

/-- A fork as it is marked. -/
def marked (fork : Store) : Store :=
  NefsForkStruct.flags.set (markDeleted 32 (NefsForkStruct.flags.get fork)) fork

/-- The flags of a fork are no part of its link. -/
theorem marked_next : NefsForkStruct.nextSibling.get (marked buf) = NefsForkStruct.nextSibling.get buf :=
  Field.get_set_of_apart (by decide)

section
variable (hstart : kNeFSCatalogStartAddress ≤ c.lba)
include hstart

theorem removeTurn_reached (hin : drv.fReaches c.lba NefsForkStruct.size = true) :
    removeTurn drv c =
      let fork := slice c.medium.bytes (drv.fAddress c.lba)
      .again ⟨NefsForkStruct.nextSibling.get fork, marked fork,
        { c.medium with bytes := markFork drv.toDriveTrait c.lba c.medium.bytes }⟩ := by
  have hpos : c.lba ≠ 0 := fun h0 => absurd hstart (by rw [h0]; decide)
  unfold removeTurn
  rw [if_pos hstart]
  simp only [Medium.fInput_reached hin]
  show Turn.again (Cursor.mk (NefsForkStruct.nextSibling.get (marked _)) (marked _) _) = _
  rw [marked_next]
  unfold Medium.fOutput
  rw [if_pos ⟨hpos, hin⟩]
  rfl

theorem removeTurn_fails (hout : drv.fReaches c.lba NefsForkStruct.size = false) :
    removeTurn drv c = .again ⟨NefsForkStruct.nextSibling.get c.buf, marked c.buf, c.medium.failed⟩ := by
  unfold removeTurn
  rw [if_pos hstart]
  simp only [Medium.fInput_failed hout]
  show Turn.again (Cursor.mk (NefsForkStruct.nextSibling.get (marked _)) (marked _) _) = _
  rw [marked_next]
  unfold Medium.fOutput
  rw [if_neg fun h => Bool.false_ne_true (hout.symm.trans h.2)]
  rfl

end

section
variable (hs : ∀ lba, kNeFSSectorSz ∣ drv.fAddress lba)
include hs

/-- Nor of another fork's, where records start at sectors. -/
theorem nextFork_markFork {fork : Nat} :
    nextFork drv (markFork drv.toDriveTrait fork m) = nextFork drv m := by
  have hlink (x : Nat) : NefsForkStruct.nextSibling.get
      (slice (markFork drv.toDriveTrait fork m) (drv.fAddress x)) =
        NefsForkStruct.nextSibling.get (slice m (drv.fAddress x)) := by
    apply Field.get_congr
    intro i hi
    have hi' : i < 8 := hi
    rw [slice_apply, slice_apply]
    apply markFork_apply
    intro heq
    obtain ⟨a, ha⟩ := hs x
    obtain ⟨b, hb⟩ := hs fork
    rw [ha, hb] at heq
    have heq' : 512 * a + (496 + i) = 512 * b + 456 := heq
    omega
  funext x
  unfold nextFork
  rw [hlink]

end

/-- What a loop of `RemoveCatalog` keeps: the links, and in its buffer the fork that has led to where it
is, when that is behind the end of the drive, or to the end of the loop. -/
structure RemovesOn (drv : EndedDrive) (m : Store) (c : Cursor) : Prop where
  links : nextFork drv c.medium.bytes = nextFork drv m
  led : kNeFSCatalogStartAddress ≤ c.lba → drv.fReaches c.lba NefsForkStruct.size = true ∨
    NefsForkStruct.nextSibling.get c.buf = c.lba
  left : c.lba < kNeFSCatalogStartAddress → NefsForkStruct.nextSibling.get c.buf < kNeFSCatalogStartAddress

/-- What it leaves: the links, and a buffer that leads nowhere. -/
structure LeavesForks (drv : EndedDrive) (m : Store) (b : Store × Medium) : Prop where
  links : nextFork drv b.2.bytes = nextFork drv m
  left : NefsForkStruct.nextSibling.get b.1 < kNeFSCatalogStartAddress

/-- A cursor that has just been led on by its buffer. -/
theorem removesOn_led {s : Medium} (hlinks : nextFork drv s.bytes = nextFork drv m) :
    RemovesOn drv m ⟨NefsForkStruct.nextSibling.get buf, marked buf, s⟩ :=
  ⟨hlinks, fun _ => .inr marked_next, fun hlow => marked_next.trans_lt hlow⟩

theorem removeTurn_follows (hs : ∀ lba, kNeFSSectorSz ∣ drv.fAddress lba) :
    Trail.Follows (removeTurn drv) (removeWalk drv m lba) Cursor.lba (RemovesOn drv m)
      (fun _ b => LeavesForks drv m b) where
  stays _ := rfl
  does := by
    intro c hc
    simp only [removeWalk]
    split
    · next hlow => exact ⟨_, .inl (removeTurn_low hlow), hc.links, hc.left hlow⟩
    next hlow =>
    have hstart := Nat.le_of_not_lt hlow
    rw [← hc.links]
    cases hin : drv.fReaches c.lba NefsForkStruct.size with
    | true =>
        refine ⟨_, removeTurn_reached hstart hin, ?_, removesOn_led ?_⟩
        · simp only [nextFork, hin, if_true]
        · exact (nextFork_markFork hs).trans hc.links
    | false =>
        have hnext : NefsForkStruct.nextSibling.get c.buf = c.lba := by
          rcases hc.led hstart with hled | hled
          · exact absurd (hin.symm.trans hled) Bool.false_ne_true
          · exact hled
        refine ⟨_, removeTurn_fails hstart hin, ?_, removesOn_led hc.links⟩
        simp only [nextFork, hin, Bool.false_eq_true, if_false]
        exact hnext

/-- A walk of `RemoveCatalog` is made, and circles. -/
def ForksCircle (drv : EndedDrive) (m : Store) (lba : Nat) : Prop :=
  drv.fReaches lba NefsForkStruct.size = true ∧ (removeWalk drv m lba).Circles

/-- **The loop over the forks** goes the way the links went before it marked them. Behind the end of the
drive it goes on only when a fork has led there. -/
theorem removeForks_cases (hs : ∀ lba, kNeFSSectorSz ∣ drv.fAddress lba) (hlba : lba < 2 ^ 64)
    (hbuf : NefsForkStruct.nextSibling.get buf < kNeFSCatalogStartAddress) :
    (ForksCircle drv s.bytes lba ∧ removeForks drv lba buf s = none) ∨
      (¬ ForksCircle drv s.bytes lba ∧ ∃ b, removeForks drv lba buf s = some b ∧
        LeavesForks drv s.bytes b) := by
  unfold ForksCircle removeForks
  by_cases hbegins : lba < kNeFSCatalogStartAddress ∨ drv.fReaches lba NefsForkStruct.size = true
  · have hbegin : RemovesOn drv s.bytes ⟨lba, buf, s⟩ :=
      ⟨rfl, fun hstart => .inl (hbegins.resolve_left (Nat.not_lt.mpr hstart)), fun _ => hbuf⟩
    rcases (@removeTurn_follows drv s.bytes lba hs).cases (walk_lt hlba nextFork_lt)
      scanFuel_eq.ge hbegin rfl with ⟨hcircle, hnone⟩ | ⟨hcircle, res, b, hsome, hleaves, -⟩
    · refine .inl ⟨⟨?_, hcircle⟩, hnone⟩
      refine hbegins.resolve_left fun hlow => ?_
      have hvisit := (hcircle.goesOn 0).1
      simp [Trail.at_, removeWalk, hlow] at hvisit
    · exact .inr ⟨fun h => hcircle h.2, b, hsome, hleaves⟩
  · obtain ⟨hlow, hout⟩ := not_or.mp hbegins
    have hturn := removeTurn_fails (c := ⟨lba, buf, s⟩) (Nat.le_of_not_lt hlow) (Bool.eq_false_iff.mpr hout)
    have hsoon : Trail.LeavesSoon (removeTurn drv) ⟨lba, buf, s⟩ (marked buf, s.failed) :=
      .inr ⟨_, hturn, removeTurn_low hbuf⟩
    exact .inr ⟨fun h => hout h.1, _, leavesSoon_scanFuel hsoon, rfl, marked_next.trans_lt hbuf⟩

/-- `RemoveCatalog` comes to an end. -/
def RemoveEnds (drv : EndedDrive) (s : Medium) (catalogName : CString) : Prop :=
  catalogName ≠ kNeFSRoot → FindEnds drv s catalogName true true ∧
    ∀ r, FindFinds drv s catalogName true true r →
      ¬ ForksCircle drv s.bytes (NefsCatalogStruct.dataFork.get r.2) ∧
        ¬ ForksCircle drv s.bytes (NefsCatalogStruct.resourceFork.get r.2)

theorem forksCircle_congr {m' : Store} (h : nextFork drv m' = nextFork drv m) :
    ForksCircle drv m' lba ↔ ForksCircle drv m lba := by
  unfold ForksCircle removeWalk
  rw [h]

theorem removeCatalog_isSome_iff (hs : ∀ lba, kNeFSSectorSz ∣ drv.fAddress lba) :
    (removeCatalog drv catalogName s).isSome ↔ RemoveEnds drv s catalogName := by
  unfold removeCatalog RemoveEnds
  by_cases hroot : catalogName = kNeFSRoot
  · simp [hroot]
  rw [if_neg hroot, imp_iff_right hroot]
  refine findCatalog_bind_isSome_iff (fun _ => rfl) fun r hr => ?_
  obtain ⟨outLba, r⟩ := r
  simp only [Option.bind_eq_bind]
  rcases @removeForks_cases drv s (NefsCatalogStruct.dataFork.get r) _ hs (word_lt rfl)
    (by rw [fresh_next]; decide) with ⟨hcircle, hnone⟩ | ⟨hcircle, ⟨buf, s₁⟩, hsome, hleaves⟩
  · simp [hnone, hcircle]
  -- the first loop has left the links as they were
  rw [hsome, Option.bind_some,
    ← @forksCircle_congr drv s.bytes (NefsCatalogStruct.resourceFork.get r) _ hleaves.links]
  rcases @removeForks_cases drv s₁ (NefsCatalogStruct.resourceFork.get r) _ hs (word_lt rfl)
    hleaves.left with ⟨hcircle', hnone⟩ | ⟨hcircle', ⟨buf', s₂⟩, hsome', -⟩
  · simp [hnone, hcircle']
  · rw [hsome', Option.bind_some]
    refine iff_of_true ?_ ⟨hcircle, hcircle'⟩
    split <;> rfl

/-! ## `FindFork` -/

/-- `FindFork` comes to an end: the drive, where it is read, has a function for it. -/
def FindForkEnds (mnt : IMountpoint) (drvIndex : Int32) (catalog : Option Store) (name : Option CString)
    (isData : Bool) : Prop :=
  ∀ r, catalog = some r → name.isSome →
    kNeFSCatalogStartAddress ≤ (if isData then NefsCatalogStruct.dataFork.get r else
      NefsCatalogStruct.resourceFork.get r) →
    ∀ drive, driveAt (some mnt) drvIndex = some drive → drive.fInput ≠ .null

variable {mnt : IMountpoint} {drvIndex : Int32} {outs : Nat → DrvStd} {out : DrvStd} {localBuf : Store}
  {io : Io} {fuel : Nat} {forkName : Option CString} {isData : Bool}

theorem fsIfsRead_none_iff : fsIfsRead (some mnt) drvIndex out io = none ↔
    ∃ drive, driveAt (some mnt) drvIndex = some drive ∧ drive.fInput = .null := by
  cases hdrive : driveAt (some mnt) drvIndex with
  | none =>
      obtain ⟨r, hr, -⟩ : ∃ r, fsIfs Drive.fInput (some mnt) drvIndex out io = some r ∧ r.moved = false :=
        fsIfs_noDrive hdrive
      rw [fsIfsRead, hr]
      simp
  | some drive =>
      rw [fsIfsRead, fsIfs_drive hdrive, Option.map_eq_none_iff, DriveFn.call_none_iff]
      simp

/-- The first read ends the loop, since it is reported as failed. -/
theorem findForkLoop_none_iff :
    findForkLoop drv mnt drvIndex outs m name parent (fuel + 1) lba localBuf io = none ↔
      kNeFSCatalogStartAddress ≤ lba ∧
        ∃ drive, driveAt (some mnt) drvIndex = some drive ∧ drive.fInput = .null := by
  rw [findForkLoop]
  by_cases hlow : lba < kNeFSCatalogStartAddress
  · rw [if_pos hlow]
    exact iff_of_false (by simp) fun h => absurd h.1 (Nat.not_le.mpr hlow)
  have hnull : fsIfsRead (some mnt) drvIndex (outs fuel) { io with
      pckt.fPacketLba := UInt64.ofNat lba
      pckt.fPacketSize := UInt64.ofNat NefsForkStruct.size } = none ↔
        ∃ drive, driveAt (some mnt) drvIndex = some drive ∧ drive.fInput = .null := fsIfsRead_none_iff
  rw [if_neg hlow, and_iff_right (Nat.le_of_not_lt hlow), ← hnull]
  cases hread : fsIfsRead (some mnt) drvIndex (outs fuel) { io with
      pckt.fPacketLba := UInt64.ofNat lba
      pckt.fPacketSize := UInt64.ofNat NefsForkStruct.size } with
  | none => simp [hread]
  | some read =>
      have hcode : read.code ≠ 0 := by
        rw [(fsIfs_fails hread).1]
        decide
      simp [hread, hcode]

theorem findFork_isSome_iff {catalog : Option Store} :
    (findFork drv mnt drvIndex outs catalog forkName isData m io).isSome ↔
      FindForkEnds mnt drvIndex catalog forkName isData := by
  unfold findFork FindForkEnds
  cases catalog with
  | none => simp
  | some r =>
      cases forkName with
      | none => simp
      | some forkName =>
          simp only [Option.some.injEq, forall_eq', Option.isSome_some, forall_const]
          rw [scanFuel_eq, show (2 : Nat) ^ 64 = (2 ^ 64 - 1) + 1 by rfl, Option.isSome_iff_ne_none, ne_eq,
            findForkLoop_none_iff]
          simp only [not_and, not_exists]

/-! ## All of them -/

/-- **The operations come to an end** exactly when the path fits the buffer it is copied to, no walk they
make circles, no sector size of zero is divided by, and `FindFork` has a function to read with. -/
theorem walks_end_iff (drv : EndedDrive) (hs : ∀ lba, kNeFSSectorSz ∣ drv.fAddress lba) (s : Medium) :
    (∀ name hidden localSearch, (findCatalog drv name hidden localSearch s).isSome ↔
      FindEnds drv s name hidden localSearch) ∧
    (∀ theFork, (createFork drv theFork s).isSome ↔ ForkEnds drv s theFork) ∧
    (∀ mnt drvIndex outs catalog name isData io,
      (findFork drv mnt drvIndex outs catalog name isData s.bytes io).isSome ↔
        FindForkEnds mnt drvIndex catalog name isData) ∧
    (∀ catalogName isRsrcFork data sizeOfData theForkName,
      (writeCatalog drv catalogName isRsrcFork data sizeOfData theForkName s).isSome ↔
        WriteEnds drv s catalogName isRsrcFork sizeOfData theForkName) ∧
    (∀ catalog isRsrcFork dataSz theForkName,
      (readCatalog drv catalog isRsrcFork dataSz theForkName s).isSome ↔
        ReadEnds drv s catalog isRsrcFork dataSz theForkName) ∧
    (∀ catalogName, (removeCatalog drv catalogName s).isSome ↔ RemoveEnds drv s catalogName) :=
  ⟨fun _ _ _ => findCatalog_isSome_iff, fun _ => createFork_isSome_iff,
    fun _ _ _ _ _ _ _ => findFork_isSome_iff, fun _ _ _ _ _ => writeCatalog_isSome_iff,
    fun _ _ _ _ => readCatalog_isSome_iff, fun _ => removeCatalog_isSome_iff hs⟩

/-- A drive that ends behind its 4096 sectors. -/
def smallEnded : EndedDrive where
  toDriveTrait := smallDrive 1024
  fReaches lba sz := lba * 512 + sz ≤ 4096 * 512

theorem smallEnded_sectors (lba : Nat) : kNeFSSectorSz ∣ smallEnded.fAddress lba := Dvd.intro_left lba rfl

/-- On a drive that has just been formatted the removal of `/x` comes to an end. -/
theorem walks_end_small : RemoveEnds smallEnded ⟨(smallDisk 1024).bytes, true⟩ pathX :=
  ((walks_end_iff smallEnded smallEnded_sectors ⟨(smallDisk 1024).bytes, true⟩).2.2.2.2.2 pathX).mp
    (by decide +kernel)

/-- The drive, formatted, where the first record carries `/x` and its own LBA as `NextSibling`. -/
def linkedDisk : Medium where
  bytes := blit (smallDisk 1024).bytes (1026 * 512) NefsCatalogStruct.size (childCatalog pathX 0 1 1026)
  fPacketGood := true

/-- A search for anything that does not end in `/x` circles at the first record. -/
theorem linkedDisk_circles (hname : pathX.chars.isSuffixOf name.chars = false) :
    (allWalk smallEnded linkedDisk.bytes name true).Circles := by
  have hstart : startOf smallEnded.toDriveTrait linkedDisk.bytes = 1026 := by decide +kernel
  have hlink : NefsCatalogStruct.nextSibling.get
      (slice linkedDisk.bytes (smallEnded.fAddress 1026)) = 1026 := by decide +kernel
  have hrecord : (NefsCatalogStruct.nameOf
      (slice linkedDisk.bytes (smallEnded.fAddress 1026))).chars = pathX.chars := by decide +kernel
  have hin : smallEnded.fReaches 1026 NefsCatalogStruct.size = true := by decide
  have hscan : scanVisit smallEnded.toDriveTrait linkedDisk.bytes name true 1026 = .next := by
    simp only [scanVisit, hrecord, hname, Bool.false_eq_true, if_false]
  have hwalk : allWalk smallEnded linkedDisk.bytes name true =
      catalogWalk smallEnded linkedDisk.bytes name true 1026 := by rw [allWalk, hstart]
  have hvisit : (catalogWalk smallEnded linkedDisk.bytes name true 1026).visit 1026 = .next := by
    simp only [catalogWalk, hstart, Nat.lt_irrefl, if_false, hin, if_true, hscan]
  have hback : (catalogWalk smallEnded linkedDisk.bytes name true 1026).at_ 1 = 1026 := hlink
  have hbegin : (catalogWalk smallEnded linkedDisk.bytes name true 1026).at_ 0 = 1026 := rfl
  rw [hwalk]
  refine ⟨0, 1, Nat.one_pos, hbegin.trans hback.symm, fun k hk => ⟨?_, rfl⟩⟩
  obtain rfl : k = 0 := by omega
  rw [hbegin]
  exact hvisit

/-- The drive, formatted, where a fork at LBA 1600 leads to LBA 5000, behind the last sector. -/
def leadingDisk : Medium where
  bytes := blit (smallDisk 1024).bytes (1600 * 512) NefsForkStruct.size
    (NefsForkStruct.nextSibling.set 5000 NefsForkStruct.fresh)
  fPacketGood := true

/-- The record of `/x` with that fork, of 16 bytes. -/
def leadingCatalog : Store :=
  NefsCatalogStruct.dataForkSize.set 16
    (NefsCatalogStruct.dataFork.set 1600 (childCatalog pathX 0 1 1026))

theorem leadingDisk_circles : (readWalk smallEnded leadingDisk.bytes pathX pathX 1600).Circles := by
  have hin : smallEnded.fReaches 1600 NefsForkStruct.size = true := by decide
  have hout : smallEnded.fReaches 5000 NefsForkStruct.size = false := by decide
  have hlink : NefsForkStruct.nextSibling.get (slice leadingDisk.bytes (smallEnded.fAddress 1600)) = 5000 := by
    decide +kernel
  have hname : ¬ pathX = NefsForkStruct.forkNameOf (slice leadingDisk.bytes (smallEnded.fAddress 1600)) := by
    decide +kernel
  have hfirst : (readWalk smallEnded leadingDisk.bytes pathX pathX 1600).at_ 1 = 5000 := by
    show nextFork smallEnded leadingDisk.bytes 1600 = _
    rw [nextFork, if_pos hin, hlink]
  have hsecond : (readWalk smallEnded leadingDisk.bytes pathX pathX 1600).at_ 2 = 5000 := by
    rw [Trail.at_succ, hfirst]
    show nextFork smallEnded leadingDisk.bytes 5000 = _
    rw [nextFork, hout, if_neg Bool.false_ne_true]
  have hlow : ¬ 1600 < kNeFSCatalogStartAddress ∧ ¬ 5000 < kNeFSCatalogStartAddress := by decide
  have hread : (readWalk smallEnded leadingDisk.bytes pathX pathX 1600).visit 1600 = .next := by
    simp only [readWalk, hlow.1, hin, if_true, if_false, readVisit, hname, false_and]
  have hagain : (readWalk smallEnded leadingDisk.bytes pathX pathX 1600).visit 5000 = .next := by
    simp only [readWalk, hlow.2, hout, Bool.false_eq_true, if_false]
  refine ⟨1, 2, by decide, hfirst.trans hsecond.symm, fun k hk => ⟨?_, rfl⟩⟩
  obtain rfl | rfl : k = 0 ∨ k = 1 := by omega
  · exact hread
  · rw [hfirst]
    exact hagain

/-- **A look for a path** that is not there does not come to an end on the first drive, nor does a removal
of it; a read of the fork does not on the second. -/
theorem linked_never_ends :
    findCatalog smallEnded pathY true false linkedDisk = none ∧
      getCatalog smallEnded pathY linkedDisk = none ∧
      removeCatalog smallEnded pathY linkedDisk = none ∧
      readCatalog smallEnded (some leadingCatalog) false 16 pathX leadingDisk = none := by
  have hready : Ready smallEnded linkedDisk := ⟨rfl, by decide⟩
  have hany : findCatalog smallEnded pathY true false linkedDisk = none := by
    rw [findCatalog_settles.none_iff]
    exact fun h => h.2 ⟨hready, by decide, linkedDisk_circles (by decide)⟩
  have hlocal : findCatalog smallEnded pathY true true linkedDisk = none := by
    rw [findCatalog_settles.none_iff]
    intro h
    have hsearch : SearchesLocal pathY true := by decide
    refine h.2 ⟨hready, by decide, ?_⟩
    rw [if_pos hsearch]
    exact ⟨by decide, kNeFSRoot, by decide, .inl (linkedDisk_circles (by decide))⟩
  have hroot : pathY ≠ kNeFSRoot := by decide
  refine ⟨hany, hlocal, ?_, ?_⟩
  · rw [removeCatalog, if_neg hroot, hlocal]
    rfl
  · have hsize : isValidSize 16 (forkOfCatalog leadingCatalog false).1 = true := by decide +kernel
    have hfork : (forkOfCatalog leadingCatalog false).2 = 1600 := by decide +kernel
    have hname : NefsCatalogStruct.nameOf leadingCatalog = pathX := by decide +kernel
    have hvalid : validLba smallEnded leadingDisk.bytes 1600 = true := by decide +kernel
    by_contra hsome
    have hends := readCatalog_isSome_iff.mp (Option.isSome_iff_ne_none.mpr hsome) leadingCatalog rfl hsize
      ⟨rfl, by decide⟩
    rw [hfork, hname] at hends
    exact hends.2 hvalid (by decide) leadingDisk_circles

end NeKernel.NeFS.Ended
