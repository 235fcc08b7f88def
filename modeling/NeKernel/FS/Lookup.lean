import NeKernel.FS.Files

/-!
# Looking a file up

`hefsi_fetch_in` goes through the records of the row like the creations and deletions do, but it
gives up at the first record without a hash, and at once when the cursor for index nodes has passed
its end. On a disk whose first block is zero, what it finds on its way is a file of the disk
(`fetch_cases`). Then what `INodeExists` and `INodeManip` make of it.
-/

namespace NeKernel.FS

open ByteStore Scan Detail HeFileSystemParser HefsIndexNodeDirectory

variable {mnt : DriveTrait} {m m' b boot : Store} {d d' : Disk} {j i k l : Nat}
  {dir name : List UInt8} {kind : UInt8} {f : File}

/-! ## The scan -/

/-- The slice `i` of the `j`-th record passes the tests of the lookup. An empty slice leads it to
the index node at 0. -/
def Hit (mnt : DriveTrait) (m : Store) (f : File) (j i : Nat) : Prop :=
  hashPath f.dir = dirHash mnt m j ∧
    nodeHash m (dirSlice mnt m j i) = hashPath f.name ∧
    nodeKind m (dirSlice mnt m j i) = f.kind.toNat

/-- The records up to the `j`-th have a hash. -/
def LiveTo (mnt : DriveTrait) (m : Store) (j : Nat) : Prop := ∀ k ≤ j, dirHash mnt m k ≠ 0

/-- The lookup can come to the index node in the slice `i` of the `j`-th record. -/
structure Fetched (mnt : DriveTrait) (m : Store) (f : File) (j i : Nat) : Prop where
  le : j ≤ lastSlot mnt
  lt : i < 16
  live : LiveTo mnt m j
  hit : Hit mnt m f j i

/-- The lookup comes to the index node first, which is the one it returns. -/
structure FirstFetched (mnt : DriveTrait) (m : Store) (f : File) (j i : Nat) : Prop extends
    Fetched mnt m f j i where
  first : ∀ k l, Fetched mnt m f k l → j < k ∨ j = k ∧ i ≤ l

/-- The test of the lookup. -/
theorem hit_passes (h : Hit mnt d.bytes f j i) :
    (decide (hashPath f.name =
        HefsIndexNode.fHashPath.get (d.fInput ((fINSlices i).get (slotRec mnt d.bytes j)))) &&
      decide (HefsIndexNode.fKind.get (d.fInput ((fINSlices i).get (slotRec mnt d.bytes j))) =
        f.kind.toNat)) = true := by
  obtain ⟨-, hname, hkind⟩ := h
  rw [Bool.and_eq_true, decide_eq_true_eq, decide_eq_true_eq]
  exact ⟨hname.symm, hkind⟩

theorem fetchVisit_found {x : Store}
    (h : fetchVisit d f.dir f.name f.kind (slotAt mnt j) = .found x) :
    dirHash mnt d.bytes j ≠ 0 ∧ ∃ i < 16, Hit mnt d.bytes f j i ∧
      (∀ l < i, ¬ Hit mnt d.bytes f j l) ∧ x = slice d.bytes (dirSlice mnt d.bytes j i) := by
  have hin : d.fInput (slotAt mnt j) = slotRec mnt d.bytes j := rfl
  unfold fetchVisit at h
  simp only [hin] at h
  split at h
  · cases h
  next hlive =>
  split at h
  · next hdir =>
      split at h
      · next i hslice =>
          cases h
          obtain ⟨hi, hp, hbefore⟩ := firstSlice_some hslice
          simp only [Bool.and_eq_true, decide_eq_true_eq] at hp
          refine ⟨hlive, i, hi, ⟨hdir, hp.1.symm, hp.2⟩, fun l hl hhit => ?_, rfl⟩
          have hpass := hit_passes hhit
          exact absurd hpass (Bool.eq_false_iff.mp (hbefore l hl))
      · cases h
  · cases h

theorem fetchVisit_stop (h : fetchVisit d f.dir f.name f.kind (slotAt mnt j) = .stop) :
    dirHash mnt d.bytes j = 0 := by
  have hin : d.fInput (slotAt mnt j) = slotRec mnt d.bytes j := rfl
  unfold fetchVisit at h
  simp only [hin] at h
  split at h
  · next hz => exact hz
  · split at h
    · split at h <;> cases h
    · cases h

theorem fetchVisit_next (h : fetchVisit d f.dir f.name f.kind (slotAt mnt j) = .next) :
    dirHash mnt d.bytes j ≠ 0 ∧ ∀ i < 16, ¬ Hit mnt d.bytes f j i := by
  have hin : d.fInput (slotAt mnt j) = slotRec mnt d.bytes j := rfl
  unfold fetchVisit at h
  simp only [hin] at h
  split at h
  · cases h
  next hlive =>
  refine ⟨hlive, ?_⟩
  intro i hi hhit
  split at h
  · split at h
    · cases h
    · next hnone => cases (hit_passes hhit).symm.trans (firstSlice_none hnone i hi)
  · next hne => exact hne hhit.1

theorem fetch_row (hr : Roomy mnt) (hb : BootShape mnt boot) {α : Type} (visit : Nat → Visit α) :
    RowEnds mnt boot (fun start => decide (HefsBootNode.fEndIND.get boot ≤ start)) visit := by
  refine row_ends hr hb visit (fun i hi => ?_) ?_
  · have hlt := hr.field_lt_endIND (show i + 1 ≤ lastSlot mnt by omega)
    simp only [hb.endIND]
    apply decide_eq_false
    omega
  · simp only [hb.endIND]
    exact decide_eq_true (Nat.le_of_lt (endIND_lt mnt))

/-- **What the lookup finds**: the first slice that it can come to, in a record that has none
without a hash before it; or there is no such slice. -/
theorem fetch_cases (hr : Roomy mnt) (hb : BootShape mnt boot)
    (herr : d.errGlobal ≠ kErrorDiskIsCorrupted)
    (hcur : HefsBootNode.fStartIN.get boot ≤ endIN mnt) (f : File) :
    (∃ j i, FirstFetched mnt d.bytes f j i ∧ hefsiFetchIn boot d f.dir f.name f.kind =
      some (some (slice d.bytes (dirSlice mnt d.bytes j i)))) ∨
    (hefsiFetchIn boot d f.dir f.name f.kind = some none ∧
      ∀ j i, ¬ Fetched mnt d.bytes f j i) := by
  have hrow : ¬ HefsBootNode.fEndIND.get boot < HefsBootNode.fStartIND.get boot := by
    rw [hb.startIND, hb.endIND, endIND]
    omega
  have hnodes : ¬ HefsBootNode.fEndIN.get boot < HefsBootNode.fStartIN.get boot := by
    rw [hb.endIN]
    omega
  have hscan : hefsiFetchIn boot d f.dir f.name f.kind =
      scan nextStart (fun start => decide (HefsBootNode.fEndIND.get boot ≤ start))
        (fetchVisit d f.dir f.name f.kind) scanFuel (HefsBootNode.fStartIND.get boot) := by
    unfold hefsiFetchIn
    simp only
    rw [if_neg hrow, if_neg hnodes, if_neg herr]
  rw [hscan]
  -- the scan ends at a hit, at a record without a hash, or behind the last record
  rcases fetch_row hr hb (fetchVisit d f.dir f.name f.kind) with
    ⟨j, hj, hbefore, x, hfound, hscan⟩ | ⟨hscan, ⟨j, hj, hbefore, hstop⟩ | hall⟩
  · obtain ⟨hlive, i, hi, hhit, hfirst, rfl⟩ := fetchVisit_found hfound
    refine .inl ⟨j, i, ⟨⟨hj, hi, fun k hk => ?_, hhit⟩, fun k l hf => ?_⟩, hscan⟩
    · rcases Nat.lt_or_eq_of_le hk with hlt | rfl
      · exact (fetchVisit_next (hbefore k hlt)).1
      · exact hlive
    · rcases Nat.lt_trichotomy j k with hlt | rfl | hgt
      · exact .inl hlt
      · refine .inr ⟨rfl, ?_⟩
        by_contra hlt
        exact hfirst l (by omega) hf.hit
      · exact absurd hf.hit ((fetchVisit_next (hbefore k hgt)).2 l hf.lt)
  · refine .inr ⟨hscan, fun k i hf => ?_⟩
    rcases Nat.lt_or_ge k j with hlt | hge
    · exact (fetchVisit_next (hbefore k hlt)).2 i hf.lt hf.hit
    · exact hf.live j hge (fetchVisit_stop hstop)
  · exact .inr ⟨hscan, fun k i hf => (fetchVisit_next (hall k hf.le)).2 i hf.lt hf.hit⟩

/-! ## What it finds on a disk of the right shape -/

/-- A field of zeros. -/
theorem nodeHash_zero (h : ∀ x < 512, m x = 0) : nodeHash m 0 = 0 := by
  refine (Field.get_congr fun i hi => ?_).trans Field.get_zeros
  rw [slice_apply]
  apply h
  simp only [HefsIndexNode.fHashPath] at *
  omega

/-- With nothing in the first block of the drive, an empty slice leads to no file. -/
theorem Fetched.fileAt (h : Fetched mnt m f j i) (hzero : ∀ x < 512, m x = 0)
    (hname : hashPath f.name ≠ 0) : FileAt mnt m f j i := by
  obtain ⟨hdir, hhash, hkind⟩ := h.hit
  refine ⟨h.le, h.lt, h.live j (Nat.le_refl j), hdir, fun hempty => ?_, hhash, hkind⟩
  rw [hempty, nodeHash_zero hzero] at hhash
  exact hname hhash.symm

theorem FileAt.fetched (h : FileAt mnt m f j i) (hlive : LiveTo mnt m j) : Fetched mnt m f j i :=
  ⟨h.le, h.lt, hlive, h.dir, h.name, h.kind⟩

/-- The lookup comes to the file. -/
def Visible (mnt : DriveTrait) (m : Store) (f : File) : Prop :=
  ∃ j i, FileAt mnt m f j i ∧ LiveTo mnt m j

theorem visible_iff (hzero : ∀ x < 512, m x = 0) (hname : hashPath f.name ≠ 0) :
    Visible mnt m f ↔ ∃ j i, Fetched mnt m f j i := by
  constructor
  · rintro ⟨j, i, hf, hlive⟩
    exact ⟨j, i, hf.fetched hlive⟩
  · rintro ⟨j, i, hf⟩
    exact ⟨j, i, hf.fileAt hzero hname, hf.live⟩

/-! ## `INodeExists` -/

/-- What a lookup needs of a disk. -/
structure Searchable (mnt : DriveTrait) (d : Disk) : Prop where
  shape : Shape mnt d.bytes
  err : d.errGlobal ≠ kErrorDiskIsCorrupted
  first : ∀ x < 512, d.bytes x = 0
  cursor : startIN mnt d.bytes ≤ endIN mnt

/-- Both names are short enough to be looked up. -/
def ShortNames (f : File) : Prop :=
  f.dir.length ≤ kOpenHeFSFileNameLen ∧ f.name.length ≤ kOpenHeFSFileNameLen

/-- **`INodeExists`** says YES to the files it comes to, and changes nothing. -/
theorem exists_spec (hr : Roomy mnt) (hs : Searchable mnt d) (hname : hashPath f.name ≠ 0) :
    ∃ r e, iNodeExists mnt d f.dir f.name f.kind = some (r, d.setErr e) ∧
      e ≠ kErrorDiskIsCorrupted ∧ (r = true ↔ ShortNames f ∧ Visible mnt d.bytes f) := by
  have hin : d.fInput mnt.fLbaStart = bootRec mnt d.bytes := rfl
  have hvalid : bootValid (bootRec mnt d.bytes) ≠ false := hs.shape.boot.passes
  unfold iNodeExists
  by_cases hdir : kOpenHeFSFileNameLen < f.dir.length
  · rw [if_pos hdir]
    refine ⟨false, d.errGlobal, rfl, hs.err, by simp, ?_⟩
    rintro ⟨⟨hshort, -⟩, -⟩
    omega
  by_cases hlen : kOpenHeFSFileNameLen < f.name.length
  · rw [if_neg hdir, if_pos hlen]
    refine ⟨false, d.errGlobal, rfl, hs.err, by simp, ?_⟩
    rintro ⟨⟨-, hshort⟩, -⟩
    omega
  have hshort : ShortNames f := ⟨by omega, by omega⟩
  rw [if_neg hdir, if_neg hlen, hin, if_neg hvalid, visible_iff hs.first hname]
  rcases fetch_cases hr hs.shape.boot hs.err hs.cursor f with ⟨j, i, hf, hfetch⟩ | ⟨hfetch, hno⟩
  · rw [hfetch]
    exact ⟨true, kErrorSuccess, rfl, by decide, fun _ => ⟨hshort, j, i, hf.toFetched⟩,
      fun _ => rfl⟩
  · rw [hfetch]
    refine ⟨false, kErrorFileNotFound, rfl, by decide, by simp, ?_⟩
    rintro ⟨-, j, i, hf⟩
    exact absurd hf (hno j i)

end NeKernel.FS
