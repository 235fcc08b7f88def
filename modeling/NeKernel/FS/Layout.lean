import NeKernel.FS.OpenHeFSParser

/-!
# The shape of a formatted disk

`Format` divides the drive into the boot node, a row of directory records, a row of index nodes
and the blocks. The scans look at the records `0..lastSlot` of the directory row, and the last of
these always reaches over the end of the row. `Shape` is what holds of every record of the row
and of the boot node throughout: where the links point, which colours occur, where the slices
lead.

`Touched` is the set of bytes `hefsi_balance_ind` changes on such a disk. Nothing in `Shape`
looks at one of them, so `Shape` and everything else read off a disk is the same before and after
a rebalancing (`UpToBalance`).
-/

namespace NeKernel.FS

open ByteStore Detail HeFileSystemParser

/-! ## The regions

The bounds are irreducible so that no tactic takes them apart into divisions. -/

/-- `dir_max` of `Format`. -/
@[irreducible] def dirMax (mnt : DriveTrait) : Nat := mnt.size / mnt.fSectorSz / 300

/-- `inode_max` of `Format`. -/
@[irreducible] def inodeMax (mnt : DriveTrait) : Nat := mnt.size / mnt.fSectorSz / 400

def startIND (mnt : DriveTrait) : Nat := mnt.fLbaStart + HefsBootNode.size
@[irreducible] def endIND (mnt : DriveTrait) : Nat := startIND mnt + dirMax mnt
@[irreducible] def endIN (mnt : DriveTrait) : Nat := endIND mnt + inodeMax mnt

/-- The address of the `j`-th directory record. -/
def slotAt (mnt : DriveTrait) (j : Nat) : Nat :=
  startIND mnt + HefsIndexNodeDirectory.size * j

/-- The last record the scans look at. -/
@[irreducible] def lastSlot (mnt : DriveTrait) : Nat := dirMax mnt / HefsIndexNodeDirectory.size

/-- The drives the development follows over whole runs: the partition starts at 1024 or later,
there is room for the default directories, nothing wraps, and of the record over the end of the
directory row only padding reaches into the index nodes. -/
structure Roomy (mnt : DriveTrait) : Prop where
  start : 1024 ≤ mnt.fLbaStart
  lba : mnt.fLbaStart ≤ mnt.fLbaEnd
  sector : mnt.fSectorSz ≠ 0
  slots : 7 ≤ lastSlot mnt
  overhang : 227 ≤ dirMax mnt % HefsIndexNodeDirectory.size
  noWrap : endIN mnt + HefsIndexNode.size < 2 ^ 64
  size : mnt.size < 2 ^ 64

variable {mnt : DriveTrait} {m m' m'' r r' b : Store} {j x : Nat}

theorem slotAt_eq (mnt : DriveTrait) (j : Nat) :
    slotAt mnt j = mnt.fLbaStart + 513 + 512 * j := rfl

theorem slotAt_succ (mnt : DriveTrait) (j : Nat) : slotAt mnt (j + 1) = slotAt mnt j + 512 := by
  rw [slotAt_eq, slotAt_eq]
  omega

theorem slotAt_mono {k : Nat} (h : j ≤ k) : slotAt mnt j ≤ slotAt mnt k := by
  rw [slotAt_eq, slotAt_eq]
  omega

theorem slotAt_ne_zero (mnt : DriveTrait) (j : Nat) : slotAt mnt j ≠ 0 := by
  rw [slotAt_eq]
  omega

/-- The end of the row, by the record that lies over it. -/
theorem endIND_eq (mnt : DriveTrait) :
    endIND mnt = slotAt mnt (lastSlot mnt) + dirMax mnt % 512 := by
  simp only [endIND, slotAt, lastSlot, HefsIndexNodeDirectory.size]
  omega

theorem endIND_le_endIN (mnt : DriveTrait) : endIND mnt ≤ endIN mnt := by
  rw [endIN]
  exact Nat.le_add_right _ _

theorem endIND_lt (mnt : DriveTrait) : endIND mnt < slotAt mnt (lastSlot mnt + 1) := by
  have := endIND_eq mnt
  have := Nat.mod_lt (dirMax mnt) (show 512 > 0 by decide)
  simp only [slotAt_eq] at *
  omega

theorem slotAt_le_endIND (hj : j ≤ lastSlot mnt) : slotAt mnt j ≤ endIND mnt := by
  have := endIND_eq mnt
  simp only [slotAt_eq] at *
  omega

namespace Roomy

variable (h : Roomy mnt)
include h

theorem field_lt_endIND (hj : j ≤ lastSlot mnt) : slotAt mnt j + 227 ≤ endIND mnt := by
  have := endIND_eq mnt
  have := h.overhang
  simp only [slotAt_eq, HefsIndexNodeDirectory.size] at *
  omega

theorem slotAt_succ_lt (hj : j ≤ lastSlot mnt) : slotAt mnt (j + 1) < 2 ^ 64 := by
  have h₁ := h.noWrap
  have h₂ := slotAt_le_endIND hj
  have h₃ := endIND_le_endIN mnt
  rw [HefsIndexNode.size] at h₁
  rw [slotAt_succ]
  omega

/-- The cursor of a scan. -/
theorem nextStart_slotAt (hj : j ≤ lastSlot mnt) :
    nextStart (slotAt mnt j) = slotAt mnt (j + 1) := by
  have hlt := h.slotAt_succ_lt hj
  rw [slotAt_succ] at hlt ⊢
  rw [nextStart, HefsIndexNodeDirectory.size, u64_of_lt hlt]

theorem lastSlot_lt : lastSlot mnt + 1 < scanFuel := by
  have hlt := h.slotAt_succ_lt (Nat.le_refl _)
  rw [slotAt_succ, slotAt_eq] at hlt
  rw [scanFuel]
  omega

end Roomy

/-! ## Records and nodes -/

/-- The `j`-th directory record. -/
def slotRec (mnt : DriveTrait) (m : Store) (j : Nat) : Store := slice m (slotAt mnt j)

/-- The boot node. -/
def bootRec (mnt : DriveTrait) (m : Store) : Store := slice m mnt.fLbaStart

/-- What stays true of the boot node. -/
structure BootShape (mnt : DriveTrait) (b : Store) : Prop where
  valid : bootValid b = true
  startIND : HefsBootNode.fStartIND.get b = startIND mnt
  endIND : HefsBootNode.fEndIND.get b = endIND mnt
  endIN : HefsBootNode.fEndIN.get b = endIN mnt
  startIN : FS.endIND mnt ≤ HefsBootNode.fStartIN.get b

theorem BootShape.passes {mnt : DriveTrait} {b : Store} (h : BootShape mnt b) :
    bootValid b ≠ false := by
  rw [h.valid]
  decide

section
open HefsIndexNodeDirectory

/-- What stays true of the `j`-th directory record: its links lead nowhere, to the first record,
or (the child) to the address 512; it is live or its hash is zero; only the first record is ever
black; and a slice is empty or leads to an index node. -/
structure SlotShape (mnt : DriveTrait) (j : Nat) (r : Store) : Prop where
  next : fNext.get r = 0
  prev : fPrev.get r = 0 ∨ fPrev.get r = startIND mnt
  parent : fParent.get r = 0 ∨ fParent.get r = startIND mnt
  child : fChild.get r = 0 ∨ fChild.get r = 512
  live : fHashPath.get r ≠ 0 → fCreated.get r ≠ 0 ∧ fDeleted.get r = 0 ∧
    fPrev.get r = startIND mnt ∧ fParent.get r = startIND mnt ∧ fChild.get r = 512
  color : j ≠ 0 → fColor.get r = kOpenHeFSRed ∨ (fColor.get r = 0 ∧ fChild.get r = 0)
  slices : ∀ i < 16, (fINSlices i).get r ≠ 0 →
    endIND mnt ≤ (fINSlices i).get r ∧ (fINSlices i).get r ≤ endIN mnt

end

/-- The shape of a record does not depend on its flags, entry count and checksum, on the colour of
the first record, nor on the padding. -/
theorem SlotShape.congr (h : SlotShape mnt j r)
    (hr : ∀ i < 227, i < 8 ∨ 22 ≤ i → j ≠ 0 ∨ i ≠ 194 → r' i = r i) : SlotShape mnt j r' := by
  have get : ∀ f : Field, f.off + f.width ≤ 227 → f.off + f.width ≤ 8 ∨ 22 ≤ f.off →
      j ≠ 0 ∨ f.Apart HefsIndexNodeDirectory.fColor → f.get r' = f.get r := by
    intro f hf hs hc
    apply Field.get_congr
    intro i hi
    simp only [Field.Apart, HefsIndexNodeDirectory.fColor] at hc
    exact hr _ (by omega) (by omega) (by omega)
  have hhash := get HefsIndexNodeDirectory.fHashPath (by decide) (by decide) (.inr (by decide))
  have hcreated := get HefsIndexNodeDirectory.fCreated (by decide) (by decide) (.inr (by decide))
  have hdeleted := get HefsIndexNodeDirectory.fDeleted (by decide) (by decide) (.inr (by decide))
  have hnext := get HefsIndexNodeDirectory.fNext (by decide) (by decide) (.inr (by decide))
  have hprev := get HefsIndexNodeDirectory.fPrev (by decide) (by decide) (.inr (by decide))
  have hchild := get HefsIndexNodeDirectory.fChild (by decide) (by decide) (.inr (by decide))
  have hparent := get HefsIndexNodeDirectory.fParent (by decide) (by decide) (.inr (by decide))
  refine ⟨?_, ?_, ?_, ?_, ?_, ?_, ?_⟩
  · rw [hnext]; exact h.next
  · rw [hprev]; exact h.prev
  · rw [hparent]; exact h.parent
  · rw [hchild]; exact h.child
  · rw [hhash, hcreated, hdeleted, hprev, hparent, hchild]; exact h.live
  · intro hj
    rw [get HefsIndexNodeDirectory.fColor (by decide) (by decide) (.inl hj), hchild]
    exact h.color hj
  · intro i hi
    rw [get (HefsIndexNodeDirectory.fINSlices i) (by simp only [HefsIndexNodeDirectory.fINSlices]; omega)
      (.inr (by simp only [HefsIndexNodeDirectory.fINSlices]; omega))
      (.inr (.inl (by simp only [HefsIndexNodeDirectory.fINSlices, HefsIndexNodeDirectory.fColor]; omega)))]
    exact h.slices i hi

/-- What stays true of the disk. -/
structure Shape (mnt : DriveTrait) (m : Store) : Prop where
  boot : BootShape mnt (bootRec mnt m)
  slot : ∀ j ≤ lastSlot mnt, SlotShape mnt j (slotRec mnt m j)

/-- The test of the magic depends on nine bytes. -/
theorem equalsMagic_congr (h : ∀ i < 9, b i = r i) : equalsMagic b = equalsMagic r := by
  unfold equalsMagic
  apply Bool.eq_iff_iff.mpr
  simp only [List.all_eq_true, List.mem_range, kOpenHeFSMagicLen]
  exact forall₂_congr fun i hi => by rw [h i hi]

theorem bootValid_congr (h : ∀ i < 9, b i = r i)
    (hv : HefsBootNode.fVersion.get b = HefsBootNode.fVersion.get r) :
    bootValid b = bootValid r := by
  rw [bootValid, bootValid, equalsMagic_congr h, hv]

/-- Setting a field behind the name leaves the test of the boot node alone. -/
theorem bootValid_set {f : Field} {v : Nat} (h : 141 ≤ f.off) :
    bootValid (f.set v b) = bootValid b := by
  apply bootValid_congr
  · intro i hi
    exact Field.set_apply (by omega)
  · exact Field.get_set_of_apart (.inl (by simpa [HefsBootNode.fVersion] using h))

/-! ## What a rebalancing touches -/

/-- The checksums of the directory records, the colour of the first, and the record at 512. -/
def Touched (mnt : DriveTrait) (x : Nat) : Prop :=
  (512 ≤ x ∧ x < 1024) ∨ x = startIND mnt + 194 ∨
    ∃ j ≤ lastSlot mnt, slotAt mnt j + 18 ≤ x ∧ x < slotAt mnt j + 22

/-- The stores agree but for what a rebalancing touches. -/
def UpToBalance (mnt : DriveTrait) (m m' : Store) : Prop := ∀ x, ¬ Touched mnt x → m' x = m x

theorem UpToBalance.refl : UpToBalance mnt m m := fun _ _ => rfl

theorem UpToBalance.trans (h : UpToBalance mnt m m') (h' : UpToBalance mnt m' m'') :
    UpToBalance mnt m m'' := fun x hx => (h' x hx).trans (h x hx)

theorem touched_iff : Touched mnt x ↔ (512 ≤ x ∧ x < 1024) ∨ x = mnt.fLbaStart + 513 + 194 ∨
    ∃ j ≤ lastSlot mnt, mnt.fLbaStart + 513 + 512 * j + 18 ≤ x ∧
      x < mnt.fLbaStart + 513 + 512 * j + 22 := Iff.rfl

namespace Roomy

variable (h : Roomy mnt)
include h

theorem not_touched_boot (hx : mnt.fLbaStart ≤ x) (hx' : x < mnt.fLbaStart + 513) :
    ¬ Touched mnt x := by
  have := h.start
  rw [touched_iff]
  rintro (ht | ht | ⟨j, hj, ht⟩) <;> omega

theorem not_touched_low (hx : x < 512) : ¬ Touched mnt x := by
  have := h.start
  rw [touched_iff]
  rintro (ht | ht | ⟨j, hj, ht⟩) <;> omega

theorem not_touched_high (hx : endIND mnt ≤ x) : ¬ Touched mnt x := by
  have := h.start
  have h₀ := h.field_lt_endIND (Nat.zero_le (lastSlot mnt))
  rw [slotAt_eq] at h₀
  rw [touched_iff]
  rintro (ht | ht | ⟨j, hj, ht⟩)
  · omega
  · omega
  · have hj := h.field_lt_endIND hj
    rw [slotAt_eq] at hj
    omega

theorem not_touched_slot {i : Nat} (hi : i < 512) (hs : i < 18 ∨ 22 ≤ i) (hc : j ≠ 0 ∨ i ≠ 194) :
    ¬ Touched mnt (slotAt mnt j + i) := by
  have := h.start
  rw [touched_iff, slotAt_eq]
  rintro (ht | ht | ⟨j', hj', ht⟩) <;> omega

end Roomy

namespace UpToBalance

variable (h : UpToBalance mnt m m') (hr : Roomy mnt)
include h hr

theorem bootRec_apply {i : Nat} (hi : i < 513) : bootRec mnt m' i = bootRec mnt m i :=
  h _ (hr.not_touched_boot (by omega) (by omega))

theorem boot_get {f : Field} (hf : f.off + f.width ≤ 513) :
    f.get (bootRec mnt m') = f.get (bootRec mnt m) :=
  Field.get_congr fun _ hi => h.bootRec_apply hr (by omega)

theorem slot_get {f : Field} (hf : f.off + f.width ≤ 512)
    (hs : f.Apart HefsIndexNodeDirectory.fChecksum)
    (hc : j ≠ 0 ∨ f.Apart HefsIndexNodeDirectory.fColor) :
    f.get (slotRec mnt m' j) = f.get (slotRec mnt m j) := by
  apply Field.get_congr
  intro i hi
  simp only [Field.Apart, HefsIndexNodeDirectory.fChecksum, HefsIndexNodeDirectory.fColor] at hs hc
  exact h _ (hr.not_touched_slot (by omega) (by omega) (by omega))

/-- A rebalancing leaves the shape of the disk alone. -/
theorem shape (hs : Shape mnt m) : Shape mnt m' := by
  refine ⟨?_, fun j hj => ?_⟩
  · have hb := hs.boot
    refine ⟨?_, ?_, ?_, ?_, ?_⟩
    · rw [bootValid_congr (fun i hi => h.bootRec_apply hr (by omega))
        (h.boot_get (f := HefsBootNode.fVersion) hr (by decide))]
      exact hb.valid
    · exact (h.boot_get (f := HefsBootNode.fStartIND) hr (by decide)).trans hb.startIND
    · exact (h.boot_get (f := HefsBootNode.fEndIND) hr (by decide)).trans hb.endIND
    · exact (h.boot_get (f := HefsBootNode.fEndIN) hr (by decide)).trans hb.endIN
    · rw [h.boot_get (f := HefsBootNode.fStartIN) hr (by decide)]
      exact hb.startIN
  · apply (hs.slot j hj).congr
    intro i hi hck hcol
    exact h _ (hr.not_touched_slot (by omega) (by omega) hcol)

end UpToBalance

end NeKernel.FS
