import NeKernel.FS.Steps

/-!
# What is on the disk

The directories and files of a disk, read off its records: the hash of each directory record,
the addresses in its slices, and the name and kind of the index node at an address. Then what an
operation that takes effect does to them, and which bytes it leaves alone.
-/

namespace NeKernel.FS

open ByteStore Scan Detail HeFileSystemParser HefsIndexNodeDirectory

variable {mnt : DriveTrait} {m m' src r b boot : Store} {d d' : Disk} {a j i v x flags : Nat}
  {dir name : List UInt8} {del : Bool} {kind : UInt8}

/-- `fHashPath` of the `j`-th directory record. -/
def dirHash (mnt : DriveTrait) (m : Store) (j : Nat) : Nat := fHashPath.get (slotRec mnt m j)

/-- The `i`-th slice of the `j`-th directory record. -/
def dirSlice (mnt : DriveTrait) (m : Store) (j i : Nat) : Nat :=
  (fINSlices i).get (slotRec mnt m j)

/-- `fHashPath` of the index node at `a`. -/
def nodeHash (m : Store) (a : Nat) : Nat := HefsIndexNode.fHashPath.get (slice m a)

/-- `fKind` of the index node at `a`. -/
def nodeKind (m : Store) (a : Nat) : Nat := HefsIndexNode.fKind.get (slice m a)

/-- The cursor for index nodes. -/
def startIN (mnt : DriveTrait) (m : Store) : Nat := HefsBootNode.fStartIN.get (bootRec mnt m)

/-- The cursor for blocks. -/
def startBlock (mnt : DriveTrait) (m : Store) : Nat :=
  HefsBootNode.fStartBlock.get (bootRec mnt m)

/-- The address is one of the first block of the drive, or lies behind the row: neither the boot
node nor a field of a directory record is there. -/
def OffRow (mnt : DriveTrait) (x : Nat) : Prop := x < 512 ∨ endIND mnt ≤ x

/-! ## What they depend on -/

theorem dirHash_congr (h : ∀ i < 227, slotRec mnt m' j i = slotRec mnt m j i) :
    dirHash mnt m' j = dirHash mnt m j :=
  Field.get_congr fun i hi => h _ (by simp only [fHashPath] at *; omega)

theorem dirSlice_congr (h : ∀ i < 227, slotRec mnt m' j i = slotRec mnt m j i) (hi : i < 16) :
    dirSlice mnt m' j i = dirSlice mnt m j i :=
  Field.get_congr fun k hk => h _ (by simp only [fINSlices] at *; omega)

/-- A field of an index node depends on the bytes of the node. -/
theorem node_get {f : Field} (hf : f.off + f.width ≤ 512) (h : ∀ i < 512, m' (a + i) = m (a + i)) :
    f.get (slice m' a) = f.get (slice m a) :=
  Field.get_congr fun _ hi => h _ (by omega)

namespace UpToBalance

variable (h : UpToBalance mnt m m') (hr : Roomy mnt)
include h hr

theorem dirHash : dirHash mnt m' j = dirHash mnt m j :=
  h.slot_get hr (by decide) (by decide) (.inr (by decide))

theorem dirSlice (hi : i < 16) : dirSlice mnt m' j i = dirSlice mnt m j i :=
  h.slot_get hr (by simp only [fINSlices]; omega)
    (.inr (by simp only [fINSlices, fChecksum]; omega))
    (.inr (.inl (by simp only [fINSlices, fColor]; omega)))

theorem off (hx : OffRow mnt x) : m' x = m x := by
  rcases hx with hx | hx
  · exact h _ (hr.not_touched_low hx)
  · exact h _ (hr.not_touched_high hx)

end UpToBalance

/-! ## Directory operations -/

/-- What replacing the `j`-th record does. -/
structure DirEffect (mnt : DriveTrait) (m m' : Store) (dir : List UInt8) (del : Bool) (j : Nat) :
    Prop where
  hash : dirHash mnt m' j = if del then 0 else hashPath dir
  hash_other : ∀ k, k ≠ j → dirHash mnt m' k = dirHash mnt m k
  slice : ∀ i < 16, dirSlice mnt m' j i = 0
  slice_other : ∀ k, k ≠ j → ∀ i < 16, dirSlice mnt m' k i = dirSlice mnt m k i
  off : ∀ x, OffRow mnt x → x < 512 ∨ slotAt mnt (j + 1) ≤ x → m' x = m x
  boot : ∀ f : Field, f.off + f.width ≤ 513 → f.Apart HefsBootNode.fChecksum →
    f.Apart HefsBootNode.fINDCount → f.get (bootRec mnt m') = f.get (bootRec mnt m)

/-- The boot node does not reach off the row. -/
theorem OffRow.blit_boot (hx : OffRow mnt x) (hr : Roomy mnt) :
    blit m mnt.fLbaStart 513 src x = m x := by
  have h₁ := hr.start
  have h₂ := slotAt_le_endIND (Nat.zero_le (lastSlot mnt))
  rw [slotAt_eq] at h₂
  apply blit_apply_of_notMem
  rcases hx with hx | hx <;> omega

theorem indWritten_effect (hr : Roomy mnt) (dir : List UInt8) (flags : Nat) (del : Bool)
    (color : Nat) :
    DirEffect mnt d.bytes (indWritten mnt d dir flags del j color).bytes dir del j := by
  let dirent := hefsiDirent (bootRec mnt d.bytes) (slotRec mnt d.bytes j) dir flags del color 512
  let sealed := sealBootNode (countInd del (bootRec mnt d.bytes))
  have hbytes : (indWritten mnt d dir flags del j color).bytes =
      blit (blit d.bytes (slotAt mnt j) 512 dirent) mnt.fLbaStart 513 sealed := rfl
  have hsame : ∀ i < 512, slotRec mnt (blit (blit d.bytes (slotAt mnt j) 512 dirent)
      mnt.fLbaStart 513 sealed) j i = dirent i :=
    fun i hi => slotRec_blit_boot.trans (slotRec_blit_same hi)
  have hother : ∀ k, k ≠ j → ∀ i < 512, slotRec mnt (blit (blit d.bytes (slotAt mnt j) 512 dirent)
      mnt.fLbaStart 513 sealed) k i = slotRec mnt d.bytes k i :=
    fun k hk i hi => slotRec_blit_boot.trans (slotRec_blit_other hk hi)
  rw [hbytes]
  refine ⟨?_, ?_, ?_, ?_, ?_, ?_⟩
  · have hdirent : fHashPath.get dirent = if del then 0 else hashPath dir := hefsiDirent_fHashPath
    rw [← hdirent]
    exact Field.get_congr fun i hi => hsame _ (by simp only [fHashPath] at *; omega)
  · exact fun k hk => dirHash_congr fun i hi => hother k hk i (by omega)
  · intro i hi
    have hdirent : (fINSlices i).get dirent = 0 := hefsiDirent_fINSlices hi
    rw [← hdirent]
    exact Field.get_congr fun k hk => hsame _ (by simp only [fINSlices] at *; omega)
  · exact fun k hk i hi => dirSlice_congr (fun l hl => hother k hk l (by omega)) hi
  · intro x hx hj
    have hstart := hr.start
    rw [slotAt_succ] at hj
    rw [hx.blit_boot hr]
    apply blit_apply_of_notMem
    rw [slotAt_eq] at hj ⊢
    omega
  · intro f hf hck hct
    have hblit : f.get (bootRec mnt (blit (blit d.bytes (slotAt mnt j) 512 dirent)
        mnt.fLbaStart 513 sealed)) = f.get sealed :=
      Field.get_congr fun i hi => bootRec_blit_same (by omega)
    have hseal : f.get sealed = f.get (countInd del (bootRec mnt d.bytes)) :=
      Field.get_set_of_apart hck
    rw [hblit, hseal, countInd, Field.get_set_of_apart hct]

theorem DirEffect.upTo {m'' : Store} (h : DirEffect mnt m m' dir del j) (hr : Roomy mnt)
    (hu : UpToBalance mnt m' m'') : DirEffect mnt m m'' dir del j := by
  refine ⟨?_, ?_, ?_, ?_, ?_, ?_⟩
  · rw [hu.dirHash hr]; exact h.hash
  · intro k hk; rw [hu.dirHash hr]; exact h.hash_other k hk
  · intro i hi; rw [hu.dirSlice hr hi]; exact h.slice i hi
  · intro k hk i hi; rw [hu.dirSlice hr hi]; exact h.slice_other k hk i hi
  · intro x hx hj
    rw [hu.off hr hx]
    exact h.off x hx hj
  · intro f hf hck hct
    rw [hu.boot_get hr hf]
    exact h.boot f hf hck hct

theorem DirEffect.startIN (h : DirEffect mnt m m' dir del j) : startIN mnt m' = startIN mnt m :=
  h.boot _ (by decide) (by decide) (by decide)

theorem DirEffect.startBlock (h : DirEffect mnt m m' dir del j) :
    startBlock mnt m' = startBlock mnt m :=
  h.boot _ (by decide) (by decide) (by decide)

/-! ## File operations -/

/-- What an operation on the slice `i` of the `j`-th record does, with the index node at `a`: the
slice holds `v`, the boot node is `b`, and off the row only the index node has changed. -/
structure SliceEffect (mnt : DriveTrait) (m m' : Store) (j i a v : Nat) (b : Store) : Prop where
  hash : ∀ k ≤ lastSlot mnt, dirHash mnt m' k = dirHash mnt m k
  slice : dirSlice mnt m' j i = v
  slice_other : ∀ k ≤ lastSlot mnt, ∀ l < 16, k ≠ j ∨ l ≠ i →
    dirSlice mnt m' k l = dirSlice mnt m k l
  off : ∀ x, OffRow mnt x → x < a ∨ a + 512 ≤ x → m' x = m x
  boot : ∀ k < 513, bootRec mnt m' k = b k

theorem SliceEffect.upTo {m'' : Store} (h : SliceEffect mnt m m' j i a v b) (hr : Roomy mnt)
    (hi : i < 16) (hu : UpToBalance mnt m' m'') : SliceEffect mnt m m'' j i a v b := by
  refine ⟨?_, ?_, ?_, ?_, ?_⟩
  · intro k hk; rw [hu.dirHash hr]; exact h.hash k hk
  · rw [hu.dirSlice hr hi]; exact h.slice
  · intro k hk l hl hkl; rw [hu.dirSlice hr hl]; exact h.slice_other k hk l hl hkl
  · intro x hx hd
    rw [hu.off hr hx]
    exact h.off x hx hd
  · intro k hk
    rw [hu.bootRec_apply hr hk]
    exact h.boot k hk

theorem SliceEffect.boot_get (h : SliceEffect mnt m m' j i a v b) {f : Field}
    (hf : f.off + f.width ≤ 513) : f.get (bootRec mnt m') = f.get b :=
  Field.get_congr fun _ hi => h.boot _ (by omega)

/-- Setting a slice leaves the hash and the other slices of a record alone. -/
theorem fHashPath_setSlice : fHashPath.get ((fINSlices i).set v r) = fHashPath.get r :=
  Field.get_set_of_apart (.inl (by simp only [fHashPath, fINSlices]; omega))

theorem fINSlices_setSlice {l : Nat} (hl : l ≠ i) :
    (fINSlices l).get ((fINSlices i).set v r) = (fINSlices l).get r :=
  Field.get_set_of_apart (by simp only [Field.Apart, fINSlices]; omega)

/-- The fields of the records are not disturbed by an index node behind the row. -/
theorem slotRec_blit_node (hr : Roomy mnt) (hj : j ≤ lastSlot mnt) (ha : endIND mnt ≤ a)
    (hi : i < 227) : slotRec mnt (blit m a 512 src) j i = slotRec mnt m j i := by
  have := hr.field_lt_endIND hj
  apply blit_apply_of_notMem
  omega

theorem fHashPath_placeNode :
    HefsIndexNode.fHashPath.get (placeNode boot r) = HefsIndexNode.fHashPath.get r := by
  simp (disch := decide) only [placeNode, Field.get_set_of_apart]

theorem fKind_placeNode :
    HefsIndexNode.fKind.get (placeNode boot r) = HefsIndexNode.fKind.get r := by
  simp (disch := decide) only [placeNode, Field.get_set_of_apart]

theorem fKind_ctlNode : HefsIndexNode.fKind.get (ctlNode flags name del kind) = kind.toNat := by
  simp (disch := decide) only [ctlNode, Field.get_set_of_apart, Field.get_set_same]
  have := kind.toNat_lt
  apply Nat.mod_eq_of_lt
  show _ < 65536
  omega

/-- The record `r` has been written over the `j`-th one, the index node at `a`, and the boot
node `b`, in some order. -/
structure Writes (mnt : DriveTrait) (m m' : Store) (j : Nat) (r : Store) (a : Nat) (b : Store) :
    Prop where
  slot : ∀ k < 227, slotRec mnt m' j k = r k
  slot_other : ∀ l ≤ lastSlot mnt, l ≠ j → ∀ k < 227, slotRec mnt m' l k = slotRec mnt m l k
  off : ∀ x, OffRow mnt x → x < a ∨ a + 512 ≤ x → m' x = m x
  boot : ∀ k < 513, bootRec mnt m' k = b k

section
variable {nd : Store} (hr : Roomy mnt) (hj : j ≤ lastSlot mnt) (ha : endIND mnt ≤ a)
include hr hj

/-- A record whose padding is as before does not change what is off the row. -/
theorem OffRow.blit_slot (hx : OffRow mnt x) (hm : m' x = m x)
    (hpad : ∀ k, 227 ≤ k → r k = slotRec mnt m j k) :
    blit m' (slotAt mnt j) 512 r x = m x := by
  have hrow := hr.field_lt_endIND hj
  have hstart := hr.start
  rw [← hm]
  apply blit_eq_of_agree
  intro h₁ h₂
  have hge : 227 ≤ x - slotAt mnt j := by
    rw [slotAt_eq] at hrow h₁ ⊢
    rcases hx with hx | hx <;> omega
  rw [hpad _ hge, hm]
  exact congrArg m (by omega)

include ha

/-- The order of a creation. -/
theorem writes_create (hpad : ∀ k, 227 ≤ k → r k = slotRec mnt m j k) :
    Writes mnt m (blit (blit (blit m (slotAt mnt j) 512 r) a 512 nd) mnt.fLbaStart 513 b)
      j r a b := by
  refine ⟨fun k hk => ?_, fun l hl hlj k hk => ?_, fun x hx hd => ?_,
    fun k hk => bootRec_blit_same hk⟩
  · rw [slotRec_blit_boot, slotRec_blit_node hr hj ha hk, slotRec_blit_same (by omega)]
  · rw [slotRec_blit_boot, slotRec_blit_node hr hl ha hk, slotRec_blit_other hlj (by omega)]
  · rw [hx.blit_boot hr, blit_apply_of_notMem hd]
    exact OffRow.blit_slot hr hj hx rfl hpad

/-- The order of a deletion. -/
theorem writes_delete (hpad : ∀ k, 227 ≤ k → r k = slotRec mnt m j k) :
    Writes mnt m (blit (blit (blit m mnt.fLbaStart 513 b) a 512 nd) (slotAt mnt j) 512 r)
      j r a b := by
  have habove : startIND mnt ≤ slotAt mnt j := slotAt_mono (Nat.zero_le j)
  have hstart : startIND mnt ≤ endIND mnt := slotAt_le_endIND (Nat.zero_le _)
  refine ⟨fun k hk => ?_, fun l hl hlj k hk => ?_, fun x hx hd => ?_, fun k hk => ?_⟩
  · rw [slotRec_blit_same (by omega)]
  · rw [slotRec_blit_other hlj (by omega), slotRec_blit_node hr hl ha hk, slotRec_blit_boot]
  · apply OffRow.blit_slot hr hj hx _ hpad
    rw [blit_apply_of_notMem hd, hx.blit_boot hr]
  · rw [bootRec_blit_above habove hk, bootRec_blit_above (Nat.le_trans hstart ha) hk,
      bootRec_blit_same hk]

end

/-- What the writes do when the record differs from the old one in a slice, the entry count and
the checksum. -/
theorem Writes.effect (h : Writes mnt m m' j r a b) (hi : i < 16) (hv : v < 2 ^ 64)
    (hrec : ∀ k, k < 8 ∨ 22 ≤ k → r k = (fINSlices i).set v (slotRec mnt m j) k) :
    SliceEffect mnt m m' j i a v b := by
  have hget : ∀ l < 16, dirSlice mnt m' j l =
      (fINSlices l).get ((fINSlices i).set v (slotRec mnt m j)) := fun l hl =>
    Field.get_congr fun k hk => (h.slot _ (by simp only [fINSlices] at *; omega)).trans
      (hrec _ (by simp only [fINSlices] at *; omega))
  refine ⟨fun k hk => ?_, ?_, fun k hk l hl hkl => ?_, h.off, h.boot⟩
  · by_cases hkj : k = j
    · subst hkj
      have hhash : dirHash mnt m' k = fHashPath.get ((fINSlices i).set v (slotRec mnt m k)) :=
        Field.get_congr fun l hl => (h.slot _ (by simp only [fHashPath] at *; omega)).trans
          (hrec _ (by simp only [fHashPath] at *; omega))
      exact hhash.trans fHashPath_setSlice
    · exact dirHash_congr (h.slot_other k hk hkj)
  · rw [hget i hi, Field.get_set_same]
    exact Nat.mod_eq_of_lt hv
  · by_cases hkj : k = j
    · subst hkj
      rw [hget l hl, fINSlices_setSlice (hkl.resolve_left (fun hn => hn rfl))]
      rfl
    · exact dirSlice_congr (h.slot_other k hk hkj) hl

/-- The padding of a record is left alone when a slice of it is set. -/
theorem padding_setSlice (hi : i < 16)
    (hrec : ∀ k, k < 8 ∨ 22 ≤ k → r k = (fINSlices i).set v (slotRec mnt m j) k) :
    ∀ k, 227 ≤ k → r k = slotRec mnt m j k := by
  intro k hk
  rw [hrec k (.inr (by omega))]
  exact Field.set_apply (.inr (by simp only [fINSlices]; omega))

/-- **A creation** in the slice `i` of the `j`-th record. -/
theorem inWritten_create_effect (node : Store) (hr : Roomy mnt) (hs : Shape mnt d.bytes)
    (hj : j ≤ lastSlot mnt) (hi : i < 16) :
    let a := startIN mnt d.bytes
    let m' := (inWritten mnt d node false j i).bytes
    SliceEffect mnt d.bytes m' j i a a (sealBootNode (bumpCursors (bootRec mnt d.bytes))) ∧
      ∀ k < 512, m' (a + k) = placeNode (bootRec mnt d.bytes) node k := by
  intro a m'
  have ha : endIND mnt ≤ a := hs.boot.startIN
  have hrec : ∀ k, k < 8 ∨ 22 ≤ k → fillSlice (bootRec mnt d.bytes) (slotRec mnt d.bytes j) i k =
      (fINSlices i).set a (slotRec mnt d.bytes j) k := fun k hk => fillSlice_apply hk
  have hbytes : m' = _ := inWritten_create hi
  rw [hbytes]
  constructor
  · exact (writes_create hr hj ha (padding_setSlice hi hrec)).effect hi Field.get_lt hrec
  · intro k hk
    have hoff : OffRow mnt (a + k) := .inr (by omega)
    rw [hoff.blit_boot hr]
    exact slice_blit_same_apply hk

/-- **A deletion** in the slice `i` of the `j`-th record. -/
theorem inWritten_delete_effect (node : Store) (hr : Roomy mnt) (hs : Shape mnt d.bytes)
    (hj : j ≤ lastSlot mnt) (hi : i < 16) (hne : dirSlice mnt d.bytes j i ≠ 0) :
    SliceEffect mnt d.bytes (inWritten mnt d node true j i).bytes j i (dirSlice mnt d.bytes j i) 0
      (sealBootNode (bootRec mnt d.bytes)) := by
  have ha : endIND mnt ≤ dirSlice mnt d.bytes j i := ((hs.slot j hj).slices i hi hne).1
  have hrec : ∀ k, k < 8 ∨ 22 ≤ k → emptySlice (slotRec mnt d.bytes j) i k =
      (fINSlices i).set 0 (slotRec mnt d.bytes j) k := fun k hk => emptySlice_apply hk
  rw [inWritten_delete]
  exact (writes_delete hr hj ha (padding_setSlice hi hrec)).effect hi (by decide) hrec

end NeKernel.FS
