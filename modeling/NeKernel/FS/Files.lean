import NeKernel.FS.Regions

/-!
# Files and directories

What it means that a directory or a file is on a disk of the right shape: a live record of the row
has the name's hash, and a slice of it leads to an index node with the name's hash and the kind.
The operations are followed on these two notions: a directory operation decides about the records
of its own name, a file operation about one slice.
-/

namespace NeKernel.FS

open ByteStore Scan Detail HeFileSystemParser HefsIndexNodeDirectory

variable {mnt : DriveTrait} {m m' src r b boot : Store} {d d' w : Disk} {a j i k l v flags : Nat}
  {dir dir' name : List UInt8} {del : Bool} {kind : UInt8} {op : Op}

/-- A file, as the operations name it. -/
structure File where
  dir : List UInt8
  name : List UInt8
  kind : UInt8

/-- There is a live record of the directory. -/
def DirPresent (mnt : DriveTrait) (m : Store) (dir : List UInt8) : Prop :=
  ∃ j ≤ lastSlot mnt, indNamed dir (slotRec mnt m j) = true

/-- The slice `i` of the `j`-th record leads to the file. -/
structure FileAt (mnt : DriveTrait) (m : Store) (f : File) (j i : Nat) : Prop where
  le : j ≤ lastSlot mnt
  lt : i < 16
  live : dirHash mnt m j ≠ 0
  dir : hashPath f.dir = dirHash mnt m j
  used : dirSlice mnt m j i ≠ 0
  name : nodeHash m (dirSlice mnt m j i) = hashPath f.name
  kind : nodeKind m (dirSlice mnt m j i) = f.kind.toNat

/-- Some slice of a live record leads to the file. -/
def FilePresent (mnt : DriveTrait) (m : Store) (f : File) : Prop := ∃ j i, FileAt mnt m f j i

/-- The slices lead to index nodes that share no byte. -/
def SlicesApart (mnt : DriveTrait) (m : Store) : Prop :=
  ∀ j ≤ lastSlot mnt, ∀ i < 16, ∀ k ≤ lastSlot mnt, ∀ l < 16, j ≠ k ∨ i ≠ l →
    dirSlice mnt m j i ≠ 0 → dirSlice mnt m k l ≠ 0 →
    dirSlice mnt m j i + 512 ≤ dirSlice mnt m k l ∨ dirSlice mnt m k l + 512 ≤ dirSlice mnt m j i

/-- The index nodes in use are apart, and below the cursor. -/
structure Packed (mnt : DriveTrait) (m : Store) : Prop where
  apart : SlicesApart mnt m
  below : ∀ j ≤ lastSlot mnt, ∀ i < 16, dirSlice mnt m j i ≠ 0 →
    dirSlice mnt m j i + 512 ≤ startIN mnt m

/-- The name and the kind of an index node are in its bytes. -/
theorem node_congr (h : ∀ k < 512, m' (a + k) = m (a + k)) :
    nodeHash m' a = nodeHash m a ∧ nodeKind m' a = nodeKind m a :=
  ⟨node_get (f := HefsIndexNode.fHashPath) (by decide) h,
    node_get (f := HefsIndexNode.fKind) (by decide) h⟩

/-- A file stays where it is as long as the hash, the slice and the index node do. -/
theorem FileAt.congr {f : File} (h : FileAt mnt m f j i) (hhash : dirHash mnt m' j = dirHash mnt m j)
    (hslice : dirSlice mnt m' j i = dirSlice mnt m j i)
    (hnode : ∀ k < 512, m' (dirSlice mnt m j i + k) = m (dirSlice mnt m j i + k)) :
    FileAt mnt m' f j i := by
  obtain ⟨hname, hkind⟩ := node_congr hnode
  refine ⟨h.le, h.lt, ?_, ?_, ?_, ?_, ?_⟩
  · rw [hhash]; exact h.live
  · rw [hhash]; exact h.dir
  · rw [hslice]; exact h.used
  · rw [hslice, hname]; exact h.name
  · rw [hslice, hkind]; exact h.kind

/-- What a slice holds is the address of an index node behind the row. -/
theorem Shape.slice_ge (hs : Shape mnt m) (hj : j ≤ lastSlot mnt) (hi : i < 16)
    (hne : dirSlice mnt m j i ≠ 0) : endIND mnt ≤ dirSlice mnt m j i :=
  ((hs.slot j hj).slices i hi hne).1

/-! ## Directory operations -/

section
open HefsIndexNodeDirectory

/-- The marks of the new record. -/
theorem hefsiDirent_fCreated (boot tmpdir : Store) (flags color child : Nat) :
    fCreated.get (hefsiDirent boot tmpdir dir flags del color child) = if del then 0 else 1 := by
  simp (disch := decide) only [hefsiDirent, Field.get_set_of_apart, Field.get_set_same]
  cases del <;> rfl

theorem hefsiDirent_fDeleted (boot tmpdir : Store) (flags color child : Nat) :
    fDeleted.get (hefsiDirent boot tmpdir dir flags del color child) = if del then 1 else 0 := by
  simp (disch := decide) only [hefsiDirent, Field.get_set_of_apart, Field.get_set_same]
  cases del <;> rfl

end

/-- The tests for a name and for a free record look at three fields of the record. -/
def SameTests (r b : Store) : Prop :=
  ∀ f : Field, f.off + f.width ≤ 54 → f.Apart fChecksum → f.get r = f.get b

theorem SameTests.named (h : SameTests r b) : indNamed dir r = indNamed dir b := by
  rw [indNamed, indNamed, h fCreated (by decide) (by decide), h fDeleted (by decide) (by decide),
    h fHashPath (by decide) (by decide)]

theorem SameTests.free (h : SameTests r b) : indFree r = indFree b := by
  rw [indFree, indFree, h fCreated (by decide) (by decide), h fDeleted (by decide) (by decide),
    h fHashPath (by decide) (by decide)]

/-- What a directory operation that takes effect on the `j`-th record does to the names. -/
structure Renamed (mnt : DriveTrait) (m m' : Store) (dir : List UInt8) (del : Bool) (j : Nat) :
    Prop where
  named : ∀ dir', indNamed dir' (slotRec mnt m' j) =
    (!del && decide (hashPath dir' = hashPath dir))
  other : ∀ k, k ≠ j → SameTests (slotRec mnt m' k) (slotRec mnt m k)

/-- What the tests see of the records after an operation on the `j`-th, rebalanced. -/
theorem indWritten_tests {color : Nat} (hr : Roomy mnt)
    (hb : UpToBalance mnt (indWritten mnt d dir flags del j color).bytes m') :
    SameTests (slotRec mnt m' j) (hefsiDirent (bootRec mnt d.bytes) (slotRec mnt d.bytes j) dir flags
      del color 512) ∧
    ∀ k, k ≠ j → SameTests (slotRec mnt m' k) (slotRec mnt d.bytes k) := by
  have hup : ∀ k, SameTests (slotRec mnt m' k)
      (slotRec mnt (indWritten mnt d dir flags del j color).bytes k) :=
    fun k f hf hck => hb.slot_get hr (by omega) hck (.inr (.inl (by simp only [fColor]; omega)))
  refine ⟨fun f hf hck => ?_, fun k hk f hf hck => ?_⟩
  · rw [hup j f hf hck]
    exact Field.get_congr fun i _ => slotRec_blit_boot.trans (slotRec_blit_same (by omega))
  · rw [hup k f hf hck]
    exact Field.get_congr fun i _ => slotRec_blit_boot.trans (slotRec_blit_other hk (by omega))

/-- A free record has no name but the one without a hash. -/
theorem SlotShape.not_named (h : SlotShape mnt j r) (hfree : indFree r = true)
    (hdir : hashPath dir ≠ 0) : indNamed dir r = false := by
  have hz := h.indFree_iff.mp hfree
  by_contra hn
  simp only [indNamed, Bool.not_eq_false, Bool.and_eq_true, decide_eq_true_eq] at hn
  rw [hz] at hn
  exact hdir hn.2

theorem Renamed.created (h : Renamed mnt m m' dir false j) (hj : j ≤ lastSlot mnt) :
    DirPresent mnt m' dir := by
  refine ⟨j, hj, ?_⟩
  rw [h.named]
  simp

/-- A creation loses no directory. -/
theorem Renamed.keeps (h : Renamed mnt m m' dir false j) (hs : Shape mnt m)
    (ht : IndTarget mnt m dir false j) (hdir : hashPath dir' ≠ 0) (hp : DirPresent mnt m dir') :
    DirPresent mnt m' dir' := by
  obtain ⟨k, hk, hn⟩ := hp
  refine ⟨k, hk, ?_⟩
  have hkj : k ≠ j := by
    rintro rfl
    rw [(hs.slot k hk).not_named ht.wanted hdir] at hn
    cases hn
  rw [(h.other k hkj).named]
  exact hn

/-- There is one live record of the directory at most. -/
def OneRecord (mnt : DriveTrait) (m : Store) (dir : List UInt8) : Prop :=
  ∀ j ≤ lastSlot mnt, ∀ k ≤ lastSlot mnt, indNamed dir (slotRec mnt m j) = true →
    indNamed dir (slotRec mnt m k) = true → j = k

/-- A removal removes the directory when it had one record only. -/
theorem Renamed.removed (h : Renamed mnt m m' dir true j) (ht : IndTarget mnt m dir true j) :
    ¬ DirPresent mnt m' dir ↔ OneRecord mnt m dir := by
  have hother : ∀ k, indNamed dir (slotRec mnt m' k) = true ↔
      k ≠ j ∧ indNamed dir (slotRec mnt m k) = true := by
    intro k
    by_cases hkj : k = j
    · subst hkj
      rw [h.named]
      simp
    · rw [(h.other k hkj).named]
      exact ⟨fun hn => ⟨hkj, hn⟩, fun hn => hn.2⟩
  constructor
  · intro habs k hk l hl hnk hnl
    have only : ∀ x ≤ lastSlot mnt, indNamed dir (slotRec mnt m x) = true → x = j := by
      intro x hx hn
      by_contra hxj
      exact habs ⟨x, hx, (hother x).mpr ⟨hxj, hn⟩⟩
    rw [only k hk hnk, only l hl hnl]
  · rintro hone ⟨k, hk, hn⟩
    obtain ⟨hkj, hn⟩ := (hother k).mp hn
    exact hkj (hone k hk j ht.le hn ht.wanted)

/-! ## File operations -/

/-- The slice a creation uses is empty. -/
theorem SliceTarget.empty {hashFile : Nat} (ht : SliceTarget mnt d dir hashFile false j i) :
    dirSlice mnt d.bytes j i = 0 := by
  have hw := ht.usable.2
  simp only [inWanted, Bool.false_eq_true, if_false, decide_eq_true_eq] at hw
  exact hw

/-- A creation that takes effect, rebalanced. -/
theorem Written.create_effect (hr : Roomy mnt) (hs : Shape mnt d.bytes)
    (hw : Written mnt d (.createFile flags dir name kind) w)
    (hb : UpToBalance mnt w.bytes m') :
    CursorsIn (bootRec mnt d.bytes) ∧ ∃ j i, SliceTarget mnt d dir (hashPath name) false j i ∧
      SliceEffect mnt d.bytes m' j i (startIN mnt d.bytes) (startIN mnt d.bytes)
        (sealBootNode (bumpCursors (bootRec mnt d.bytes))) ∧
      ∀ k < 512, m' (startIN mnt d.bytes + k) =
        placeNode (bootRec mnt d.bytes) (ctlNode flags name false kind) k := by
  obtain ⟨hc, j, i, ht, rfl⟩ := hw
  have hge : endIND mnt ≤ startIN mnt d.bytes := hs.boot.startIN
  obtain ⟨heff, hnode⟩ := inWritten_create_effect (ctlNode flags name false kind) hr hs ht.le ht.lt
  refine ⟨hc, j, i, ht, heff.upTo hr ht.lt hb, fun k hk => ?_⟩
  rw [hb.off hr (.inr (by omega))]
  exact hnode k hk

/-- A deletion that takes effect, rebalanced. -/
theorem Written.delete_effect (hr : Roomy mnt) (hs : Shape mnt d.bytes)
    (hw : Written mnt d (.deleteFile flags dir name kind) w)
    (hb : UpToBalance mnt w.bytes m') :
    CursorsIn (bootRec mnt d.bytes) ∧ ∃ j i, SliceTarget mnt d dir (hashPath name) true j i ∧
      SliceEffect mnt d.bytes m' j i (dirSlice mnt d.bytes j i) 0
        (sealBootNode (bootRec mnt d.bytes)) := by
  obtain ⟨hc, j, i, ht, rfl⟩ := hw
  exact ⟨hc, j, i, ht, (inWritten_delete_effect (ctlNode flags name true kind) hr hs ht.le ht.lt
    ht.used).upTo hr ht.lt hb⟩

/-- A new file is where the creation has put it. -/
theorem create_fileAt {hashFile : Nat} (hs : Shape mnt d.bytes)
    (ht : SliceTarget mnt d dir hashFile false j i)
    (he : SliceEffect mnt d.bytes m' j i (startIN mnt d.bytes) (startIN mnt d.bytes) b)
    (hnode : ∀ k < 512, m' (startIN mnt d.bytes + k) =
      placeNode (bootRec mnt d.bytes) (ctlNode flags name false kind) k)
    (hdir : hashPath dir ≠ 0) : FileAt mnt m' ⟨dir, name, kind⟩ j i := by
  have hash : dirHash mnt m' j = hashPath dir := (he.hash j ht.le).trans ht.usable.1.symm
  have hge : endIND mnt ≤ startIN mnt d.bytes := hs.boot.startIN
  have hpos : startIN mnt d.bytes ≠ 0 := by
    have := slotAt_le_endIND (Nat.zero_le (lastSlot mnt))
    rw [slotAt_eq] at this
    omega
  have hget : ∀ f : Field, f.off + f.width ≤ 512 → f.get (slice m' (startIN mnt d.bytes)) =
      f.get (placeNode (bootRec mnt d.bytes) (ctlNode flags name false kind)) :=
    fun f hf => Field.get_congr fun k hk => hnode _ (by omega)
  refine ⟨ht.le, ht.lt, ?_, hash.symm, ?_, ?_, ?_⟩
  · rw [hash]
    exact hdir
  · rw [he.slice]
    exact hpos
  · rw [he.slice, nodeHash, hget _ (by decide), fHashPath_placeNode, fHashPath_ctlNode]
  · rw [he.slice, nodeKind, hget _ (by decide), fKind_placeNode, fKind_ctlNode]

/-- The first block stays zero. -/
theorem SliceEffect.first {x : Nat} (he : SliceEffect mnt m m' j i a v b) (hr : Roomy mnt)
    (ha : endIND mnt ≤ a) (hx : x < 512) : m' x = m x := by
  have hrow := slotAt_le_endIND (Nat.zero_le (lastSlot mnt))
  have hstart := hr.start
  rw [slotAt_eq] at hrow
  exact he.off x (.inl hx) (.inl (by omega))

/-- A creation moves the cursor past its index node, and a deletion leaves it. -/
theorem SliceEffect.startIN_create {v : Nat}
    (he : SliceEffect mnt m m' j i a v (sealBootNode (bumpCursors (bootRec mnt m))))
    (hr : Roomy mnt) (hc : startIN mnt m ≤ endIN mnt) : startIN mnt m' = startIN mnt m + 512 := by
  refine (he.boot_get (by decide)).trans ?_
  refine (Field.get_set_of_apart (by decide)).trans ?_
  exact fStartIN_bumpCursors hr hc

theorem SliceEffect.startIN_delete {v : Nat}
    (he : SliceEffect mnt m m' j i a v (sealBootNode (bootRec mnt m))) :
    startIN mnt m' = startIN mnt m :=
  (he.boot_get (by decide)).trans (Field.get_set_of_apart (by decide))

/-- A slice in use after a deletion is one from before. -/
theorem SliceEffect.used_before (he : SliceEffect mnt m m' j i a 0 b) (hk : k ≤ lastSlot mnt)
    (hl : l < 16) (hne : dirSlice mnt m' k l ≠ 0) : dirSlice mnt m' k l = dirSlice mnt m k l := by
  by_cases hkl : k ≠ j ∨ l ≠ i
  · exact he.slice_other k hk l hl hkl
  · obtain ⟨rfl, rfl⟩ : k = j ∧ l = i := by omega
    exact absurd he.slice hne

/-- A slice in use after a creation is one from before or the new one. -/
theorem SliceEffect.used_after (he : SliceEffect mnt m m' j i a v b) (hk : k ≤ lastSlot mnt)
    (hl : l < 16) (hne : dirSlice mnt m' k l ≠ 0) :
    (k = j ∧ l = i ∧ dirSlice mnt m' k l = v) ∨
      ((k ≠ j ∨ l ≠ i) ∧ dirSlice mnt m' k l = dirSlice mnt m k l ∧ dirSlice mnt m k l ≠ 0) := by
  by_cases hkl : k ≠ j ∨ l ≠ i
  · have hslice := he.slice_other k hk l hl hkl
    rw [hslice] at hne ⊢
    exact .inr ⟨hkl, rfl, hne⟩
  · obtain ⟨rfl, rfl⟩ : k = j ∧ l = i := by omega
    exact .inl ⟨rfl, rfl, he.slice⟩

namespace Packed

variable (h : Packed mnt m)
include h

/-- The index nodes stay packed when no slice is filled. -/
theorem of_used (hin : startIN mnt m' = startIN mnt m)
    (hused : ∀ k ≤ lastSlot mnt, ∀ l < 16, dirSlice mnt m' k l ≠ 0 →
      dirSlice mnt m' k l = dirSlice mnt m k l) : Packed mnt m' := by
  constructor
  · intro k hk l hl k' hk' l' hl' hne hu hu'
    have hs := hused k hk l hl hu
    have hs' := hused k' hk' l' hl' hu'
    rw [hs] at hu ⊢
    rw [hs'] at hu' ⊢
    exact h.apart k hk l hl k' hk' l' hl' hne hu hu'
  · intro k hk l hl hu
    have hs := hused k hk l hl hu
    rw [hs] at hu ⊢
    rw [hin]
    exact h.below k hk l hl hu

/-- The index node at the cursor is apart from those in use. -/
theorem create (he : SliceEffect mnt m m' j i (startIN mnt m) (startIN mnt m) b)
    (hin : startIN mnt m' = startIN mnt m + 512) : Packed mnt m' := by
  constructor
  · intro k hk l hl k' hk' l' hl' hne hu hu'
    rcases he.used_after hk hl hu with ⟨rfl, rfl, hs⟩ | ⟨-, hs, hu⟩
    · rcases he.used_after hk' hl' hu' with ⟨rfl, rfl, -⟩ | ⟨-, hs', hu'⟩
      · omega
      · rw [hs, hs']
        exact .inr (h.below k' hk' l' hl' hu')
    · rcases he.used_after hk' hl' hu' with ⟨rfl, rfl, hs'⟩ | ⟨-, hs', hu'⟩
      · rw [hs, hs']
        exact .inl (h.below k hk l hl hu)
      · rw [hs, hs']
        exact h.apart k hk l hl k' hk' l' hl' hne hu hu'
  · intro k hk l hl hu
    rw [hin]
    rcases he.used_after hk hl hu with ⟨-, -, hs⟩ | ⟨-, hs, hu⟩
    · omega
    · have := h.below k hk l hl hu
      omega

end Packed

/-- What is in the other slices is not disturbed by an operation on the slice `i` of the `j`-th
record, if the index node at `a` is none of theirs. -/
theorem SliceEffect.fileAt_iff {f : File} (he : SliceEffect mnt m m' j i a v b) (hs : Shape mnt m)
    (hkl : k ≠ j ∨ l ≠ i)
    (hap : k ≤ lastSlot mnt → l < 16 → dirSlice mnt m k l ≠ 0 →
      dirSlice mnt m k l + 512 ≤ a ∨ a + 512 ≤ dirSlice mnt m k l) :
    FileAt mnt m' f k l ↔ FileAt mnt m f k l := by
  have hnode : k ≤ lastSlot mnt → l < 16 → dirSlice mnt m k l ≠ 0 → ∀ x < 512,
      m' (dirSlice mnt m k l + x) = m (dirSlice mnt m k l + x) := by
    intro hk hl hne x hx
    have hge := hs.slice_ge hk hl hne
    have := hap hk hl hne
    exact he.off _ (.inr (by omega)) (by omega)
  constructor
  · intro h
    have hhash := he.hash k h.le
    have hslice := he.slice_other k h.le l h.lt hkl
    have hne : dirSlice mnt m k l ≠ 0 := by
      rw [← hslice]
      exact h.used
    refine h.congr hhash.symm hslice.symm fun x hx => ?_
    rw [hslice]
    exact (hnode h.le h.lt hne x hx).symm
  · intro h
    exact h.congr (he.hash k h.le) (he.slice_other k h.le l h.lt hkl) (hnode h.le h.lt h.used)

/-- A deletion empties its slice and leaves the files in the others. -/
theorem delete_fileAt_iff {f : File} (hs : Shape mnt m) (hap : SlicesApart mnt m)
    (hj : j ≤ lastSlot mnt) (hi : i < 16) (hne : dirSlice mnt m j i ≠ 0)
    (he : SliceEffect mnt m m' j i (dirSlice mnt m j i) 0 b) :
    FileAt mnt m' f k l ↔ (k ≠ j ∨ l ≠ i) ∧ FileAt mnt m f k l := by
  by_cases hkl : k ≠ j ∨ l ≠ i
  · rw [he.fileAt_iff hs hkl fun hk hl hne' => hap k hk l hl j hj i hi hkl hne' hne]
    exact ⟨fun h => ⟨hkl, h⟩, fun h => h.2⟩
  · obtain ⟨rfl, rfl⟩ : k = j ∧ l = i := by omega
    exact ⟨fun h => absurd he.slice h.used, fun h => absurd h.1 hkl⟩

end NeKernel.FS
