import NeKernel.FS.FilesKept
import NeKernel.FS.OpenHeFSFileMgr

/-!
# The blocks of the files

The two cursors of the boot node move together, so that the block of an index node is the one at
the same distance from the end of the index nodes as the node is from the end of the row
(`blockOf`). `Blocks` says so of every index node in use, and that no two of them share a byte; it
holds on a formatted disk and every operation keeps it, whatever it finds. Even the record over the
end of the row, when it is written over the first index nodes, leaves each with its block or
without a hash.

A lookup comes to an index node (`NodeAt`) or to none, and `INodeManip` reads and writes the block
of that node.
-/

namespace NeKernel.FS

open ByteStore Scan Detail HeFileSystemParser HefsIndexNodeDirectory

variable {mnt : DriveTrait} {m m' b block buf : Store} {d d' w : Disk}
  {a i j k l t x flags sz : Nat} {dir name : List UInt8} {kind : UInt8} {op : Op} {f g : File}
  {del : Bool}

/-! ## The drive -/

/-- The record over the end of the row does not reach the blocks. -/
theorem Roomy.slotAt_le_endIN (hr : Roomy mnt) (hj : j ≤ lastSlot mnt) :
    slotAt mnt (j + 1) ≤ endIN mnt := by
  have hslots := hr.slots
  have hend := hr.field_lt_endIND (Nat.le_refl (lastSlot mnt))
  have hmono : slotAt mnt (j + 1) ≤ slotAt mnt (lastSlot mnt + 1) :=
    slotAt_mono (Nat.succ_le_succ hj)
  rw [slotAt_succ mnt (lastSlot mnt)] at hmono
  rw [lastSlot, dirMax, HefsIndexNodeDirectory.size] at hslots
  rw [endIN, inodeMax]
  omega

/-- The first block lies in front of the blocks of the files. -/
theorem Roomy.low_lt (hr : Roomy mnt) (hx : x < 512) : x < endIN mnt := by
  have hle := endIND_le_endIN mnt
  have hrow := slotAt_le_endIND (Nat.zero_le (lastSlot mnt))
  have hstart := hr.start
  rw [slotAt_eq] at hrow
  omega

/-- The block that goes with the index node at `a`. -/
def blockOf (mnt : DriveTrait) (a : Nat) : Nat := endIN mnt + (a - endIND mnt)

/-- The index node has no hash, or the block that goes with it, at an address that `INodeManip`
does not take for none. -/
def Placed (mnt : DriveTrait) (m : Store) (a : Nat) : Prop :=
  nodeHash m a = 0 ∨
    (blockLba (slice m a) = blockOf mnt a ∧ HefsIndexNode.fOffsetSliceLow.get (slice m a) ≠ 0)

/-- Every index node in use has its block, and none shares a byte with another. -/
structure Blocks (mnt : DriveTrait) (m : Store) : Prop extends Packed mnt m where
  shape : Shape mnt m
  first : ∀ x < 512, m x = 0
  cursor : startBlock mnt m = blockOf mnt (startIN mnt m)
  endBlock : HefsBootNode.fEndBlock.get (bootRec mnt m) = mnt.size
  placed : ∀ j ≤ lastSlot mnt, ∀ i < 16, dirSlice mnt m j i ≠ 0 → Placed mnt m (dirSlice mnt m j i)

/-! ## Index nodes -/

theorem blockLba_congr (h : ∀ i < 512, 67 ≤ i → m' (a + i) = m (a + i)) :
    blockLba (slice m' a) = blockLba (slice m a) ∧
      HefsIndexNode.fOffsetSliceLow.get (slice m' a) =
        HefsIndexNode.fOffsetSliceLow.get (slice m a) := by
  have hget : ∀ f : Field, 67 ≤ f.off → f.off + f.width ≤ 512 →
      f.get (slice m' a) = f.get (slice m a) :=
    fun f hlo hhi => Field.get_congr fun i hi => h _ (by omega) (by omega)
  have hlow := hget HefsIndexNode.fOffsetSliceLow (by decide) (by decide)
  rw [blockLba, blockLba, hget HefsIndexNode.fOffsetSliceHigh (by decide) (by decide), hlow]
  exact ⟨rfl, rfl⟩

/-- The index node has the block it had, or lost its hash before its block. -/
structure Weathered (m m' : Store) (a : Nat) : Prop where
  hash : nodeHash m a = 0 → nodeHash m' a = 0
  block : nodeHash m' a ≠ 0 → blockLba (slice m' a) = blockLba (slice m a) ∧
    HefsIndexNode.fOffsetSliceLow.get (slice m' a) = HefsIndexNode.fOffsetSliceLow.get (slice m a)

theorem Weathered.of_same (hm : ∀ i < 512, m' (a + i) = m (a + i)) : Weathered m m' a :=
  ⟨fun h => (node_congr hm).1.trans h, fun _ => blockLba_congr fun i hi _ => hm i hi⟩

theorem Placed.weathered (h : Placed mnt m a) (hw : Weathered m m' a) : Placed mnt m' a := by
  by_cases hz : nodeHash m' a = 0
  · exact .inl hz
  · obtain ⟨hlba, hlow⟩ := hw.block hz
    rw [Placed, hlba, hlow]
    exact .inr (h.resolve_left fun hz' => hz (hw.hash hz'))

theorem nodeHash_eq_zero_iff : nodeHash m a = 0 ↔ ∀ i < 8, m (a + i) = 0 := by
  rw [nodeHash, Field.get_slice, getLE_eq_zero_iff]
  rfl

/-- Behind the row, what lies below `t` is zero now and the rest is as it was. -/
def Wiped (mnt : DriveTrait) (m m' : Store) (t : Nat) : Prop :=
  ∀ x, endIND mnt ≤ x → m' x = if x < t then 0 else m x

/-- An index node that is partly wiped loses its hash first. -/
theorem Wiped.weathered (hm : Wiped mnt m m' t) (ha : endIND mnt ≤ a) : Weathered m m' a := by
  refine ⟨fun hz => nodeHash_eq_zero_iff.mpr fun i hi => ?_, fun hne => ?_⟩
  · rw [hm _ (by omega)]
    split
    · rfl
    · exact nodeHash_eq_zero_iff.mp hz i hi
  · have ht : t ≤ a + 67 := by
      by_contra ht
      refine hne (nodeHash_eq_zero_iff.mpr fun i hi => ?_)
      rw [hm _ (by omega), if_pos (by omega)]
    refine blockLba_congr fun i _ hge => ?_
    rw [hm _ (by omega), if_neg (by omega)]

/-- The block address comes out of its two halves. -/
theorem blockLba_placeNode {boot node : Store} :
    blockLba (placeNode boot node) = HefsBootNode.fStartBlock.get boot ∧
      HefsIndexNode.fOffsetSliceLow.get (placeNode boot node) =
        HefsBootNode.fStartBlock.get boot % 2 ^ 32 := by
  have hlt : HefsBootNode.fStartBlock.get boot < 2 ^ 64 := Field.get_lt
  have hlow : HefsIndexNode.fOffsetSliceLow.get (placeNode boot node) =
      HefsBootNode.fStartBlock.get boot % 2 ^ 32 := by
    simp (disch := decide) only [placeNode, Field.get_set_of_apart, Field.get_set_same]
    rfl
  have hhigh : HefsIndexNode.fOffsetSliceHigh.get (placeNode boot node) =
      HefsBootNode.fStartBlock.get boot / 2 ^ 32 % 2 ^ 32 := by
    simp (disch := decide) only [placeNode, Field.get_set_of_apart, Field.get_set_same]
    rfl
  rw [blockLba, hlow, hhigh]
  omega

theorem blockLba_of_placed {boot node : Store} (h : ∀ k < 512, m' (a + k) = placeNode boot node k) :
    blockLba (slice m' a) = HefsBootNode.fStartBlock.get boot ∧
      HefsIndexNode.fOffsetSliceLow.get (slice m' a) =
        HefsBootNode.fStartBlock.get boot % 2 ^ 32 := by
  have hget : ∀ f : Field, f.off + f.width ≤ 512 →
      f.get (slice m' a) = f.get (placeNode boot node) :=
    fun f hf => Field.get_congr fun k hk => h _ (by omega)
  rw [blockLba, hget _ (by decide), hget _ (by decide)]
  exact blockLba_placeNode

/-! ## Directory operations -/

/-- Only the fields of the new record are not zero. -/
theorem hefsiDirent_padding {boot tmpdir : Store} {color child : Nat} (hk : 227 ≤ k) :
    hefsiDirent boot tmpdir dir flags del color child k = 0 := by
  have hset : ∀ (f : Field) (v : Nat) (r : Store), f.off + f.width ≤ 227 → f.set v r k = r k :=
    fun f v r hf => Field.set_apply (.inr (by omega))
  simp (disch := decide) only [hefsiDirent, hset]
  rfl

theorem indWritten_wiped {color : Nat} (hr : Roomy mnt) (hj : j ≤ lastSlot mnt)
    (hb : UpToBalance mnt (indWritten mnt d dir flags del j color).bytes m') :
    Wiped mnt d.bytes m' (slotAt mnt (j + 1)) := by
  intro x hx
  have hoff : OffRow mnt x := .inr hx
  have hfield := hr.field_lt_endIND hj
  rw [hb.off hr hoff]
  refine (hoff.blit_boot hr).trans ?_
  rw [slotAt_succ]
  split
  · next hlt =>
      refine (blit_apply_of_mem (by omega) hlt).trans ?_
      exact hefsiDirent_padding (by omega)
  · next hge => exact blit_apply_of_notMem (.inr (by rw [HefsIndexNodeDirectory.size]; omega))

/-! ## File operations -/

theorem fStartBlock_bumpCursors
    (hc : HefsBootNode.fStartBlock.get b + kOpenHeFSBlockLen < 2 ^ 64) :
    HefsBootNode.fStartBlock.get (bumpCursors b) = HefsBootNode.fStartBlock.get b + 512 := by
  have hget : HefsBootNode.fStartBlock.get (HefsBootNode.fStartIN.set
      (u64 (HefsBootNode.fStartIN.get b + HefsIndexNode.size)) b) =
      HefsBootNode.fStartBlock.get b := Field.get_set_of_apart (by decide)
  rw [bumpCursors, Field.get_set_same, hget, u64_of_lt hc]
  exact Nat.mod_eq_of_lt hc

/-- The cursor of a creation that goes ahead. -/
theorem Shape.cursorIN (hs : Shape mnt m) (hc : CursorsIn (bootRec mnt m)) :
    startIN mnt m ≤ endIN mnt := by
  rw [← hs.boot.endIN]
  exact hc.1

/-! ## Steps -/

/-- A creation that finds something to work on takes a block whose address `INodeManip` does not
take for none. -/
def TakesBlock (mnt : DriveTrait) (d : Disk) : Op → Prop
  | .createFile flags dir name kind => Acts mnt d (.createFile flags dir name kind) →
      startBlock mnt d.bytes % 2 ^ 32 ≠ 0
  | _ => True

/-- What an operation that takes effect does to the index nodes: those that stay in use keep their
block or lose their hash, and a new one is at the cursor and has the block at the other cursor. -/
structure NodeEffect (mnt : DriveTrait) (d : Disk) (op : Op) (m' : Store) : Prop where
  packed : Packed mnt m'
  first : ∀ x < 512, m' x = d.bytes x
  endBlock : HefsBootNode.fEndBlock.get (bootRec mnt m') =
    HefsBootNode.fEndBlock.get (bootRec mnt d.bytes)
  cursors : startIN mnt m' = startIN mnt d.bytes ∧ startBlock mnt m' = startBlock mnt d.bytes ∨
    CursorsIn (bootRec mnt d.bytes) ∧ startIN mnt m' = startIN mnt d.bytes + 512 ∧
      (startBlock mnt d.bytes + kOpenHeFSBlockLen < 2 ^ 64 →
        startBlock mnt m' = startBlock mnt d.bytes + 512)
  node : ∀ k ≤ lastSlot mnt, ∀ l < 16, dirSlice mnt m' k l ≠ 0 →
    dirSlice mnt m' k l = dirSlice mnt d.bytes k l ∧
        Weathered d.bytes m' (dirSlice mnt d.bytes k l) ∨
      dirSlice mnt m' k l = startIN mnt d.bytes ∧
        (TakesBlock mnt d op → startBlock mnt d.bytes % 2 ^ 32 ≠ 0) ∧
        blockLba (slice m' (startIN mnt d.bytes)) = startBlock mnt d.bytes ∧
        HefsIndexNode.fOffsetSliceLow.get (slice m' (startIN mnt d.bytes)) =
          startBlock mnt d.bytes % 2 ^ 32

section
variable (hr : Roomy mnt) (hs : Shape mnt d.bytes) (hp : Packed mnt d.bytes)
include hs hp

theorem DirEffect.nodeEffect (he : DirEffect mnt d.bytes m' dir del j)
    (hw : Wiped mnt d.bytes m' t) : NodeEffect mnt d op m' := by
  have hused : ∀ k ≤ lastSlot mnt, ∀ i < 16, dirSlice mnt m' k i ≠ 0 →
      dirSlice mnt m' k i = dirSlice mnt d.bytes k i := fun k _ i hi hu => (he.used hi hu).2
  refine ⟨hp.of_used he.startIN hused, fun x hx => he.off x (.inl hx) (.inl hx),
    he.boot _ (by decide) (by decide) (by decide), .inl ⟨he.startIN, he.startBlock⟩, ?_⟩
  intro k hk i hi hu
  have hslice := hused k hk i hi hu
  rw [hslice] at hu
  exact .inl ⟨hslice, hw.weathered (hs.slice_ge hk hi hu)⟩

include hr

theorem SliceEffect.nodeEffect_create (node : Store)
    (he : SliceEffect mnt d.bytes m' j i (startIN mnt d.bytes) (startIN mnt d.bytes)
      (sealBootNode (bumpCursors (bootRec mnt d.bytes))))
    (hnode : ∀ k < 512, m' (startIN mnt d.bytes + k) = placeNode (bootRec mnt d.bytes) node k)
    (hc : CursorsIn (bootRec mnt d.bytes))
    (hlow : TakesBlock mnt d op → startBlock mnt d.bytes % 2 ^ 32 ≠ 0) :
    NodeEffect mnt d op m' := by
  have hge : endIND mnt ≤ startIN mnt d.bytes := hs.boot.startIN
  have hin : startIN mnt m' = startIN mnt d.bytes + 512 := he.startIN_create hr (hs.cursorIN hc)
  refine ⟨hp.create he hin, fun x hx => he.first hr hge hx, ?_, .inr ⟨hc, hin, fun hlt => ?_⟩, ?_⟩
  · refine (he.boot_get (by decide)).trans ?_
    refine (Field.get_set_of_apart (by decide)).trans ?_
    refine (Field.get_set_of_apart (by decide)).trans ?_
    exact Field.get_set_of_apart (by decide)
  · refine (he.boot_get (by decide)).trans ?_
    refine (Field.get_set_of_apart (by decide)).trans ?_
    exact fStartBlock_bumpCursors hlt
  · intro k hk l hl hu
    rcases he.used_after hk hl hu with ⟨-, -, hslice⟩ | ⟨-, hslice, hu⟩
    · -- the new index node
      exact .inr ⟨hslice, hlow, blockLba_of_placed hnode⟩
    · have hbelow := hp.below k hk l hl hu
      have hrow := hs.slice_ge hk hl hu
      exact .inl ⟨hslice, .of_same fun y hy => he.off _ (.inr (by omega)) (.inl (by omega))⟩

theorem SliceEffect.nodeEffect_delete
    (he : SliceEffect mnt d.bytes m' j i (dirSlice mnt d.bytes j i) 0
      (sealBootNode (bootRec mnt d.bytes)))
    (hj : j ≤ lastSlot mnt) (hi : i < 16) (hne : dirSlice mnt d.bytes j i ≠ 0) :
    NodeEffect mnt d op m' := by
  have hboot : ∀ f : Field, f.off + f.width ≤ 513 → f.Apart HefsBootNode.fChecksum →
      f.get (bootRec mnt m') = f.get (bootRec mnt d.bytes) :=
    fun f hf hck => (he.boot_get hf).trans (Field.get_set_of_apart hck)
  have hin : startIN mnt m' = startIN mnt d.bytes := he.startIN_delete
  have hblock : startBlock mnt m' = startBlock mnt d.bytes := hboot _ (by decide) (by decide)
  refine ⟨hp.of_used hin fun k hk l hl hu => he.used_before hk hl hu,
    fun x hx => he.first hr (hs.slice_ge hj hi hne) hx, hboot _ (by decide) (by decide),
    .inl ⟨hin, hblock⟩, ?_⟩
  intro k hk l hl hu
  have hkl : k ≠ j ∨ l ≠ i := by
    by_contra hsame
    obtain ⟨rfl, rfl⟩ : k = j ∧ l = i := by omega
    exact hu he.slice
  have hslice := he.used_before hk hl hu
  rw [hslice] at hu
  have hrow := hs.slice_ge hk hl hu
  have hap := hp.apart k hk l hl j hj i hi hkl hu hne
  exact .inl ⟨hslice, .of_same fun y hy => he.off _ (.inr (by omega)) (by omega)⟩

/-- **What an operation does to the index nodes.** -/
theorem Written.nodeEffect (hacts : Acts mnt d op) (hw : Written mnt d op w)
    (hb : UpToBalance mnt w.bytes m') : NodeEffect mnt d op m' := by
  cases op with
  | createDir flags dir =>
      obtain ⟨j, color, ht, -, rfl⟩ := hw
      exact ((indWritten_effect hr dir flags false color).upTo hr hb).nodeEffect hs hp
        (indWritten_wiped hr ht.le hb)
  | removeDir flags dir =>
      obtain ⟨j, color, ht, -, rfl⟩ := hw
      exact ((indWritten_effect hr dir flags true color).upTo hr hb).nodeEffect hs hp
        (indWritten_wiped hr ht.le hb)
  | createFile flags dir name kind =>
      obtain ⟨hc, j, i, -, he, hnode⟩ := hw.create_effect hr hs hb
      exact he.nodeEffect_create hr hs hp (ctlNode flags name false kind) hnode hc fun hop => hop hacts
  | deleteFile flags dir name kind =>
      obtain ⟨-, j, i, ht, he⟩ := hw.delete_effect hr hs hb
      exact he.nodeEffect_delete hr hs hp ht.le ht.lt ht.used

end

/-- **Every operation** keeps the index nodes and their blocks in order. -/
theorem Blocks.written (h : Blocks mnt d.bytes) (hr : Roomy mnt)
    (hsize : mnt.size + kOpenHeFSBlockLen < 2 ^ 64) (hacts : Acts mnt d op)
    (hop : TakesBlock mnt d op) (hw : Written mnt d op w) (hb : UpToBalance mnt w.bytes m') :
    Blocks mnt m' := by
  have he := hw.nodeEffect hr h.shape h.toPacked hacts hb
  have hcur := h.cursor
  refine ⟨he.packed, hb.shape hr (hw.shape hr h.shape), fun x hx => ?_, ?_, ?_, ?_⟩
  · rw [he.first x hx]
    exact h.first x hx
  · rcases he.cursors with ⟨hin, hblock⟩ | ⟨hc, hin, hblock⟩
    · rw [hblock, hin]
      exact hcur
    · have hcblock : startBlock mnt d.bytes ≤ mnt.size := by
        rw [← h.endBlock]
        exact hc.2
      have hge : endIND mnt ≤ startIN mnt d.bytes := h.shape.boot.startIN
      rw [hin, hblock (by omega), hcur, blockOf, blockOf]
      omega
  · rw [he.endBlock]
    exact h.endBlock
  · intro k hk l hl hu
    rcases he.node k hk l hl hu with ⟨hslice, hweathered⟩ | ⟨hslice, hlow, hlba, hlow'⟩
    · rw [hslice] at hu ⊢
      exact (h.placed k hk l hl hu).weathered hweathered
    · rw [hslice]
      refine .inr ⟨hlba.trans hcur, ?_⟩
      rw [hlow']
      exact hlow hop

/-- A slice in use after an operation is one from before, or leads to the index node that was at
the cursor. -/
theorem Written.used (hr : Roomy mnt) (hs : Shape mnt d.bytes) (hw : Written mnt d op w)
    (hb : UpToBalance mnt w.bytes m') (hk : k ≤ lastSlot mnt) (hl : l < 16)
    (hne : dirSlice mnt m' k l ≠ 0) :
    dirSlice mnt m' k l = startIN mnt d.bytes ∨ dirSlice mnt m' k l = dirSlice mnt d.bytes k l := by
  cases op with
  | createDir flags dir =>
      obtain ⟨j, color, ht, hred, rfl⟩ := hw
      exact .inr (((indWritten_effect hr dir flags false color).upTo hr hb).used hl hne).2
  | removeDir flags dir =>
      obtain ⟨j, color, ht, hred, rfl⟩ := hw
      exact .inr (((indWritten_effect hr dir flags true color).upTo hr hb).used hl hne).2
  | createFile flags dir name kind =>
      obtain ⟨-, j, i, -, he, -⟩ := hw.create_effect hr hs hb
      rcases he.used_after hk hl hne with ⟨-, -, hs⟩ | ⟨-, hs, -⟩
      · exact .inl hs
      · exact .inr hs
  | deleteFile flags dir name kind =>
      obtain ⟨-, j, i, -, he⟩ := hw.delete_effect hr hs hb
      exact .inr (he.used_before hk hl hne)

/-- The cursor for index nodes only moves up. -/
theorem Written.startIN_le (hr : Roomy mnt) (hs : Shape mnt d.bytes) (hw : Written mnt d op w)
    (hb : UpToBalance mnt w.bytes m') : startIN mnt d.bytes ≤ startIN mnt m' := by
  cases op with
  | createDir flags dir =>
      obtain ⟨j, color, ht, hred, rfl⟩ := hw
      exact Nat.le_of_eq ((indWritten_effect hr dir flags false color).upTo hr hb).startIN.symm
  | removeDir flags dir =>
      obtain ⟨j, color, ht, hred, rfl⟩ := hw
      exact Nat.le_of_eq ((indWritten_effect hr dir flags true color).upTo hr hb).startIN.symm
  | createFile flags dir name kind =>
      obtain ⟨hc, j, i, -, he, -⟩ := hw.create_effect hr hs hb
      rw [he.startIN_create hr (hs.cursorIN hc)]
      exact Nat.le_add_right _ _
  | deleteFile flags dir name kind =>
      obtain ⟨-, j, i, -, he⟩ := hw.delete_effect hr hs hb
      exact Nat.le_of_eq he.startIN_delete.symm

/-- No operation writes behind the index nodes, unless it takes the last of them and the cursor
passes the end. -/
theorem Written.behind (h : Blocks mnt d.bytes) (hr : Roomy mnt) (hw : Written mnt d op w)
    (hb : UpToBalance mnt w.bytes m') (hin : startIN mnt m' ≤ endIN mnt) (hx : endIN mnt ≤ x) :
    m' x = d.bytes x := by
  have hle := endIND_le_endIN mnt
  have hoff : OffRow mnt x := .inr (by omega)
  cases op with
  | createDir flags dir =>
      obtain ⟨j, color, ht, hred, rfl⟩ := hw
      have hlast := hr.slotAt_le_endIN ht.le
      rw [indWritten_wiped hr ht.le hb x (by omega), if_neg (by omega)]
  | removeDir flags dir =>
      obtain ⟨j, color, ht, hred, rfl⟩ := hw
      have hlast := hr.slotAt_le_endIN ht.le
      rw [indWritten_wiped hr ht.le hb x (by omega), if_neg (by omega)]
  | createFile flags dir name kind =>
      obtain ⟨hc, j, i, -, he, -⟩ := hw.create_effect hr h.shape hb
      have hnext := he.startIN_create hr (h.shape.cursorIN hc)
      exact he.off x hoff (.inr (by omega))
  | deleteFile flags dir name kind =>
      obtain ⟨-, j, i, ht, he⟩ := hw.delete_effect hr h.shape hb
      have hcur := he.startIN_delete
      have hbelow := h.below j ht.le i ht.lt ht.used
      exact he.off x hoff (.inr (by omega))

end NeKernel.FS
