import NeKernel.FS.BootNode
import NeKernel.FS.Replies
import NeKernel.Lib.Runs

/-!
# The number of directories

`fINDCount` goes up by one with every directory that is created and down by one with every one that is
removed. The records carry marks of their own, and a creation also takes a record whose hash is 0 when it
is marked: that of a directory with the empty name. From then on the boot node counts one directory more
than there are.
-/

namespace NeKernel.FS

open ByteStore Scan Detail HeFileSystemParser HefsIndexNodeDirectory Runs

variable {mnt : DriveTrait} {m m' r r' : Store} {d d' s s' : Disk} {j k n flags : Nat}
  {dir : List UInt8} {del : Bool}

/-- The record is marked created and not deleted. -/
def Marked (r : Store) : Prop := fCreated.get r ≠ 0 ∧ fDeleted.get r = 0

instance (r : Store) : Decidable (Marked r) := inferInstanceAs (Decidable (_ ∧ _))

/-- `fINDCount` of the boot node. -/
def indCount (mnt : DriveTrait) (m : Store) : Nat := HefsBootNode.fINDCount.get (bootRec mnt m)

/-- The number of marked records that begin in the directory region. -/
def markedRecords (mnt : DriveTrait) (m : Store) : Nat :=
  let startIND := HefsBootNode.fStartIND.get (bootRec mnt m)
  let endIND := HefsBootNode.fEndIND.get (bootRec mnt m)
  ((Finset.range ((endIND - startIND) / size + 1)).filter fun k =>
    startIND + size * k ≤ endIND ∧ Marked (slice m (startIND + size * k))).card

/-- A creation or a removal of a directory. -/
structure DirCall where
  flags : Nat
  dir : List UInt8
  deleteOrCreate : Bool

/-- The call returns, whatever the error was before it. -/
def DirStep (mnt : DriveTrait) (s : Disk) (c : DirCall) (s' : Disk) : Prop :=
  ∃ e r, iNodeDirectoryCtlManip mnt (s.setErr e) c.flags c.dir c.deleteOrCreate = some (r, s')

/-- The first free record of the row, the one a creation takes, is not marked. -/
def TakesUnmarked (mnt : DriveTrait) (s : Disk) (c : DirCall) : Prop :=
  c.deleteOrCreate = false → DirName c.dir →
    ∀ j, IndTarget mnt s.bytes c.dir false j → ¬ Marked (slotRec mnt s.bytes j)

/-! ## Counting -/

/-- Numbers that differ in one place. -/
theorem card_filter_update {p q : Nat → Prop} [DecidablePred p] [DecidablePred q] (hj : j < n)
    (h : ∀ k, k ≠ j → (q k ↔ p k)) :
    ((Finset.range n).filter q).card + (if p j then 1 else 0) =
      ((Finset.range n).filter p).card + if q j then 1 else 0 := by
  have hsplit : ∀ (r : Nat → Prop) [DecidablePred r], ((Finset.range n).filter r).card =
      (((Finset.range n).erase j).filter r).card + if r j then 1 else 0 := by
    intro r _
    conv_lhs => rw [← Finset.insert_erase (Finset.mem_range.mpr hj), Finset.filter_insert]
    split
    · exact Finset.card_insert_of_notMem (by simp)
    · rfl
  have hrest : ((Finset.range n).erase j).filter q = ((Finset.range n).erase j).filter p :=
    Finset.filter_congr fun k hk => h k (Finset.ne_of_mem_erase hk)
  rw [hsplit q, hsplit p, hrest]
  omega

theorem Shape.markedRecords_eq (hs : Shape mnt m) : markedRecords mnt m =
    ((Finset.range (lastSlot mnt + 1)).filter fun k => Marked (slotRec mnt m k)).card := by
  have hrow : (endIND mnt - startIND mnt) / size = lastSlot mnt := by
    rw [endIND, lastSlot, Nat.add_sub_cancel_left]
  simp only [markedRecords, hs.boot.startIND, hs.boot.endIND, hrow]
  refine congrArg Finset.card (Finset.filter_congr fun k hk => ?_)
  have hle : slotAt mnt k ≤ endIND mnt :=
    slotAt_le_endIND (Nat.lt_succ_iff.mp (Finset.mem_range.mp hk))
  exact ⟨fun h => h.2, fun h => ⟨hle, h⟩⟩

theorem SameTests.marked (h : SameTests r r') : Marked r ↔ Marked r' := by
  rw [Marked, Marked, h fCreated (by decide) (by decide), h fDeleted (by decide) (by decide)]

/-- A removal is after a marked record. -/
theorem marked_of_wanted (h : indWanted true dir r = true) : Marked r := by
  simp only [indWanted, if_true, indNamed, Bool.and_eq_true, decide_eq_true_eq] at h
  exact h.1

theorem marked_dirent (boot tmpdir : Store) (flags color child : Nat) :
    Marked (hefsiDirent boot tmpdir dir flags del color child) ↔ del = false := by
  rw [Marked, hefsiDirent_fCreated, hefsiDirent_fDeleted]
  cases del <;> simp

/-! ## One call -/

/-- What a call that takes effect on the `j`-th record does to the count and to the marks. -/
structure Tally (mnt : DriveTrait) (m m' : Store) (del : Bool) (j : Nat) : Prop where
  le : j ≤ lastSlot mnt
  count : indCount mnt m' = if del then u64 (indCount mnt m + (2 ^ 64 - 1)) else u64 (indCount mnt m + 1)
  marked : Marked (slotRec mnt m' j) ↔ del = false
  other : ∀ k, k ≠ j → (Marked (slotRec mnt m' k) ↔ Marked (slotRec mnt m k))

theorem indWritten_tally {color : Nat} (hr : Roomy mnt) (hj : j ≤ lastSlot mnt)
    (hb : UpToBalance mnt (indWritten mnt d dir flags del j color).bytes m') :
    Tally mnt d.bytes m' del j := by
  obtain ⟨hsame, hother⟩ := indWritten_tests hr hb
  refine ⟨hj, ?_, hsame.marked.trans (marked_dirent _ _ _ _ _), fun k hk => (hother k hk).marked⟩
  have hcount : indCount mnt m' =
      HefsBootNode.fINDCount.get (sealBootNode (countInd del (bootRec mnt d.bytes))) :=
    (hb.boot_get hr (by decide)).trans
      (Field.get_congr fun i hi => bootRec_blit_same (by simp only [HefsBootNode.fINDCount] at *; omega))
  rw [hcount, sealBootNode, Field.get_set_of_apart (by decide), countInd, Field.get_set_same]
  apply Nat.mod_eq_of_lt
  show _ < 2 ^ 64
  split <;> exact Nat.mod_lt _ (by decide)

/-- The marked records after the call, by the mark before it. -/
theorem Tally.card (h : Tally mnt m m' del j) (hs : Shape mnt m) (hs' : Shape mnt m') :
    markedRecords mnt m' + (if Marked (slotRec mnt m j) then 1 else 0) =
      markedRecords mnt m + if del then 0 else 1 := by
  have hafter : (if Marked (slotRec mnt m' j) then 1 else 0) = if del then 0 else 1 := by
    have hmark := h.marked
    cases del with
    | false => exact if_pos (hmark.mpr rfl)
    | true => exact if_neg fun hm => Bool.noConfusion (hmark.mp hm)
  rw [hs.markedRecords_eq, hs'.markedRecords_eq, ← hafter]
  exact card_filter_update (p := fun k => Marked (slotRec mnt m k))
    (q := fun k => Marked (slotRec mnt m' k)) (Nat.lt_succ_of_le h.le) h.other

/-- **A call** leaves the count and the marks alone, or takes effect on the record it is after. -/
theorem dirStep_cases (hr : Roomy mnt) (hs : Shape mnt s.bytes) {c : DirCall} (h : DirStep mnt s c s') :
    Shape mnt s'.bytes ∧ ((s'.bytes = s.bytes ∧
        (DirName c.dir → ∀ j, ¬ IndTarget mnt s.bytes c.dir c.deleteOrCreate j)) ∨
      DirName c.dir ∧ ∃ j, IndTarget mnt s.bytes c.dir c.deleteOrCreate j ∧
        dirHash mnt s'.bytes j = (if c.deleteOrCreate then 0 else hashPath c.dir) ∧
        (∀ k, k ≠ j → dirHash mnt s'.bytes k = dirHash mnt s.bytes k) ∧
        Tally mnt s.bytes s'.bytes c.deleteOrCreate j) := by
  obtain ⟨e, r, hcall⟩ := h
  rcases directoryCtl_cases (d := s.setErr e) hr hs c.dir c.flags c.deleteOrCreate with
    ⟨hno, e', -, hexec⟩ | ⟨hname, j, color, d', ht, hred, hexec, hbal⟩
  · obtain rfl : (s.setErr e).setErr e' = s' :=
      (Prod.mk.inj (Option.some.inj (hexec.symm.trans hcall))).2
    refine ⟨hs, .inl ⟨rfl, fun hname j ht => ?_⟩⟩
    have hidle : indWanted c.deleteOrCreate c.dir (slotRec mnt s.bytes j) = false :=
      hno.resolve_left (not_not_intro hname) j ht.le
    rw [ht.wanted] at hidle
    cases hidle
  · obtain rfl : d' = s' := (Prod.mk.inj (Option.some.inj (hexec.symm.trans hcall))).2
    have heffect := (indWritten_effect hr c.dir c.flags c.deleteOrCreate color).upTo hr hbal.bytes
    exact ⟨hbal.bytes.shape hr (indWritten_shape (d := s.setErr e) hr hs ht.le hred),
      .inr ⟨hname, j, ht, heffect.hash, heffect.hash_other, indWritten_tally hr ht.le hbal.bytes⟩⟩

/-- Every call returns. -/
theorem dirStep_returns (hr : Roomy mnt) (hs : Shape mnt s.bytes) (c : DirCall) :
    ∃ s', DirStep mnt s c s' := by
  rcases directoryCtl_cases (d := s.setErr 0) hr hs c.dir c.flags c.deleteOrCreate with
    ⟨-, e, -, hexec⟩ | ⟨-, -, -, d', -, -, hexec, -⟩
  · exact ⟨_, 0, _, hexec⟩
  · exact ⟨d', 0, _, hexec⟩

theorem IndTarget.unique {i : Nat} (h : IndTarget mnt m dir del i) (h' : IndTarget mnt m dir del j) :
    i = j := by
  rcases Nat.lt_trichotomy i j with hlt | heq | hlt
  · have := h'.first i hlt
    rw [h.wanted] at this
    cases this
  · exact heq
  · have := h.first j hlt
    rw [h'.wanted] at this
    cases this

theorem u64_pred {x : Nat} (h : 0 < x) (hx : x < 2 ^ 64) : u64 (x + (2 ^ 64 - 1)) = x - 1 := by
  rw [show x + (2 ^ 64 - 1) = x - 1 + 2 ^ 64 by omega, u64, Nat.add_mod_right]
  exact Nat.mod_eq_of_lt (by omega)

/-! ## Runs -/

/-- The boot node counts the marked records. -/
structure Counts (mnt : DriveTrait) (m : Store) : Prop where
  shape : Shape mnt m
  count : indCount mnt m = markedRecords mnt m

theorem Counts.lt (h : Counts mnt m) (hr : Roomy mnt) : indCount mnt m + 1 < 2 ^ 64 := by
  have hle := Finset.card_filter_le (Finset.range (lastSlot mnt + 1)) fun k =>
    Marked (slotRec mnt m k)
  have hlt := hr.slotAt_succ_lt (Nat.le_refl _)
  rw [slotAt_eq] at hlt
  rw [Finset.card_range] at hle
  rw [h.count, h.shape.markedRecords_eq]
  omega

section
variable {c : DirCall} (hr : Roomy mnt) (h : Counts mnt s.bytes) (hst : DirStep mnt s c s')
include hr h hst

/-- **A call keeps the count right** exactly when it takes no marked record. -/
theorem Counts.step : Counts mnt s'.bytes ↔ TakesUnmarked mnt s c := by
  obtain ⟨hs', ⟨hbytes, hno⟩ | ⟨hname, j, ht, -, -, htally⟩⟩ := dirStep_cases hr h.shape hst
  · rw [hbytes]
    refine iff_of_true h fun hdel hname j ht => ?_
    rw [← hdel] at ht
    exact absurd ht (hno hname j)
  have hcard := htally.card h.shape hs'
  rw [← h.count] at hcard
  have hcount := htally.count
  have hlt := h.lt hr
  have hright : Counts mnt s'.bytes ↔ indCount mnt s'.bytes = markedRecords mnt s'.bytes :=
    ⟨fun h => h.count, fun h => ⟨hs', h⟩⟩
  rw [hright]
  cases hdel : c.deleteOrCreate with
  | false =>
      rw [hdel] at ht hcount hcard
      rw [if_neg Bool.false_ne_true, u64_of_lt hlt] at hcount
      rw [if_neg Bool.false_ne_true] at hcard
      have hfresh : TakesUnmarked mnt s c ↔ ¬ Marked (slotRec mnt s.bytes j) :=
        ⟨fun hu => hu hdel hname j ht, fun hu _ _ i hi => hi.unique ht ▸ hu⟩
      rw [hfresh, hcount]
      split at hcard
      · next hmarked => exact iff_of_false (by omega) (not_not_intro hmarked)
      · next hfree => exact iff_of_true (by omega) hfree
  | true =>
      rw [hdel] at ht hcount hcard
      have hmarked : Marked (slotRec mnt s.bytes j) := marked_of_wanted ht.wanted
      rw [if_pos hmarked, if_pos rfl] at hcard
      rw [if_pos rfl, u64_pred (by omega) (by omega)] at hcount
      refine iff_of_true (by omega) fun hdel' => ?_
      rw [hdel] at hdel'
      cases hdel'

/-- A removal does not take the count through zero. -/
theorem Counts.remove_le (hdel : c.deleteOrCreate = true) :
    indCount mnt s'.bytes ≤ indCount mnt s.bytes := by
  have h' : Counts mnt s'.bytes := (h.step hr hst).mpr fun hcreate => by
    rw [hdel] at hcreate
    cases hcreate
  obtain ⟨-, ⟨hbytes, -⟩ | ⟨-, j, ht, -, -, htally⟩⟩ := dirStep_cases hr h.shape hst
  · rw [hbytes]
  · have hcard := htally.card h.shape h'.shape
    rw [hdel] at ht hcard
    have hmarked : Marked (slotRec mnt s.bytes j) := marked_of_wanted ht.wanted
    rw [← h.count, ← h'.count, if_pos hmarked, if_pos rfl] at hcard
    omega

end

/-- The count is right and every marked record has a hash. -/
structure Hashed (mnt : DriveTrait) (m : Store) : Prop extends Counts mnt m where
  hashed : ∀ j ≤ lastSlot mnt, Marked (slotRec mnt m j) → dirHash mnt m j ≠ 0

theorem Hashed.takesUnmarked {c : DirCall} (h : Hashed mnt s.bytes) : TakesUnmarked mnt s c := by
  intro _ _ j ht hmarked
  refine h.hashed j ht.le hmarked ?_
  exact (indWanted_create_iff (h.shape.slot j ht.le)).mp ht.wanted

section
variable {c : DirCall} (hr : Roomy mnt)
include hr

/-- Directories whose names have a hash keep the count right. -/
theorem Hashed.step (h : Hashed mnt s.bytes) (hst : DirStep mnt s c s')
    (hhash : c.deleteOrCreate = false → hashPath c.dir ≠ 0) : Hashed mnt s'.bytes := by
  refine ⟨(h.toCounts.step hr hst).mpr h.takesUnmarked, fun k hk hmarked => ?_⟩
  obtain ⟨-, ⟨hbytes, -⟩ | ⟨-, j, ht, hhash', hother, htally⟩⟩ := dirStep_cases hr h.shape hst
  · rw [hbytes] at hmarked ⊢
    exact h.hashed k hk hmarked
  · by_cases hkj : k = j
    · subst hkj
      have hdel := htally.marked.mp hmarked
      rw [hhash', hdel, if_neg Bool.false_ne_true]
      exact hhash hdel
    · rw [hother k hkj]
      exact h.hashed k hk ((htally.other k hkj).mp hmarked)

theorem Hashed.createDefaults (h : Hashed mnt d.bytes) (dirs : List (List UInt8))
    (hhash : ∀ dir ∈ dirs, hashPath dir ≠ 0)
    (hd : HeFileSystemParser.createDefaults mnt d dirs = some d') : Hashed mnt d'.bytes := by
  induction dirs generalizing d with
  | nil =>
      cases hd
      exact h
  | cons dir dirs ih =>
      obtain ⟨⟨r, d₁⟩, hcall, hd⟩ := Option.bind_eq_some_iff.mp hd
      have hst : DirStep mnt d ⟨kOpenHeFSEncodingFlagsUTF8, dir, false⟩ d₁ := ⟨d.errGlobal, r, hcall⟩
      exact ih (h.step hr hst fun _ => hhash dir List.mem_cons_self) (fun x hx => hhash x (.tail _ hx)) hd

/-- The boot node of `Format` counts the directories of a row of zeros. -/
theorem withBootNode_hashed (hb : Blank mnt d.bytes) {volName : List UInt8} :
    Hashed mnt (withBootNode mnt d flags volName).bytes := by
  have hs := (withBootNode_started hr hb flags volName).shape
  have hunmarked : ∀ k, ¬ Marked (slotRec mnt (withBootNode mnt d flags volName).bytes k) := by
    intro k hmarked
    refine hmarked.1 ((Field.get_congr fun i _ => withBootNode_slotRec hb).trans Field.get_zeros)
  have hcount : indCount mnt (withBootNode mnt d flags volName).bytes =
      HefsBootNode.fINDCount.get (formatBootNode mnt flags volName (d.fInput mnt.fLbaStart)) :=
    Field.get_congr fun i hi => bootRec_blit_same (by simp only [HefsBootNode.fINDCount] at *; omega)
  refine ⟨⟨hs, ?_⟩, fun j _ hmarked => absurd hmarked (hunmarked j)⟩
  rw [hs.markedRecords_eq, Finset.filter_false_of_mem fun k _ => hunmarked k, Finset.card_empty,
    hcount]
  simp only [formatBootNode, sealBootNode]
  simp (disch := decide) only [Field.get_set_of_apart, Field.get_set_same]
  rfl

theorem format_hashed (hb : Blank mnt d.bytes) (flags : Nat) (volName : List UInt8) :
    ∃ d', format mnt d flags volName = some (true, d') ∧ Hashed mnt d'.bytes := by
  obtain ⟨d', hformat, -, -⟩ := format_blank hr hb flags volName
  refine ⟨d', hformat, ?_⟩
  rw [format_eq hr hb] at hformat
  obtain ⟨d₁, hd₁, heq⟩ := Option.map_eq_some_iff.mp hformat
  obtain rfl : d₁.setErr kErrorSuccess = d' := (Prod.mk.inj heq).2
  have h : Hashed mnt d₁.bytes :=
    (withBootNode_hashed hr hb).createDefaults hr kFileMap kFileMap_hashes hd₁
  exact h

end

/-- **The count of the boot node** is right on every disk of a run from `Format` on whose creations take no
marked record, and no removal takes it through zero. A creation that does take a marked record makes it
wrong. -/
theorem count_right_iff (hr : Roomy mnt) (hb : Blank mnt d.bytes) (flags : Nat)
    (volName : List UInt8) :
    ∃ d', format mnt d flags volName = some (true, d') ∧
      ∀ s, Reach (DirStep mnt) (TakesUnmarked mnt) d' s →
        indCount mnt s.bytes = markedRecords mnt s.bytes ∧
        ∀ c, (∃ s', DirStep mnt s c s') ∧ ∀ s', DirStep mnt s c s' →
          (indCount mnt s'.bytes = markedRecords mnt s'.bytes ↔ TakesUnmarked mnt s c) ∧
          (c.deleteOrCreate = true → indCount mnt s'.bytes ≤ indCount mnt s.bytes) := by
  obtain ⟨d', hformat, h⟩ := format_hashed hr hb flags volName
  refine ⟨d', hformat, fun s hreach => ?_⟩
  have hs : Counts mnt s.bytes := hreach.inv (I := fun s => Counts mnt s.bytes) h.toCounts
    fun s c s' h hok hst => (h.step hr hst).mpr hok
  refine ⟨hs.count, fun c => ⟨dirStep_returns hr hs.shape c, fun s' hst => ⟨?_, hs.remove_le hr hst⟩⟩⟩
  rw [← hs.step hr hst]
  exact ⟨fun hcount => ⟨(dirStep_cases hr hs.shape hst).1, hcount⟩, fun h => h.count⟩

/-- The first calls on a fresh drive of one gibibyte. -/
theorem count_right_iff_gib :
    ∃ d', format gibDrive blankDisk 0x50 [] = some (true, d') ∧
      indCount gibDrive d'.bytes = markedRecords gibDrive d'.bytes ∧
      ∀ s', DirStep gibDrive d' ⟨0x50, [0x2F, 0x61], false⟩ s' →
        (indCount gibDrive s'.bytes = markedRecords gibDrive s'.bytes ↔
          TakesUnmarked gibDrive d' ⟨0x50, [0x2F, 0x61], false⟩) := by
  obtain ⟨d', hformat, h⟩ := count_right_iff gibDrive_roomy blankDisk_blank 0x50 []
  obtain ⟨hcount, hnext⟩ := h d' .init
  exact ⟨d', hformat, hcount, fun s' hst => ((hnext _).2 s' hst).1⟩

/-- Runs whose directories all have a hash keep the count right. -/
theorem count_right_of_hashes (hr : Roomy mnt) (hb : Blank mnt d.bytes) (flags : Nat)
    (volName : List UInt8) :
    ∃ d', format mnt d flags volName = some (true, d') ∧
      ∀ s, Reach (DirStep mnt) (fun _ c => c.deleteOrCreate = false → hashPath c.dir ≠ 0) d' s →
        indCount mnt s.bytes = markedRecords mnt s.bytes := by
  obtain ⟨d', hformat, h⟩ := format_hashed hr hb flags volName
  refine ⟨d', hformat, fun s hreach => ?_⟩
  have hs : Hashed mnt s.bytes := hreach.inv (I := fun s => Hashed mnt s.bytes) h
    fun s c s' h hok hst => h.step hr hst hok
  exact hs.count

/-- Two directories with the empty name on a drive with a single record: they share it, and the boot node
counts two. -/
theorem empty_name_counted_twice :
    ((format smallDrive blankDisk 0x50 []).bind fun r₀ =>
      (removeINodeDirectory smallDrive r₀.2 0 [0x2F]).bind fun r₁ =>
      (createINodeDirectory smallDrive r₁.2 0 []).bind fun r₂ =>
      (createINodeDirectory smallDrive r₂.2 0 []).map fun r₃ =>
        (r₀.1, r₁.1, r₂.1, r₃.1, indCount smallDrive r₃.2.bytes, markedRecords smallDrive r₃.2.bytes)) =
      some (true, true, true, true, 2, 1) := by
  decide +kernel

end NeKernel.FS
