import NeKernel.FS.Balance

/-!
# The operations on a disk of the right shape

What one call does: nothing, or one record (and one index node), the boot node, and a
rebalancing. `directoryCtl_cases` and `ctlManip_cases` say all of it, and that the call comes to
an end; that the shape is kept follows (`directoryCtl_shape`, `ctlManip_shape`).
-/

namespace NeKernel.FS

open ByteStore Scan Detail HeFileSystemParser

variable {mnt : DriveTrait} {m src r b boot : Store} {d d' : Disk} {j v a flags : Nat}
  {dir name : List UInt8} {del : Bool} {kind : UInt8}

/-! ## Writing into the disk -/

theorem slotRec_blit_same {i : Nat} (hi : i < 512) :
    slotRec mnt (blit m (slotAt mnt j) 512 src) j i = src i := slice_blit_same_apply hi

theorem slotRec_blit_other {j' i : Nat} (hj : j' ≠ j) (hi : i < 512) :
    slotRec mnt (blit m (slotAt mnt j) 512 src) j' i = slotRec mnt m j' i := by
  apply blit_apply_of_notMem
  rw [slotAt_eq, slotAt_eq]
  omega

theorem slotRec_blit_boot {i : Nat} :
    slotRec mnt (blit m mnt.fLbaStart 513 src) j i = slotRec mnt m j i := by
  apply blit_apply_of_notMem
  rw [slotAt_eq]
  omega

theorem bootRec_blit_same {i : Nat} (hi : i < 513) :
    bootRec mnt (blit m mnt.fLbaStart 513 src) i = src i := slice_blit_same_apply hi

theorem bootRec_blit_above {n i : Nat} (ha : startIND mnt ≤ a) (hi : i < 513) :
    bootRec mnt (blit m a n src) i = bootRec mnt m i := by
  apply blit_apply_of_notMem
  rw [startIND, HefsBootNode.size] at ha
  omega

/-- The shape of the boot node depends on its own bytes only. -/
theorem BootShape.congr (h : BootShape mnt b) (hb : ∀ i < 513, r i = b i) : BootShape mnt r := by
  have get : ∀ f : Field, f.off + f.width ≤ 513 → f.get r = f.get b :=
    fun f hf => Field.get_congr fun i hi => hb _ (by omega)
  refine ⟨?_, ?_, ?_, ?_, ?_⟩
  · rw [bootValid_congr (fun i hi => hb i (by omega)) (get HefsBootNode.fVersion (by decide))]
    exact h.valid
  · exact (get HefsBootNode.fStartIND (by decide)).trans h.startIND
  · exact (get HefsBootNode.fEndIND (by decide)).trans h.endIND
  · exact (get HefsBootNode.fEndIN (by decide)).trans h.endIN
  · rw [get HefsBootNode.fStartIN (by decide)]
    exact h.startIN

namespace Shape

theorem setSlot (h : Shape mnt m) (hs : SlotShape mnt j src) :
    Shape mnt (blit m (slotAt mnt j) 512 src) := by
  refine ⟨h.boot.congr fun i hi => ?_, fun j' hj' => ?_⟩
  · refine bootRec_blit_above ?_ hi
    rw [slotAt_eq, startIND, HefsBootNode.size]
    omega
  · by_cases hjj : j' = j
    · subst hjj
      exact hs.congr fun i hi _ _ => slotRec_blit_same (by omega)
    · exact (h.slot j' hj').congr fun i hi _ _ => slotRec_blit_other hjj (by omega)

theorem setBoot (h : Shape mnt m) (hb : BootShape mnt b) :
    Shape mnt (blit m mnt.fLbaStart 513 b) :=
  ⟨hb.congr fun _ hi => bootRec_blit_same hi,
    fun j hj => (h.slot j hj).congr fun _ _ _ _ => slotRec_blit_boot⟩

/-- An index node is written behind the fields of every directory record. -/
theorem setNode (h : Shape mnt m) (hr : Roomy mnt) (ha : endIND mnt ≤ a) :
    Shape mnt (blit m a 512 src) := by
  refine ⟨h.boot.congr fun i hi => bootRec_blit_above ?_ hi, fun j hj => ?_⟩
  · have := slotAt_le_endIND (Nat.zero_le (lastSlot mnt))
    exact Nat.le_trans this ha
  · apply (h.slot j hj).congr
    intro i hi _ _
    have := hr.field_lt_endIND hj
    apply blit_apply_of_notMem
    omega

end Shape

/-! ## The boot node -/

theorem BootShape.set (h : BootShape mnt b) {f : Field} (h₁ : 141 ≤ f.off)
    (h₂ : f.Apart HefsBootNode.fStartIND) (h₃ : f.Apart HefsBootNode.fEndIND)
    (h₄ : f.Apart HefsBootNode.fEndIN) (h₅ : f.Apart HefsBootNode.fStartIN) :
    BootShape mnt (f.set v b) := by
  refine ⟨(bootValid_set h₁).trans h.valid, ?_, ?_, ?_, ?_⟩
  · exact (Field.get_set_of_apart h₂.symm).trans h.startIND
  · exact (Field.get_set_of_apart h₃.symm).trans h.endIND
  · exact (Field.get_set_of_apart h₄.symm).trans h.endIN
  · rw [Field.get_set_of_apart h₅.symm]
    exact h.startIN

theorem BootShape.seal (h : BootShape mnt b) : BootShape mnt (sealBootNode b) :=
  h.set (by decide) (by decide) (by decide) (by decide) (by decide)

theorem BootShape.count (h : BootShape mnt b) : BootShape mnt (countInd del b) :=
  h.set (by decide) (by decide) (by decide) (by decide) (by decide)

theorem fStartIN_bumpCursors (hr : Roomy mnt) (hc : HefsBootNode.fStartIN.get b ≤ endIN mnt) :
    HefsBootNode.fStartIN.get (bumpCursors b) = HefsBootNode.fStartIN.get b + 512 := by
  have hlt := hr.noWrap
  rw [HefsIndexNode.size] at hlt
  have hu : u64 (HefsBootNode.fStartIN.get b + HefsIndexNode.size) =
      HefsBootNode.fStartIN.get b + 512 := u64_of_lt (by rw [HefsIndexNode.size]; omega)
  rw [bumpCursors, Field.get_set_of_apart (by decide), hu, Field.get_set_same]
  apply Nat.mod_eq_of_lt
  show _ < 2 ^ 64
  omega

theorem BootShape.bump (h : BootShape mnt b) (hr : Roomy mnt)
    (hc : HefsBootNode.fStartIN.get b ≤ FS.endIN mnt) : BootShape mnt (bumpCursors b) := by
  refine ⟨?_, ?_, ?_, ?_, ?_⟩
  · exact (bootValid_set (by decide)).trans ((bootValid_set (by decide)).trans h.valid)
  · exact (Field.get_set_of_apart (by decide)).trans
      ((Field.get_set_of_apart (by decide)).trans h.startIND)
  · exact (Field.get_set_of_apart (by decide)).trans
      ((Field.get_set_of_apart (by decide)).trans h.endIND)
  · exact (Field.get_set_of_apart (by decide)).trans
      ((Field.get_set_of_apart (by decide)).trans h.endIN)
  · rw [fStartIN_bumpCursors hr hc]
    have := h.startIN
    omega

/-! ## The record that replaces another -/

section
open HefsIndexNodeDirectory

/-- Only the links of `hefsiDirent` come from the record before it. -/
theorem hefsiDirent_fHashPath {tmpdir : Store} {color child : Nat} :
    fHashPath.get (hefsiDirent boot tmpdir dir flags del color child) =
      if del then 0 else hashPath dir := by
  simp (disch := decide) only [hefsiDirent, Field.get_set_of_apart, Field.get_set_same]
  apply Nat.mod_eq_of_lt
  split
  · exact Nat.pow_pos (by decide)
  · exact hashPath_lt dir

theorem hefsiDirent_fINSlices {tmpdir : Store} {color child i : Nat} (hi : i < 16) :
    (fINSlices i).get (hefsiDirent boot tmpdir dir flags del color child) = 0 := by
  have low : ∀ f : Field, f.off + f.width ≤ 66 → (fINSlices i).Apart f :=
    fun f hf => .inr (by simp only [fINSlices]; omega)
  have high : ∀ f : Field, 194 ≤ f.off → (fINSlices i).Apart f :=
    fun f hf => .inl (by simp only [fINSlices]; omega)
  simp only [hefsiDirent]
  rw [Field.get_set_of_apart (low _ (by decide)), Field.get_set_of_apart (high _ (by decide)),
    Field.get_set_of_apart (high _ (by decide)), Field.get_set_of_apart (high _ (by decide)),
    Field.get_set_of_apart (high _ (by decide)), Field.get_set_of_apart (high _ (by decide)),
    Field.get_set_of_apart (low _ (by decide)), Field.get_set_of_apart (low _ (by decide)),
    Field.get_set_of_apart (low _ (by decide)), Field.get_set_of_apart (low _ (by decide)),
    Field.get_zeros]

/-- The colour the new record gets; its child is the record at 512. -/
theorem direntChild_eq (hr : Roomy mnt) (hb : BootShape mnt boot) (h : SlotShape mnt j r) :
    ∃ color, hefsiDirentChild boot r d = some (color, 512) ∧ (j ≠ 0 → color = kOpenHeFSRed) := by
  rcases h.child with hc | hc
  · have hhash : fHashPath.get r = 0 := by
      by_contra hne
      rw [(h.live hne).2.2.2.2] at hc
      exact absurd hc (by decide)
    have hfind : hefsiFindChild boot r d scanFuel (nextStart (fNext.get r)) = some 512 := by
      rw [h.next, show scanFuel = (2 ^ 64 - 1) + 1 from rfl, hefsiFindChild, if_pos (.inr hhash)]
      rfl
    have hend : ¬ HefsBootNode.fEndIND.get boot < 512 := by
      have h₁ := hr.start
      have h₂ := hr.field_lt_endIND (Nat.zero_le _)
      rw [slotAt_eq] at h₂
      rw [hb.endIND]
      omega
    refine ⟨kOpenHeFSRed, ?_, fun _ => rfl⟩
    rw [hefsiDirentChild, if_pos hc, hfind, Option.map_some, if_neg hend]
  · have hne : ¬ fChild.get r = 0 := by
      rw [hc]
      decide
    rw [hefsiDirentChild, if_neg hne, hc]
    refine ⟨_, rfl, fun hj => ?_⟩
    rcases h.color hj with hred | ⟨-, h0⟩
    · rw [hred]
      rfl
    · exact absurd h0 hne

/-- The new record has the right shape. -/
theorem hefsiDirent_shape (hr : Roomy mnt) (hb : BootShape mnt boot) (h : SlotShape mnt j r)
    {color : Nat} (hc : j ≠ 0 → color = kOpenHeFSRed) :
    SlotShape mnt j (hefsiDirent boot r dir flags del color 512) := by
  have hstart : startIND mnt % 256 ^ 8 = startIND mnt := by
    have h₁ := hr.slotAt_succ_lt (Nat.zero_le _)
    rw [slotAt_succ] at h₁
    have h₂ : slotAt mnt 0 = startIND mnt := rfl
    apply Nat.mod_eq_of_lt
    show _ < 2 ^ 64
    omega
  -- a link that is there is kept, and it is the one to the first record
  have hprev : fPrev.get (hefsiDirent boot r dir flags del color 512) = startIND mnt := by
    simp (disch := decide) only [hefsiDirent, Field.get_set_of_apart, Field.get_set_same]
    rcases h.prev with hp | hp
    · rw [if_pos hp, hb.startIND]
      exact hstart
    · rw [hp, hb.startIND, ite_self]
      exact hstart
  have hparent : fParent.get (hefsiDirent boot r dir flags del color 512) = startIND mnt := by
    simp (disch := decide) only [hefsiDirent, Field.get_set_of_apart, Field.get_set_same]
    rcases h.parent with hp | hp
    · rw [if_pos hp, hb.startIND]
      exact hstart
    · rw [hp, hb.startIND, ite_self]
      exact hstart
  have hchild : fChild.get (hefsiDirent boot r dir flags del color 512) = 512 := by
    simp (disch := decide) only [hefsiDirent, Field.get_set_of_apart, Field.get_set_same]
    rfl
  refine ⟨?_, .inr hprev, .inr hparent, .inr hchild, ?_, ?_, ?_⟩
  · simp (disch := decide) only [hefsiDirent, Field.get_set_of_apart, Field.get_set_same, h.next]
    rfl
  · intro hlive
    rw [hefsiDirent_fHashPath] at hlive
    have hdel : del = false := by
      cases del
      · rfl
      · exact absurd rfl hlive
    subst hdel
    refine ⟨?_, ?_, hprev, hparent, hchild⟩
    · simp (disch := decide) only [hefsiDirent, Field.get_set_of_apart, Field.get_set_same]
      decide
    · simp (disch := decide) only [hefsiDirent, Field.get_set_of_apart, Field.get_set_same]
      decide
  · intro hj
    refine .inl ?_
    simp (disch := decide) only [hefsiDirent, Field.get_set_of_apart, Field.get_set_same]
    rw [hc hj]
    rfl
  · intro i hi hne
    exact absurd (hefsiDirent_fINSlices hi) hne

/-- On a disk of the right shape a record is free exactly when its hash is zero. -/
theorem SlotShape.indFree_iff (h : SlotShape mnt j r) :
    indFree r = true ↔ fHashPath.get r = 0 := by
  simp only [indFree, Bool.or_eq_true, Bool.and_eq_true, decide_eq_true_eq]
  constructor
  · rintro (⟨hc, -⟩ | hz)
    · by_contra hne
      exact (h.live hne).1 hc
    · exact hz
  · exact .inr

/-- A live record is found by its name. -/
theorem SlotShape.indNamed_iff (h : SlotShape mnt j r) (hlive : fHashPath.get r ≠ 0) :
    indNamed dir r = true ↔ hashPath dir = fHashPath.get r := by
  have hc := h.live hlive
  simp only [indNamed, Bool.and_eq_true, decide_eq_true_eq]
  exact ⟨fun hn => hn.2, fun hn => ⟨⟨hc.1, hc.2.1⟩, hn⟩⟩

end

/-! ## Directories -/

/-- The names the directory operations take. -/
def DirName (dir : List UInt8) : Prop :=
  dir.length ≤ kOpenHeFSFileNameLen ∧ dir ≠ kOpenHeFSSearchAllStr

instance (dir : List UInt8) : Decidable (DirName dir) := inferInstanceAs (Decidable (_ ∧ _))

/-- The `j`-th record is the first one of the row that the operation is after. -/
structure IndTarget (mnt : DriveTrait) (m : Store) (dir : List UInt8) (del : Bool) (j : Nat) :
    Prop where
  le : j ≤ lastSlot mnt
  wanted : indWanted del dir (slotRec mnt m j) = true
  first : ∀ i < j, indWanted del dir (slotRec mnt m i) = false

/-- What a scan of the whole row comes to, by the record that ends it. -/
def RowEnds (mnt : DriveTrait) (boot : Store) {α : Type} (leave : Nat → Bool) (visit : Nat → Visit α) :
    Prop :=
  (∃ j ≤ lastSlot mnt, (∀ i < j, visit (slotAt mnt i) = .next) ∧ ∃ x,
    visit (slotAt mnt j) = .found x ∧
    scan nextStart leave visit scanFuel (HefsBootNode.fStartIND.get boot) = some (some x)) ∨
  (scan nextStart leave visit scanFuel (HefsBootNode.fStartIND.get boot) = some none ∧
    ((∃ j ≤ lastSlot mnt, (∀ i < j, visit (slotAt mnt i) = .next) ∧
      visit (slotAt mnt j) = .stop) ∨ ∀ i ≤ lastSlot mnt, visit (slotAt mnt i) = .next))

/-- A scan that leaves behind the last record, and not before. -/
theorem row_ends (hr : Roomy mnt) (hb : BootShape mnt boot) {α : Type} {leave : Nat → Bool}
    (visit : Nat → Visit α) (hin : ∀ i < lastSlot mnt, leave (slotAt mnt (i + 1)) = false)
    (hout : leave (slotAt mnt (lastSlot mnt + 1)) = true) : RowEnds mnt boot leave visit := by
  have hlt := hr.lastSlot_lt
  rw [RowEnds, hb.startIND]
  exact scan_cases (slotAt mnt) (fun i hi => hr.nextStart_slotAt hi) hin hout (by omega)

theorem scan_row (hr : Roomy mnt) (hb : BootShape mnt boot) {α : Type} (visit : Nat → Visit α) :
    RowEnds mnt boot (fun start => HefsBootNode.fEndIND.get boot < start || start = 0) visit := by
  refine row_ends hr hb visit (fun i hi => ?_) ?_
  · have h₁ := slotAt_ne_zero mnt (i + 1)
    have h₂ := slotAt_le_endIND (show i + 1 ≤ lastSlot mnt by omega)
    simp only [hb.endIND, Bool.or_eq_false_iff, decide_eq_false_iff_not]
    omega
  · have := endIND_lt mnt
    simp only [hb.endIND, Bool.or_eq_true, decide_eq_true_eq]
    exact .inl this

theorem findInd_cases (hr : Roomy mnt) (hb : BootShape mnt boot) (dir : List UInt8) (del : Bool) :
    (∃ j, IndTarget mnt d.bytes dir del j ∧
      hefsiFindInd boot d dir del = some (some (slotAt mnt j))) ∨
    (hefsiFindInd boot d dir del = some none ∧
      ∀ j ≤ lastSlot mnt, indWanted del dir (slotRec mnt d.bytes j) = false) := by
  let visit : Nat → Visit Nat := fun start =>
    if indWanted del dir (d.fInput start) then .found start else .next
  have hnext : ∀ i, visit (slotAt mnt i) = .next →
      indWanted del dir (slotRec mnt d.bytes i) = false := by
    intro i hi
    by_contra hw
    rw [Bool.not_eq_false] at hw
    simp only [visit, show d.fInput (slotAt mnt i) = slotRec mnt d.bytes i from rfl, hw,
      if_true] at hi
    cases hi
  rcases scan_row hr hb visit with ⟨j, hj, hbefore, x, hfound, hscan⟩ | ⟨hscan, hstop | hall⟩
  · have hw : indWanted del dir (slotRec mnt d.bytes j) = true := by
      by_contra hw
      simp only [visit, show d.fInput (slotAt mnt j) = slotRec mnt d.bytes j from rfl, hw,
        if_false] at hfound
      cases hfound
    have hx : x = slotAt mnt j := by
      simp only [visit, show d.fInput (slotAt mnt j) = slotRec mnt d.bytes j from rfl, hw,
        if_true, Visit.found.injEq] at hfound
      exact hfound.symm
    subst hx
    exact .inl ⟨j, ⟨hj, hw, fun i hi => hnext i (hbefore i hi)⟩, hscan⟩
  · obtain ⟨j, -, -, hstop⟩ := hstop
    simp only [visit] at hstop
    split at hstop <;> cases hstop
  · exact .inr ⟨hscan, fun j hj => hnext j (hall j hj)⟩

/-- What the update writes into the `j`-th record and the boot node. -/
def indWritten (mnt : DriveTrait) (d : Disk) (dir : List UInt8) (flags : Nat) (del : Bool)
    (j color : Nat) : Disk :=
  let boot := bootRec mnt d.bytes
  let dirent := hefsiDirent boot (slotRec mnt d.bytes j) dir flags del color 512
  writeBootNode mnt (sealBootNode (countInd del boot))
    ((d.fOutput .directory (slotAt mnt j) HefsIndexNodeDirectory.size dirent).setErr kErrorSuccess)

theorem indWritten_shape (hr : Roomy mnt) (hs : Shape mnt d.bytes) {color : Nat}
    (hj : j ≤ lastSlot mnt) (hc : j ≠ 0 → color = kOpenHeFSRed) :
    Shape mnt (indWritten mnt d dir flags del j color).bytes :=
  (hs.setSlot (hefsiDirent_shape hr hs.boot (hs.slot j hj) hc)).setBoot hs.boot.count.seal

/-- **What `CreateINodeDirectory` and `RemoveINodeDirectory` do**: refuse, and leave the disk
alone, when the name is bad or no record is wanted; else replace the first wanted record. -/
theorem directoryCtl_cases (hr : Roomy mnt) (hs : Shape mnt d.bytes) (dir : List UInt8)
    (flags : Nat) (del : Bool) :
    ((¬ DirName dir ∨ ∀ j ≤ lastSlot mnt, indWanted del dir (slotRec mnt d.bytes j) = false) ∧
      ∃ e, e ≠ kErrorDiskIsCorrupted ∧
        iNodeDirectoryCtlManip mnt d flags dir del = some (false, d.setErr e)) ∨
    (DirName dir ∧ ∃ j color d', IndTarget mnt d.bytes dir del j ∧
      (j ≠ 0 → color = kOpenHeFSRed) ∧
      iNodeDirectoryCtlManip mnt d flags dir del = some (true, d') ∧
      Balanced mnt (indWritten mnt d dir flags del j color) d') := by
  have hin : d.fInput mnt.fLbaStart = bootRec mnt d.bytes := rfl
  have hvalid : bootValid (bootRec mnt d.bytes) ≠ false := hs.boot.passes
  unfold iNodeDirectoryCtlManip
  -- the guards in the order of the source, and then the search for a record
  by_cases hlen : kOpenHeFSFileNameLen < dir.length
  · rw [if_pos hlen]
    exact .inl ⟨.inl fun h => absurd h.1 (by omega), kErrorDisk, by decide, rfl⟩
  by_cases hall : dir = kOpenHeFSSearchAllStr
  · rw [if_neg hlen, hin, if_neg hvalid, if_pos hall]
    exact .inl ⟨.inl fun h => h.2 hall, kErrorInvalidData, by decide, rfl⟩
  have hstart : ¬ HefsBootNode.fStartIND.get (bootRec mnt d.bytes) ≤ mnt.fLbaStart := by
    rw [hs.boot.startIND, startIND, HefsBootNode.size]
    omega
  rw [if_neg hlen, hin, if_neg hvalid, if_neg hall]
  unfold hefsiUpdateIndStatus
  rw [if_neg hstart]
  rcases findInd_cases (d := d) hr hs.boot dir del with
    ⟨j, htarget, hfind⟩ | ⟨hfind, hnone⟩
  · obtain ⟨color, hcolor, hred⟩ := direntChild_eq (d := d) hr hs.boot (hs.slot j htarget.le)
    have hs' : Shape mnt (indWritten mnt d dir flags del j color).bytes :=
      indWritten_shape hr hs htarget.le hred
    obtain ⟨d', hd', hbal⟩ := balance_spec hr hs.boot.count.seal hs'
    refine .inr ⟨⟨by omega, hall⟩, j, color, d', htarget, hred, ?_, hbal⟩
    rw [hfind]
    simp only [Option.bind_some, show d.fInput (slotAt mnt j) = slotRec mnt d.bytes j from rfl,
      hcolor, Option.map_some, if_true]
    have hd'' : hefsiBalanceInd (sealBootNode (countInd del (bootRec mnt d.bytes)))
        (indWritten mnt d dir flags del j color) = some d' := hd'
    exact congrArg (Option.map (fun d => (true, d))) hd''
  · rw [hfind]
    exact .inl ⟨.inr hnone, kErrorDisk, by decide, rfl⟩

/-! ## Files -/

section
open HefsIndexNodeDirectory

theorem firstSlice_some {p : Nat → Bool} {i : Nat} (h : firstSlice p = some i) :
    i < 16 ∧ p i = true ∧ ∀ k < i, p k = false := by
  have := List.find?_range_eq_some.mp h
  exact ⟨List.mem_range.mp this.2.1, this.1, fun k hk => by simpa using this.2.2 k hk⟩

theorem firstSlice_none {p : Nat → Bool} (h : firstSlice p = none) : ∀ i < 16, p i = false := by
  intro i hi
  simpa using List.find?_eq_none.mp h i (List.mem_range.mpr hi)

/-- The names the file operations take. -/
def FileName (dir name : List UInt8) : Prop :=
  name.length ≤ kOpenHeFSFileNameLen ∧ dir.length ≤ kOpenHeFSFileNameLen ∧
    dir ≠ kOpenHeFSSearchAllStr ∧ name.any (· == 0x2F) = false

instance (dir name : List UInt8) : Decidable (FileName dir name) :=
  inferInstanceAs (Decidable (_ ∧ _))

/-- Both cursors are where the operations still go ahead. -/
def CursorsIn (b : Store) : Prop :=
  HefsBootNode.fStartIN.get b ≤ HefsBootNode.fEndIN.get b ∧
    HefsBootNode.fStartBlock.get b ≤ HefsBootNode.fEndBlock.get b

/-- The slice `i` of the `j`-th record is one the operation can use. -/
def Usable (mnt : DriveTrait) (d : Disk) (dir : List UInt8) (hashFile : Nat) (del : Bool)
    (j i : Nat) : Prop :=
  hashPath dir = fHashPath.get (slotRec mnt d.bytes j) ∧
    inWanted d (slotRec mnt d.bytes j) hashFile del i = true

/-- The slice `i` of the `j`-th record is the first one of the row the operation can use. -/
structure SliceTarget (mnt : DriveTrait) (d : Disk) (dir : List UInt8) (hashFile : Nat)
    (del : Bool) (j i : Nat) : Prop where
  le : j ≤ lastSlot mnt
  lt : i < 16
  usable : Usable mnt d dir hashFile del j i
  firstSlice : ∀ k < i, ¬ Usable mnt d dir hashFile del j k
  firstSlot : ∀ j' < j, ∀ k < 16, ¬ Usable mnt d dir hashFile del j' k

/-- The slice a deletion uses is in use. -/
theorem SliceTarget.used {hashFile i : Nat} (ht : SliceTarget mnt d dir hashFile true j i) :
    (fINSlices i).get (slotRec mnt d.bytes j) ≠ 0 := by
  have hw := ht.usable.2
  simp only [inWanted, if_true, Bool.and_eq_true, decide_eq_true_eq] at hw
  exact hw.1

theorem updateInVisit_next {hashFile : Nat}
    (h : updateInVisit d dir hashFile del (slotAt mnt j) = .next) :
    ∀ i < 16, ¬ Usable mnt d dir hashFile del j i := by
  rintro i hi ⟨hhash, hw⟩
  have hin : d.fInput (slotAt mnt j) = slotRec mnt d.bytes j := rfl
  unfold updateInVisit at h
  rw [hin, if_pos hhash] at h
  split at h
  · cases h
  · next hnone =>
      rw [firstSlice_none hnone i hi] at hw
      cases hw

theorem updateInVisit_found {hashFile : Nat} {x : Nat × Nat}
    (h : updateInVisit d dir hashFile del (slotAt mnt j) = .found x) :
    ∃ i < 16, x = (slotAt mnt j, i) ∧ Usable mnt d dir hashFile del j i ∧
      ∀ k < i, ¬ Usable mnt d dir hashFile del j k := by
  have hin : d.fInput (slotAt mnt j) = slotRec mnt d.bytes j := rfl
  unfold updateInVisit at h
  simp only [hin] at h
  split at h
  · next hhash =>
      split at h
      · next i hsome =>
          obtain ⟨hi, hw, hbefore⟩ := firstSlice_some hsome
          cases h
          refine ⟨i, hi, rfl, ⟨hhash, hw⟩, fun k hk hu => ?_⟩
          have hw' := hu.2
          rw [hbefore k hk] at hw'
          cases hw'
      · cases h
  · cases h

theorem findSlice_cases (hr : Roomy mnt) (hb : BootShape mnt boot) (dir : List UInt8)
    (hashFile : Nat) (del : Bool) :
    (∃ j i, SliceTarget mnt d dir hashFile del j i ∧
      hefsiFindSlice boot d dir hashFile del = some (some (slotAt mnt j, i))) ∨
    (hefsiFindSlice boot d dir hashFile del = some none ∧
      ∀ j ≤ lastSlot mnt, ∀ i < 16, ¬ Usable mnt d dir hashFile del j i) := by
  rcases scan_row hr hb (updateInVisit d dir hashFile del) with
    ⟨j, hj, hbefore, x, hfound, hscan⟩ | ⟨hscan, hstop | hall⟩
  · obtain ⟨i, hi, rfl, hu, hfirst⟩ := updateInVisit_found hfound
    exact .inl ⟨j, i, ⟨hj, hi, hu, hfirst, fun j' hj' => updateInVisit_next (hbefore j' hj')⟩, hscan⟩
  · obtain ⟨j, -, -, hstop⟩ := hstop
    unfold updateInVisit at hstop
    simp only at hstop
    split at hstop
    · split at hstop <;> cases hstop
    · cases hstop
  · exact .inr ⟨hscan, fun j hj => updateInVisit_next (hall j hj)⟩

/-- What the update writes into the slice, the index node and the boot node. -/
def inWritten (mnt : DriveTrait) (d : Disk) (node : Store) (del : Bool) (j i : Nat) : Disk :=
  if del then deleteIn mnt (bootRec mnt d.bytes) node d (slotAt mnt j) i
  else createIn mnt (bootRec mnt d.bytes) node d (slotAt mnt j) i

/-- Setting a slice keeps the shape of a record. -/
theorem SlotShape.setSlice {i : Nat} (h : SlotShape mnt j r) (hr : Roomy mnt) (hi : i < 16)
    (hv : v = 0 ∨ endIND mnt ≤ v ∧ v ≤ endIN mnt) : SlotShape mnt j ((fINSlices i).set v r) := by
  have low : ∀ f : Field, f.off + f.width ≤ 66 → f.Apart (fINSlices i) :=
    fun f hf => .inl (by simp only [fINSlices]; omega)
  have high : ∀ f : Field, 194 ≤ f.off → f.Apart (fINSlices i) :=
    fun f hf => .inr (by simp only [fINSlices]; omega)
  refine ⟨?_, ?_, ?_, ?_, ?_, ?_, ?_⟩
  · rw [Field.get_set_of_apart (high _ (by decide))]; exact h.next
  · rw [Field.get_set_of_apart (high _ (by decide))]; exact h.prev
  · rw [Field.get_set_of_apart (high _ (by decide))]; exact h.parent
  · rw [Field.get_set_of_apart (high _ (by decide))]; exact h.child
  · rw [Field.get_set_of_apart (low _ (by decide)), Field.get_set_of_apart (low _ (by decide)),
      Field.get_set_of_apart (low _ (by decide)), Field.get_set_of_apart (high _ (by decide)),
      Field.get_set_of_apart (high _ (by decide)), Field.get_set_of_apart (high _ (by decide))]
    exact h.live
  · rw [Field.get_set_of_apart (high _ (by decide)), Field.get_set_of_apart (high _ (by decide))]
    exact h.color
  · intro k hk hne
    -- the slice that is set has the value, the others keep theirs
    by_cases hki : k = i
    · subst hki
      have hlt : v < 256 ^ 8 := by
        have := hr.noWrap
        rw [HefsIndexNode.size] at this
        show v < 2 ^ 64
        omega
      have hget : (fINSlices k).get ((fINSlices k).set v r) = v :=
        Field.get_set_same.trans (Nat.mod_eq_of_lt hlt)
      rw [hget] at hne ⊢
      exact hv.resolve_left hne
    · have hap : (fINSlices k).Apart (fINSlices i) := by
        simp only [Field.Apart, fINSlices]
        omega
      rw [Field.get_set_of_apart hap] at hne ⊢
      exact h.slices k hk hne

/-- The bytes of a record that a new entry count and a new checksum leave alone. -/
theorem entryCount_checksum_apply {w k : Nat} (hk : k < 8 ∨ 22 ≤ k) :
    fChecksum.set w (fEntryCount.set v r) k = r k := by
  rw [Field.set_apply (by simp only [fChecksum]; omega),
    Field.set_apply (by simp only [fEntryCount]; omega)]

theorem fillSlice_apply {i k : Nat} (hk : k < 8 ∨ 22 ≤ k) :
    fillSlice boot r i k = (fINSlices i).set (HefsBootNode.fStartIN.get boot) r k :=
  entryCount_checksum_apply hk

theorem emptySlice_apply {i k : Nat} (hk : k < 8 ∨ 22 ≤ k) :
    emptySlice r i k = (fINSlices i).set 0 r k := by
  unfold emptySlice
  split
  · exact entryCount_checksum_apply hk
  · exact Field.set_apply (by simp only [fChecksum]; omega)

theorem fillSlice_shape {i : Nat} (hr : Roomy mnt) (h : SlotShape mnt j r) (hi : i < 16)
    (hb : BootShape mnt boot) (hc : HefsBootNode.fStartIN.get boot ≤ endIN mnt) :
    SlotShape mnt j (fillSlice boot r i) :=
  (h.setSlice hr hi (.inr ⟨hb.startIN, hc⟩)).congr fun _ _ hk _ => fillSlice_apply hk

theorem emptySlice_shape {i : Nat} (hr : Roomy mnt) (h : SlotShape mnt j r) (hi : i < 16) :
    SlotShape mnt j (emptySlice r i) :=
  (h.setSlice hr hi (.inl rfl)).congr fun _ _ hk _ => emptySlice_apply hk

theorem fINSlices_fillSlice {i : Nat} (hi : i < 16) :
    (fINSlices i).get (fillSlice boot r i) = HefsBootNode.fStartIN.get boot := by
  have hget : (fINSlices i).get (fillSlice boot r i) =
      (fINSlices i).get ((fINSlices i).set (HefsBootNode.fStartIN.get boot) r) :=
    Field.get_congr fun k _ => fillSlice_apply (.inr (by simp only [fINSlices]; omega))
  rw [hget, Field.get_set_same]
  exact Nat.mod_eq_of_lt Field.get_lt

/-- The bytes after a creation. -/
theorem inWritten_create {node : Store} {i : Nat} (hi : i < 16) :
    (inWritten mnt d node false j i).bytes =
      blit (blit (blit d.bytes (slotAt mnt j) 512
          (fillSlice (bootRec mnt d.bytes) (slotRec mnt d.bytes j) i))
        (HefsBootNode.fStartIN.get (bootRec mnt d.bytes)) 512
          (placeNode (bootRec mnt d.bytes) node))
        mnt.fLbaStart 513 (sealBootNode (bumpCursors (bootRec mnt d.bytes))) := by
  have hin : d.fInput (slotAt mnt j) = slotRec mnt d.bytes j := rfl
  rw [inWritten, if_neg Bool.false_ne_true, createIn]
  simp only [hin, fINSlices_fillSlice hi, writeBootNode, Disk.fOutput_bytes, size,
    HefsIndexNode.size, HefsBootNode.size]

/-- The bytes after a deletion. -/
theorem inWritten_delete {node : Store} {i : Nat} :
    (inWritten mnt d node true j i).bytes =
      blit (blit (blit d.bytes mnt.fLbaStart 513 (sealBootNode (bootRec mnt d.bytes)))
        ((fINSlices i).get (slotRec mnt d.bytes j)) 512
          (HefsIndexNode.fOffsetSliceHigh.set 0 (HefsIndexNode.fOffsetSliceLow.set 0 node)))
        (slotAt mnt j) 512 (emptySlice (slotRec mnt d.bytes j) i) := by
  have hin : d.fInput (slotAt mnt j) = slotRec mnt d.bytes j := rfl
  rw [inWritten, if_pos rfl, deleteIn]
  simp only [hin, writeBootNode, Disk.fOutput_bytes, size, HefsIndexNode.size, HefsBootNode.size]

theorem inWritten_shape (node : Store) {hashFile i : Nat} (hr : Roomy mnt)
    (hs : Shape mnt d.bytes) (hc : CursorsIn (bootRec mnt d.bytes))
    (ht : SliceTarget mnt d dir hashFile del j i) :
    Shape mnt (inWritten mnt d node del j i).bytes := by
  have hslot := hs.slot j ht.le
  have hcur : HefsBootNode.fStartIN.get (bootRec mnt d.bytes) ≤ endIN mnt := by
    rw [← hs.boot.endIN]
    exact hc.1
  cases del
  · rw [inWritten_create ht.lt]
    exact ((hs.setSlot (fillSlice_shape hr hslot ht.lt hs.boot hcur)).setNode hr
      hs.boot.startIN).setBoot (hs.boot.bump hr hcur).seal
  · rw [inWritten_delete]
    exact ((hs.setBoot hs.boot.seal).setNode hr (hslot.slices i ht.lt ht.used).1).setSlot
      (emptySlice_shape hr hslot ht.lt)

theorem fHashPath_ctlNode :
    HefsIndexNode.fHashPath.get (ctlNode flags name del kind) = hashPath name := by
  rw [ctlNode, Field.get_set_same]
  exact Nat.mod_eq_of_lt (hashPath_lt name)

/-- **What `CreateINode` and `DeleteINode` do**: refuse, and leave the disk alone, when a name is
bad, a cursor is past its end or no slice can be used; else use the first such slice. -/
theorem ctlManip_cases (hr : Roomy mnt) (hs : Shape mnt d.bytes) (dir name : List UInt8)
    (flags : Nat) (kind : UInt8) (del : Bool) :
    ((¬ FileName dir name ∨ ¬ CursorsIn (bootRec mnt d.bytes) ∨
        ∀ j ≤ lastSlot mnt, ∀ i < 16, ¬ Usable mnt d dir (hashPath name) del j i) ∧
      ∃ e, e ≠ kErrorDiskIsCorrupted ∧
        iNodeCtlManip mnt d flags dir name del kind = some (false, d.setErr e)) ∨
    (FileName dir name ∧ CursorsIn (bootRec mnt d.bytes) ∧ ∃ j i d',
      SliceTarget mnt d dir (hashPath name) del j i ∧
      iNodeCtlManip mnt d flags dir name del kind = some (true, d') ∧
      Balanced mnt (inWritten mnt d (ctlNode flags name del kind) del j i) d') := by
  have hin : d.fInput mnt.fLbaStart = bootRec mnt d.bytes := rfl
  have hvalid : bootValid (bootRec mnt d.bytes) ≠ false := hs.boot.passes
  unfold iNodeCtlManip
  -- the guards in the order of the source: a call that one of them refuses leaves the bytes alone
  by_cases hlen : kOpenHeFSFileNameLen < name.length
  · rw [if_pos hlen]
    exact .inl ⟨.inl fun h => absurd h.1 (by omega), kErrorDisk, by decide, rfl⟩
  by_cases hdlen : kOpenHeFSFileNameLen < dir.length
  · rw [if_neg hlen, if_pos hdlen]
    exact .inl ⟨.inl fun h => absurd h.2.1 (by omega), kErrorDisk, by decide, rfl⟩
  by_cases hall : dir = kOpenHeFSSearchAllStr
  · rw [if_neg hlen, if_neg hdlen, hin, if_neg hvalid, if_pos hall]
    exact .inl ⟨.inl fun h => h.2.2.1 hall, kErrorInvalidData, by decide, rfl⟩
  by_cases hslash : name.any (· == 0x2F) = true
  · rw [if_neg hlen, if_neg hdlen, hin, if_neg hvalid, if_neg hall, if_pos hslash]
    refine .inl ⟨.inl fun h => ?_, kErrorInvalidData, by decide, rfl⟩
    rw [h.2.2.2] at hslash
    cases hslash
  have hname : FileName dir name := ⟨by omega, by omega, hall, Bool.eq_false_iff.mpr hslash⟩
  rw [if_neg hlen, if_neg hdlen, hin, if_neg hvalid, if_neg hall, if_neg hslash]
  unfold hefsiUpdateInStatus
  have hrow : ¬ HefsBootNode.fEndIND.get (bootRec mnt d.bytes) <
      HefsBootNode.fStartIND.get (bootRec mnt d.bytes) := by
    rw [hs.boot.startIND, hs.boot.endIND, endIND]
    omega
  rw [if_neg hrow]
  by_cases hin' : HefsBootNode.fEndIN.get (bootRec mnt d.bytes) <
      HefsBootNode.fStartIN.get (bootRec mnt d.bytes)
  · rw [if_pos hin']
    exact .inl ⟨.inr (.inl fun h => absurd h.1 (by omega)), kErrorDirectoryNotFound, by decide, rfl⟩
  by_cases hblock : HefsBootNode.fEndBlock.get (bootRec mnt d.bytes) <
      HefsBootNode.fStartBlock.get (bootRec mnt d.bytes)
  · rw [if_neg hin', if_pos hblock]
    exact .inl ⟨.inr (.inl fun h => absurd h.2 (by omega)), kErrorDirectoryNotFound, by decide, rfl⟩
  have hc : CursorsIn (bootRec mnt d.bytes) := ⟨by omega, by omega⟩
  rw [if_neg hin', if_neg hblock, fHashPath_ctlNode]
  -- past the guards it is up to the search for a slice
  rcases findSlice_cases (d := d) hr hs.boot dir (hashPath name) del with
    ⟨j, i, htarget, hfind⟩ | ⟨hfind, hnone⟩
  · obtain ⟨d', hd', hbal⟩ := balance_spec hr hs.boot
      (inWritten_shape (ctlNode flags name del kind) hr hs hc htarget)
    refine .inr ⟨hname, hc, j, i, d'.setErr kErrorSuccess, htarget, ?_, ?_⟩
    · rw [hfind]
      cases del
      · have hd'' : hefsiBalanceInd (bootRec mnt d.bytes) (createIn mnt (bootRec mnt d.bytes)
            (ctlNode flags name false kind) d (slotAt mnt j) i) = some d' := hd'
        simp only [Option.map_some, Option.bind_some, Bool.false_eq_true, if_false, if_true, hd'']
      · have hd'' : hefsiBalanceInd (bootRec mnt d.bytes) (deleteIn mnt (bootRec mnt d.bytes)
            (ctlNode flags name true kind) d (slotAt mnt j) i) = some d' := hd'
        simp only [Option.map_some, Option.bind_some, if_true, hd'']
    · exact ⟨hbal.bytes, hbal.packets, rfl, hbal.child, hbal.last⟩
  · rw [hfind]
    exact .inl ⟨.inr (.inr hnone), kErrorDirectoryNotFound, by decide, rfl⟩

end

end NeKernel.FS
