import NeKernel.FS.Lookup
import NeKernel.FS.Replies

/-!
# The files of a disk

The files a run of operations has made and not removed, as a set, and `INodeExists` beside it. The
two agree as long as no operation of the run is one of four that go wrong: a directory operation on
the record over the end of the row when an index node lies under it, the removal of a directory
that has files behind it in the row (the lookup stops at the record it leaves), the creation of a
file behind a record that has none, or with the last index node (the lookup gives up on all of
them), and the deletion of a name that stands for more than one file of the directory.
-/

namespace NeKernel.FS

open ByteStore Scan Detail HeFileSystemParser HefsIndexNodeDirectory

variable {mnt : DriveTrait} {m m' b : Store} {d d' w : Disk} {j i k l flags : Nat}
  {dir name volName : List UInt8} {kind : UInt8} {op : Op} {ops : List Op} {f g : File} {del r : Bool}

/-! ## The files as a set -/

/-- The files after an operation and its reply. -/
def track : Op → Bool → Set File → Set File
  | .removeDir _ dir, true, files => { f ∈ files | f.dir ≠ dir }
  | .createFile _ dir name kind, true, files => insert ⟨dir, name, kind⟩ files
  | .deleteFile _ dir name kind, true, files => files \ {⟨dir, name, kind⟩}
  | _, _, files => files

/-- The names an operation is given. -/
def Op.names : Op → Set (List UInt8)
  | .createDir _ dir => {dir}
  | .removeDir _ dir => {dir}
  | .createFile _ dir name _ => {dir, name}
  | .deleteFile _ dir name _ => {dir, name}

/-- `INodeExists` says YES to the files of the set and to no other with names in `names`, and
changes nothing. -/
def Answers (mnt : DriveTrait) (names : Set (List UInt8)) (d : Disk) (files : Set File) : Prop :=
  ∀ f : File, f.dir ∈ names → f.name ∈ names →
    ∃ r d', iNodeExists mnt d f.dir f.name f.kind = some (r, d') ∧ SameDisk d d' ∧
      (r = true ↔ f ∈ files)

/-- Every operation of the run returns, and `INodeExists` tells the files before and after each. -/
def Tells (mnt : DriveTrait) (names : Set (List UInt8)) : List Op → Disk → Set File → Prop
  | [], d, files => Answers mnt names d files
  | op :: ops, d, files => Answers mnt names d files ∧
      ∃ r d', exec mnt op d = some (r, d') ∧ Tells mnt names ops d' (track op r files)

/-! ## What the operations keep -/

/-- No index node in use lies under the `j`-th record. -/
def Clear (mnt : DriveTrait) (m : Store) (j : Nat) : Prop :=
  ∀ k ≤ lastSlot mnt, ∀ i < 16, dirSlice mnt m k i ≠ 0 → slotAt mnt (j + 1) ≤ dirSlice mnt m k i

/-- The slices of the records behind the `j`-th are empty. -/
def EmptyBehind (mnt : DriveTrait) (m : Store) (j : Nat) : Prop :=
  ∀ k ≤ lastSlot mnt, j < k → ∀ i < 16, dirSlice mnt m k i = 0

/-- A disk on which the lookup comes to every file, and every index node in use lies below the
cursor and apart from the others. -/
structure Kept (mnt : DriveTrait) (d : Disk) : Prop extends Searchable mnt d where
  apart : SlicesApart mnt d.bytes
  below : ∀ j ≤ lastSlot mnt, ∀ i < 16, dirSlice mnt d.bytes j i ≠ 0 →
    dirSlice mnt d.bytes j i + 512 ≤ startIN mnt d.bytes
  live : ∀ j ≤ lastSlot mnt, ∀ i < 16, dirSlice mnt d.bytes j i ≠ 0 → LiveTo mnt d.bytes j

theorem Kept.visible_iff (h : Kept mnt d) : Visible mnt d.bytes f ↔ FilePresent mnt d.bytes f := by
  constructor
  · rintro ⟨j, i, hf, -⟩
    exact ⟨j, i, hf⟩
  · rintro ⟨j, i, hf⟩
    exact ⟨j, i, hf, h.live j hf.le i hf.lt hf.used⟩

theorem Kept.packed (h : Kept mnt d) : Packed mnt d.bytes := ⟨h.apart, h.below⟩

/-- The slices behind a record without a hash are empty. -/
theorem Kept.emptyBehind (h : Kept mnt d) (hj : dirHash mnt d.bytes j = 0) :
    EmptyBehind mnt d.bytes j := by
  intro k hk hjk i hi
  by_contra hne
  exact h.live k hk i hi hne j (Nat.le_of_lt hjk) hj

/-! ## Directory operations -/

namespace DirEffect

variable (he : DirEffect mnt d.bytes m' dir del j)
include he

/-- A slice in use is one from before, in another record. -/
theorem used (hi : i < 16) (hne : dirSlice mnt m' k i ≠ 0) :
    k ≠ j ∧ dirSlice mnt m' k i = dirSlice mnt d.bytes k i := by
  have hkj : k ≠ j := by
    rintro rfl
    exact hne (he.slice i hi)
  exact ⟨hkj, he.slice_other k hkj i hi⟩

/-- The index nodes in use are not disturbed. -/
theorem node (hs : Shape mnt d.bytes) (hclear : Clear mnt d.bytes j) (hk : k ≤ lastSlot mnt)
    (hi : i < 16) (hne : dirSlice mnt d.bytes k i ≠ 0) :
    ∀ x < 512, m' (dirSlice mnt d.bytes k i + x) = d.bytes (dirSlice mnt d.bytes k i + x) := by
  intro x _
  have hge := hs.slice_ge hk hi hne
  have hlow := hclear k hk i hi hne
  exact he.off _ (.inr (by omega)) (.inr (by omega))

/-- The files are those in the other records. -/
theorem fileAt_iff (hs : Shape mnt d.bytes) (hclear : Clear mnt d.bytes j) :
    FileAt mnt m' f k i ↔ k ≠ j ∧ FileAt mnt d.bytes f k i := by
  constructor
  · intro h
    obtain ⟨hkj, hslice⟩ := he.used h.lt h.used
    have hne : dirSlice mnt d.bytes k i ≠ 0 := by
      rw [← hslice]
      exact h.used
    refine ⟨hkj, h.congr (he.hash_other k hkj).symm hslice.symm fun x hx => ?_⟩
    rw [hslice]
    exact (he.node hs hclear h.le h.lt hne x hx).symm
  · rintro ⟨hkj, h⟩
    exact h.congr (he.hash_other k hkj) (he.slice_other k hkj i h.lt)
      (he.node hs hclear h.le h.lt h.used)

theorem searchable (hs : Searchable mnt d) (hs' : Shape mnt m') (hd' : d'.bytes = m')
    (herr : d'.errGlobal ≠ kErrorDiskIsCorrupted) : Searchable mnt d' := by
  subst hd'
  refine ⟨hs', herr, fun x hx => ?_, ?_⟩
  · rw [he.off x (.inl hx) (.inl hx)]
    exact hs.first x hx
  · rw [he.startIN]
    exact hs.cursor

theorem kept (hk : Kept mnt d) (hs' : Searchable mnt d') (hd' : d'.bytes = m')
    (hbehind : EmptyBehind mnt d.bytes j) : Kept mnt d' := by
  subst hd'
  obtain ⟨hapart, hbelow⟩ := hk.packed.of_used he.startIN fun k _ i hi hu => (he.used hi hu).2
  refine ⟨hs', hapart, hbelow, fun k hkl i hi hu l hl => ?_⟩
  obtain ⟨-, hslice⟩ := he.used hi hu
  rw [hslice] at hu
  have hkj : k < j := by
    by_contra hge
    have hne : k ≠ j := (he.used hi (hslice.trans_ne hu)).1
    exact hu (hbehind k hkl (by omega) i hi)
  rw [he.hash_other l (by omega)]
  exact hk.live k hkl i hi hu l hl

end DirEffect

/-- A new directory comes with no file, and no file goes. -/
theorem DirEffect.files_created (he : DirEffect mnt d.bytes m' dir false j)
    (hs : Shape mnt d.bytes) (hclear : Clear mnt d.bytes j) (hj : dirHash mnt d.bytes j = 0) :
    FilePresent mnt m' f ↔ FilePresent mnt d.bytes f := by
  constructor
  · rintro ⟨k, i, h⟩
    exact ⟨k, i, ((he.fileAt_iff hs hclear).mp h).2⟩
  · rintro ⟨k, i, h⟩
    refine ⟨k, i, (he.fileAt_iff hs hclear).mpr ⟨?_, h⟩⟩
    rintro rfl
    exact h.live hj

/-- The files that go with a directory are those in it. -/
theorem DirEffect.files_removed (he : DirEffect mnt d.bytes m' dir true j)
    (hs : Shape mnt d.bytes) (hclear : Clear mnt d.bytes j) (hbehind : EmptyBehind mnt d.bytes j)
    (ht : IndTarget mnt d.bytes dir true j) :
    FilePresent mnt m' f ↔ hashPath f.dir ≠ hashPath dir ∧ FilePresent mnt d.bytes f := by
  have hdir : hashPath dir = dirHash mnt d.bytes j := by
    have hw := ht.wanted
    simp only [indWanted, indNamed, if_true, Bool.and_eq_true, decide_eq_true_eq] at hw
    exact hw.2
  constructor
  · rintro ⟨k, i, h⟩
    obtain ⟨hkj, h⟩ := (he.fileAt_iff hs hclear).mp h
    refine ⟨fun hsame => ?_, k, i, h⟩
    -- a second record of the directory would lie behind the first
    have hnamed : indNamed dir (slotRec mnt d.bytes k) = true :=
      ((hs.slot k h.le).indNamed_iff h.live).mpr (hsame.symm.trans h.dir)
    have hnot : ¬ k < j := by
      intro hlt
      have hfirst := ht.first k hlt
      rw [indWanted, if_pos rfl, hnamed] at hfirst
      cases hfirst
    exact h.used (hbehind k h.le (by omega) i h.lt)
  · rintro ⟨hne, k, i, h⟩
    refine ⟨k, i, (he.fileAt_iff hs hclear).mpr ⟨?_, h⟩⟩
    rintro rfl
    exact hne (h.dir.trans hdir.symm)

/-! ## File operations -/

/-- The two names and the kind are the same to the parser. -/
structure SameFile (f g : File) : Prop where
  dir : hashPath f.dir = hashPath g.dir
  name : hashPath f.name = hashPath g.name
  kind : f.kind = g.kind

theorem FileAt.same (h : FileAt mnt m f j i) (hs : SameFile g f) : FileAt mnt m g j i :=
  ⟨h.le, h.lt, h.live, hs.dir.trans h.dir, h.used, h.name.trans hs.name.symm,
    h.kind.trans (congrArg UInt8.toNat hs.kind.symm)⟩

/-- A slice leads to one file. -/
theorem FileAt.unique (h : FileAt mnt m f j i) (h' : FileAt mnt m g j i) : SameFile f g :=
  ⟨h.dir.trans h'.dir.symm, h.name.symm.trans h'.name,
    UInt8.toNat_inj.mp (h.kind.symm.trans h'.kind)⟩

theorem SameFile.symm (h : SameFile f g) : SameFile g f := ⟨h.dir.symm, h.name.symm, h.kind.symm⟩

section
variable (hk : Kept mnt d)
include hk

/-- A creation takes the index node at the cursor, which is apart from those in use. -/
theorem Kept.node_apart (hkl : k ≤ lastSlot mnt) (hl : l < 16)
    (hne : dirSlice mnt d.bytes k l ≠ 0) :
    dirSlice mnt d.bytes k l + 512 ≤ startIN mnt d.bytes ∨
      startIN mnt d.bytes + 512 ≤ dirSlice mnt d.bytes k l := .inl (hk.below k hkl l hl hne)

theorem create_kept (hr : Roomy mnt)
    (he : SliceEffect mnt d.bytes d'.bytes j i (startIN mnt d.bytes) (startIN mnt d.bytes)
      (sealBootNode (bumpCursors (bootRec mnt d.bytes))))
    (hs' : Shape mnt d'.bytes) (herr : d'.errGlobal ≠ kErrorDiskIsCorrupted)
    (hlive : LiveTo mnt d.bytes j) (hj : j ≤ lastSlot mnt)
    (hroom : startIN mnt d.bytes + 512 ≤ endIN mnt) : Kept mnt d' := by
  have hin : startIN mnt d'.bytes = startIN mnt d.bytes + 512 := he.startIN_create hr hk.cursor
  obtain ⟨hapart, hbelow⟩ := hk.packed.create he hin
  refine ⟨⟨hs', herr, fun x hx => ?_, ?_⟩, hapart, hbelow, fun k hkl l hl hu k' hk' => ?_⟩
  · have hge : endIND mnt ≤ startIN mnt d.bytes := hk.shape.boot.startIN
    rw [he.first hr hge hx]
    exact hk.first x hx
  · rw [hin]
    exact hroom
  · rw [he.hash k' (Nat.le_trans hk' hkl)]
    rcases he.used_after hkl hl hu with ⟨rfl, rfl, -⟩ | ⟨-, -, hu⟩
    · exact hlive k' hk'
    · exact hk.live k hkl l hl hu k' hk'

/-- A creation makes its file and no other. -/
theorem create_files (he : SliceEffect mnt d.bytes m' j i (startIN mnt d.bytes)
      (startIN mnt d.bytes) b) (hnew : FileAt mnt m' g j i)
    (hempty : dirSlice mnt d.bytes j i = 0) :
    FilePresent mnt m' f ↔ SameFile f g ∨ FilePresent mnt d.bytes f := by
  have hother : ∀ k l, k ≠ j ∨ l ≠ i → (FileAt mnt m' f k l ↔ FileAt mnt d.bytes f k l) :=
    fun k l hkl => he.fileAt_iff hk.shape hkl fun hkle hl hne => hk.node_apart hkle hl hne
  constructor
  · rintro ⟨k, l, h⟩
    by_cases hkl : k ≠ j ∨ l ≠ i
    · exact .inr ⟨k, l, (hother k l hkl).mp h⟩
    · obtain ⟨rfl, rfl⟩ : k = j ∧ l = i := by omega
      exact .inl (h.unique hnew)
  · rintro (hsame | ⟨k, l, h⟩)
    · exact ⟨j, i, hnew.same hsame⟩
    · refine ⟨k, l, (hother k l ?_).mpr h⟩
      by_contra hkl
      obtain ⟨rfl, rfl⟩ : k = j ∧ l = i := by omega
      exact h.used hempty

theorem delete_kept (hr : Roomy mnt)
    (he : SliceEffect mnt d.bytes d'.bytes j i (dirSlice mnt d.bytes j i) 0
      (sealBootNode (bootRec mnt d.bytes)))
    (hs' : Shape mnt d'.bytes) (herr : d'.errGlobal ≠ kErrorDiskIsCorrupted)
    (hj : j ≤ lastSlot mnt) (hi : i < 16) (hne : dirSlice mnt d.bytes j i ≠ 0) : Kept mnt d' := by
  have hin : startIN mnt d'.bytes = startIN mnt d.bytes := he.startIN_delete
  obtain ⟨hapart, hbelow⟩ := hk.packed.of_used hin fun k hkl l hl hu => he.used_before hkl hl hu
  refine ⟨⟨hs', herr, fun x hx => ?_, ?_⟩, hapart, hbelow, fun k hkl l hl hu k' hk' => ?_⟩
  · rw [he.first hr (hk.shape.slice_ge hj hi hne) hx]
    exact hk.first x hx
  · rw [hin]
    exact hk.cursor
  · rw [he.used_before hkl hl hu] at hu
    rw [he.hash k' (Nat.le_trans hk' hkl)]
    exact hk.live k hkl l hl hu k' hk'

/-- A deletion removes its file and no other, when the slice is the only one that leads to it. -/
theorem delete_files (he : SliceEffect mnt d.bytes m' j i (dirSlice mnt d.bytes j i) 0 b)
    (hj : j ≤ lastSlot mnt) (hi : i < 16) (hne : dirSlice mnt d.bytes j i ≠ 0)
    (honly : ∀ k l, FileAt mnt d.bytes g k l ↔ k = j ∧ l = i) :
    FilePresent mnt m' f ↔ ¬ SameFile f g ∧ FilePresent mnt d.bytes f := by
  have hiff : ∀ k l, FileAt mnt m' f k l ↔ (k ≠ j ∨ l ≠ i) ∧ FileAt mnt d.bytes f k l :=
    fun k l => delete_fileAt_iff hk.shape hk.apart hj hi hne he
  constructor
  · rintro ⟨k, l, h⟩
    obtain ⟨hkl, h⟩ := (hiff k l).mp h
    refine ⟨fun hsame => ?_, k, l, h⟩
    have := (honly k l).mp (h.same hsame.symm)
    omega
  · rintro ⟨hdiff, k, l, h⟩
    refine ⟨k, l, (hiff k l).mpr ⟨?_, h⟩⟩
    by_contra hkl
    obtain ⟨rfl, rfl⟩ : k = j ∧ l = i := by omega
    exact hdiff (h.unique ((honly k l).mpr ⟨rfl, rfl⟩))

end

/-! ## Steps -/

/-- An operation that finds something to work on does not go wrong. -/
def Harmless (mnt : DriveTrait) (d : Disk) : Op → Prop
  | .createDir _ dir => ∀ j, IndTarget mnt d.bytes dir false j → Clear mnt d.bytes j
  | .removeDir _ dir => ∀ j, IndTarget mnt d.bytes dir true j →
      Clear mnt d.bytes j ∧ EmptyBehind mnt d.bytes j
  | .createFile _ dir name _ => ∀ j i, SliceTarget mnt d dir (hashPath name) false j i →
      startIN mnt d.bytes + 512 ≤ endIN mnt ∧ LiveTo mnt d.bytes j
  | .deleteFile _ dir name kind => ∀ j i, SliceTarget mnt d dir (hashPath name) true j i →
      ∀ k l, FileAt mnt d.bytes ⟨dir, name, kind⟩ k l ↔ k = j ∧ l = i

/-- The operation finds nothing to work on, or does not go wrong. -/
def Sound (mnt : DriveTrait) (d : Disk) (op : Op) : Prop := Acts mnt d op → Harmless mnt d op

/-- Every operation of the run is sound on the disk it is made on. -/
def AllSound (mnt : DriveTrait) : List Op → Disk → Prop
  | [], _ => True
  | op :: ops, d => Sound mnt d op ∧
      ∀ r d', exec mnt op d = some (r, d') → AllSound mnt ops d'

/-- The files after an operation that has taken effect, by what the parser tells apart. -/
def AfterYes (mnt : DriveTrait) (d : Disk) (f : File) : Op → Prop
  | .createDir _ _ => FilePresent mnt d.bytes f
  | .removeDir _ dir => hashPath f.dir ≠ hashPath dir ∧ FilePresent mnt d.bytes f
  | .createFile _ dir name kind => SameFile f ⟨dir, name, kind⟩ ∨ FilePresent mnt d.bytes f
  | .deleteFile _ dir name kind => ¬ SameFile f ⟨dir, name, kind⟩ ∧ FilePresent mnt d.bytes f

/-- **A sound operation** that takes effect keeps the disk in order, and its files are the ones it
should have. -/
theorem Written.kept (hr : Roomy mnt) (hk : Kept mnt d) (hw : Written mnt d op w)
    (hbal : UpToBalance mnt w.bytes d'.bytes) (herr : d'.errGlobal ≠ kErrorDiskIsCorrupted)
    (hsound : Harmless mnt d op) (hnames : ∀ x ∈ op.names, hashPath x ≠ 0) :
    Kept mnt d' ∧ ∀ f, FilePresent mnt d'.bytes f ↔ AfterYes mnt d f op := by
  have hs' : Shape mnt d'.bytes := hbal.shape hr (hw.shape hr hk.shape)
  cases op with
  | createDir flags dir =>
      obtain ⟨j, color, ht, hred, rfl⟩ := hw
      have he := (indWritten_effect (d := d) (j := j) hr dir flags false color).upTo hr hbal
      have hclear := hsound j ht
      have hfree : dirHash mnt d.bytes j = 0 :=
        (indWanted_create_iff (hk.shape.slot j ht.le)).mp ht.wanted
      exact ⟨he.kept hk (he.searchable hk.toSearchable hs' rfl herr) rfl (hk.emptyBehind hfree),
        fun f => he.files_created hk.shape hclear hfree⟩
  | removeDir flags dir =>
      obtain ⟨j, color, ht, hred, rfl⟩ := hw
      have he := (indWritten_effect (d := d) (j := j) hr dir flags true color).upTo hr hbal
      obtain ⟨hclear, hbehind⟩ := hsound j ht
      exact ⟨he.kept hk (he.searchable hk.toSearchable hs' rfl herr) rfl hbehind,
        fun f => he.files_removed hk.shape hclear hbehind ht⟩
  | createFile flags dir name kind =>
      obtain ⟨-, j, i, ht, he, hnode⟩ := hw.create_effect hr hk.shape hbal
      have hnew : FileAt mnt d'.bytes ⟨dir, name, kind⟩ j i :=
        create_fileAt hk.shape ht he hnode (hnames dir (.inl rfl))
      obtain ⟨hroom, hlive⟩ := hsound j i ht
      exact ⟨create_kept hk hr he hs' herr hlive ht.le hroom,
        fun f => create_files hk he hnew ht.empty⟩
  | deleteFile flags dir name kind =>
      obtain ⟨-, j, i, ht, he⟩ := hw.delete_effect hr hk.shape hbal
      exact ⟨delete_kept hk hr he hs' herr ht.le ht.lt ht.used,
        fun f => delete_files hk he ht.le ht.lt ht.used (hsound j i ht)⟩

/-- An error that is not the fatal one changes nothing. -/
theorem Kept.setErr (hk : Kept mnt d) {e : Int} (he : e ≠ kErrorDiskIsCorrupted) :
    Kept mnt (d.setErr e) :=
  ⟨⟨hk.shape, he, hk.first, hk.cursor⟩, hk.apart, hk.below, hk.live⟩

/-! ## Runs -/

/-- The set holds the files of the disk, as far as their names are among `names`. -/
structure Recorded (mnt : DriveTrait) (names : Set (List UInt8)) (d : Disk) (files : Set File) :
    Prop where
  iff : ∀ f : File, f.dir ∈ names → f.name ∈ names → (f ∈ files ↔ FilePresent mnt d.bytes f)
  short : ∀ f ∈ files, ShortNames f

section
variable {names : Set (List UInt8)} {files : Set File} (hinj : Set.InjOn hashPath names)
include hinj

/-- Names that the parser does not tell apart are the same. -/
theorem SameFile.eq (h : SameFile f g) (hf : f.dir ∈ names) (hf' : f.name ∈ names)
    (hg : g.dir ∈ names) (hg' : g.name ∈ names) : f = g := by
  have hdir := hinj hf hg h.dir
  have hname := hinj hf' hg' h.name
  have hkind := h.kind
  cases f
  cases g
  subst hdir hname hkind
  rfl

theorem Recorded.step (hrec : Recorded mnt names d files) (hop : op.names ⊆ names)
    (hacts : Acts mnt d op) (hafter : ∀ f, FilePresent mnt d'.bytes f ↔ AfterYes mnt d f op) :
    Recorded mnt names d' (track op true files) := by
  cases op with
  | createDir flags dir =>
      exact ⟨fun f hd hn => (hrec.iff f hd hn).trans (hafter f).symm, hrec.short⟩
  | removeDir flags dir =>
      refine ⟨fun f hd hn => ?_, fun f hf => hrec.short f hf.1⟩
      -- the hashes of recorded names tell the names apart
      have hdir : f.dir ≠ dir ↔ hashPath f.dir ≠ hashPath dir :=
        not_congr (hinj.eq_iff hd (hop rfl)).symm
      rw [hafter f]
      exact and_comm.trans (and_congr hdir (hrec.iff f hd hn))
  | createFile flags dir name kind =>
      have hmem : dir ∈ names ∧ name ∈ names := ⟨hop (.inl rfl), hop (.inr rfl)⟩
      constructor
      · intro f hd hn
        have hsame : f = ⟨dir, name, kind⟩ ↔ SameFile f ⟨dir, name, kind⟩ := by
          constructor
          · rintro rfl
            exact ⟨rfl, rfl, rfl⟩
          · exact fun h => h.eq hinj hd hn hmem.1 hmem.2
        rw [hafter f]
        exact or_congr hsame (hrec.iff f hd hn)
      · rintro f (rfl | hf)
        · exact ⟨hacts.1.2.1, hacts.1.1⟩
        · exact hrec.short f hf
  | deleteFile flags dir name kind =>
      have hmem : dir ∈ names ∧ name ∈ names := ⟨hop (.inl rfl), hop (.inr rfl)⟩
      refine ⟨fun f hd hn => ?_, fun f hf => hrec.short f hf.1⟩
      have hsame : f ≠ ⟨dir, name, kind⟩ ↔ ¬ SameFile f ⟨dir, name, kind⟩ := by
        apply not_congr
        constructor
        · rintro rfl
          exact ⟨rfl, rfl, rfl⟩
        · exact fun h => h.eq hinj hd hn hmem.1 hmem.2
      rw [hafter f]
      exact and_comm.trans (and_congr hsame (hrec.iff f hd hn))

end

/-- A NO leaves the record as it is. -/
theorem track_no {files : Set File} : track op false files = files := by
  cases op <;> rfl

section
variable {names : Set (List UInt8)} {files : Set File} (hr : Roomy mnt)
  (hzero : ∀ x ∈ names, hashPath x ≠ 0)
include hr hzero

theorem Kept.answers (hk : Kept mnt d) (hrec : Recorded mnt names d files) :
    Answers mnt names d files := by
  intro f hd hn
  obtain ⟨r, e, hexists, -, hiff⟩ := exists_spec hr hk.toSearchable (hzero f.name hn)
  refine ⟨r, d.setErr e, hexists, .setErr, ?_⟩
  rw [hiff, hk.visible_iff, hrec.iff f hd hn]
  exact ⟨fun h => h.2, fun h => ⟨hrec.short f ((hrec.iff f hd hn).mpr h), h⟩⟩

/-- **Every state of a sound run** from a disk in order. -/
theorem Kept.tells (hinj : Set.InjOn hashPath names) (ops : List Op)
    (hops : ∀ op ∈ ops, op.names ⊆ names) (hk : Kept mnt d) (hrec : Recorded mnt names d files)
    (hsound : AllSound mnt ops d) : Tells mnt names ops d files := by
  induction ops generalizing d files with
  | nil => exact hk.answers hr hzero hrec
  | cons op ops ih =>
      have hop : op.names ⊆ names := hops op List.mem_cons_self
      have hops' : ∀ op ∈ ops, op.names ⊆ names := fun o ho => hops o (.tail _ ho)
      refine ⟨hk.answers hr hzero hrec, ?_⟩
      rcases exec_cases hr hk.shape op with ⟨-, e, he, hexec⟩ | ⟨hacts, w, d', hw, hexec, hbal⟩
      · refine ⟨false, _, hexec, ?_⟩
        rw [track_no]
        exact ih hops' (hk.setErr he) ⟨hrec.iff, hrec.short⟩ (hsound.2 _ _ hexec)
      · have herr : d'.errGlobal ≠ kErrorDiskIsCorrupted := by
          rw [hbal.err]
          decide
        obtain ⟨hk', hafter⟩ := hw.kept hr hk hbal.bytes herr (hsound.1 hacts)
          fun x hx => hzero x (hop hx)
        exact ⟨true, d', hexec, ih hops' hk' (hrec.step hinj hop hacts hafter)
          (hsound.2 _ _ hexec)⟩

end

/-! ## From `Format` on -/

theorem Started.kept {hs : List Nat} (h : Started mnt hs d)
    (herr : d.errGlobal ≠ kErrorDiskIsCorrupted) : Kept mnt d := by
  have hle : endIND mnt ≤ endIN mnt := endIND_le_endIN mnt
  refine ⟨⟨h.shape, herr, h.first, ?_⟩, ?_, ?_, ?_⟩
  · rw [h.startIN]
    exact hle
  · exact fun j hj i hi _ _ _ _ _ hu => absurd (h.slices j hj i hi) hu
  · exact fun j hj i hi hu => absurd (h.slices j hj i hi) hu
  · exact fun j hj i hi hu => absurd (h.slices j hj i hi) hu

/-- There is no file on a disk that has just been formatted. -/
theorem Started.recorded {hs : List Nat} {names : Set (List UInt8)} (h : Started mnt hs d) :
    Recorded mnt names d ∅ := by
  refine ⟨fun f _ _ => ⟨fun hf => absurd hf (Set.notMem_empty f), ?_⟩, fun f hf => ?_⟩
  · rintro ⟨j, i, hf⟩
    exact absurd (h.slices j hf.le i hf.lt) hf.used
  · exact absurd hf (Set.notMem_empty f)

/-- **Files are kept.** `Format` makes a disk of a blank drive, and in every run of sound
operations with names that have hashes of their own, `INodeExists` tells the files that have been
created and not removed, after every operation. -/
theorem files_kept (hr : Roomy mnt) (hb : Blank mnt d.bytes) (flags : Nat)
    (volName : List UInt8) (names : Set (List UInt8)) (hinj : Set.InjOn hashPath names)
    (hzero : ∀ x ∈ names, hashPath x ≠ 0) :
    ∃ d', format mnt d flags volName = some (true, d') ∧
      ∀ ops : List Op, (∀ op ∈ ops, op.names ⊆ names) → AllSound mnt ops d' →
        Tells mnt names ops d' ∅ := by
  obtain ⟨d', hformat, herr, h⟩ := format_blank hr hb flags volName
  have hk : Kept mnt d' := h.kept (by rw [herr]; decide)
  exact ⟨d', hformat, fun ops hops hsound => hk.tells hr hzero hinj ops hops h.recorded hsound⟩

/-! ## The first file of a fresh disk -/

theorem kFileMap_nodup : (kFileMap.map hashPath).Nodup := by decide +kernel

section
variable (h : Started mnt (kFileMap.map hashPath) d)
include h

/-- A record with a hash is one of the first seven. -/
theorem Started.lt_of_live (hj : j ≤ lastSlot mnt) (hne : dirHash mnt d.bytes j ≠ 0) :
    j < (kFileMap.map hashPath).length := by
  by_contra hge
  exact hne (h.free j (by omega) hj)

theorem Started.liveTo (hj : j ≤ lastSlot mnt) (hne : dirHash mnt d.bytes j ≠ 0) :
    LiveTo mnt d.bytes j := by
  intro k hk
  have hlt := h.lt_of_live hj hne
  rw [h.live k (by omega)]
  simp only [List.getElem_map]
  exact kFileMap_hashes _ (List.getElem_mem _)

/-- A default directory is in its own record and in no other. -/
theorem Started.slot (hi : i < kFileMap.length) (hj : j ≤ lastSlot mnt)
    (hdir : dirHash mnt d.bytes j = hashPath kFileMap[i]) : j = i := by
  have hne : dirHash mnt d.bytes j ≠ 0 := by
    rw [hdir]
    exact kFileMap_hashes _ (List.getElem_mem hi)
  have hlt := h.lt_of_live hj hne
  have hi' : i < (kFileMap.map hashPath).length := by
    rw [List.length_map]
    exact hi
  rw [h.live j hlt] at hdir
  apply (kFileMap_nodup.getElem_inj_iff (i := j) (j := i)).mp
  rw [hdir, List.getElem_map (h := hi')]

/-- On a fresh disk there is room for a file in each of the default directories. -/
theorem Started.acts_file (hr : Roomy mnt) (hsize : endIN mnt ≤ mnt.size) (hmem : dir ∈ kFileMap)
    (hname : FileName dir name) : Acts mnt d (.createFile flags dir name kind) := by
  obtain ⟨i, hi, rfl⟩ := List.getElem_of_mem hmem
  have hslots := hr.slots
  have hlen : kFileMap.length = 7 := rfl
  have hi' : i ≤ lastSlot mnt := by omega
  have hcur : HefsBootNode.fStartIN.get (bootRec mnt d.bytes) = endIND mnt := h.startIN
  refine ⟨hname, ⟨?_, ?_⟩, i, hi', 0, by decide, ?_, ?_⟩
  · rw [hcur, h.shape.boot.endIN]
    exact endIND_le_endIN mnt
  · rw [h.startBlock, h.endBlock]
    exact hsize
  · have hhash := h.live i (by rw [List.length_map]; exact hi)
    rw [List.getElem_map] at hhash
    exact hhash.symm
  · have hz : (fINSlices 0).get (slotRec mnt d.bytes i) = 0 := h.slices i hi' 0 (by decide)
    simp [inWanted, hz]

theorem Started.sound_file (hroom : endIND mnt + 512 ≤ endIN mnt) (hdir : hashPath dir ≠ 0) :
    Sound mnt d (.createFile flags dir name kind) := by
  intro _ j i ht
  refine ⟨by rw [h.startIN]; exact hroom, h.liveTo ht.le ?_⟩
  rw [dirHash, ← ht.usable.1]
  exact hdir

/-- **The first file**, made in one of the default directories, is the only one, and the records
keep their hashes. -/
theorem Started.first_file (dir name : List UInt8) (hr : Roomy mnt) (herr : d.errGlobal ≠ kErrorDiskIsCorrupted)
    (hsize : endIN mnt ≤ mnt.size) (hroom : endIND mnt + 512 ≤ endIN mnt) (hmem : dir ∈ kFileMap)
    (hname : FileName dir name) (hhash : hashPath name ≠ 0) (flags : Nat) (kind : UInt8) :
    ∃ d', createINode mnt d flags dir name kind = some (true, d') ∧ Kept mnt d' ∧
      (∀ f, FilePresent mnt d'.bytes f ↔ SameFile f ⟨dir, name, kind⟩) ∧
      ∀ k ≤ lastSlot mnt, dirHash mnt d'.bytes k = dirHash mnt d.bytes k := by
  have hdir : hashPath dir ≠ 0 := kFileMap_hashes dir hmem
  have hacts : Acts mnt d (.createFile flags dir name kind) := h.acts_file hr hsize hmem hname
  rcases exec_cases hr h.shape (.createFile flags dir name kind) with
    ⟨hidle, -⟩ | ⟨-, w, d', hw, hexec, hbal⟩
  · exact absurd hacts hidle
  have hnone : ∀ f, ¬ FilePresent mnt d.bytes f := by
    rintro f ⟨j, i, hf⟩
    exact hf.used (h.slices j hf.le i hf.lt)
  obtain ⟨hk, hafter⟩ := hw.kept hr (h.kept herr) hbal.bytes (by rw [hbal.err]; decide)
    (h.sound_file hroom hdir hacts) (by rintro x (rfl | rfl); exacts [hdir, hhash])
  refine ⟨d', hexec, hk, fun f => (hafter f).trans (or_iff_left (hnone f)), fun k hk => ?_⟩
  obtain ⟨-, j, i, -, he, -⟩ := hw.create_effect hr h.shape hbal.bytes
  exact he.hash k hk

/-- A default directory can be removed; the record it was in is left without a hash. -/
theorem Started.removed_default {d₂ : Disk} (hr : Roomy mnt) (hs : Searchable mnt d₂)
    (hsame : ∀ k ≤ lastSlot mnt, dirHash mnt d₂.bytes k = dirHash mnt d.bytes k)
    (hi : i < kFileMap.length) (flags : Nat) :
    ∃ d', removeINodeDirectory mnt d₂ flags kFileMap[i] = some (true, d') ∧ Searchable mnt d' ∧
      dirHash mnt d'.bytes i = 0 ∧
      ∀ k, k ≠ i → dirHash mnt d'.bytes k = dirHash mnt d₂.bytes k := by
  have hlen : kFileMap.length = 7 := rfl
  have hslots := hr.slots
  have hi' : i ≤ lastSlot mnt := by omega
  have hlive : dirHash mnt d.bytes i = hashPath kFileMap[i] := by
    rw [h.live i (by rw [List.length_map]; exact hi), List.getElem_map]
  have hne : dirHash mnt d₂.bytes i ≠ 0 := by
    rw [hsame i hi', hlive]
    exact kFileMap_hashes _ (List.getElem_mem hi)
  have hnamed : indNamed kFileMap[i] (slotRec mnt d₂.bytes i) = true :=
    ((hs.shape.slot i hi').indNamed_iff hne).mpr ((hsame i hi').trans hlive).symm
  rcases exec_cases hr hs.shape (.removeDir flags kFileMap[i]) with
    ⟨hidle, -⟩ | ⟨-, w, d', ⟨j, color, ht, hred, rfl⟩, hexec, hbal⟩
  · exact absurd ⟨kFileMap_names _ (List.getElem_mem hi), i, hi', hnamed⟩ hidle
  have hj : j = i := by
    have hw := ht.wanted
    simp only [indWanted, indNamed, if_true, Bool.and_eq_true, decide_eq_true_eq] at hw
    exact h.slot hi ht.le ((hsame j ht.le).symm.trans hw.2.symm)
  subst hj
  have he := (indWritten_effect (d := d₂) (j := j) hr kFileMap[j] flags true color).upTo hr
    hbal.bytes
  have hs' := hbal.bytes.shape hr (indWritten_shape hr hs.shape ht.le hred)
  exact ⟨d', hexec, he.searchable hs hs' rfl (by rw [hbal.err]; decide), he.hash, he.hash_other⟩

end

/-! ## On a drive of one gibibyte -/

theorem roomIN_gib : endIND gibDrive + 512 ≤ endIN gibDrive := by
  rw [endIN, endIND, inodeMax, dirMax]
  decide

theorem files_kept_gib :
    ∃ d₁ d₂, format gibDrive blankDisk 0x50 [] = some (true, d₁) ∧
      createINode gibDrive d₁ 0 [0x2F] [0x61] 0 = some (true, d₂) ∧
      Tells gibDrive {[0x2F], [0x61]} [.createFile 0 [0x2F] [0x61] 0] d₁ ∅ := by
  have hzero : ∀ x ∈ ({[0x2F], [0x61]} : Set (List UInt8)), hashPath x ≠ 0 := by
    rintro x (rfl | rfl) <;> decide +kernel
  have hinj : Set.InjOn hashPath ({[0x2F], [0x61]} : Set (List UInt8)) := by
    have hne : hashPath [0x2F] ≠ hashPath [0x61] := by decide +kernel
    rintro x (rfl | rfl) y (rfl | rfl) h
    exacts [rfl, absurd h hne, absurd h.symm hne, rfl]
  obtain ⟨d₁, hformat, herr, h⟩ := format_blank gibDrive_roomy blankDisk_blank 0x50 []
  obtain ⟨d', hformat', htells⟩ :=
    files_kept gibDrive_roomy blankDisk_blank 0x50 [] {[0x2F], [0x61]} hinj hzero
  obtain rfl : d₁ = d' := by
    rw [hformat] at hformat'
    cases hformat'
    rfl
  obtain ⟨d₂, hexec, -⟩ := h.first_file [0x2F] [0x61] gibDrive_roomy
    (by rw [herr]; decide) endIN_gib roomIN_gib (by decide) (by decide) (by decide +kernel) 0 0
  refine ⟨d₁, d₂, hformat, hexec, htells _ ?_ ⟨?_, fun _ _ _ => trivial⟩⟩
  · rintro op (_ | ⟨_, hop⟩)
    · exact Set.Subset.refl _
    · cases hop
  · exact h.sound_file roomIN_gib (by decide +kernel)

/-- `/boot` is removed, and the file in `/system` is gone. -/
theorem file_lost :
    ∃ d₁ d₂ d₃, format gibDrive blankDisk 0x50 [] = some (true, d₁) ∧
      createINode gibDrive d₁ 0 kFileMap[2] [0x61] 0 = some (true, d₂) ∧
      (∃ d', iNodeExists gibDrive d₂ kFileMap[2] [0x61] 0 = some (true, d')) ∧
      removeINodeDirectory gibDrive d₂ 0 kFileMap[1] = some (true, d₃) ∧
      (∃ d', iNodeExists gibDrive d₃ kFileMap[2] [0x61] 0 = some (false, d')) ∧
      [kFileMap[1], kFileMap[2], [0x61]].Pairwise (fun x y => hashPath x ≠ hashPath y) ∧
      ∀ x ∈ [kFileMap[1], kFileMap[2], [0x61]], hashPath x ≠ 0 := by
  obtain ⟨d₁, hformat, herr, h⟩ := format_blank gibDrive_roomy blankDisk_blank 0x50 []
  have hname : hashPath [0x61] ≠ 0 := by decide +kernel
  obtain ⟨d₂, hcreate, hk, hfiles, hsame⟩ := h.first_file kFileMap[2] [0x61]
    gibDrive_roomy (by rw [herr]; decide) endIN_gib roomIN_gib (by decide) (by decide) hname 0 0
  obtain ⟨d₃, hremove, hs₃, hgone, hother⟩ :=
    h.removed_default gibDrive_roomy hk.toSearchable hsame (i := 1) (by decide) 0
  obtain ⟨r₂, e₂, hexists₂, -, hr₂⟩ := exists_spec (f := ⟨kFileMap[2], [0x61], 0⟩) gibDrive_roomy
    hk.toSearchable hname
  obtain ⟨r₃, e₃, hexists₃, -, hr₃⟩ := exists_spec (f := ⟨kFileMap[2], [0x61], 0⟩) gibDrive_roomy
    hs₃ hname
  have hthere : r₂ = true := by
    rw [hr₂, hk.visible_iff, hfiles]
    exact ⟨⟨by decide, by decide⟩, rfl, rfl, rfl⟩
  have hlost : r₃ = false := by
    apply Bool.eq_false_iff.mpr
    rw [ne_eq, hr₃]
    rintro ⟨-, j, i, hf, hlive⟩
    -- the file's directory is alive; it is the removed one that stops the search
    have hj : j ≠ 1 := by
      rintro rfl
      exact hf.live hgone
    have hdir : dirHash gibDrive d₁.bytes j = hashPath kFileMap[2] := by
      rw [← hsame j hf.le, ← hother j hj]
      exact hf.dir.symm
    obtain rfl := h.slot (i := 2) (by decide) hf.le hdir
    exact hlive 1 (by decide) hgone
  subst hthere hlost
  exact ⟨d₁, d₂, d₃, hformat, hcreate, ⟨_, hexists₂⟩, hremove, ⟨_, hexists₃⟩, by decide +kernel,
    by decide +kernel⟩

end NeKernel.FS
