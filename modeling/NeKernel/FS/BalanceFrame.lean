import NeKernel.FS.FileContents
import NeKernel.Lib.Runs

/-!
# What a rebalancing leaves alone

On a disk of the right shape a rebalancing changes checksums, the colour of the first record and the
record at 512, and nothing of this decides about a lookup (`UpToBalance.leavesAlone`). Every disk of a run
has the right shape, those between an update and its rebalancing included: the writes of files only go
behind the index nodes (`Orderly`).

All of it needs that nothing lies at 512. A drive whose partition starts there, as those that the loader
formats do, has its boot node there: the first rebalancing writes over it.
-/

namespace NeKernel.FS

open ByteStore Scan Detail HeFileSystemParser HefsIndexNodeDirectory Runs

variable {mnt : DriveTrait} {m m' : Store} {d d' w s : Disk} {a : Nat} {dir name : List UInt8}
  {kind : UInt8} {op : Op} {c : Call}

/-! ## What decides about a lookup -/

/-- The directory records agree in what the scans look at. -/
structure SameEntry (r r' : Store) : Prop where
  hash : fHashPath.get r' = fHashPath.get r
  slices : ∀ i < kOpenHeFSSliceCount, (fINSlices i).get r' = (fINSlices i).get r
  entryCount : fEntryCount.get r' = fEntryCount.get r
  created : fCreated.get r' = fCreated.get r
  deleted : fDeleted.get r' = fDeleted.get r

/-- The index nodes have the same bytes. -/
def SameNode (r r' : Store) : Prop := ∀ i < HefsIndexNode.size, r' i = r i

/-- The boot node and the directory records are as they were, and so is every lookup, whatever the error
was before it. -/
structure LeavesAlone (mnt : DriveTrait) (d d' : Disk) : Prop where
  boot : ∀ i < HefsBootNode.size, bootRec mnt d'.bytes i = bootRec mnt d.bytes i
  record : ∀ k, HefsBootNode.fStartIND.get (bootRec mnt d.bytes) + size * k ≤
      HefsBootNode.fEndIND.get (bootRec mnt d.bytes) →
    SameEntry (slice d.bytes (HefsBootNode.fStartIND.get (bootRec mnt d.bytes) + size * k))
      (slice d'.bytes (HefsBootNode.fStartIND.get (bootRec mnt d.bytes) + size * k))
  lookup : ∀ e f, ShortNames f → Option.Rel (Option.Rel SameNode)
    (hefsiFetchIn (bootRec mnt d.bytes) (d.setErr e) f.dir f.name f.kind)
    (hefsiFetchIn (bootRec mnt d'.bytes) (d'.setErr e) f.dir f.name f.kind)
  reply : ∀ e (f : File), (iNodeExists mnt (d'.setErr e) f.dir f.name f.kind).map Prod.fst =
    (iNodeExists mnt (d.setErr e) f.dir f.name f.kind).map Prod.fst

/-- Every rebalancing of the disk, on its own or at the end of an update, leaves these alone. -/
structure Rebalances (mnt : DriveTrait) (d : Disk) : Prop where
  alone : ∃ d', hefsiBalanceInd (bootRec mnt d.bytes) d = some d' ∧ LeavesAlone mnt d d'
  directory : ∀ dir flags del boot w,
    hefsiUpdateIndStatus mnt (bootRec mnt d.bytes) d dir flags del = some (true, boot, w) →
      ∃ d', hefsiBalanceInd boot w = some d' ∧ LeavesAlone mnt w d'
  file : ∀ dir node del w,
    hefsiUpdateInStatus mnt (bootRec mnt d.bytes) d dir node del = some (true, w) →
      ∃ d', hefsiBalanceInd (bootRec mnt d.bytes) w = some d' ∧ LeavesAlone mnt w d'

/-! ## Lookups on disks that agree -/

theorem map_isSome_of_rel {R : Store → Store → Prop} {x y : Option (Option Store)}
    (h : Option.Rel (Option.Rel R) x y) : y.map Option.isSome = x.map Option.isSome := by
  cases h with
  | none => rfl
  | some h => cases h <;> rfl

/-- `INodeExists` replies whether the search comes to an index node. -/
theorem exists_reply (hv : bootValid (bootRec mnt d.bytes) = true) {f : File} (hshort : ShortNames f) :
    (iNodeExists mnt d f.dir f.name f.kind).map Prod.fst =
      (hefsiFetchIn (bootRec mnt d.bytes) d f.dir f.name f.kind).map Option.isSome := by
  have hin : d.fInput mnt.fLbaStart = bootRec mnt d.bytes := rfl
  have hvalid : bootValid (bootRec mnt d.bytes) ≠ false := by simp [hv]
  unfold iNodeExists
  rw [if_neg (Nat.not_lt.mpr hshort.1), if_neg (Nat.not_lt.mpr hshort.2), hin, if_neg hvalid,
    Option.map_map]
  congr 1
  funext r
  cases r <;> rfl

section
variable (hr : Roomy mnt)
include hr

/-- The index nodes are not touched, nor is the block that an empty slice leads to. -/
theorem UpToBalance.sameRecords (h : UpToBalance mnt m m') (hs : Shape mnt m) :
    SameRecords mnt m m' := by
  refine ⟨fun j _ => h.dirHash hr, fun j _ i hi => h.dirSlice hr hi, fun j hj i hi x hx => ?_,
    h.boot_get hr (by decide)⟩
  by_cases hne : FS.dirSlice mnt m j i = 0
  · exact h.off hr (.inl (by omega))
  · have := hs.slice_ge hj hi hne
    exact h.off hr (.inr (by omega))

theorem SameRecords.lookup (h : SameRecords mnt d.bytes d'.bytes) (hs : Shape mnt d.bytes)
    (hs' : Shape mnt d'.bytes) {f : File} (hshort : ShortNames f) (e : Int) :
    Option.Rel (Option.Rel SameNode)
      (hefsiFetchIn (bootRec mnt d.bytes) (d.setErr e) f.dir f.name f.kind)
      (hefsiFetchIn (bootRec mnt d'.bytes) (d'.setErr e) f.dir f.name f.kind) := by
  by_cases he : e = kErrorDiskIsCorrupted
  · -- the search gives up on this error
    have hnone : ∀ x : Disk,
        hefsiFetchIn (bootRec mnt x.bytes) (x.setErr e) f.dir f.name f.kind = some none := by
      intro x
      have herr : (x.setErr e).errGlobal = kErrorDiskIsCorrupted := he
      unfold hefsiFetchIn
      simp only
      rw [if_pos herr, ite_self, ite_self]
    rw [hnone d, hnone d']
    exact .some .none
  by_cases hn : ∃ a, NodeAt mnt d.bytes f a
  · obtain ⟨a, hn⟩ := hn
    have hfetch := fetch_node (d := d.setErr e) hr hs he hn
    have hfetch' := fetch_node (d := d'.setErr e) hr hs' he (h.nodeAt hn)
    simp only [Disk.setErr_bytes] at hfetch hfetch'
    obtain ⟨-, -, j, i, hf, rfl⟩ := hn
    rw [hfetch, hfetch']
    exact .some (.some fun x hx => h.node j hf.le i hf.lt x hx)
  · rw [not_exists] at hn
    have hfetch := fetch_none (d := d.setErr e) hr hs he hshort hn
    have hfetch' := fetch_none (d := d'.setErr e) hr hs' he hshort fun a hn' => hn a (h.symm.nodeAt hn')
    simp only [Disk.setErr_bytes] at hfetch hfetch'
    rw [hfetch, hfetch']
    exact .some .none

theorem SameRecords.reply (h : SameRecords mnt d.bytes d'.bytes) (hs : Shape mnt d.bytes)
    (hs' : Shape mnt d'.bytes) (f : File) (e : Int) :
    (iNodeExists mnt (d'.setErr e) f.dir f.name f.kind).map Prod.fst =
      (iNodeExists mnt (d.setErr e) f.dir f.name f.kind).map Prod.fst := by
  by_cases hshort : ShortNames f
  · rw [exists_reply (d := d'.setErr e) hs'.boot.valid hshort,
      exists_reply (d := d.setErr e) hs.boot.valid hshort]
    exact map_isSome_of_rel (h.lookup hr hs hs' hshort e)
  · have hlong : ∀ x : Disk, (iNodeExists mnt x f.dir f.name f.kind).map Prod.fst = some false := by
      intro x
      unfold iNodeExists
      by_cases hdir : kOpenHeFSFileNameLen < f.dir.length
      · rw [if_pos hdir]
        rfl
      · rw [if_neg hdir, if_pos (Nat.not_le.mp fun hname => hshort ⟨Nat.not_lt.mp hdir, hname⟩)]
        rfl
    rw [hlong, hlong]

/-- **What is up to a rebalancing** the same is the same for every lookup. -/
theorem UpToBalance.leavesAlone (h : UpToBalance mnt d.bytes d'.bytes) (hs : Shape mnt d.bytes) :
    LeavesAlone mnt d d' := by
  have hs' := h.shape hr hs
  have hsame := h.sameRecords hr hs
  refine ⟨fun i hi => h.bootRec_apply hr hi, fun k _ => ?_,
    fun e f hshort => hsame.lookup hr hs hs' hshort e,
    fun e f => hsame.reply hr hs hs' f e⟩
  rw [hs.boot.startIND]
  exact ⟨h.dirHash hr, fun i hi => h.dirSlice hr hi, h.slot_get hr (by decide) (by decide) (.inr (by decide)),
    h.slot_get hr (by decide) (by decide) (.inr (by decide)),
    h.slot_get hr (by decide) (by decide) (.inr (by decide))⟩

end

/-! ## Where writes go -/

/-- Every index node in use leads a write behind the index nodes. -/
structure Orderly (mnt : DriveTrait) (m : Store) : Prop extends Packed mnt m where
  shape : Shape mnt m
  first : ∀ x < 512, m x = 0
  endBlock : HefsBootNode.fEndBlock.get (bootRec mnt m) = mnt.size
  cursor : endIN mnt ≤ startBlock mnt m
  behind : ∀ j ≤ lastSlot mnt, ∀ i < 16, dirSlice mnt m j i ≠ 0 →
    nodeHash m (dirSlice mnt m j i) = 0 ∨ endIN mnt ≤ blockLba (slice m (dirSlice mnt m j i))

theorem Started.orderly {hs : List Nat} (h : Started mnt hs d) : Orderly mnt d.bytes := by
  have hb := h.blocks
  refine ⟨hb.toPacked, h.shape, h.first, h.endBlock, Nat.le_of_eq h.startBlock.symm,
    fun j hj i hi hu => ?_⟩
  exact absurd (h.slices j hj i hi) hu

namespace Orderly

variable (h : Orderly mnt d.bytes) (hr : Roomy mnt)
include h hr

/-- **An operation** gives a new index node a block behind the index nodes. -/
theorem written (hsize : mnt.size + kOpenHeFSBlockLen < 2 ^ 64) (hacts : Acts mnt d op)
    (hw : Written mnt d op w) (hb : UpToBalance mnt w.bytes m') : Orderly mnt m' := by
  have he := hw.nodeEffect hr h.shape h.toPacked hacts hb
  have hcur := h.cursor
  refine ⟨he.packed, hb.shape hr (hw.shape hr h.shape), fun x hx => ?_, ?_, ?_, ?_⟩
  · rw [he.first x hx]
    exact h.first x hx
  · rw [he.endBlock]
    exact h.endBlock
  · rcases he.cursors with ⟨-, hblock⟩ | ⟨hc, -, hblock⟩
    · rw [hblock]
      exact hcur
    · have hcblock : startBlock mnt d.bytes ≤ mnt.size := by
        rw [← h.endBlock]
        exact hc.2
      rw [hblock (by omega)]
      omega
  · intro k hk l hl hu
    rcases he.node k hk l hl hu with ⟨hslice, hweathered⟩ | ⟨hslice, -, hlba, -⟩
    · rw [hslice] at hu ⊢
      by_cases hz : nodeHash m' (dirSlice mnt d.bytes k l) = 0
      · exact .inl hz
      · rw [(hweathered.block hz).1]
        exact .inr ((h.behind k hk l hl hu).resolve_left fun hz' => hz (hweathered.hash hz'))
    · rw [hslice, hlba]
      exact .inr hcur

/-- A write that reaches the drive goes behind the index nodes, and the cursor for these has not passed
their end. -/
theorem writesTo {node : Store} (hwrite : WritesTo mnt d dir name kind node) :
    startIN mnt d.bytes ≤ endIN mnt ∧ endIN mnt ≤ blockLba node := by
  obtain ⟨-, -, -, hfetch, -, hhash, -⟩ := hwrite
  obtain ⟨hcur, j, hj, i, hi, rfl⟩ := fetch_slice hr h.shape.boot hfetch
  refine ⟨hcur, ?_⟩
  by_cases hz : dirSlice mnt d.bytes j i = 0
  · -- an empty slice leads to the zeros at the start of the drive
    have hz' : (fINSlices i).get (d.fInput (slotAt mnt j)) = 0 := hz
    rw [hz'] at hhash
    exact absurd (nodeHash_zero h.first) hhash
  · exact (h.behind j hj i hi hz).resolve_left hhash

/-- What lies behind the index nodes decides about none of them. -/
theorem congr (hcur : startIN mnt d.bytes ≤ endIN mnt) (hm : ∀ x < endIN mnt, m' x = d.bytes x) :
    Orderly mnt m' := by
  have hsame := h.toPacked.sameRecords hr hcur hm
  have hget : ∀ f : Field, f.off + f.width ≤ 513 →
      f.get (bootRec mnt m') = f.get (bootRec mnt d.bytes) :=
    fun f hf => Field.get_congr fun x hx => bootRec_congr_low hm _ (by omega)
  have hblock : startBlock mnt m' = startBlock mnt d.bytes := hget _ (by decide)
  refine ⟨h.toPacked.of_used hsame.cursor fun k hk l hl _ => hsame.slice k hk l hl,
    h.shape.congr_low hr hm, fun x hx => ?_, ?_, ?_, fun j hj i hi hu => ?_⟩
  · rw [hm x (hr.low_lt hx)]
    exact h.first x hx
  · rw [hget _ (by decide)]
    exact h.endBlock
  · rw [hblock]
    exact h.cursor
  · rw [hsame.slice j hj i hi] at hu ⊢
    have hweathered : Weathered d.bytes m' _ := .of_same (hsame.node j hj i hi)
    by_cases hz : nodeHash m' (dirSlice mnt d.bytes j i) = 0
    · exact .inl hz
    · rw [(hweathered.block hz).1]
      exact .inr ((h.behind j hj i hi hu).resolve_left fun hz' => hz (hweathered.hash hz'))

/-- **Every call** keeps the disk orderly, whatever it is given. -/
theorem call {r : Bool} (hsize : mnt.size + kOpenHeFSBlockLen < 2 ^ 64)
    (hcall : FS.call mnt c d = some (r, d')) : Orderly mnt d'.bytes := by
  cases c with
  | op o =>
      rcases exec_cases hr h.shape o with ⟨-, e, -, hexec⟩ | ⟨hacts, w, d'', hw, hexec, hbal⟩
      · obtain rfl : d.setErr e = d' := (Prod.mk.inj (Option.some.inj (hexec.symm.trans hcall))).2
        exact h
      · obtain rfl : d'' = d' := (Prod.mk.inj (Option.some.inj (hexec.symm.trans hcall))).2
        exact h.written hr hsize hacts hw hbal.bytes
  | write block blockSz dir name kind =>
      rcases write_cases hcall with ⟨node, hw, rfl⟩ | ⟨-, hbytes, -⟩
      · obtain ⟨hcur, hlba⟩ := h.writesTo hr hw
        refine h.congr hr hcur fun x hx => ?_
        exact blit_apply_of_notMem (.inl (by omega))
      · rw [hbytes]
        exact h

end Orderly

/-! ## Runs -/

/-- A call that returns, whatever the error was before it. -/
def CallStep (mnt : DriveTrait) (s : Disk) (c : Call) (s' : Disk) : Prop :=
  ∃ e r, call mnt c (s.setErr e) = some (r, s')

/-- What the update of a directory record leaves for the rebalancing. -/
theorem updateInd_shape (hr : Roomy mnt) (hs : Shape mnt d.bytes) {flags : Nat} {del : Bool}
    {boot : Store}
    (h : hefsiUpdateIndStatus mnt (bootRec mnt d.bytes) d dir flags del = some (true, boot, w)) :
    BootShape mnt boot ∧ Shape mnt w.bytes := by
  unfold hefsiUpdateIndStatus at h
  split at h
  · cases h
  rcases findInd_cases (d := d) hr hs.boot dir del with ⟨j, ht, hfind⟩ | ⟨hfind, -⟩
  · obtain ⟨color, hcolor, hred⟩ := direntChild_eq (d := d) hr hs.boot (hs.slot j ht.le)
    rw [hfind] at h
    simp only [Option.bind_some, show d.fInput (slotAt mnt j) = slotRec mnt d.bytes j from rfl,
      hcolor, Option.map_some, Option.some.injEq, Prod.mk.injEq, true_and] at h
    obtain ⟨rfl, rfl⟩ := h
    exact ⟨hs.boot.count.seal, indWritten_shape hr hs ht.le hred⟩
  · rw [hfind] at h
    cases h

/-- What the update of an index node leaves for the rebalancing. -/
theorem updateIn_shape (hr : Roomy mnt) (hs : Shape mnt d.bytes) {node : Store} {del : Bool}
    (h : hefsiUpdateInStatus mnt (bootRec mnt d.bytes) d dir node del = some (true, w)) :
    Shape mnt w.bytes := by
  unfold hefsiUpdateInStatus at h
  split at h
  · cases h
  split at h
  · cases h
  next hin =>
  split at h
  · cases h
  next hblock =>
  have hc : CursorsIn (bootRec mnt d.bytes) := ⟨Nat.not_lt.mp hin, Nat.not_lt.mp hblock⟩
  rcases findSlice_cases (d := d) hr hs.boot dir (HefsIndexNode.fHashPath.get node) del with
    ⟨j, i, ht, hfind⟩ | ⟨hfind, -⟩
  · have hshape := inWritten_shape node hr hs hc ht
    rw [hfind] at h
    cases del <;> cases h <;> exact hshape
  · rw [hfind] at h
    cases h

/-- On a disk of the right shape every rebalancing leaves the records alone. -/
theorem Shape.rebalances (hs : Shape mnt d.bytes) (hr : Roomy mnt) : Rebalances mnt d := by
  refine ⟨?_, fun dir flags del boot w hup => ?_, fun dir node del w hup => ?_⟩
  · obtain ⟨d', hd', hbal⟩ := balance_spec hr hs.boot hs
    exact ⟨d', hd', hbal.bytes.leavesAlone hr hs⟩
  · obtain ⟨hboot, hshape⟩ := updateInd_shape hr hs hup
    obtain ⟨d', hd', hbal⟩ := balance_spec hr hboot hshape
    exact ⟨d', hd', hbal.bytes.leavesAlone hr hshape⟩
  · have hshape := updateIn_shape hr hs hup
    obtain ⟨d', hd', hbal⟩ := balance_spec hr hs.boot hshape
    exact ⟨d', hd', hbal.bytes.leavesAlone hr hshape⟩

/-- **Rebalancing changes no lookup**: on every disk of a run from `Format` on, of any calls, each
rebalancing comes to an end and leaves the boot node, the directory records and the lookups as they were. -/
theorem rebalancing_leaves_alone (hr : Roomy mnt) (hb : Blank mnt d.bytes)
    (hsize : mnt.size + kOpenHeFSBlockLen < 2 ^ 64) (flags : Nat) (volName : List UInt8) :
    ∃ d', format mnt d flags volName = some (true, d') ∧
      ∀ s, Reachable (CallStep mnt) d' s → Rebalances mnt s := by
  obtain ⟨d', hformat, -, hstarted⟩ := format_blank hr hb flags volName
  refine ⟨d', hformat, fun s hs => ?_⟩
  have horderly : Orderly mnt s.bytes := hs.inv (I := fun s => Orderly mnt s.bytes) hstarted.orderly
    fun s c s' h _ ⟨e, r, hcall⟩ => Orderly.call (d := s.setErr e) h hr hsize hcall
  exact horderly.shape.rebalances hr

theorem rebalancing_leaves_alone_gib :
    ∃ d', format gibDrive blankDisk 0x50 [] = some (true, d') ∧
      ∀ s, Reachable (CallStep gibDrive) d' s → Rebalances gibDrive s :=
  rebalancing_leaves_alone gibDrive_roomy blankDisk_blank (by decide) 0x50 []

/-! ## A partition that starts at 512 -/

/-- A drive of 64 mebibytes whose partition starts behind the partition block, as the loader makes it. -/
def epmDrive : DriveTrait where
  fKind := 0xDB
  fLbaStart := 512
  fLbaEnd := 131071
  fSectorSz := 512
  sectorCount := 131072
  size := 2 ^ 26

/-- The boot node lies at 512, so the rebalancings of `Format` write a link over `fEndIN`, and each one after
it a checksum into the name of the volume. -/
theorem boot_node_rebalanced : ∃ d', format epmDrive blankDisk 0x50 [] = some (true, d') ∧
    HefsBootNode.fEndIN.get (bootRec epmDrive d'.bytes) ≠
      HefsBootNode.fEndIN.get (formatBootNode epmDrive 0x50 [] zeros) ∧
    ¬ Rebalances epmDrive d' := by
  have hrun : ((format epmDrive blankDisk 0x50 []).bind fun r =>
      (hefsiBalanceInd (bootRec epmDrive r.2.bytes) r.2).map fun d'' =>
        (r.1, HefsBootNode.fEndIN.get (bootRec epmDrive r.2.bytes) ==
            HefsBootNode.fEndIN.get (formatBootNode epmDrive 0x50 [] zeros),
          bootRec epmDrive d''.bytes 18 == bootRec epmDrive r.2.bytes 18)) =
      some (true, false, false) := by decide +kernel
  obtain ⟨⟨r, d'⟩, hformat, hrun⟩ := Option.bind_eq_some_iff.mp hrun
  obtain ⟨d'', hbalance, hrun⟩ := Option.map_eq_some_iff.mp hrun
  simp only [Prod.mk.injEq] at hrun
  obtain ⟨rfl, hend, hname⟩ := hrun
  refine ⟨d', hformat, by simpa using hend, fun h => ?_⟩
  obtain ⟨d₁, hbalance', halone⟩ := h.alone
  obtain rfl : d'' = d₁ := Option.some.inj (hbalance.symm.trans hbalance')
  rw [halone.boot 18 (by decide)] at hname
  simp at hname

end NeKernel.FS
