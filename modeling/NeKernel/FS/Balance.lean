import NeKernel.FS.Layout

/-!
# Rebalancing

`hefsi_balance_ind` on a disk of the right shape. Only the first record is ever black, so it is
the only one that is rotated. Its sibling is itself and the children of both are the record at
512, so a rotation rewrites the first record twice and the record at 512 twice. Every record of
the row gets a new checksum whenever the old one is wrong.

The results: the loop comes to an end and changes only what is `Touched` (`balance_spec`); when
the first record is live it hands the drive the 512 bytes at 512 (`balance_writes_child`); and
when the checksum of the last record is wrong it hands the drive that record, which reaches over
the end of the row, and leaves it with a wrong checksum again (`balance_writes_last`).
-/

namespace NeKernel.FS

open ByteStore Detail HeFileSystemParser HefsIndexNodeDirectory

variable {mnt : DriveTrait} {m m' src boot : Store} {d d' d'' : Disk} {j x v start : Nat}

/-! ## Checksums -/

/-- A record sealed with a checksum taken over the old one passes exactly when the checksum came
out as the old one. -/
theorem reseal_iff {f : Field} {n : Nat} {r : Store} (hw : f.width = 4) (hf : f.off + 4 ≤ n) :
    crcOf (f.set (crcOf r n) r) n = f.get (f.set (crcOf r n) r) ↔ crcOf r n = f.get r := by
  have hget : f.get (f.set (crcOf r n) r) = crcOf r n := by
    rw [Field.get_set_same, hw]
    exact Nat.mod_eq_of_lt (crcOf_lt r n)
  rw [hget]
  constructor
  · intro h
    have hcrc : keCalculateCrc32 (f.set (crcOf r n) r) n = keCalculateCrc32 r n :=
      UInt32.toNat_inj.mp h
    have hbytes := crc32_window_inj hf
      (fun i _ hi => Field.set_apply (by rw [hw]; exact hi)) hcrc
    rw [← hget]
    exact Field.get_congr fun i hi => hbytes i (by omega)
  · intro h
    rw [h, Field.set_get_self]
    exact h

/-! ## Writing a record of the row -/

/-- The record differs from the `j`-th one in what a rebalancing touches at most. -/
def Near (mnt : DriveTrait) (j : Nat) (m src : Store) : Prop :=
  ∀ i < 512, ¬ Touched mnt (slotAt mnt j + i) → src i = m (slotAt mnt j + i)

namespace Near

theorem slotRec : Near mnt j m (slotRec mnt m j) := fun _ _ _ => rfl

theorem setChecksum (h : Near mnt j m src) (hj : j ≤ lastSlot mnt) :
    Near mnt j m (fChecksum.set v src) := by
  intro i hi ht
  have hout : i < 18 ∨ 22 ≤ i := by
    by_contra hc
    exact ht (.inr (.inr ⟨j, hj, by omega, by omega⟩))
  rw [Field.set_apply (by simpa only [fChecksum] using hout)]
  exact h i hi ht

theorem setColor (h : Near mnt 0 m src) : Near mnt 0 m (fColor.set v src) := by
  intro i hi ht
  have hout : i ≠ 194 := by
    rintro rfl
    exact ht (.inr (.inl rfl))
  rw [Field.set_apply (by simp only [fColor]; omega)]
  exact h i hi ht

theorem upTo (h : Near mnt j m src) (hm : UpToBalance mnt m m') : Near mnt j m' src :=
  fun i hi ht => (h i hi ht).trans (hm _ ht).symm

theorem output (h : Near mnt j m src) : UpToBalance mnt m (blit m (slotAt mnt j) 512 src) := by
  intro x hx
  apply blit_eq_of_agree
  intro h₁ h₂
  have hxi : slotAt mnt j + (x - slotAt mnt j) = x := by omega
  rw [h _ (by omega) (by rwa [hxi]), hxi]

end Near

/-- A write at 512 touches nothing else. -/
theorem upTo_blit_child : UpToBalance mnt m (blit m 512 512 src) := by
  intro x hx
  apply blit_apply_of_notMem
  by_contra hc
  exact hx (.inl (by omega))

/-! ## One turn -/

/-- What the turns up to the `j`-th do. -/
structure Rebalanced (mnt : DriveTrait) (j : Nat) (d d' : Disk) : Prop where
  bytes : UpToBalance mnt d.bytes d'.bytes
  packets : d.packets ⊆ d'.packets
  above : ∀ x, slotAt mnt (j + 1) ≤ x → d'.bytes x = d.bytes x

namespace Rebalanced

theorem refl : Rebalanced mnt j d d := ⟨.refl, List.Subset.refl _, fun _ _ => rfl⟩

theorem trans (h : Rebalanced mnt j d d') (h' : Rebalanced mnt j d' d'') :
    Rebalanced mnt j d d'' :=
  ⟨h.bytes.trans h'.bytes, List.Subset.trans h.packets h'.packets,
    fun x hx => (h'.above x hx).trans (h.above x hx)⟩

theorem mono {k : Nat} (h : Rebalanced mnt j d d') (hjk : j ≤ k) : Rebalanced mnt k d d' := by
  refine ⟨h.bytes, h.packets, fun x hx => h.above x ?_⟩
  rw [slotAt_succ, slotAt_eq] at hx ⊢
  omega

theorem output (h : Near mnt j d.bytes src) :
    Rebalanced mnt j d (d.fOutput .directory (slotAt mnt j) size src) := by
  refine ⟨h.output, List.subset_cons_self _ _, fun x hx => ?_⟩
  apply blit_apply_of_notMem
  rw [slotAt_succ] at hx
  exact .inr hx

theorem outputChild (hr : Roomy mnt) :
    Rebalanced mnt j d (d.fOutput .directory 512 size src) := by
  refine ⟨upTo_blit_child, List.subset_cons_self _ _, fun x hx => ?_⟩
  have hstart := hr.start
  apply blit_apply_of_notMem
  rw [slotAt_succ, slotAt_eq] at hx
  rw [size]
  omega

end Rebalanced

theorem balanceChecksum_spec (h : Near mnt j d.bytes src) (hj : j ≤ lastSlot mnt) :
    Rebalanced mnt j d (hefsiBalanceChecksum (slotAt mnt j) src d) := by
  unfold hefsiBalanceChecksum
  split
  · exact .output (h.setChecksum hj)
  · exact .refl

/-- A record that is not black only gets its checksum. -/
theorem balanceSlot_of_not_black (hboot : HefsBootNode.fStartIND.get boot = startIND mnt)
    (hj : j ≠ 0) (hc : fColor.get (slotRec mnt d.bytes j) ≠ kOpenHeFSBlack) :
    hefsiBalanceSlot boot (slotAt mnt j) d =
      hefsiBalanceChecksum (slotAt mnt j) (slotRec mnt d.bytes j) d := by
  have hne : slotAt mnt j ≠ HefsBootNode.fStartIND.get boot := by
    rw [hboot, slotAt_eq, startIND, HefsBootNode.size]
    omega
  have hroot : hefsiBalanceRoot boot (slotAt mnt j) (d.fInput (slotAt mnt j)) d =
      (slotRec mnt d.bytes j, d) := if_neg hne
  have hblack : hefsiBalanceBlack (slotAt mnt j) (slotRec mnt d.bytes j) d =
      (slotRec mnt d.bytes j, d) := by
    rw [hefsiBalanceBlack, if_neg (fun h => hc h.1), if_neg (fun h => hc h.1)]
  rw [hefsiBalanceSlot, hroot, hblack]

theorem SlotShape.not_black {r : Store} (h : SlotShape mnt j r) (hj : j ≠ 0) :
    fColor.get r ≠ kOpenHeFSBlack := by
  rcases h.color hj with hc | ⟨hc, _⟩ <;> rw [hc] <;> decide

/-! ## The first record -/

/-- The two writes of a rotation of the first record, and the two to the record at 512. -/
theorem rotate_root (hr : Roomy mnt) (hs : SlotShape mnt 0 (slotRec mnt d.bytes 0)) :
    Rebalanced mnt 0 d (hefsiRotateTree (slotAt mnt 0) d) ∧
      (fHashPath.get (slotRec mnt d.bytes 0) ≠ 0 →
        ⟨.directory, 512, 512⟩ ∈ (hefsiRotateTree (slotAt mnt 0) d).packets) := by
  have hin : d.fInput (slotAt mnt 0) = slotRec mnt d.bytes 0 := rfl
  unfold hefsiRotateTree
  rw [if_neg (slotAt_ne_zero mnt 0), hin]
  by_cases hhash : fHashPath.get (slotRec mnt d.bytes 0) = 0
  · rw [if_pos hhash]
    exact ⟨.refl, fun h => absurd hhash h⟩
  · obtain ⟨-, -, hprev, hparent, hchild⟩ := hs.live hhash
    have hsib : d.fInput (startIND mnt) = slotRec mnt d.bytes 0 := rfl
    have hpar : ∀ v w, fParent.get (fChecksum.set v (fChild.set w (slotRec mnt d.bytes 0))) =
        slotAt mnt 0 := by
      intro v w
      rw [Field.get_set_of_apart (by decide), Field.get_set_of_apart (by decide), hparent]
      rfl
    have hself : fChild.set 512 (slotRec mnt d.bytes 0) = slotRec mnt d.bytes 0 := by
      conv_lhs => rw [← hchild]
      exact Field.set_get_self
    simp only [hprev, hsib, if_neg hhash, hpar]
    simp only [hchild, hself]
    have hnear : Near mnt 0 d.bytes
        (fChecksum.set (crcOf (slotRec mnt d.bytes 0) size) (slotRec mnt d.bytes 0)) :=
      Near.slotRec.setChecksum (Nat.zero_le _)
    constructor
    · refine (Rebalanced.output hnear).trans ?_
      refine (Rebalanced.output (hnear.upTo hnear.output)).trans ?_
      exact (Rebalanced.outputChild hr).trans (Rebalanced.outputChild hr)
    · intro _
      exact List.mem_cons_self

/-- The turn of the first record. -/
theorem balanceSlot_root (hr : Roomy mnt)
    (hboot : HefsBootNode.fStartIND.get boot = startIND mnt) (hs : Shape mnt d.bytes) :
    Rebalanced mnt 0 d (hefsiBalanceSlot boot (slotAt mnt 0) d) ∧
      (fHashPath.get (slotRec mnt d.bytes 0) ≠ 0 →
        ⟨.directory, 512, 512⟩ ∈ (hefsiBalanceSlot boot (slotAt mnt 0) d).packets) := by
  let dir := fColor.set kOpenHeFSBlack (slotRec mnt d.bytes 0)
  let d₁ := d.fOutput .directory (slotAt mnt 0) size dir
  have hroot : hefsiBalanceRoot boot (slotAt mnt 0) (d.fInput (slotAt mnt 0)) d = (dir, d₁) :=
    if_pos hboot.symm
  have hdir : Near mnt 0 d.bytes dir := Near.slotRec.setColor
  have h₁ : Rebalanced mnt 0 d d₁ := .output hdir
  have hdir₁ : Near mnt 0 d₁.bytes dir := hdir.upTo h₁.bytes
  have hcolor : fColor.get dir = kOpenHeFSBlack := Field.get_set_same
  have hchild : fChild.get dir = fChild.get (slotRec mnt d.bytes 0) :=
    Field.get_set_of_apart (by decide)
  rw [hefsiBalanceSlot, hroot]
  -- without a child the root is coloured again, with one the tree is rotated
  by_cases hc : fChild.get dir = 0
  · have hblack : hefsiBalanceBlack (slotAt mnt 0) dir d₁ = (fColor.set kOpenHeFSBlack dir,
        d₁.fOutput .directory (slotAt mnt 0) size (fColor.set kOpenHeFSBlack dir)) := by
      rw [hefsiBalanceBlack, if_neg (fun h => h.2 hc), if_pos ⟨hcolor, hc⟩]
    have h₂ := Rebalanced.output (hdir₁.setColor (v := kOpenHeFSBlack))
    simp only [hblack]
    refine ⟨(h₁.trans h₂).trans (balanceChecksum_spec ?_ (Nat.zero_le _)), fun hlive => ?_⟩
    · exact hdir₁.setColor.upTo h₂.bytes
    · rw [hchild, ((hs.slot 0 (Nat.zero_le _)).live hlive).2.2.2.2] at hc
      exact absurd hc (by decide)
  · have hblack : hefsiBalanceBlack (slotAt mnt 0) dir d₁ =
        (fColor.set kOpenHeFSRed dir, hefsiRotateTree (slotAt mnt 0) d₁) := by
      rw [hefsiBalanceBlack, if_pos ⟨hcolor, hc⟩]
    obtain ⟨h₂, hpacket⟩ := rotate_root hr ((h₁.bytes.shape hr hs).slot 0 (Nat.zero_le _))
    have h₃ := balanceChecksum_spec ((hdir₁.setColor (v := kOpenHeFSRed)).upTo h₂.bytes)
      (Nat.zero_le _)
    simp only [hblack]
    refine ⟨(h₁.trans h₂).trans h₃, fun hlive => h₃.packets (hpacket ?_)⟩
    rwa [h₁.bytes.slot_get hr (by decide) (by decide) (.inr (by decide))]

/-! ## The loop -/

/-- A turn of the loop. -/
theorem balanceSlot_spec (hr : Roomy mnt)
    (hboot : HefsBootNode.fStartIND.get boot = startIND mnt) (hs : Shape mnt d.bytes)
    (hj : j ≤ lastSlot mnt) : Rebalanced mnt j d (hefsiBalanceSlot boot (slotAt mnt j) d) := by
  by_cases hj0 : j = 0
  · subst hj0
    exact (balanceSlot_root hr hboot hs).1
  · rw [balanceSlot_of_not_black hboot hj0 ((hs.slot j hj).not_black hj0)]
    exact balanceChecksum_spec Near.slotRec hj

/-- The checksum of the record is wrong. -/
def WrongSum (r : Store) : Prop := crcOf r size ≠ fChecksum.get r

theorem WrongSum.congr {r r' : Store} (h : WrongSum r) (hr : ∀ i < 512, r' i = r i) :
    WrongSum r' := by
  have hcrc : keCalculateCrc32 r' size = keCalculateCrc32 r size := keCalculateCrc32_congr hr
  have hget : fChecksum.get r' = fChecksum.get r :=
    Field.get_congr fun i hi => hr _ (by simp only [fChecksum] at *; omega)
  rwa [WrongSum, crcOf, hcrc, hget]

/-- The checksum of the last record is wrong. -/
def Unsettled (mnt : DriveTrait) (m : Store) : Prop := WrongSum (slotRec mnt m (lastSlot mnt))

theorem Unsettled.congr (h : Unsettled mnt m)
    (hm : ∀ x, slotAt mnt (lastSlot mnt) ≤ x → m' x = m x) : Unsettled mnt m' :=
  WrongSum.congr h fun _ _ => hm _ (Nat.le_add_right _ _)

/-- The turn of the last record writes it when its checksum is wrong, and the checksum it writes
is wrong again. -/
theorem balanceSlot_last (hr : Roomy mnt)
    (hboot : HefsBootNode.fStartIND.get boot = startIND mnt) (hs : Shape mnt d.bytes)
    (hu : Unsettled mnt d.bytes) :
    ⟨.directory, slotAt mnt (lastSlot mnt), 512⟩ ∈
        (hefsiBalanceSlot boot (slotAt mnt (lastSlot mnt)) d).packets ∧
      Unsettled mnt (hefsiBalanceSlot boot (slotAt mnt (lastSlot mnt)) d).bytes := by
  have hne : lastSlot mnt ≠ 0 := by
    have := hr.slots
    omega
  have hu' : crcOf (slotRec mnt d.bytes (lastSlot mnt)) size ≠
      fChecksum.get (slotRec mnt d.bytes (lastSlot mnt)) := hu
  rw [balanceSlot_of_not_black hboot hne ((hs.slot _ (Nat.le_refl _)).not_black hne),
    hefsiBalanceChecksum, if_pos hu']
  refine ⟨List.mem_cons_self, ?_⟩
  have hagain : WrongSum (fChecksum.set (crcOf (slotRec mnt d.bytes (lastSlot mnt)) size)
      (slotRec mnt d.bytes (lastSlot mnt))) :=
    fun h => hu ((reseal_iff rfl (by decide)).mp h)
  exact hagain.congr fun i hi => slice_blit_same_apply hi

/-- The loop at its end. -/
theorem balanceLoop_end (hb : BootShape mnt boot) {fuel : Nat} (hf : 0 < fuel) :
    hefsiBalanceLoop boot fuel (slotAt mnt (lastSlot mnt + 1)) d =
      some (d.setErr kErrorSuccess) := by
  obtain ⟨fuel, rfl⟩ : ∃ f, fuel = f + 1 := ⟨fuel - 1, by omega⟩
  have hend := endIND_lt mnt
  rw [hefsiBalanceLoop, if_pos (.inr (by rwa [hb.endIND]))]

/-- One turn of the loop. -/
theorem balanceLoop_step (hr : Roomy mnt) (hb : BootShape mnt boot) {fuel : Nat}
    (hj : j ≤ lastSlot mnt) :
    hefsiBalanceLoop boot (fuel + 1) (slotAt mnt j) d =
      hefsiBalanceLoop boot fuel (slotAt mnt (j + 1)) (hefsiBalanceSlot boot (slotAt mnt j) d) := by
  have hin : ¬ (slotAt mnt j = 0 ∨ HefsBootNode.fEndIND.get boot < slotAt mnt j) := by
    rw [hb.endIND]
    have h₁ := slotAt_ne_zero mnt j
    have h₂ := slotAt_le_endIND hj
    omega
  rw [hefsiBalanceLoop, if_neg hin, hr.nextStart_slotAt hj]

/-- The loop from the `j`-th record on. -/
theorem balanceLoop_spec (hr : Roomy mnt) (hb : BootShape mnt boot) (n : Nat) {fuel : Nat}
    (hs : Shape mnt d.bytes) (hj : j + n = lastSlot mnt) (hf : n + 1 < fuel) :
    ∃ d', hefsiBalanceLoop boot fuel (slotAt mnt j) d = some d' ∧
      Rebalanced mnt (lastSlot mnt) d d' ∧ d'.errGlobal = kErrorSuccess ∧
      (Unsettled mnt d.bytes →
        ⟨.directory, slotAt mnt (lastSlot mnt), 512⟩ ∈ d'.packets ∧ Unsettled mnt d'.bytes) := by
  induction n generalizing j fuel d with
  | zero =>
      obtain ⟨fuel, rfl⟩ : ∃ f, fuel = f + 1 := ⟨fuel - 1, by omega⟩
      obtain rfl : j = lastSlot mnt := hj
      have h₁ := balanceSlot_spec hr hb.startIND hs (Nat.le_refl _)
      rw [balanceLoop_step hr hb (Nat.le_refl _), balanceLoop_end hb (by omega)]
      exact ⟨_, rfl, ⟨h₁.bytes, h₁.packets, h₁.above⟩, rfl, balanceSlot_last hr hb.startIND hs⟩
  | succ n ih =>
      obtain ⟨fuel, rfl⟩ : ∃ f, fuel = f + 1 := ⟨fuel - 1, by omega⟩
      have hjl : j ≤ lastSlot mnt := by omega
      have h₁ := balanceSlot_spec hr hb.startIND hs hjl
      obtain ⟨d', hd', h₂, herr, hlast⟩ := ih (h₁.bytes.shape hr hs)
        (show j + 1 + n = lastSlot mnt by omega) (show n + 1 < fuel by omega)
      rw [balanceLoop_step hr hb hjl]
      refine ⟨d', hd', (h₁.mono hjl).trans h₂, herr, fun hu => hlast (hu.congr fun x hx => ?_)⟩
      exact h₁.above x (Nat.le_trans (slotAt_mono (by omega)) hx)

/-- What a rebalancing does to a disk of the right shape. -/
structure Balanced (mnt : DriveTrait) (d d' : Disk) : Prop where
  bytes : UpToBalance mnt d.bytes d'.bytes
  packets : d.packets ⊆ d'.packets
  err : d'.errGlobal = kErrorSuccess
  child : fHashPath.get (slotRec mnt d.bytes 0) ≠ 0 → ⟨.directory, 512, 512⟩ ∈ d'.packets
  last : Unsettled mnt d.bytes →
    ⟨.directory, slotAt mnt (lastSlot mnt), 512⟩ ∈ d'.packets ∧ Unsettled mnt d'.bytes

/-- **Rebalancing** comes to an end and changes what is `Touched`. -/
theorem balance_spec (hr : Roomy mnt) (hb : BootShape mnt boot) (hs : Shape mnt d.bytes) :
    ∃ d', hefsiBalanceInd boot d = some d' ∧ Balanced mnt d d' := by
  obtain ⟨fuel, hfuel⟩ : ∃ f, scanFuel = f + 1 := ⟨2 ^ 64 - 1, rfl⟩
  have hlt := hr.lastSlot_lt
  have hslots := hr.slots
  obtain ⟨h₁, hchild⟩ := balanceSlot_root hr hb.startIND hs
  obtain ⟨d', hd', h₂, herr, hlast⟩ := balanceLoop_spec hr hb (lastSlot mnt - 1)
    (h₁.bytes.shape hr hs) (show 1 + (lastSlot mnt - 1) = lastSlot mnt by omega)
    (show lastSlot mnt - 1 + 1 < fuel by omega)
  refine ⟨d', ?_, ?_, ?_, herr, fun hlive => h₂.packets (hchild hlive), fun hu => ?_⟩
  · rw [hefsiBalanceInd, hfuel, hb.startIND]
    exact (balanceLoop_step hr hb (Nat.zero_le _)).trans hd'
  · exact h₁.bytes.trans h₂.bytes
  · exact List.Subset.trans h₁.packets h₂.packets
  · refine hlast (hu.congr fun x hx => h₁.above x ?_)
    exact Nat.le_trans (slotAt_mono (by omega)) hx

end NeKernel.FS
