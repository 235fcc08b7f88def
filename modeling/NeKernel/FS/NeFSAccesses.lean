import NeKernel.FS.NeFSParser

/-!
# Where the partition block is

`Format` puts the partition block where the drive starts; every other operation transfers it at
`kNeFSRootCatalogStartAddress`, whatever the drive. `Accesses n d d'` counts the transfers between
two disks, and what the operations do with the bytes of a disk does not depend on the count:
`lookup` is `FindCatalog` without it.
-/

namespace NeKernel.NeFS

open ByteStore Scan

variable {drv : DriveTrait} {m m' : Store} {d d' d'' : Disk} {name theForkName : CString}
  {hidden local_ rsrc : Bool} {flags kind n k sz lba : Nat} {src theFork : Store}

/-- From `d` to `d'` a partition block was transferred `n` times, each time at
`kNeFSRootCatalogStartAddress`. -/
def Accesses (n : Nat) (d d' : Disk) : Prop :=
  d'.blockLbas = List.replicate n kNeFSRootCatalogStartAddress ++ d.blockLbas

theorem Accesses.refl : Accesses 0 d d := rfl

theorem Accesses.trans (h : Accesses n d d') (h' : Accesses k d' d'') :
    Accesses (k + n) d d'' := by
  unfold Accesses at *
  rw [h', h, ← List.append_assoc, List.replicate_append_replicate]

theorem Accesses.inputBlock :
    Accesses 1 d (d.inputBlock drv kNeFSRootCatalogStartAddress).2 := rfl

theorem Accesses.outputBlock :
    Accesses 1 d (d.outputBlock drv kNeFSRootCatalogStartAddress src) := rfl

theorem Accesses.fOutput : Accesses 0 d (d.fOutput drv lba sz src) := rfl

/-- Some accesses, or none at all. -/
def Touches (p : Prop) (d d' : Disk) : Prop := ∃ n, Accesses n d d' ∧ (0 < n ↔ p)

theorem Touches.congr {p q : Prop} (h : Touches p d d') (hpq : p ↔ q) : Touches q d d' := by
  obtain ⟨n, ha, hn⟩ := h
  exact ⟨n, ha, hn.trans hpq⟩

theorem Touches.trans {p q : Prop} (h : Touches p d d') (h' : Touches q d' d'') :
    Touches (p ∨ q) d d'' := by
  obtain ⟨n, ha, hn⟩ := h
  obtain ⟨k, ha', hk⟩ := h'
  refine ⟨k + n, ha.trans ha', ?_⟩
  rw [← hn, ← hk]
  omega

theorem Touches.refl : Touches False d d := ⟨0, .refl, by simp⟩

theorem Touches.inputBlock (drv : DriveTrait) :
    Touches True d (d.inputBlock drv kNeFSRootCatalogStartAddress).2 := ⟨1, .inputBlock, by simp⟩

theorem Touches.outputBlock :
    Touches True d (d.outputBlock drv kNeFSRootCatalogStartAddress src) :=
  ⟨1, .outputBlock, by simp⟩

theorem Touches.fOutput : Touches False d (d.fOutput drv lba sz src) := ⟨0, .fOutput, by simp⟩

/-- The partition block as the operations read it. -/
def partBlock (drv : DriveTrait) (m : Store) : Store :=
  slice m (drv.fAddress kNeFSRootCatalogStartAddress)

/-! ## Operations that only read -/

/-- The operation leaves the bytes alone, transfers the partition block when `p`, and what it
returns is decided by the bytes. -/
def Reads {α : Type*} (p : Prop) (f : Disk → Option (α × Disk)) : Prop :=
  ∀ d r d', f d = some (r, d') → d'.bytes = d.bytes ∧ Touches p d d' ∧
    ∀ e : Disk, e.bytes = d.bytes → ∃ e', f e = some (r, e')

namespace Reads

variable {α β : Type*} {f : Disk → Option (α × Disk)} {p q : Prop}

theorem congr (h : Reads p f) (hpq : p ↔ q) : Reads q f := fun d r d' hd =>
  ⟨(h d r d' hd).1, (h d r d' hd).2.1.congr hpq, (h d r d' hd).2.2⟩

/-- An operation that looks at the bytes only. -/
theorem pure (g : Store → Option α) : Reads False fun d => (g d.bytes).map fun r => (r, d) := by
  intro d r d' h
  obtain ⟨a, ha, hr⟩ := Option.map_eq_some_iff.mp h
  obtain ⟨rfl, rfl⟩ := Prod.mk.inj hr
  refine ⟨rfl, .refl, fun e he => ⟨e, ?_⟩⟩
  show (g e.bytes).map _ = _
  rw [he, ha]
  rfl

theorem none : Reads p fun _ : Disk => (Option.none : Option (α × Disk)) := by
  intro d r d' h
  cases h

/-- A read of the partition block, then an operation that may use it. -/
theorem inputBlock {g : Store → Disk → Option (α × Disk)}
    (hg : ∀ part, ∃ q, Reads q (g part)) :
    Reads True fun d =>
      g (partBlock drv d.bytes) (d.inputBlock drv kNeFSRootCatalogStartAddress).2 := by
  intro d r d' h
  obtain ⟨q, hq⟩ := hg (partBlock drv d.bytes)
  obtain ⟨hb, ht, he⟩ := hq _ _ _ h
  refine ⟨hb, ((Touches.inputBlock drv).trans ht).congr (by simp), fun e hbe => ?_⟩
  show ∃ e', g (partBlock drv e.bytes) _ = _
  rw [hbe]
  exact he _ hbe

/-- One operation after another, which touches the block anyway or whenever the second does. -/
theorem bind {g : α → Disk → Option (β × Disk)} (hf : Reads p f) (hg : ∀ a, ∃ q, (q → p) ∧
    Reads q (g a)) : Reads p fun d => (f d).bind fun x => g x.1 x.2 := by
  intro d r d' h
  obtain ⟨⟨a, d₁⟩, h₁, h₂⟩ := Option.bind_eq_some_iff.mp h
  obtain ⟨q, hqp, hga⟩ := hg a
  obtain ⟨hb₁, ht₁, he₁⟩ := hf _ _ _ h₁
  obtain ⟨hb₂, ht₂, he₂⟩ := hga _ _ _ h₂
  refine ⟨hb₂.trans hb₁, (ht₁.trans ht₂).congr ⟨fun h => h.elim id hqp, .inl⟩, fun e hbe => ?_⟩
  obtain ⟨e₁, hfe⟩ := he₁ e hbe
  have hbe₁ : e₁.bytes = d₁.bytes := (hf _ _ _ hfe).1.trans (hbe.trans hb₁.symm)
  obtain ⟨e₂, hge⟩ := he₂ e₁ hbe₁
  refine ⟨e₂, ?_⟩
  show (f e).bind _ = _
  rw [hfe]
  exact hge

/-- What the operation returns, found again on the bytes alone. -/
theorem iff (h : Reads p f) {r : α} :
    (f ⟨d.bytes, []⟩).map Prod.fst = some r ↔ ∃ d', f d = some (r, d') := by
  constructor
  · intro hm
    obtain ⟨⟨a, e⟩, hf, rfl⟩ := Option.map_eq_some_iff.mp hm
    exact (h _ _ _ hf).2.2 d rfl
  · rintro ⟨d', hf⟩
    obtain ⟨e', he⟩ := (h _ _ _ hf).2.2 ⟨d.bytes, []⟩ rfl
    rw [he]
    rfl

end Reads

/-! ## `FindCatalog` -/

theorem findCatalogAnywhere_reads :
    Reads (name.chars ≠ []) (findCatalogAnywhere drv name hidden) := by
  unfold findCatalogAnywhere
  by_cases hn : name.chars = []
  · simp only [hn, if_true, ne_eq, not_true_eq_false]
    exact Reads.pure fun _ => some none
  · simp only [hn, if_false]
    apply Reads.congr _ (iff_of_true trivial hn)
    apply Reads.inputBlock (g := fun part d => do
      let found ← scanFrom drv part d.bytes name hidden
        (NefsRootPartitionBlock.startCatalog.get part)
      return (found, d))
    intro part
    refine ⟨False, ?_⟩
    convert Reads.pure fun m => scanFrom drv part m name hidden
      (NefsRootPartitionBlock.startCatalog.get part) using 2 with d
    rw [Option.map_eq_bind]
    rfl

/-- The path of a parent is not empty. -/
theorem parentName_ne (h : parentName name = some theForkName) (hn : name.chars ≠ []) :
    theForkName.chars ≠ [] := by
  unfold parentName at h
  split at h
  · cases h
  · cases h
    unfold CString.take
    simpa using hn

theorem findCatalogLocal_reads :
    Reads (name.chars ≠ []) (findCatalogLocal drv name hidden) := by
  unfold findCatalogLocal
  by_cases hn : name.chars = []
  · simp only [hn, if_true, ne_eq, not_true_eq_false]
    exact Reads.pure fun _ => some none
  simp only [hn, if_false]
  apply Reads.congr _ (iff_of_true trivial hn)
  by_cases hlong : kNeFSCatalogNameLen < name.length
  · simp only [hlong, if_true]
    exact Reads.none
  simp only [hlong, if_false]
  by_cases hfull : name.length = kNeFSCatalogNameLen
  · simp only [hfull, if_true]
    exact Reads.inputBlock fun _ => ⟨False, Reads.pure fun _ => some none⟩
  simp only [hfull, if_false]
  cases hp : parentName name with
  | none => exact Reads.inputBlock fun _ => ⟨False, Reads.pure fun _ => some none⟩
  | some parent =>
      have hne : parent.chars ≠ [] := parentName_ne hp hn
      apply Reads.inputBlock (g := fun part d =>
        (findCatalogAnywhere drv parent hidden d).bind fun x =>
          (scanLocal drv part x.2.bytes name hidden x.1).bind fun found => some (found, x.2))
      intro part
      refine ⟨parent.chars ≠ [], Reads.bind (g := fun parentCatalog d =>
        (scanLocal drv part d.bytes name hidden parentCatalog).bind fun found => some (found, d))
        findCatalogAnywhere_reads fun parentCatalog => ⟨False, False.elim, ?_⟩⟩
      convert Reads.pure fun m => scanLocal drv part m name hidden parentCatalog using 2 with d
      rw [Option.map_eq_bind]
      rfl

theorem findCatalog_reads {localSearch : Bool} :
    Reads (name.chars ≠ []) (findCatalog drv name hidden localSearch) := by
  unfold findCatalog
  split
  · exact findCatalogLocal_reads
  · exact findCatalogAnywhere_reads

/-- What `FindCatalog` returns on a drive with the bytes `m`. -/
def lookup (drv : DriveTrait) (m : Store) (name : CString) (searchHidden localSearch : Bool) :
    Option (Option (Nat × Store)) :=
  (findCatalog drv name searchHidden localSearch ⟨m, []⟩).map Prod.fst

/-! ## The other operations -/

theorem outLbaOf_reads {catalog : Option (Nat × Store)} :
    Reads (catalog = none) (outLbaOf drv catalog) := by
  unfold outLbaOf
  cases catalog with
  | none =>
      apply Reads.congr _ (iff_of_true trivial rfl)
      apply Reads.inputBlock (g := fun block d =>
        some (some (NefsRootPartitionBlock.startCatalog.get block), d))
      intro block
      exact ⟨False, Reads.pure fun _ => some (some (NefsRootPartitionBlock.startCatalog.get block))⟩
  | some found =>
      apply Reads.congr _ (iff_of_false not_false (by simp))
      show Reads False fun d => if NefsCatalogStruct.kind.get found.2 = kNeFSCatalogKindFile
        then some (none, d) else some (some found.1, d)
      split
      · exact Reads.pure fun _ => some none
      · exact Reads.pure fun _ => some (some found.1)

theorem createCatalogParent_reads :
    Reads (nameAllowed name kind = true) (createCatalogParent drv name kind) := by
  unfold createCatalogParent
  by_cases hname : nameAllowed name kind = true
  · have hne : name.chars ≠ [] := by
      intro h
      simp [nameAllowed, CString.length, h] at hname
    simp only [hname, Bool.not_true, Bool.false_eq_true, if_false]
    apply Reads.congr _ (iff_of_true hne trivial)
    cases hp : parentName name with
    | none =>
        apply Reads.bind (g := fun catalogCopy d =>
          if catalogCopy.isSome ∨ name.length < 2 then some (none, d) else some (none, d))
          findCatalog_reads
        intro catalogCopy
        refine ⟨False, False.elim, ?_⟩
        split
        · exact Reads.pure fun _ => some none
        · exact Reads.pure fun _ => some none
    | some parent =>
        have hpne : parent.chars ≠ [] := parentName_ne hp hne
        apply Reads.bind (g := fun catalogCopy d =>
          if catalogCopy.isSome ∨ name.length < 2 then some (none, d)
          else (findCatalog drv parent true false d).bind fun x => outLbaOf drv x.1 x.2)
          findCatalog_reads
        intro catalogCopy
        split
        · exact ⟨False, False.elim, Reads.pure fun _ => some none⟩
        · exact ⟨_, fun _ => hne, findCatalog_reads.bind fun _ => ⟨_, fun _ => hpne, outLbaOf_reads⟩⟩
  · simp only [hname, Bool.not_false, if_true]
    exact (Reads.pure fun _ => some none).congr (by simp)

theorem isValidLba_reads : Reads True (isValidLba drv lba) := by
  unfold isValidLba
  apply Reads.inputBlock (g := fun part d => if drv.fSectorSz = 0 then none
    else some (NefsRootPartitionBlock.startCatalog.get part ≤ lba &&
      lba < NefsRootPartitionBlock.diskSize.get part / drv.fSectorSz, d))
  intro part
  refine ⟨False, ?_⟩
  split
  · exact Reads.none
  · exact Reads.pure fun _ => some (NefsRootPartitionBlock.startCatalog.get part ≤ lba &&
      lba < NefsRootPartitionBlock.diskSize.get part / drv.fSectorSz)

theorem readCatalog_reads {catalog : Option Store} :
    Reads (∃ r, catalog = some r ∧ isValidSize sz (forkOfCatalog r rsrc).1 = true)
      (readCatalog drv catalog rsrc sz theForkName) := by
  unfold readCatalog
  cases catalog with
  | none => exact (Reads.pure fun _ => some none).congr (by simp)
  | some r =>
      by_cases hsz : isValidSize sz (forkOfCatalog r rsrc).1 = true
      · simp only [hsz, Bool.not_true, Bool.false_eq_true, if_false]
        apply Reads.congr _ (iff_of_true trivial ⟨r, rfl, hsz⟩)
        apply Reads.bind (g := fun valid d =>
          if !valid ∨ (forkOfCatalog r rsrc).2 < kNeFSCatalogStartAddress then some (none, d)
          else do
            let fork ← scan
              (fun lba => NefsForkStruct.nextSibling.get (slice d.bytes (drv.fAddress lba)))
              (fun lba => lba < kNeFSCatalogStartAddress)
              (readVisit drv d.bytes (NefsCatalogStruct.nameOf r) theForkName) scanFuel
              (forkOfCatalog r rsrc).2
            return (fork, d)) isValidLba_reads
        intro valid
        refine ⟨False, False.elim, ?_⟩
        split
        · exact Reads.pure fun _ => some none
        · convert Reads.pure fun m => scan
            (fun lba => NefsForkStruct.nextSibling.get (slice m (drv.fAddress lba)))
            (fun lba => decide (lba < kNeFSCatalogStartAddress))
            (readVisit drv m (NefsCatalogStruct.nameOf r) theForkName) scanFuel
            (forkOfCatalog r rsrc).2 using 2 with d
          rw [Option.map_eq_bind]
          rfl
      · simp only [hsz, Bool.not_false, if_true]
        exact (Reads.pure fun _ => some none).congr (by simp [hsz])

end NeKernel.NeFS
