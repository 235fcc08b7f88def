import NeKernel.FS.NeFSHistory
import Mathlib.Data.Nat.Bitwise

/-!
# Removing a catalog

`RemoveCatalog` sets `kNeFSFlagDeleted` in the flags of what it removes, and lookups test for any
bit of `kNeFSFlagCreated`, of which the deleted flag has two. So a removal changes nothing a
lookup sees: names, links and the outcome of the test on the flags stay as they are
(`SameChain`), and what was found before is found after it.
-/

namespace NeKernel.NeFS

open ByteStore Scan Runs

variable {drv : DriveTrait} {m m' r r' : Store} {d d' d₀ : Disk} {name partName : CString}
  {s : History} {flags kind n k off room lba outLba : Nat} {hidden localSearch : Bool}

/-! ## Flags -/

/-- The deleted flag passes for the created one. -/
theorem created_markDeleted (h : 2 ≤ k) : created (markDeleted n flags % 2 ^ k) = true := by
  have hbit : (markDeleted n flags % 2 ^ k &&& kNeFSFlagCreated).testBit 1 = true := by
    rw [Nat.testBit_and, Nat.testBit_mod_two_pow, markDeleted, Nat.testBit_or]
    have h₁ : kNeFSFlagDeleted.testBit 1 = true := by decide
    have h₂ : kNeFSFlagCreated.testBit 1 = true := by decide
    simp [h₁, h₂, show 1 < k by omega]
  unfold created
  apply decide_eq_true
  intro hzero
  rw [hzero] at hbit
  simp at hbit

/-- Only the lowest byte of the flags changes. -/
theorem markDeleted_div (h : flags < 2 ^ 32) : markDeleted 32 flags / 256 = flags / 256 := by
  have hmask : (2 ^ 32 - 1 - kNeFSFlagCreated) / 2 ^ 8 = 2 ^ 24 - 1 := by decide
  have hdel : kNeFSFlagDeleted / 2 ^ 8 = 0 := by decide
  rw [markDeleted, show 256 = 2 ^ 8 from rfl, Nat.or_div_two_pow, Nat.and_div_two_pow, hmask, hdel,
    Nat.or_zero, Nat.and_two_pow_sub_one_eq_mod]
  apply Nat.mod_eq_of_lt
  omega

/-- Marking a fork changes one byte of it, the lowest of its flags. -/
theorem markFork_apply {x : Nat} (h : x ≠ drv.fAddress lba + 456) : markFork drv lba m x = m x := by
  unfold markFork
  apply blit_eq_of_agree
  generalize drv.fAddress lba = a at *
  intro h₁ h₂
  have hx : slice m a (x - a) = m x := by
    rw [slice_apply, Nat.add_sub_cancel' h₁]
  by_cases hin : 457 ≤ x - a ∧ x - a < 460
  · obtain ⟨i, hi, hxi⟩ : ∃ i < 3, x - a = 456 + (i + 1) := ⟨x - a - 457, by omega, by omega⟩
    have hv : getLE (slice m a) 456 4 < 2 ^ 32 := getLE_lt
    rw [← hx, hxi]
    calc putLE (slice m a) 456 4 (markDeleted 32 (getLE (slice m a) 456 4)) (456 + (i + 1))
        = leBytes (markDeleted 32 (getLE (slice m a) 456 4)) (i + 1) := by
          rw [putLE, blit_apply_of_mem (by omega) (by omega), Nat.add_sub_cancel_left]
      _ = leBytes (getLE (slice m a) 456 4) (i + 1) := leBytes_succ_congr (markDeleted_div hv)
      _ = slice m a (456 + (i + 1)) := leBytes_getLE (by omega)
  · rw [Field.set_apply (by show x - a < 456 ∨ 456 + 4 ≤ x - a; omega), hx]

/-! ## Records that look the same -/

/-- Two records a lookup cannot tell apart. -/
structure SameCatalog (r r' : Store) : Prop where
  front : ∀ i < 456, r' i = r i
  back : ∀ i, 459 ≤ i → i < NefsCatalogStruct.size → r' i = r i
  created : created (NefsCatalogStruct.flags.get r') = created (NefsCatalogStruct.flags.get r)

/-- Strings that agree for `k` characters are equal, or both are that long. -/
theorem charsAt_agree (room : Nat) (hk : k ≤ room) (h : ∀ i < k, r' (off + i) = r (off + i)) :
    charsAt r' off room = charsAt r off room ∨
      (k ≤ (charsAt r' off room).length ∧ k ≤ (charsAt r off room).length) := by
  induction k generalizing off room with
  | zero => exact .inr ⟨Nat.zero_le _, Nat.zero_le _⟩
  | succ k ih =>
      obtain ⟨room, rfl⟩ : ∃ n, room = n + 1 := ⟨room - 1, by omega⟩
      have h₀ : r' off = r off := h 0 (by omega)
      rw [charsAt, charsAt, h₀]
      by_cases hz : r off = 0
      · left
        rw [if_pos hz, if_pos hz]
      · rw [if_neg hz, if_neg hz]
        have hrest : ∀ i < k, r' (off + 1 + i) = r (off + 1 + i) := by
          intro i hi
          have := h (i + 1) (by omega)
          rwa [show off + (i + 1) = off + 1 + i by omega] at this
        rcases ih room (Nat.le_of_succ_le_succ hk) hrest with heq | ⟨hl', hl⟩
        · left
          rw [heq]
        · right
          rw [List.length_cons, List.length_cons]
          omega

theorem SameCatalog.suffix (h : SameCatalog r r') (hn : name.chars.length < 455) :
    (NefsCatalogStruct.nameOf r').chars.isSuffixOf name.chars =
      (NefsCatalogStruct.nameOf r).chars.isSuffixOf name.chars := by
  have hagree : ∀ i < 455, r' (1 + i) = r (1 + i) := fun i hi => h.front (1 + i) (by omega)
  rcases charsAt_agree 534 (by omega) hagree with heq | ⟨hl', hl⟩
  · show (charsAt r' 1 534).isSuffixOf _ = (charsAt r 1 534).isSuffixOf _
    rw [heq]
  · -- both names are longer than the path
    have hno {l : List UInt8} (hlong : 455 ≤ l.length) : l.isSuffixOf name.chars = false := by
      apply Bool.eq_false_iff.mpr
      intro hs
      have := (List.isSuffixOf_iff_suffix.mp hs).length_le
      omega
    exact (hno hl').trans (hno hl).symm

theorem SameCatalog.field (h : SameCatalog r r') {f : Field} (h₁ : 459 ≤ f.off)
    (h₂ : f.off + f.width ≤ NefsCatalogStruct.size) : f.get r' = f.get r :=
  Field.get_congr fun i hi => h.back _ (by omega) (by omega)

/-- Two drives on which every record looks the same. -/
structure SameChain (drv : DriveTrait) (m m' : Store) : Prop where
  start : NefsRootPartitionBlock.startCatalog.get (partBlock drv m') =
    NefsRootPartitionBlock.startCatalog.get (partBlock drv m)
  catalog : ∀ lba, NefsRootPartitionBlock.startCatalog.get (partBlock drv m) ≤ lba →
    SameCatalog (slice m (drv.fAddress lba)) (slice m' (drv.fAddress lba))

/-- The same LBA, and records that look the same. -/
def SameHit (hit hit' : Nat × Store) : Prop := hit'.1 = hit.1 ∧ SameCatalog hit.2 hit'.2

section
variable (hc : SameChain drv m m')
include hc

theorem scanVisit_same (hn : name.chars.length < 455)
    (hlba : NefsRootPartitionBlock.startCatalog.get (partBlock drv m) ≤ lba) :
    Visit.Rel SameHit (scanVisit drv m name hidden lba) (scanVisit drv m' name hidden lba) := by
  have hr := hc.catalog lba hlba
  simp only [scanVisit, hr.suffix hn, hr.created,
    hr.field (f := NefsCatalogStruct.status) (by decide) (by decide)]
  split
  · split
    · exact .stop
    split
    · exact .found ⟨rfl, hr⟩
    · exact .stop
  · exact .next

theorem scanFrom_same (hn : name.chars.length < 455) (hidden : Bool) (lba : Nat) :
    Option.Rel (Option.Rel SameHit) (scanFrom drv (partBlock drv m) m name hidden lba)
      (scanFrom drv (partBlock drv m') m' name hidden lba) := by
  simp only [scanFrom, hc.start]
  split
  · exact .some .none
  · next hlba =>
      apply scan_rel
      · intro x hx
        have hr := hc.catalog x (Nat.le_of_not_lt (of_decide_eq_false hx))
        exact hr.field (f := NefsCatalogStruct.nextSibling) (by decide) (by decide)
      · intro x hx
        exact scanVisit_same hc hn (Nat.le_of_not_lt (of_decide_eq_false hx))
      · exact decide_eq_false hlba

theorem scanLocal_same (hn : name.chars.length < 455) {parent parent' : Option (Nat × Store)}
    (hp : Option.Rel SameHit parent parent') :
    Option.Rel (Option.Rel SameHit) (scanLocal drv (partBlock drv m) m name hidden parent)
      (scanLocal drv (partBlock drv m') m' name hidden parent') := by
  cases hp with
  | none =>
      simp only [scanLocal, hc.start]
      exact scanFrom_same hc hn _ _
  | @some hit hit' hhit =>
      simp only [scanLocal, hc.start, Option.bind_eq_bind,
        hhit.2.field (f := NefsCatalogStruct.nextSibling) (by decide) (by decide)]
      apply rel_bind (scanFrom_same hc hn _ _)
      intro found found' hfound
      cases hfound with
      | none =>
          simp only [Option.isSome_none, Bool.false_eq_true, if_false]
          exact scanFrom_same hc hn _ _
      | some hsame =>
          simp only [Option.isSome_some, if_true]
          exact .some (.some hsame)

/-- Results that agree on what was found, on disks with the two drives' bytes. -/
def SameResult (m m' : Store) (x x' : Option (Nat × Store) × Disk) : Prop :=
  Option.Rel SameHit x.1 x'.1 ∧ x.2.bytes = m ∧ x'.2.bytes = m'

theorem findCatalogAnywhere_same (hn : name.chars.length < 455) (he : d.bytes = m)
    (he' : d'.bytes = m') : Option.Rel (SameResult m m') (findCatalogAnywhere drv name hidden d)
      (findCatalogAnywhere drv name hidden d') := by
  unfold findCatalogAnywhere
  split
  · exact .some ⟨.none, he, he'⟩
  · have hscan := scanFrom_same hc hn hidden
      (NefsRootPartitionBlock.startCatalog.get (partBlock drv m))
    subst he he'
    show Option.Rel _ ((scanFrom drv (partBlock drv d.bytes) d.bytes name hidden
      (NefsRootPartitionBlock.startCatalog.get (partBlock drv d.bytes))).bind _)
      ((scanFrom drv (partBlock drv d'.bytes) d'.bytes name hidden
        (NefsRootPartitionBlock.startCatalog.get (partBlock drv d'.bytes))).bind _)
    rw [hc.start]
    exact rel_bind hscan fun _ _ hf => .some ⟨hf, rfl, rfl⟩

theorem findCatalogLocal_same (hn : name.chars.length < 455) (he : d.bytes = m)
    (he' : d'.bytes = m') : Option.Rel (SameResult m m') (findCatalogLocal drv name hidden d)
      (findCatalogLocal drv name hidden d') := by
  unfold findCatalogLocal
  by_cases hempty : name.chars = []
  · simp only [hempty, if_true]
    exact .some ⟨.none, he, he'⟩
  by_cases hlong : kNeFSCatalogNameLen < name.length
  · simp only [hempty, hlong, if_false, if_true]
    exact .none
  by_cases hfull : name.length = kNeFSCatalogNameLen
  · simp only [hempty, hfull, if_false, if_true]
    exact .some ⟨.none, he, he'⟩
  simp only [hempty, hlong, hfull, if_false]
  cases hp : parentName name with
  | none => exact .some ⟨.none, he, he'⟩
  | some parent =>
      -- the name of the parent is a part of the name, so it is short enough, too
      have hparent : parent.chars.length < 455 := by
        unfold parentName at hp
        split at hp
        · cases hp
        · cases hp
          show (name.chars.take _).length < 455
          rw [List.length_take]
          omega
      subst he he'
      have hany : Option.Rel (SameResult d.bytes d'.bytes)
          (findCatalogAnywhere drv parent hidden
            (d.inputBlock drv kNeFSRootCatalogStartAddress).2)
          (findCatalogAnywhere drv parent hidden
            (d'.inputBlock drv kNeFSRootCatalogStartAddress).2) :=
        findCatalogAnywhere_same hc hparent rfl rfl
      refine rel_bind hany ?_
      rintro ⟨found, d₁⟩ ⟨found', d₁'⟩ ⟨hfound, hb, hb'⟩
      dsimp only at hfound hb hb' ⊢
      rw [hb, hb']
      exact rel_bind (scanLocal_same hc hn hfound) fun _ _ hf => .some ⟨hf, hb, hb'⟩

theorem findCatalog_same (hn : name.chars.length < 455) (he : d.bytes = m) (he' : d'.bytes = m') :
    Option.Rel (SameResult m m') (findCatalog drv name hidden localSearch d)
      (findCatalog drv name hidden localSearch d') := by
  unfold findCatalog
  split
  · exact findCatalogLocal_same hc hn he he'
  · exact findCatalogAnywhere_same hc hn he he'

/-- Lookups come to the same records. -/
theorem lookup_same (hn : name.chars.length < 455) {hit : Nat × Store}
    (h : lookup drv m name hidden localSearch = some (some hit)) :
    ∃ hit', lookup drv m' name hidden localSearch = some (some hit') ∧ SameHit hit hit' := by
  obtain ⟨d₁, hd⟩ := (lookup_iff (d := ⟨m, []⟩)).mp h
  have hrel : Option.Rel (SameResult m m') (findCatalog drv name hidden localSearch ⟨m, []⟩)
    (findCatalog drv name hidden localSearch ⟨m', []⟩) := findCatalog_same hc hn rfl rfl
  rw [hd] at hrel
  rcases hd' : findCatalog drv name hidden localSearch ⟨m', []⟩ with _ | ⟨found', d₁'⟩ <;>
    rw [hd'] at hrel <;> cases hrel
  next hres =>
  obtain ⟨hfound, -, -⟩ := hres
  cases hfound with
  | some hsame => exact ⟨_, (lookup_iff (d := ⟨m', []⟩)).mpr ⟨d₁', hd'⟩, hsame⟩

end

/-! ## What a removal changes -/

/-- The bytes a removal can change: one in each fork it marks, the flags of the record, and the
partition block. -/
theorem Removes.apply (h : Removes drv d d' name outLba m') {x : Nat}
    (hfork : ∀ lba, x ≠ drv.fAddress lba + 456)
    (hflags : x < drv.fAddress outLba + 457 ∨ drv.fAddress outLba + 459 ≤ x)
    (hblock : x < drv.fAddress kNeFSRootCatalogStartAddress ∨
      drv.fAddress kNeFSRootCatalogStartAddress + NefsRootPartitionBlock.size ≤ x) :
    d'.bytes x = d.bytes x := by
  have hm' : m' x = d.bytes x := by
    apply h.marked fun m => m x = d.bytes x
    · intro m lba _ hm
      rw [markFork_apply (hfork lba), hm]
    · rfl
  rw [h.bytes, removedBytes, blit_apply_of_notMem hblock, ← hm']
  apply blit_eq_of_agree
  intro h₁ h₂
  generalize drv.fAddress outLba = a at *
  rw [hm', Field.set_apply (by show x - a < 457 ∨ 457 + 2 ≤ x - a; omega), slice_apply]
  congr 1
  omega

/-- The flags of the record after the removal. -/
theorem Removes.record_flags (h : Removes drv d d' name outLba m')
    (hblock : drv.fAddress kNeFSRootCatalogStartAddress + NefsRootPartitionBlock.size ≤
      drv.fAddress outLba) :
    NefsCatalogStruct.flags.get (slice d'.bytes (drv.fAddress outLba)) =
      markDeleted 16 (NefsCatalogStruct.flags.get (slice d.bytes (drv.fAddress outLba))) %
        2 ^ 16 := by
  rw [h.bytes, removedBytes, Field.get_slice_blit_of_disjoint (.inr (by omega)),
    Field.get_slice_blit_same (by decide), Field.get_set_same]
  rfl

/-- The byte of a record that marking a fork can change. -/
theorem SectorAddressed.mark_offset (hs : SectorAddressed drv) {i fork : Nat}
    (hi : i < NefsCatalogStruct.size) (h : drv.fAddress lba + i = drv.fAddress fork + 456) :
    i = 456 := by
  have hS := hs.sector'
  have hi' : i < 535 := hi
  rcases Nat.lt_trichotomy lba fork with hlt | rfl | hlt
  · obtain ⟨j, rfl⟩ := Nat.exists_eq_add_of_lt hlt
    have h₁ := hs.address_add lba (j + 1)
    have h₂ : drv.fSectorSz ≤ (j + 1) * drv.fSectorSz := Nat.le_mul_of_pos_left _ (by omega)
    rw [Nat.add_assoc] at h
    omega
  · omega
  · obtain ⟨j, rfl⟩ := Nat.exists_eq_add_of_lt hlt
    have h₁ := hs.address_add fork (j + 1)
    have h₂ : drv.fSectorSz ≤ (j + 1) * drv.fSectorSz := Nat.le_mul_of_pos_left _ (by omega)
    rw [Nat.add_assoc fork j 1] at h
    omega

/-- Where the flags of one record are, no other record has its first bytes. -/
theorem SectorAddressed.flags_offset (hs : SectorAddressed drv) {i : Nat}
    (hi : i < NefsCatalogStruct.size) (hne : lba ≠ outLba) :
    drv.fAddress lba + i < drv.fAddress outLba + 457 ∨
      drv.fAddress outLba + 459 ≤ drv.fAddress lba + i := by
  have hS := hs.sector'
  have hi' : i < 535 := hi
  rcases Nat.lt_or_gt_of_ne hne with hlt | hlt
  · obtain ⟨j, rfl⟩ := Nat.exists_eq_add_of_lt hlt
    have h₁ := hs.address_add lba (j + 1)
    have h₂ : drv.fSectorSz ≤ (j + 1) * drv.fSectorSz := Nat.le_mul_of_pos_left _ (by omega)
    rw [Nat.add_assoc]
    omega
  · obtain ⟨j, rfl⟩ := Nat.exists_eq_add_of_lt hlt
    have h₁ := hs.address_add outLba (j + 1)
    have h₂ : drv.fSectorSz ≤ (j + 1) * drv.fSectorSz := Nat.le_mul_of_pos_left _ (by omega)
    rw [Nat.add_assoc outLba j 1]
    omega

/-- **A removal changes nothing a lookup sees.** -/
theorem Removes.sameChain (hs : SectorAddressed drv) (hm : Mounted drv d.bytes)
    (h : Removes drv d d' name outLba m') : SameChain drv d.bytes d'.bytes := by
  have hc := h.counters hs (h.first hm)
  have hstart : NefsRootPartitionBlock.startCatalog.get (partBlock drv d.bytes) =
      firstCatalog drv := hm.start
  constructor
  · exact congrArg Counters.startCatalog hc
  intro lba hlba
  rw [hstart] at hlba
  have hblock := hs.block_below hlba
  -- every byte of the record but the one a fork's flags may share and those of its own flags
  have hbyte : ∀ i < NefsCatalogStruct.size, i ≠ 456 → (lba = outLba → i < 457 ∨ 459 ≤ i) →
      slice d'.bytes (drv.fAddress lba) i = slice d.bytes (drv.fAddress lba) i := by
    intro i hi h456 hflags
    apply h.apply
    · intro fork heq
      exact h456 (hs.mark_offset hi heq)
    · by_cases heq : lba = outLba
      · subst heq
        have := hflags rfl
        omega
      · exact hs.flags_offset hi heq
    · exact .inr (by omega)
  constructor
  · intro i hi
    exact hbyte i (by show i < 535; omega) (by omega) fun _ => .inl (by omega)
  · intro i h₁ h₂
    exact hbyte i h₂ (by omega) fun _ => .inr h₁
  · by_cases heq : lba = outLba
    · subst heq
      have hcreated : created (NefsCatalogStruct.flags.get
          (slice d.bytes (drv.fAddress lba))) = true := (lookup_hit h.found).created
      rw [hcreated, h.record_flags (by omega)]
      exact created_markDeleted (by decide)
    · apply congrArg created
      apply Field.get_congr
      intro i hi
      have hi' : i < 2 := hi
      exact hbyte (457 + i) (by show _ < 535; omega) (by omega) fun h => absurd h heq

/-! ## The catalog is still there -/

/-- The path has been removed: no lookup finds it, every other path that was found still is, and
its catalog can be created again while there is a free one. -/
structure Gone (drv : DriveTrait) (m m' : Store) (name : CString) : Prop where
  find : lookup drv m' name true false = some none
  get : lookup drv m' name true true = some none
  others : ∀ q hit, q ≠ name → lookup drv m q true true = some (some hit) →
    ∃ hit', lookup drv m' q true true = some (some hit')
  again : ∀ flags kind, nameAllowed name kind = true → 1 ≤ (counters drv m').freeCatalog →
    ∀ d : Disk, d.bytes = m' → ∃ r d', createCatalog drv name flags kind d = some (some r, d')

/-- A path that `GetCatalog` finds is short. -/
theorem lookup_length {hit : Nat × Store} (h : lookup drv m name true true = some (some hit))
    (hroot : name ≠ kNeFSRoot) : name.chars.length < 455 := by
  obtain ⟨d', hd⟩ := (lookup_iff (d := ⟨m, []⟩)).mp h
  unfold findCatalog at hd
  rw [if_pos ⟨rfl, hroot⟩] at hd
  by_contra hlong
  have hlen : kNeFSCatalogNameLen < name.length := by
    show 256 < name.chars.length
    omega
  unfold findCatalogLocal at hd
  split at hd
  · cases hd
  · cases hd

/-- **A removed catalog is still found**, on every disk that creations and removals reach: after
`RemoveCatalog` has returned true, `GetCatalog` of the same path returns a catalog. -/
theorem removed_never_gone (hs : SectorAddressed drv) (hf : Formatted drv partName d₀ d)
    (h : Reachable (CatalogStep drv) (.start d) s)
    (hr : removeCatalog drv name s.disk = some (true, d')) :
    (∃ hit, lookup drv d'.bytes name true true = some (some hit)) ∧
      ¬ Gone drv s.disk.bytes d'.bytes name := by
  have hm : Mounted drv s.disk.bytes := reach_mounted hs hf h
  obtain ⟨-, ⟨hfalse, -⟩ | ⟨-, outLba, m', hrem⟩⟩ := removeCatalog_cases hr
  · cases hfalse
  · obtain ⟨hit, hhit, -⟩ := lookup_same (hrem.sameChain hs hm)
      (lookup_length hrem.found hrem.root) hrem.found
    refine ⟨⟨hit, hhit⟩, fun hgone => ?_⟩
    rw [hgone.get] at hhit
    cases hhit

/-- `/x` on the small drive. -/
theorem removed_never_gone_small : ∃ (s : History) (d' : Disk), s.stored = [(pathX, 1026)] ∧
    removeCatalog (smallDrive 1024) pathX s.disk = some (true, d') ∧
      (∃ hit, lookup (smallDrive 1024) d'.bytes pathX true true = some (some hit)) ∧
        ¬ Gone (smallDrive 1024) s.disk.bytes d'.bytes pathX := by
  have hrun : ((CatalogCall.create pathX 0 1).run (smallDrive 1024)
      (.start (smallDisk 1024))).map (fun s => (s.stored,
        (removeCatalog (smallDrive 1024) pathX s.disk).map Prod.fst)) =
          some ([(pathX, 1026)], some true) := by decide +kernel
  obtain ⟨s, hs, heq⟩ := Option.map_eq_some_iff.mp hrun
  obtain ⟨hstored, hrem⟩ := Prod.mk.inj heq
  obtain ⟨⟨res, d'⟩, hrem, rfl⟩ := Option.map_eq_some_iff.mp hrem
  exact ⟨s, d', hstored, hrem, removed_never_gone smallDrive_addressed (smallDisk_formatted 1024)
    (.step (.create pathX 0 1) .init trivial hs) hrem⟩

/-- Create `/x`, remove it, and look for it. -/
theorem removed_found : ∃ (s : History) (d' : Disk),
    Reachable (CatalogStep (smallDrive 1024)) (.start (smallDisk 1024)) s ∧
    removeCatalog (smallDrive 1024) pathX s.disk = some (true, d') ∧
      (getCatalog (smallDrive 1024) pathX d').map (fun x => x.1.map Prod.fst) =
        some (some 1026) := by
  have hrun : ((CatalogCall.create pathX 0 1).run (smallDrive 1024)
      (.start (smallDisk 1024))).map (fun s =>
        (removeCatalog (smallDrive 1024) pathX s.disk).map fun x => (x.1,
          (getCatalog (smallDrive 1024) pathX x.2).map fun y => y.1.map Prod.fst)) =
            some (some (true, some (some 1026))) := by decide +kernel
  obtain ⟨s, hs, heq⟩ := Option.map_eq_some_iff.mp hrun
  obtain ⟨⟨res, d'⟩, hrem, heq⟩ := Option.map_eq_some_iff.mp heq
  obtain ⟨rfl, hget⟩ := Prod.mk.inj heq
  exact ⟨s, d', .step (.create pathX 0 1) .init trivial hs, hrem, hget⟩

end NeKernel.NeFS
