import NeKernel.FS.NeFSRows

/-!
# Paths that are told apart

On a drive that was blank when it was formatted, a creation changes the outcome of the lookups of
exactly the paths that end in the name it stores. A run in which no other path stores such a name
gives `GetCatalog` of a path the record that `CreateCatalog` of that path has stored.
-/

namespace NeKernel.NeFS

open ByteStore Scan Runs

variable {drv : DriveTrait} {m m' : Store} {d d₀ : Disk} {partName p q : CString}
  {s s' : History} {c : CatalogCall} {flags kind outLba startFree : Nat}
  {paths : List (CString × Nat)} {localSearch : Bool}

/-- The drive was formatted when it held zeros from the first catalog on. -/
structure FormattedBlank (drv : DriveTrait) (partName : CString) (d₀ d : Disk) : Prop extends
    Formatted drv partName d₀ d where
  blank : ∀ x, drv.fAddress (firstCatalog drv) ≤ x → d₀.bytes x = 0

theorem FormattedBlank.bytes_zero (h : FormattedBlank drv partName d₀ d)
    (hs : SectorAddressed drv) {x : Nat} (hx : drv.fAddress (firstCatalog drv) ≤ x) :
    d.bytes x = 0 := by
  have hbelow := hs.block_below (Nat.le_refl (firstCatalog drv))
  rw [h.bytes, blit_apply_of_notMem, h.blank x hx]
  right
  rw [hs.start]
  omega

/-- The row is empty to begin with. -/
theorem FormattedBlank.row (h : FormattedBlank drv partName d₀ d) (hs : SectorAddressed drv) :
    Row drv d.bytes [] := by
  refine ⟨h.mounted hs, Nat.zero_le _, fun i p lba hget => by simp at hget, fun lba hlba => ?_⟩
  have haddr := hs.address_le ((first_le_slotLba _).trans hlba)
  have hzero (i : Nat) : slice d.bytes (drv.fAddress lba) i = zeros i :=
    h.bytes_zero hs (by omega)
  refine ⟨hzero _, ?_⟩
  have hflags : NefsCatalogStruct.flags.get (slice d.bytes (drv.fAddress lba)) =
      NefsCatalogStruct.flags.get zeros :=
    Field.get_congr fun i _ => hzero _
  rw [hflags, Field.get_zeros]
  rfl

/-- A step of a run keeps the row of what the run has stored. -/
theorem CatalogStep.row (hs : SectorAddressed drv)
    (hrow : Row drv s.disk.bytes s.stored.reverse) (h : CatalogStep drv s c s') :
    Row drv s'.disk.bytes s'.stored.reverse := by
  rcases h.cases with ⟨hk, -⟩ | ⟨name, flags, kind, outLba, startFree, -, hst⟩ |
    ⟨name, outLba, m', -, hr⟩
  · rwa [hk.bytes, hk.stored]
  · rw [hst.bytes, hst.stored, List.reverse_cons]
    exact hrow.stores hs hst.stores
  · rw [hr.stored]
    exact hrow.removes hs hr.removes

theorem reach_row (hs : SectorAddressed drv) (hf : FormattedBlank drv partName d₀ d)
    {ok : History → CatalogCall → Prop} (h : Reach (CatalogStep drv) ok (.start d) s) :
    Row drv s.disk.bytes s.stored.reverse :=
  h.inv (I := fun s => Row drv s.disk.bytes s.stored.reverse) (hf.row hs)
    fun _ _ _ hrow _ hst => hst.row hs hrow

/-- An absolute path. -/
def Absolute (q : CString) : Prop := q.chars[0]? = some kNeFSSeparator

theorem Absolute.ne (h : Absolute q) : q.chars ≠ [] := by
  intro hn
  unfold Absolute at h
  rw [hn] at h
  cases h

/-- No lookup of the path succeeds that has failed before, the one by which `CreateCatalog` finds
out whether the path exists among them. -/
def KeepsAbsent (drv : DriveTrait) (m m' : Store) (q : CString) : Prop :=
  ∀ localSearch, Found drv m' q localSearch → Found drv m q localSearch

/-- What `GetCatalog` of the path returns is the record `CreateCatalog` of the path stored. -/
def GetsOwn (drv : DriveTrait) (s : History) (q : CString) : Prop :=
  ∀ hit, lookup drv s.disk.bytes q true true = some (some hit) → (q, hit.1) ∈ s.stored

/-- The call stores no name the path ends in, unless it creates the path itself. -/
def KeepsApart (q : CString) (_ : History) : CatalogCall → Prop
  | .create p _ _ => p ≠ q → ¬ EndsIn q p
  | .remove _ => True

/-- A creation keeps a path absent when the path does not end in the name it stores. -/
theorem Stored.keepsAbsent_iff (hs : SectorAddressed drv)
    (hrow : Row drv s.disk.bytes s.stored.reverse) (hq : Absolute q)
    (h : Stored drv s s' p flags kind outLba startFree) :
    KeepsAbsent drv s.disk.bytes s'.disk.bytes q ↔
      (Found drv s.disk.bytes q false ∨ ¬ EndsIn q p) := by
  have hrow' : Row drv s'.disk.bytes (s.stored.reverse ++ [(p, startFree)]) := by
    rw [h.bytes]
    exact hrow.stores hs h.stores
  have hwalks : Walks q false := ⟨hq.ne, fun h => by cases h⟩
  constructor
  · intro hk
    by_cases hend : EndsIn q p
    · left
      apply hk false
      exact hrow'.lined.found_iff.mpr ⟨hwalks, _, List.mem_append_right _ (List.mem_singleton.mpr rfl),
        hend⟩
    · exact .inr hend
  · rintro hor localSearch hfound
    obtain ⟨hw, x, hx, hend⟩ := hrow'.lined.found_iff.mp hfound
    apply hrow.lined.found_iff.mpr
    rcases List.mem_append.mp hx with hx | hx
    · exact ⟨hw, x, hx, hend⟩
    · obtain rfl : x = (p, startFree) := List.mem_singleton.mp hx
      rcases hor with hbefore | hno
      · exact ⟨hw, (hrow.lined.found_iff.mp hbefore).2⟩
      · exact absurd hend hno

/-- Every path whose name is stored and in which the path ends is the path itself. -/
theorem reach_keepsApart (h : Reach (CatalogStep drv) (KeepsApart q) (.start d) s) :
    ∀ x ∈ s.stored, EndsIn q x.1 → x.1 = q := by
  apply h.inv (I := fun s => ∀ x ∈ s.stored, EndsIn q x.1 → x.1 = q)
  · intro x hx
    cases hx
  · intro s c s' hI hok hst
    rcases hst.cases with ⟨hk, -⟩ | ⟨name, flags, kind, outLba, startFree, rfl,
      hstored⟩ | ⟨name, outLba, m', rfl, hr⟩
    · rwa [hk.stored]
    · rw [hstored.stored]
      intro x hx hend
      rcases List.mem_cons.mp hx with rfl | hx
      · by_contra hne
        exact hok hne hend
      · exact hI x hx hend
    · rwa [hr.stored]

/-- **A path is told apart from those whose names it does not end in, and from no others.** In a
run that stores no other such name, `GetCatalog` of the path returns its own record; and in any
run a creation keeps the path absent if and only if the path was found before or does not end in
the name that is stored. -/
theorem path_apart_iff (hs : SectorAddressed drv) (hf : FormattedBlank drv partName d₀ d)
    (hq : Absolute q) :
    (∀ s, Reach (CatalogStep drv) (KeepsApart q) (.start d) s → GetsOwn drv s q) ∧
      ∀ s s' p flags kind outLba startFree, Reachable (CatalogStep drv) (.start d) s →
        Stored drv s s' p flags kind outLba startFree →
          (KeepsAbsent drv s.disk.bytes s'.disk.bytes q ↔
            (Found drv s.disk.bytes q false ∨ ¬ EndsIn q p)) := by
  constructor
  · intro s hreach hit hl
    obtain ⟨found, hwalk, hl'⟩ := (reach_row hs hf hreach).lined.lookup_walk (lookup_walks hl)
    rw [hl] at hl'
    cases hl'
    cases hwalk with
    | @found i p hi hget hend =>
        have hmem : (p, slotLba drv i) ∈ s.stored :=
          List.mem_reverse.mp (List.mem_of_getElem? hget)
        obtain rfl : p = q := reach_keepsApart hreach _ hmem hend
        exact hmem
  · intro s s' p flags kind outLba startFree hreach hst
    exact hst.keepsAbsent_iff hs (reach_row hs hf hreach) hq

/-- `"/a/x"`. -/
def pathAX : CString := ⟨[0x2F, 0x61, 0x2F, 0x78], by simp⟩

/-- `"/b/x"`. -/
def pathBX : CString := ⟨[0x2F, 0x62, 0x2F, 0x78], by simp⟩

theorem smallDisk_blank : FormattedBlank (smallDrive 1024) volumeName blankDisk (smallDisk 1024) :=
  { smallDisk_formatted 1024 with blank := fun _ _ => rfl }

/-- `/b/x` on the small drive. -/
theorem path_apart_iff_small :
    (∀ s, Reach (CatalogStep (smallDrive 1024)) (KeepsApart pathBX) (.start (smallDisk 1024)) s →
      GetsOwn (smallDrive 1024) s pathBX) ∧
      ∀ s s' p flags kind outLba startFree,
        Reachable (CatalogStep (smallDrive 1024)) (.start (smallDisk 1024)) s →
          Stored (smallDrive 1024) s s' p flags kind outLba startFree →
            (KeepsAbsent (smallDrive 1024) s.disk.bytes s'.disk.bytes pathBX ↔
              (Found (smallDrive 1024) s.disk.bytes pathBX false ∨ ¬ EndsIn pathBX p)) :=
  path_apart_iff smallDrive_addressed smallDisk_blank rfl

/-- Once `/a/x` has been created, `/b/x` is found at its record, and cannot be created. -/
theorem create_finds_other : ∃ s : History,
    Reachable (CatalogStep (smallDrive 1024)) (.start (smallDisk 1024)) s ∧
      s.stored = [(pathAX, 1026)] ∧
      (lookup (smallDrive 1024) (smallDisk 1024).bytes pathBX true true).map
        (·.map Prod.fst) = some none ∧
      (lookup (smallDrive 1024) s.disk.bytes pathBX true true).map (·.map Prod.fst) =
        some (some 1026) ∧
      (createCatalog (smallDrive 1024) pathBX 0 1 s.disk).map (fun x => x.1.isSome) =
        some false := by
  have hrun : ((CatalogCall.create pathAX 0 1).run (smallDrive 1024)
      (.start (smallDisk 1024))).map (fun s => (s.stored,
        (lookup (smallDrive 1024) s.disk.bytes pathBX true true).map (·.map Prod.fst),
        (createCatalog (smallDrive 1024) pathBX 0 1 s.disk).map fun x => x.1.isSome)) =
          some ([(pathAX, 1026)], some (some 1026), some false) := by decide +kernel
  obtain ⟨s, hs, heq⟩ := Option.map_eq_some_iff.mp hrun
  obtain ⟨hstored, heq⟩ := Prod.mk.inj heq
  obtain ⟨hlookup, hcreate⟩ := Prod.mk.inj heq
  exact ⟨s, .step (.create pathAX 0 1) .init trivial hs, hstored, by decide +kernel, hlookup,
    hcreate⟩

end NeKernel.NeFS
