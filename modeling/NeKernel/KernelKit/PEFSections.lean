import NeKernel.KernelKit.PEFCodeMgr
import NeKernel.Lib.Overlay

/-!
# Loading several sections

A section is loaded by mapping zeroed pages under its memory and copying its file bytes. In the
window that is an overlay (`pefLoadSection_layer`): the file bytes are its values and its pages are
what it covers. `rtl_create_user_process` lays two or three of them over each other, and frees the
name before the last (`rtlCreateUserProcess_view`).
-/

namespace NeKernel.KernelKit

open ByteStore HALKit Overlay

variable {A A' : PageMap} {root n : Nat} {hdr hdr' src : Store} {s s' : Machine} {exec : PEFLoader}
  {e : SpawnEnd} {name : List UInt8} {kind : Nat} {o : Outcome}

/-! ## One section -/

/-- The pages under a section. -/
def sectionPageSet (hdr : Store) : Set Nat :=
  imagePages (PEFCommandHeader.vmAddress.get hdr) 0 (sectionPages hdr)

/-- The overlay of a section: its file bytes, and blank memory in the rest of its pages. -/
def sectionLayer (hdr src : Store) : Layer loadWindow (Option UInt8) where
  value x :=
    if PEFCommandHeader.vmAddress.get hdr ≤ x ∧
        x < PEFCommandHeader.vmAddress.get hdr + PEFCommandHeader.offsetSize.get hdr then
      some (some (src (x - PEFCommandHeader.vmAddress.get hdr)))
    else none
  covers := {x | pageOf x ∈ sectionPageSet hdr}

theorem sectionLayer_noValue (src : Store) {x : loadWindow}
    (hx : ¬ (PEFCommandHeader.vmAddress.get hdr ≤ x ∧
      x < PEFCommandHeader.vmAddress.get hdr + PEFCommandHeader.offsetSize.get hdr)) :
    (sectionLayer hdr src).value x = none := by
  simp only [sectionLayer, if_neg hx]

theorem sectionLayer_mem {x : loadWindow} : x ∈ (sectionLayer hdr src).covers ↔
    pageOf x ∈ sectionPageSet hdr := Iff.rfl

/-- The pages of a section are pages of the window. -/
theorem InWindow.pages (hw : InWindow hdr) : sectionPageSet hdr ⊆ windowPages := by
  rintro pg ⟨j, -, hj, rfl⟩
  have hbase := hw.base
  have hfin := hw.fin
  have hcount := (pageCount_spec (PEFCommandHeader.vmSize.get hdr)).2
  rw [Nat.zero_add, sectionPages] at hj
  rw [imagePage_eq, windowPages, Set.mem_Ico]
  simp only [kPefBaseOrigin, kPefMaxImageSz] at *
  omega

theorem InWindow.pageCount_le (hw : InWindow hdr) : sectionPages hdr ≤ 2 ^ 36 := by
  have hbase := hw.base
  have hfin := hw.fin
  have hcount := (pageCount_spec (PEFCommandHeader.vmSize.get hdr)).2
  rw [sectionPages]
  simp only [kPefBaseOrigin, kPefMaxImageSz] at *
  omega

/-- The file bytes go to the window. -/
theorem InWindow.bytes (hw : InWindow hdr) {i : Nat}
    (hi : i < PEFCommandHeader.offsetSize.get hdr) :
    PEFCommandHeader.vmAddress.get hdr + i ∈ imageWindow := by
  have hbase := hw.base
  have hfin := hw.fin
  have hfile := hw.file_le
  rw [imageWindow, Set.mem_Ico]
  omega

theorem InWindow.target_subset (hw : InWindow hdr) :
    target (PEFCommandHeader.vmAddress.get hdr) (PEFCommandHeader.offsetSize.get hdr) ⊆
      imageWindow := by
  rintro va ⟨-, i, hi, rfl⟩
  have hmem := hw.bytes hi
  have hlt := imageWindow_lt hmem
  rw [u64_of_lt (by omega)]
  exact hmem

/-- The copy `pef_load_section` makes, when there is something to copy. -/
theorem InWindow.copy (hw : InWindow hdr) :
    rtCopyMemorySafe root s src (PEFCommandHeader.vmAddress.get hdr)
        (PEFCommandHeader.offsetSize.get hdr) (PEFCommandHeader.vmSize.get hdr) =
      copyBytes root (PEFCommandHeader.vmAddress.get hdr) src
        (PEFCommandHeader.offsetSize.get hdr) s := by
  have hbase := hw.base
  have hfile := hw.file_le
  have hpos : 0 < kPefBaseOrigin := by decide
  rw [rtCopyMemorySafe, if_neg (by omega)]

theorem pefLoadSection_unmapped {s₁ : Machine}
    (hmap : mapImage root (PEFCommandHeader.vmAddress.get hdr) (sectionPages hdr) s = (false, s₁)) :
    pefLoadSection root hdr (some src) s = (.returned kErrorHeapOutOfMemory 0, s₁) := by
  simp only [pefLoadSection, hmap, if_true]

/-- The two steps of `pef_load_section` when the pages could be mapped. -/
theorem pefLoadSection_mapped (hw : InWindow hdr) {s₁ : Machine}
    (hmap : mapImage root (PEFCommandHeader.vmAddress.get hdr) (sectionPages hdr) s = (true, s₁))
    {c : Bool × Machine}
    (hcopy : copyBytes root (PEFCommandHeader.vmAddress.get hdr) src
      (PEFCommandHeader.offsetSize.get hdr) s₁ = c) :
    pefLoadSection root hdr (some src) s =
      (if c.1 = false then .fault
        else .returned kErrorSuccess (PEFCommandHeader.vmAddress.get hdr), c.2) := by
  have hsame : (if PEFCommandHeader.offsetSize.get hdr > 0 then
      rtCopyMemorySafe root s₁ src (PEFCommandHeader.vmAddress.get hdr)
        (PEFCommandHeader.offsetSize.get hdr) (PEFCommandHeader.vmSize.get hdr)
      else (true, s₁)) = c := by
    split
    · rw [hw.copy, hcopy]
    · next hnone =>
        rw [← hcopy, Nat.eq_zero_of_not_pos hnone]
        rfl
  simp only [pefLoadSection, hmap]
  rw [if_neg fun h => Bool.noConfusion h, hsame]
  split <;> rfl

theorem pefLoadSection_copied (hw : InWindow hdr) {s₁ s₂ : Machine}
    (hmap : mapImage root (PEFCommandHeader.vmAddress.get hdr) (sectionPages hdr) s = (true, s₁))
    (hcopy : copyBytes root (PEFCommandHeader.vmAddress.get hdr) src
      (PEFCommandHeader.offsetSize.get hdr) s₁ = (true, s₂)) :
    pefLoadSection root hdr (some src) s =
      (.returned kErrorSuccess (PEFCommandHeader.vmAddress.get hdr), s₂) := by
  rw [pefLoadSection_mapped hw hmap hcopy, if_neg fun h => Bool.noConfusion h]

theorem pefLoadSection_fault (hw : InWindow hdr) {s₁ s₂ : Machine}
    (hmap : mapImage root (PEFCommandHeader.vmAddress.get hdr) (sectionPages hdr) s = (true, s₁))
    (hcopy : copyBytes root (PEFCommandHeader.vmAddress.get hdr) src
      (PEFCommandHeader.offsetSize.get hdr) s₁ = (false, s₂)) :
    pefLoadSection root hdr (some src) s = (.fault, s₂) := by
  rw [pefLoadSection_mapped hw hmap hcopy, if_pos rfl]

/-- The section `FindSymbol` loads: one that is found and has file bytes. -/
def PEFLoader.loads (exec : PEFLoader) (name : List UInt8) (kind : Nat) : Option Store :=
  (exec.section? name kind).filter fun hdr => 0 < PEFCommandHeader.offsetSize.get hdr

/-- The file bytes of a section. -/
def PEFLoader.fileBytes (exec : PEFLoader) (hdr : Store) : Store :=
  slice exec.blob (PEFCommandHeader.offset.get hdr)

/-- The overlay of a section of the blob. -/
def PEFLoader.layer (exec : PEFLoader) (hdr : Store) : Layer loadWindow (Option UInt8) :=
  sectionLayer hdr (exec.fileBytes hdr)

/-- The sections `rtl_create_user_process` loads, first one first. -/
def loadedSections (exec : PEFLoader) (e : SpawnEnd) : List Store :=
  match exec.loads kPefStart kPefCode with
  | none => []
  | some start =>
    start :: ((exec.loads kPefNameSymbol kPefCode).toList ++
      if e.spawned then (exec.loads kPefStackSizeSymbol kPefData).toList else [])

theorem findSymbol_none (h : exec.loads name kind = none) :
    findSymbol root exec name kind s = (.returned kErrorInvalidData 0, s) := by
  unfold PEFLoader.loads at h
  unfold findSymbol
  cases hsect : exec.section? name kind with
  | none => rfl
  | some hdr =>
      rw [hsect] at h
      have hzero : ¬ 0 < PEFCommandHeader.offsetSize.get hdr := fun hpos => by
        rw [Option.filter_some_pos (by exact decide_eq_true hpos)] at h
        cases h
      simp only [PEFLoader.source, if_neg hzero, pefLoadSection]

theorem findSymbol_some (root : Nat) (s : Machine) (h : exec.loads name kind = some hdr) :
    InWindow hdr ∧
    findSymbol root exec name kind s = pefLoadSection root hdr (some (exec.fileBytes hdr)) s := by
  obtain ⟨hsect, hpos⟩ := Option.filter_eq_some_iff.mp h
  refine ⟨PEFLoader.section_inWindow hsect, ?_⟩
  simp only [findSymbol, hsect, PEFLoader.source, if_pos (of_decide_eq_true hpos),
    PEFLoader.fileBytes]

/-- The sections that are loaded before the name is freed. -/
def firstSections (exec : PEFLoader) : List Store :=
  (exec.loads kPefStart kPefCode).toList ++ (exec.loads kPefNameSymbol kPefCode).toList

/-- The sections that are loaded last. -/
def lastSections (exec : PEFLoader) (e : SpawnEnd) : List Store :=
  if e.spawned then (exec.loads kPefStackSizeSymbol kPefData).toList else []

theorem loadedSections_some (h : exec.loads kPefStart kPefCode = some hdr) :
    loadedSections exec e = (exec.loads kPefStart kPefCode).toList ++
      ((exec.loads kPefNameSymbol kPefCode).toList ++ lastSections exec e) := by
  rw [loadedSections, h, lastSections]
  rfl

/-- What the window holds when the name is freed. -/
noncomputable def beforeFree (root : Nat) (exec : PEFLoader) (s : Machine) :
    loadWindow → Option UInt8 :=
  applyAll (some 0) ((firstSections exec).map exec.layer) (view root loadWindow s)

/-- The file bytes of a section are on its own pages, as those of an aligned section are. -/
def Fits (hdr : Store) : Prop :=
  ∀ i, i < PEFCommandHeader.offsetSize.get hdr →
    pageOf (PEFCommandHeader.vmAddress.get hdr + i) ∈ sectionPageSet hdr

theorem fits_of_room (hroom : PEFCommandHeader.vmAddress.get hdr % 4096 +
    PEFCommandHeader.offsetSize.get hdr ≤ 4096 * sectionPages hdr) : Fits hdr := by
  intro i hi
  exact page_of_room (by omega)

/-- The word a free of the name tests first is zero. -/
def NameRefused (exec : PEFLoader) (v : loadWindow → Option UInt8) : Prop :=
  ∀ nm, exec.loads kPefNameSymbol kPefCode = some nm → ∀ x : loadWindow,
    PEFCommandHeader.vmAddress.get nm ≤ x + Heap.kHeapMgrHdrSz →
    x + Heap.kHeapMgrHdrSz < PEFCommandHeader.vmAddress.get nm + 8 → v x = some 0

end NeKernel.KernelKit
