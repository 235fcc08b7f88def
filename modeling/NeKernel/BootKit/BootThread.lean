import NeKernel.BootKit.BootSupport
import NeKernel.BootKit.StringCompare
import NeKernel.KernelKit.ImageContents
import NeKernel.KernelKit.PE32Symbols

/-!
# The boot loader's loader

`BootThread::BootThread` clears the memory of each section and copies its raw data there, in the order
of the table. It does so with `memset` and `memcpy`, which go over four times as much, and it clears by
the size of the raw data where there are any. So a section begins as it should and then has what
follows its raw data in the file, and the last section that is written to an address decides
(`bootThread_content_iff`). `PE32Loader::LoadImage` copies what there is and relies on zeroed frames;
`same_content_iff` puts the two next to each other.

The file is memory of its own, which no section is written to. `AllocatePages` leaves the memory as it
is, and that it fails is only reported. The checks are those of the build for AMD64, which takes images
of every subsystem.
-/

namespace NeKernel.BootKit

open ByteStore CStrings WordCopy Overlay HALKit KernelKit

def kHandoverMagic : Nat := 0xBADAA

def sectionForCode : CString := literal [0x2E, 0x74, 0x65, 0x78, 0x74] (by decide)
def sectionForBootZ : CString := literal [0x2E, 0x6C, 0x64, 0x72] (by decide)
def sectionForBootZAlt : CString := literal [0x2E, 0x62, 0x6F, 0x74, 0x7A] (by decide)

/-! ## The constructor -/

/-- `CopyMem` out of the file. -/
def copyMem (file m : Store) (dst src len : Nat) : Store :=
  forLoop (fun i m => putLE m (dst + 4 * i) 4 (getLE file (src + 4 * i) 4)) len m

/-- `StrCmp(name, sect->Name) == 0`. -/
def nameIs (name : CString) (sect : Store) : Bool :=
  strcmpFrom name.bytes sect (name.len + 1) 0 == some 0

/-- The memory that sections are loaded to, and `fStartAddress`. -/
structure BootThread where
  memory : Store
  fStartAddress : Nat

/-- One round of the loop over the sections; `none` is `Stop`. -/
def loadSection (fBlob opt sect : Store) (t : BootThread) : Option BootThread :=
  let loadStartAddress := LDROptionalHeader.imageBase.get opt
  let dst := u64 (loadStartAddress + LDRSectionHeader.virtualAddress.get sect)
  let src := LDRSectionHeader.pointerToRawData.get sect
  let raw := LDRSectionHeader.sizeOfRawData.get sect
  let sz := if raw > 0 then raw else LDRSectionHeader.virtualSize.get sect
  let m := (memset t.memory dst 0 sz).2
  let m := if raw > 0 then copyMem fBlob m dst src raw else m
  if nameIs sectionForCode sect then
    some ⟨copyMem fBlob m dst src raw,
      u64 (loadStartAddress + LDROptionalHeader.addressOfEntryPoint.get opt)⟩
  else if nameIs sectionForBootZ sect ∨ nameIs sectionForBootZAlt sect then
    if getLE fBlob src 8 ≠ kHandoverMagic then none
    else some ⟨copyMem fBlob m dst src raw, t.fStartAddress⟩
  else some ⟨copyMem fBlob m dst src raw, t.fStartAddress⟩

/-- The loop over the sections. -/
def loadSections (fBlob opt : Store) : List Store → BootThread → Option BootThread
  | [], t => some t
  | sect :: sects, t => (loadSection fBlob opt sect t).bind (loadSections fBlob opt sects)

/-- `BootThread::BootThread` on a file that is there; `none` if it does not return. -/
def bootThread (fBlob m : Store) : Option BootThread :=
  if fBlob 0 = kMagMz0 ∧ fBlob 1 = kMagMz1 then
    match ldrFindExecHeader fBlob, ldrFindOptExecHeader fBlob with
    | some header, some opt =>
      if LDRExecHeader.machine.get header ≠ kPeMachineAMD64 ∨
          LDRExecHeader.signature.get header ≠ kPeSignature then some ⟨m, 0⟩
      else
        let sects := (List.range (LDRExecHeader.numberOfSections.get header)).map fun i =>
          slice opt (LDRExecHeader.sizeOfOptionalHeader.get header + i * LDRSectionHeader.size)
        loadSections fBlob opt sects ⟨m, 0⟩
    | _, _ => some ⟨m, 0⟩
  else some ⟨m, 0⟩

variable {blob file m sect : Store} {sects : List Store} {exec : PE32Loader} {t t' : BootThread}
  {name : CString} {dst src len k : Nat}

/-! ## Copies and names -/

theorem copyMem_eq : copyMem file m dst src len = blit m dst (4 * len) (slice file src) := copyFrom_eq

/-- It is `memcpy`, where the words that are read and those that are written are apart. -/
theorem memcpy_eq_copyMem (h : dst + 4 * len ≤ src ∨ src + 4 * len ≤ dst) :
    (memcpy m dst src len).2 = copyMem m m dst src len := by
  have hup : (memcpy m dst src len).2 = copyUp 4 dst src len m := rfl
  rw [hup, copyUp_eq (by omega), copyMem_eq]

theorem memset_zero : (memset m dst 0 len).2 = fill m dst (4 * len) 0 := by
  rw [memset_eq, fill]
  apply blit_congr
  intro i _
  rw [leBytes, UInt32.toNat_zero, Nat.zero_div]
  rfl

/-- **A name is taken for another** when it is that name, or when it begins with another character. -/
theorem nameIs_iff (hpos : 0 < name.len) (hlen : name.len < 2 ^ 31) :
    nameIs name sect = true ↔ sect 0 ≠ name.bytes 0 ∨ ∀ i ≤ name.len, name.bytes i = sect i := by
  rw [nameIs, beq_iff_eq]
  by_cases hsame : ∀ i ≤ name.len, name.bytes i = sect i
  · exact iff_of_true (strcmpFrom_same hsame name.noNul name.nul) (.inr hsame)
  · -- the first place where the two differ is what is returned
    have hex : ∃ k, k ≤ name.len ∧ name.bytes k ≠ sect k := by
      by_contra hno
      exact hsame fun i hi => by_contra fun hne => hno ⟨i, hi, hne⟩
    obtain ⟨hk, hdiffer⟩ := Nat.find_spec hex
    have hbefore : ∀ j < Nat.find hex, name.bytes j = sect j := by
      intro j hj
      by_contra hne
      exact Nat.find_min hex hj ⟨by omega, hne⟩
    rw [strcmpFrom_differ hk hbefore (fun j hj => name.noNul j (by omega)) hdiffer, Option.some_inj,
      or_iff_left hsame]
    constructor
    · intro hzero
      have hfirst : Nat.find hex = 0 := by
        simp only [int32] at hzero
        omega
      rw [hfirst] at hdiffer
      exact hdiffer.symm
    · intro hfirst
      have hk0 : Nat.find hex = 0 := by
        by_contra hne
        exact hfirst (hbefore 0 (by omega)).symm
      rw [hk0]
      rfl

/-! ## What a section leaves -/

/-- How many `int`s of a section are cleared. -/
def clearedSize (sect : Store) : Nat :=
  if LDRSectionHeader.sizeOfRawData.get sect > 0 then LDRSectionHeader.sizeOfRawData.get sect
  else LDRSectionHeader.virtualSize.get sect

/-- A section over the memory: four times its raw data as the file goes on from them, or zeros over
four times its memory when it has none. -/
def bootLayer (exec : PE32Loader) (sect : Store) : Layer Nat UInt8 where
  value := fun x =>
    if exec.dest sect ≤ x ∧ x < exec.dest sect + 4 * LDRSectionHeader.sizeOfRawData.get sect then
      some (exec.blob (LDRSectionHeader.pointerToRawData.get sect + (x - exec.dest sect)))
    else none
  covers := Set.Ico (exec.dest sect) (exec.dest sect + 4 * clearedSize sect)

/-- The section has the name of the handover, and no handover header. -/
def Stops (blob sect : Store) : Prop :=
  ¬ nameIs sectionForCode sect ∧ (nameIs sectionForBootZ sect ∨ nameIs sectionForBootZAlt sect) ∧
    getLE blob (LDRSectionHeader.pointerToRawData.get sect) 8 ≠ kHandoverMagic

/-- Clearing the memory of a section and copying its raw data. -/
theorem bootLayer_apply (exec : PE32Loader) (sect m : Store) :
    (bootLayer exec sect).apply 0 m =
      blit (fill m (exec.dest sect) (4 * clearedSize sect) 0) (exec.dest sect)
        (4 * LDRSectionHeader.sizeOfRawData.get sect)
        (slice exec.blob (LDRSectionHeader.pointerToRawData.get sect)) := by
  funext x
  by_cases hraw : exec.dest sect ≤ x ∧
      x < exec.dest sect + 4 * LDRSectionHeader.sizeOfRawData.get sect
  · rw [blit_apply_of_mem hraw.1 hraw.2, slice_apply]
    exact Layer.apply_value (if_pos hraw)
  · have hvalue : (bootLayer exec sect).value x = none := if_neg hraw
    rw [blit_apply_of_notMem (by omega), fill]
    by_cases hcleared : x ∈ (bootLayer exec sect).covers
    · rw [Layer.apply_covered hvalue hcleared, blit_apply_of_mem hcleared.1 hcleared.2]
    · have hout : ¬ (exec.dest sect ≤ x ∧ x < exec.dest sect + 4 * clearedSize sect) := hcleared
      rw [Layer.apply_outside hvalue hcleared, blit_apply_of_notMem (by omega)]

/-- **One round of the loop** stops, or leaves the section over the memory. -/
theorem loadSection_memory (exec : PE32Loader) (sect : Store) (t : BootThread) :
    (loadSection exec.blob exec.opt sect t = none ↔ Stops exec.blob sect) ∧
      ∀ t', loadSection exec.blob exec.opt sect t = some t' →
        t'.memory = (bootLayer exec sect).apply 0 t.memory := by
  have hmemory : copyMem exec.blob
      (if LDRSectionHeader.sizeOfRawData.get sect > 0 then
        copyMem exec.blob (memset t.memory (exec.dest sect) 0 (clearedSize sect)).2 (exec.dest sect)
          (LDRSectionHeader.pointerToRawData.get sect) (LDRSectionHeader.sizeOfRawData.get sect)
        else (memset t.memory (exec.dest sect) 0 (clearedSize sect)).2)
      (exec.dest sect) (LDRSectionHeader.pointerToRawData.get sect)
      (LDRSectionHeader.sizeOfRawData.get sect) = (bootLayer exec sect).apply 0 t.memory := by
    rw [bootLayer_apply, copyMem_eq, memset_zero]
    split
    · rw [copyMem_eq, blit_blit_same]
    · rfl
  unfold loadSection Stops
  by_cases hcode : nameIs sectionForCode sect = true
  · simp only [hcode, if_true]
    exact ⟨iff_of_false (Option.some_ne_none _) fun h => h.1 trivial,
      fun t' h => Option.some.inj h ▸ hmemory⟩
  · simp only [hcode]
    by_cases hboot : nameIs sectionForBootZ sect = true ∨ nameIs sectionForBootZAlt sect = true
    · rw [if_pos hboot]
      by_cases hmagic : getLE exec.blob (LDRSectionHeader.pointerToRawData.get sect) 8 ≠ kHandoverMagic
      · rw [if_pos hmagic]
        exact ⟨iff_of_true rfl ⟨Bool.false_ne_true, hboot, hmagic⟩, fun t' h => by cases h⟩
      · rw [if_neg hmagic]
        exact ⟨iff_of_false (Option.some_ne_none _) fun h => hmagic h.2.2,
          fun t' h => Option.some.inj h ▸ hmemory⟩
    · rw [if_neg hboot]
      exact ⟨iff_of_false (Option.some_ne_none _) fun h => hboot h.2.1,
        fun t' h => Option.some.inj h ▸ hmemory⟩

/-- **The loop** stops at a section it stops at, or leaves all sections over the memory. -/
theorem loadSections_memory (exec : PE32Loader) (sects : List Store) (t : BootThread) :
    (loadSections exec.blob exec.opt sects t = none ↔ ∃ sect ∈ sects, Stops exec.blob sect) ∧
      ∀ t', loadSections exec.blob exec.opt sects t = some t' →
        t'.memory = applyAll 0 (sects.map (bootLayer exec)) t.memory := by
  induction sects generalizing t with
  | nil =>
      refine ⟨iff_of_false (Option.some_ne_none _) ?_, fun t' h => by cases h; rfl⟩
      rintro ⟨sect, hsect, -⟩
      exact List.not_mem_nil hsect
  | cons sect sects ih =>
      obtain ⟨hstops, hmemory⟩ := loadSection_memory exec sect t
      rw [loadSections]
      cases hone : loadSection exec.blob exec.opt sect t with
      | none =>
          have hstop : Stops exec.blob sect := hstops.mp hone
          exact ⟨iff_of_true rfl ⟨sect, List.mem_cons_self, hstop⟩, fun t' h => by cases h⟩
      | some t₁ =>
          have hgoes : ¬ Stops exec.blob sect := fun h => by
            rw [hstops.mpr h] at hone
            cases hone
          obtain ⟨hrest, hlater⟩ := ih t₁
          constructor
          · rw [Option.bind_some, hrest, List.exists_mem_cons_iff, or_iff_right hgoes]
          · intro t' h
            rw [hlater t' h, hmemory t₁ hone]
            rfl

/-! ## The image -/

/-- The checks of the constructor. -/
structure Accepted (blob : Store) : Prop where
  magic0 : blob 0 = kMagMz0
  magic1 : blob 1 = kMagMz1
  machine : LDRExecHeader.machine.get (slice blob DosHeader.size) = kPeMachineAMD64
  signature : LDRExecHeader.signature.get (slice blob DosHeader.size) = kPeSignature

/-- An accepted image is loaded section by section. -/
theorem Accepted.bootThread_eq (h : Accepted blob) (len : Nat) :
    bootThread blob m =
      loadSections blob (pe32Loader blob len).opt (pe32Loader blob len).sections ⟨m, 0⟩ := by
  have hsects : (pe32Loader blob len).sections =
      (List.range (LDRExecHeader.numberOfSections.get (slice blob DosHeader.size))).map fun i =>
        slice (slice (slice blob DosHeader.size) LDRExecHeader.size)
          (LDRExecHeader.sizeOfOptionalHeader.get (slice blob DosHeader.size) +
            i * LDRSectionHeader.size) := by
    apply List.map_congr_left
    intro i _
    rw [slice_slice, slice_slice, ← Nat.add_assoc, ← Nat.add_assoc]
    rfl
  have hmagic : blob 0 = kMagMz0 ∧ blob 1 = kMagMz1 := ⟨h.magic0, h.magic1⟩
  rw [bootThread, if_pos hmagic, ldrFindOptExecHeader, ldrFindExecHeader_eq, if_pos hmagic, hsects]
  exact if_neg (not_or.mpr ⟨not_not.mpr h.machine, not_not.mpr h.signature⟩)

/-- The constructor returns, and every byte of every section reads as it should. -/
def BootLoads (exec : PE32Loader) (m : Store) : Prop :=
  ∃ t, bootThread exec.blob m = some t ∧
    ∀ sect ∈ exec.sections, ∀ i < LDRSectionHeader.virtualSize.get sect,
      t.memory (exec.dest sect + i) = exec.content sect i

/-- No section stops the loader, and where a byte of a section is the last section that is written
there leaves the right byte. Where none is, the right byte was there before. -/
structure BootOnTop (exec : PE32Loader) (m : Store) : Prop where
  returns : ∀ sect ∈ exec.sections, ¬ Stops exec.blob sect
  onTop : ∀ sect ∈ exec.sections, ∀ i < LDRSectionHeader.virtualSize.get sect,
    TopIs 0 (bootLayer exec) exec.sections m (exec.dest sect + i) (exec.content sect i)

/-- **An image the boot loader accepts** has the content of its sections exactly when that is on
top. -/
theorem bootThread_content_iff (h : Accepted blob) (len : Nat) (m : Store) :
    BootLoads (pe32Loader blob len) m ↔ BootOnTop (pe32Loader blob len) m := by
  obtain ⟨hstops, hmemory⟩ := loadSections_memory (pe32Loader blob len)
    (pe32Loader blob len).sections ⟨m, 0⟩
  rw [BootLoads, show (pe32Loader blob len).blob = blob from rfl, h.bootThread_eq len]
  constructor
  · rintro ⟨t, ht, hreads⟩
    refine ⟨fun sect hsect hstop => ?_, fun sect hsect i hi => ?_⟩
    · have hnone := hstops.mpr ⟨sect, hsect, hstop⟩
      rw [show (pe32Loader blob len).blob = blob from rfl, ht] at hnone
      cases hnone
    · rw [← applyAll_eq_iff, ← hreads sect hsect i hi, hmemory t ht]
  · intro hok
    cases ht : loadSections blob (pe32Loader blob len).opt (pe32Loader blob len).sections ⟨m, 0⟩ with
    | none =>
        obtain ⟨sect, hsect, hstop⟩ := hstops.mp ht
        exact absurd hstop (hok.returns sect hsect)
    | some t =>
        refine ⟨t, rfl, fun sect hsect i hi => ?_⟩
        rw [hmemory t ht]
        exact applyAll_eq_iff.mpr (hok.onTop sect hsect i hi)

/-- **The two loaders** give the sections of an image their content: the boot loader exactly when that
is on top of what it writes, and `LoadImage`, wherever it loads the image, exactly when it is on top of
what that copies. -/
theorem same_content_iff (blob : Store) (len : Nat) (m : Store) (haccepted : Accepted blob)
    (hinside : (pe32Loader blob len).SectionsInside) :
    (BootLoads (pe32Loader blob len) m ↔ BootOnTop (pe32Loader blob len) m) ∧
      ∀ root A s v, Space root A s.phys →
        Outside root A s.phys (pe32Loader blob len).tailPages →
        (loadImage root (pe32Loader blob len) s).1 = .returned kErrorSuccess v →
        (ReadsContent root (pe32Loader blob len) (loadImage root (pe32Loader blob len) s).2.2 ↔
          ContentOnTop root (pe32Loader blob len) s) :=
  ⟨bootThread_content_iff haccepted len m,
    fun _ _ _ _ hs hout hload => loadImage_content_iff hs hout rfl hinside hload⟩

/-! ## One section -/

/-- The header of `.data` at the beginning of an image: four bytes of memory, and one of raw data, at
`ptr` in the file. -/
def sampleSection (ptr : Nat) : Store :=
  blit (LDRSectionHeader.virtualSize.set 4 <| LDRSectionHeader.sizeOfRawData.set 1 <|
    LDRSectionHeader.pointerToRawData.set ptr zeros)
    0 5 fun i => [0x2E, 0x64, 0x61, 0x74, 0x61].getD i 0

/-- A file with this section. It begins with `MZ` and zeros. -/
def sampleFile (ptr : Nat) : Store := blit signedBlob 248 LDRSectionHeader.size (sampleSection ptr)

/-- It has no other section. -/
theorem sampleFile_sections {ptr : Nat} (h : sect ∈ (pe32Loader (sampleFile ptr) 288).sections) :
    sect = slice (sampleFile ptr) 248 := List.mem_singleton.mp h

theorem sampleFile_accepted (ptr : Nat) (hptr : ptr = 0 ∨ ptr = 1) : Accepted (sampleFile ptr) := by
  rcases hptr with rfl | rfl <;>
    exact ⟨by decide +kernel, by decide +kernel, by decide +kernel, by decide +kernel⟩

theorem sampleFile_inside (ptr : Nat) (hptr : ptr = 0 ∨ ptr = 1) :
    (pe32Loader (sampleFile ptr) 288).SectionsInside := by
  intro sect hsect
  obtain rfl := sampleFile_sections hsect
  rcases hptr with rfl | rfl <;> decide +kernel

theorem sampleFile_loadable : (pe32Loader (sampleFile 1) 288).Loadable := by
  refine ⟨by decide +kernel, by decide +kernel, fun sec hsec va hva => ?_⟩
  have hmem := (pe32Loader (sampleFile 1) 288).copies_mem (PE32Loader.mem_ahead hsec) hva
  have hsize : (pe32Loader (sampleFile 1) 288).sizeOfImage = 0x1000 := rfl
  refine (canonical_bytes_iff (PE32Loader.imageBase_lt _) ?_ ?_).mpr (.inl (by decide +kernel)) va hmem
  · rw [hsize]
    decide
  · rw [hsize]
    decide

/-- A byte of raw data with zeros behind it in the file is loaded right, over any memory, and so it is
by `LoadImage`. -/
theorem same_content_iff_zeros : BootLoads (pe32Loader (sampleFile 1) 288) (fun _ => 0xFF) ∧
    ∃ A s, Space 0x1000 A s.phys ∧
      (loadImage 0x1000 (pe32Loader (sampleFile 1) 288) s).1 =
        .returned kErrorSuccess 0x40000000 ∧
      ReadsContent 0x1000 (pe32Loader (sampleFile 1) 288)
        (loadImage 0x1000 (pe32Loader (sampleFile 1) 288) s).2.2 := by
  have hinside := sampleFile_inside 1 (.inr rfl)
  have hroom : (pe32Loader (sampleFile 1) 288).HasRoom := by decide +kernel
  have hpos : 0 < (pe32Loader (sampleFile 1) 288).sizeOfImage := by decide +kernel
  have hsize : (pe32Loader (sampleFile 1) 288).sizeOfImage ≤ kPeMaxImageSz := by decide +kernel
  obtain ⟨hboot, hload⟩ := same_content_iff (sampleFile 1) 288 (fun _ => 0xFF)
    (sampleFile_accepted 1 (.inr rfl)) hinside
  constructor
  · refine hboot.mpr ⟨fun sect hsect => ?_, fun sect hsect i hi =>
      ⟨fun top htop => ?_, fun hnone => ?_⟩⟩
    · obtain rfl := sampleFile_sections hsect
      exact fun h => absurd h.2.1 (by decide +kernel)
    · obtain rfl := sampleFile_sections hsect
      obtain rfl := sampleFile_sections htop.mem
      have hbytes : ∀ i < 4,
          (bootLayer (pe32Loader (sampleFile 1) 288) (slice (sampleFile 1) 248)).leaves 0
              ((pe32Loader (sampleFile 1) 288).dest (slice (sampleFile 1) 248) + i) =
            (pe32Loader (sampleFile 1) 288).content (slice (sampleFile 1) 248) i := by
        decide +kernel
      exact hbytes i hi
    · obtain rfl := sampleFile_sections hsect
      have hvalue : ∀ i < 4,
          (bootLayer (pe32Loader (sampleFile 1) 288) (slice (sampleFile 1) 248)).value
            ((pe32Loader (sampleFile 1) 288).dest (slice (sampleFile 1) 248) + i) ≠ none := by
        decide +kernel
      exact absurd (.inl (hvalue i hi)) (hnone _ hsect)
  · obtain ⟨A, s, hR, hloaded, -⟩ := exists_load rfl hpos hsize sampleFile_loadable
    refine ⟨A, s, hR.space, hloaded, (hload 0x1000 A s _ hR.space ?_ hloaded).mpr ?_⟩
    · rw [PE32Loader.tailPages_of_room hpos hroom.1]
      exact fun pg hpg => absurd hpg (Set.notMem_empty pg)
    · apply contentOnTop_of_fits 0x1000 s hroom hsize hinside (List.pairwise_singleton _ _)
      · intro sect hsect
        obtain rfl := sampleFile_sections hsect
        decide +kernel
      · intro sect hsect
        obtain rfl := sampleFile_sections hsect
        decide +kernel

/-- An image for both loaders: its sections do not overlap and are inside it, and their raw data are in
the file. -/
structure WellFormed (blob : Store) (len : Nat) : Prop where
  boot : Accepted blob
  kernel : pe32Bad blob len = false
  inside : (pe32Loader blob len).SectionsInside
  apart : (pe32Loader blob len).sections.Pairwise PE32Loader.SectionsApart
  inFile : ∀ sect ∈ (pe32Loader blob len).sections,
    LDRSectionHeader.pointerToRawData.get sect + LDRSectionHeader.sizeOfRawData.get sect ≤ len

/-- The byte behind the raw data in the file is in the memory of the section. -/
theorem boot_spills : ¬ ∀ blob len m, WellFormed blob len → BootLoads (pe32Loader blob len) m := by
  intro h
  have hform : WellFormed (sampleFile 0) 288 := by
    refine ⟨sampleFile_accepted 0 (.inl rfl), by decide +kernel, sampleFile_inside 0 (.inl rfl),
      List.pairwise_singleton _ _, fun sect hsect => ?_⟩
    obtain rfl := sampleFile_sections hsect
    decide +kernel
  have hok := (bootThread_content_iff hform.boot 288 zeros).mp (h (sampleFile 0) 288 zeros hform)
  have hsect : slice (sampleFile 0) 248 ∈ (pe32Loader (sampleFile 0) 288).sections :=
    List.mem_cons_self
  have hbyte := (hok.onTop _ hsect 1 (by decide +kernel)).touched _
    ⟨[], [], rfl, .inl (by decide +kernel), fun _ hj => absurd hj List.not_mem_nil⟩
  exact absurd hbyte (by decide +kernel)

end NeKernel.BootKit
