import NeKernel.KernelKit.ImageWindow
import NeKernel.Lib.CheckedReads

/-!
# What `LoadImage` reads and copies

`LoadImage` again, with every read of the blob and every sum, difference and product of offsets and
sizes checked, and with a list of the copies it makes. On a blob that the constructor accepts it comes
to its end, does what the unchecked function does, and each of its copies fits the blob and the image
(`loadImage_inside`). Addresses in the image are 64-bit words as before; the list holds offsets.
-/

namespace NeKernel.KernelKit

open ByteStore CheckedReads HALKit

/-- The blob of a loader. -/
def PE32Loader.image (exec : PE32Loader) : Blob := ⟨exec.blob, exec.fCachedBlobSz⟩

/-- `ldr_find_exec_header`: the offset of the header. -/
def ldrFindExecHeaderChecked (b : Blob) : Checked (Option Nat) := do
  if (← b.byte 0) ≠ kMagMz0 then return none
  else if (← b.byte 1) ≠ kMagMz1 then return none
  else return some DosHeader.size

/-- `ldr_find_opt_exec_header`: the offset of the header. -/
def ldrFindOptExecHeaderChecked (b : Blob) : Checked (Option Nat) := do
  match ← ldrFindExecHeaderChecked b with
  | none => return none
  | some exec => return some (exec + LDRExecHeader.size)

/-- A copy of `n` bytes, from an offset in the blob to an offset in the image. -/
structure SectionCopy where
  src : Nat
  dst : Nat
  n : Nat

/-- The check of the section header at `sec`; `opt` is the offset of the optional header. -/
def malformedChecked (b : Blob) (opt sec : Nat) : Checked Bool := do
  if (← b.field sec LDRSectionHeader.virtualAddress) >
      (← b.field opt LDROptionalHeader.sizeOfImage) then return true
  else do
    let room ← sub (← b.field opt LDROptionalHeader.sizeOfImage)
      (← b.field sec LDRSectionHeader.virtualAddress)
    if (← b.field sec LDRSectionHeader.sizeOfRawData) > room then return true
    else if (← b.field sec LDRSectionHeader.pointerToRawData) > b.len then return true
    else do
      let rest ← sub b.len (← b.field sec LDRSectionHeader.pointerToRawData)
      return (← b.field sec LDRSectionHeader.sizeOfRawData) > rest

/-- The copy of the section with its header at `sec`, and what it comes to. -/
def copySectionChecked (root : Nat) (exec : PE32Loader) (opt sec : Nat) (s : Machine) :
    Checked (SectionCopy × Bool × Machine) := do
  let raw ← exec.image.field sec LDRSectionHeader.sizeOfRawData
  let ptr ← exec.image.field sec LDRSectionHeader.pointerToRawData
  let va ← exec.image.field sec LDRSectionHeader.virtualAddress
  let room ← sub (← exec.image.field opt LDROptionalHeader.sizeOfImage) va
  let src ← exec.image.block ptr raw
  let base ← exec.image.field opt LDROptionalHeader.imageBase
  return (⟨ptr, va, raw⟩, rtCopyMemorySafe root s src (u64 (base + va)) raw room)

/-- The loop over the sections from section `i` on. -/
def copySectionsChecked (root : Nat) (exec : PE32Loader) (opt sect : Nat) :
    Nat → Nat → Machine → Checked (CopyEnd × Machine × List SectionCopy)
  | 0, _, s => return (.done, s, [])
  | n + 1, i, s => do
    let sec ← add 64 sect (← mul 64 i LDRSectionHeader.size)
    if (← exec.image.field sec LDRSectionHeader.sizeOfRawData) = 0 then
      copySectionsChecked root exec opt sect n (i + 1) s
    else if ← malformedChecked exec.image opt sec then return (.malformed, s, [])
    else do
      let c ← copySectionChecked root exec opt sec s
      if c.2.1 = false then return (.fault, c.2.2, [c.1])
      else do
        let r ← copySectionsChecked root exec opt sect n (i + 1) c.2.2
        return (r.1, r.2.1, c.1 :: r.2.2)

/-- What `LoadImage` comes to, and its copies. -/
abbrev LoadEnd := (Outcome × PE32Loader × Machine) × List SectionCopy

/-- `LoadImage` with the headers at `header` and `opt`. -/
def loadHeadersChecked (root : Nat) (exec : PE32Loader) (s : Machine) (header opt : Nat) :
    Checked LoadEnd := do
  let count ← exec.image.field header LDRExecHeader.numberOfSections
  if count < 1 then return ((.returned kErrorInvalidData 0, exec, s), [])
  else do
    let sect ← add 64 opt (← exec.image.field header LDRExecHeader.sizeOfOptionalHeader)
    if sect > exec.fCachedBlobSz then return ((.returned kErrorInvalidData 0, exec, s), [])
    else do
      let rest ← sub exec.fCachedBlobSz sect
      if count > rest / LDRSectionHeader.size then
        return ((.returned kErrorInvalidData 0, exec, s), [])
      else do
        let pages := pageCount (← exec.image.field opt LDROptionalHeader.sizeOfImage)
        let base ← exec.image.field opt LDROptionalHeader.imageBase
        let r := mapImage root base pages s
        if r.1 = false then return ((.returned kErrorHeapOutOfMemory 0, exec, r.2), [])
        else
          match ← copySectionsChecked root exec opt sect count 0 r.2 with
          | (.fault, s, l) => return ((.fault, exec, s), l)
          | (.malformed, s, l) =>
            return ((.returned kErrorInvalidData 0, exec, ldrUnmapPages root base pages s), l)
          | (.done, s, l) =>
            return ((.returned kErrorSuccess base, { exec with fImage := base }, s), l)

/-- `PE32Loader::LoadImage`. -/
def loadImageChecked (root : Nat) (exec : PE32Loader) (s : Machine) : Checked LoadEnd :=
  if exec.fImage ≠ 0 then return ((.returned kErrorSuccess exec.fImage, exec, s), [])
  else if exec.fBad = true ∨ exec.fCachedBlobSz = 0 then
    return ((.returned kErrorInvalidData 0, exec, s), [])
  else do
    let header ← ldrFindExecHeaderChecked exec.image
    let opt ← ldrFindOptExecHeaderChecked exec.image
    match header, opt with
    | some header, some opt => loadHeadersChecked root exec s header opt
    | _, _ => return ((.returned kErrorInvalidData 0, exec, s), [])

/-! ## A blob that is accepted -/

/-- What the constructor has seen of a blob. -/
structure Headed (exec : PE32Loader) : Prop where
  long : kMinPeSz ≤ exec.fCachedBlobSz
  magic0 : exec.blob 0 = kMagMz0
  magic1 : exec.blob 1 = kMagMz1
  machine : LDRExecHeader.machine.get exec.header = kPeMachineAMD64
  subsystem : LDROptionalHeader.subsystem.get exec.opt = kNeKernelPESubsystem

variable {root : Nat} {exec : PE32Loader} {s : Machine} {blob : Store} {len : Nat}

theorem ldrFindExecHeader_eq : ldrFindExecHeader blob =
    if blob 0 = kMagMz0 ∧ blob 1 = kMagMz1 then some (slice blob DosHeader.size) else none := by
  unfold ldrFindExecHeader
  by_cases h0 : blob 0 = kMagMz0
  · by_cases h1 : blob 1 = kMagMz1
    · simp [h0, h1]
    · simp [h0, h1]
  · simp [h0]

theorem headed_of_accepted (h : pe32Bad blob len = false) (image : Nat) :
    Headed { pe32Loader blob len with fImage := image } := by
  unfold pe32Bad at h
  split at h
  · cases h
  · next hlong =>
      rw [ldrFindOptExecHeader, ldrFindExecHeader_eq] at h
      by_cases hmagic : blob 0 = kMagMz0 ∧ blob 1 = kMagMz1
      · simp only [if_pos hmagic, Option.map_some] at h
        split at h
        · cases h
        · next hmachine =>
            split at h
            · cases h
            · next hsub =>
                exact ⟨Nat.not_lt.mp hlong, hmagic.1, hmagic.2, not_not.mp hmachine,
                  not_not.mp hsub⟩
      · simp [if_neg hmagic] at h

theorem slice_slice {m : Store} {a c : Nat} : slice (slice m a) c = slice m (a + c) := by
  funext i
  rw [slice_apply, slice_apply, slice_apply, Nat.add_assoc]

theorem PE32Loader.opt_eq (exec : PE32Loader) :
    exec.opt = slice exec.blob (DosHeader.size + LDRExecHeader.size) := slice_slice

/-- The headers are found, at their offsets. -/
theorem Headed.execHeader (h : Headed exec) :
    ldrFindExecHeaderChecked exec.image = .ok (some DosHeader.size) := by
  have hlong : 248 ≤ exec.fCachedBlobSz := h.long
  rw [← returns_eq]
  simp only [ldrFindExecHeaderChecked, returns_bind, Blob.returns_byte, returns_ite, returns_pure,
    PE32Loader.image, h.magic0, h.magic1]
  exact ⟨by omega, fun hne => absurd rfl hne, fun _ => ⟨by omega, fun hne => absurd rfl hne,
    fun _ => trivial⟩⟩

/-- The offset of the optional header. -/
def optOffset : Nat := DosHeader.size + LDRExecHeader.size

theorem Headed.optHeader (h : Headed exec) :
    ldrFindOptExecHeaderChecked exec.image = .ok (some optOffset) := by
  rw [ldrFindOptExecHeaderChecked, h.execHeader]
  rfl

/-! ## The checked loop is the loop -/

variable {off sect n i : Nat}

/-- A field of the optional header is inside the blob. -/
theorem Headed.returns_opt (h : Headed exec) {f : Field} (hf : f.Inside LDROptionalHeader.size)
    {R : Nat → Prop} : Returns (exec.image.field optOffset f) R ↔ R (f.get exec.opt) := by
  have hlong : optOffset + LDROptionalHeader.size ≤ exec.image.len := h.long
  rw [Blob.returns_fieldInside hf hlong, exec.opt_eq]
  rfl

/-- A field of the header is inside the blob. -/
theorem Headed.returns_header (h : Headed exec) {f : Field}
    (hf : f.Inside LDRExecHeader.size) {R : Nat → Prop} :
    Returns (exec.image.field DosHeader.size f) R ↔ R (f.get exec.header) :=
  Blob.returns_fieldInside hf ((Nat.le_add_right _ LDROptionalHeader.size).trans h.long)

/-- A field of a section header that is inside the blob. -/
theorem returns_section (hoff : off + LDRSectionHeader.size ≤ exec.fCachedBlobSz) {f : Field}
    (hf : f.Inside LDRSectionHeader.size) {R : Nat → Prop} :
    Returns (exec.image.field off f) R ↔ R (f.get (slice exec.blob off)) :=
  Blob.returns_fieldInside hf hoff

/-- The fields `LoadImage` reads are fields of their headers. -/
theorem fields_inside :
    (LDRExecHeader.numberOfSections.Inside LDRExecHeader.size ∧
      LDRExecHeader.sizeOfOptionalHeader.Inside LDRExecHeader.size) ∧
    (LDROptionalHeader.sizeOfImage.Inside LDROptionalHeader.size ∧
      LDROptionalHeader.imageBase.Inside LDROptionalHeader.size) ∧
    LDRSectionHeader.virtualAddress.Inside LDRSectionHeader.size ∧
      LDRSectionHeader.sizeOfRawData.Inside LDRSectionHeader.size ∧
      LDRSectionHeader.pointerToRawData.Inside LDRSectionHeader.size := by decide

theorem malformedChecked_eq (h : Headed exec)
    (hoff : off + LDRSectionHeader.size ≤ exec.fCachedBlobSz) :
    malformedChecked exec.image optOffset off =
      .ok (decide (exec.Malformed (slice exec.blob off))) := by
  obtain ⟨-, ⟨hsize, -⟩, hva, hraw, hptr⟩ := fields_inside
  rw [← returns_eq]
  simp only [malformedChecked, returns_bind, returns_section hoff hva, returns_section hoff hraw,
    returns_section hoff hptr, h.returns_opt hsize, returns_ite, returns_pure, returns_sub]
  -- a check that fails is a disjunct of `Malformed`; past all of them only the last is left
  refine ⟨fun h₁ => (decide_eq_true (.inl h₁)).symm, fun h₁ => ⟨Nat.not_lt.mp h₁,
    fun h₂ => (decide_eq_true (.inr (.inl h₂))).symm, fun h₂ =>
      ⟨fun h₃ => (decide_eq_true (.inr (.inr (.inl h₃)))).symm, fun h₃ => ⟨Nat.not_lt.mp h₃, ?_⟩⟩⟩⟩
  refine decide_eq_decide.mpr ⟨fun h₄ => .inr (.inr (.inr h₄)), ?_⟩
  rintro (h₁' | h₂' | h₃' | h₄)
  · exact absurd h₁' h₁
  · exact absurd h₂' h₂
  · exact absurd h₃' h₃
  · exact h₄

/-- The copy fits the blob and the image. -/
structure SectionCopy.Fits (exec : PE32Loader) (c : SectionCopy) : Prop where
  src_le : c.src + c.n ≤ exec.fCachedBlobSz
  dst_le : c.dst + c.n ≤ exec.sizeOfImage

theorem PE32Loader.fits_of_wellFormed {sec : Store} (hfits : ¬ exec.Malformed sec) :
    SectionCopy.Fits exec ⟨LDRSectionHeader.pointerToRawData.get sec,
      LDRSectionHeader.virtualAddress.get sec, LDRSectionHeader.sizeOfRawData.get sec⟩ := by
  simp only [PE32Loader.Malformed, not_or, Nat.not_lt, gt_iff_lt] at hfits
  obtain ⟨hva, hroom, hptr, hrest⟩ := hfits
  exact ⟨by simp only; omega, by simp only; omega⟩

/-- The copy of a section that is not malformed. -/
theorem copySectionChecked_eq (h : Headed exec)
    (hoff : off + LDRSectionHeader.size ≤ exec.fCachedBlobSz) {sec : Store}
    (hsec : slice exec.blob off = sec) (hfits : ¬ exec.Malformed sec) :
    copySectionChecked root exec optOffset off s =
      .ok (⟨LDRSectionHeader.pointerToRawData.get sec, LDRSectionHeader.virtualAddress.get sec,
          LDRSectionHeader.sizeOfRawData.get sec⟩,
        rtCopyMemorySafe root s (slice exec.blob (LDRSectionHeader.pointerToRawData.get sec))
          (exec.dest sec) (LDRSectionHeader.sizeOfRawData.get sec)
          (exec.sizeOfImage - LDRSectionHeader.virtualAddress.get sec)) := by
  obtain ⟨-, ⟨hsize, hbase⟩, hva, hraw, hptr⟩ := fields_inside
  subst hsec
  have hroom := PE32Loader.fits_of_wellFormed hfits
  rw [← returns_eq]
  simp only [copySectionChecked, returns_bind, returns_sub, returns_section hoff hraw,
    returns_section hoff hva, returns_section hoff hptr, h.returns_opt hsize, h.returns_opt hbase,
    Blob.returns_block, returns_pure]
  exact ⟨(Nat.le_add_right _ _).trans hroom.dst_le, hroom.src_le, rfl⟩

/-- The copies that an end of the loop reports fit. -/
def CopiesFit (exec : PE32Loader) (l : List SectionCopy) : Prop := ∀ c ∈ l, c.Fits exec

/-- The section headers from `i` on. -/
def sectionsFrom (exec : PE32Loader) (sect i n : Nat) : List Store :=
  (List.range' i n).map fun j => slice exec.blob (sect + j * LDRSectionHeader.size)

theorem sectionsFrom_succ : sectionsFrom exec sect i (n + 1) =
    slice exec.blob (sect + i * LDRSectionHeader.size) :: sectionsFrom exec sect (i + 1) n := by
  rw [sectionsFrom, List.range'_succ, List.map_cons, sectionsFrom]

/-- **The checked loop** does what the loop does, and its copies fit. -/
theorem returns_copySections (h : Headed exec)
    (hend : sect + (i + n) * LDRSectionHeader.size ≤ exec.fCachedBlobSz)
    (hsmall : sect + (i + n) * LDRSectionHeader.size < 2 ^ 64) :
    Returns (copySectionsChecked root exec optOffset sect n i s) fun r =>
      (r.1, r.2.1) = copySections root exec (sectionsFrom exec sect i n) s ∧
        CopiesFit exec r.2.2 := by
  induction n generalizing i s with
  | zero => exact returns_pure.mpr ⟨rfl, fun _ h => absurd h List.not_mem_nil⟩
  | succ n ih =>
      -- the header is inside the table, so its offset is inside the blob and does not wrap
      have hoff : sect + i * LDRSectionHeader.size + LDRSectionHeader.size ≤ exec.fCachedBlobSz := by
        simp only [LDRSectionHeader.size] at *
        omega
      have hword : i * LDRSectionHeader.size < 2 ^ 64 ∧ sect + i * LDRSectionHeader.size < 2 ^ 64 := by
        simp only [LDRSectionHeader.size] at *
        omega
      have hrest : i + 1 + n = i + (n + 1) := by omega
      rw [← hrest] at hend hsmall
      rw [sectionsFrom_succ]
      simp only [copySectionsChecked, returns_bind, returns_mul, returns_add,
        returns_section hoff fields_inside.2.2.2.1]
      refine ⟨hword.1, hword.2, ?_⟩
      generalize hsec : slice exec.blob (sect + i * LDRSectionHeader.size) = sec
      by_cases h0 : LDRSectionHeader.sizeOfRawData.get sec = 0
      · rw [if_pos h0, copySections_skip h0]
        exact ih hend hsmall
      · rw [if_neg h0, malformedChecked_eq h hoff, hsec, returns_bind, returns_ok]
        by_cases hbad : exec.Malformed sec
        · rw [if_pos (decide_eq_true hbad), copySections_malformed h0 hbad]
          exact returns_pure.mpr ⟨rfl, fun _ h => absurd h List.not_mem_nil⟩
        · have hfits := PE32Loader.fits_of_wellFormed hbad
          rw [if_neg (by simpa using hbad), copySectionChecked_eq h hoff hsec hbad, returns_bind,
            returns_ok, copySections, if_neg h0, if_neg hbad]
          by_cases hc : (rtCopyMemorySafe root s
              (slice exec.blob (LDRSectionHeader.pointerToRawData.get sec)) (exec.dest sec)
              (LDRSectionHeader.sizeOfRawData.get sec)
              (exec.sizeOfImage - LDRSectionHeader.virtualAddress.get sec)).1 = false
          · simp only [if_pos hc, returns_pure]
            exact ⟨trivial, List.forall_mem_singleton.mpr hfits⟩
          · simp only [if_neg hc, returns_bind, returns_pure]
            exact (ih hend hsmall).mono fun r hr => ⟨hr.1, List.forall_mem_cons.mpr ⟨hfits, hr.2⟩⟩

/-- The section headers of a loader whose blob is headed, from their offset. -/
theorem PE32Loader.sections_eq (exec : PE32Loader) :
    exec.sections = sectionsFrom exec exec.sectOff 0 exec.numberOfSections := by
  rw [PE32Loader.sections, sectionsFrom, List.range_eq_range']

/-- On a headed blob only the table of sections is left to refuse. -/
theorem Headed.refused_iff (h : Headed exec) (hok : exec.fBad = false) : exec.Refused ↔
    exec.numberOfSections < 1 ∨ exec.sectOff > exec.fCachedBlobSz ∨
      exec.numberOfSections > (exec.fCachedBlobSz - exec.sectOff) / LDRSectionHeader.size := by
  have hlong : 248 ≤ exec.fCachedBlobSz := h.long
  have hlen : exec.fCachedBlobSz ≠ 0 := by omega
  have hfound : ldrFindExecHeader exec.blob ≠ none := by
    rw [ldrFindExecHeader_eq, if_pos ⟨h.magic0, h.magic1⟩]
    exact Option.some_ne_none _
  simp only [PE32Loader.Refused, hok, Bool.false_eq_true, hlen, hfound, false_or]

theorem loadImage_again (him : exec.fImage ≠ 0) :
    loadImage root exec s = (.returned kErrorSuccess exec.fImage, exec, s) := by
  rw [loadImage, if_pos him]

/-- The tail of `LoadImage`, with its headers found. -/
theorem Headed.returns_loadHeaders (h : Headed exec) (hok : exec.fBad = false)
    (hfresh : exec.fImage = 0) :
    Returns (loadHeadersChecked root exec s DosHeader.size optOffset) fun r =>
      r.1 = loadImage root exec s ∧ CopiesFit exec r.2 := by
  have hnil : CopiesFit exec [] := fun _ h => absurd h List.not_mem_nil
  obtain ⟨⟨hcount, hopt⟩, ⟨hsize, hbase⟩, -⟩ := fields_inside
  have hsectWord : exec.sectOff < 2 ^ 32 ∧ exec.numberOfSections < 2 ^ 16 := by
    have h₁ : LDRExecHeader.sizeOfOptionalHeader.get exec.header < 256 ^ 2 := Field.get_lt
    have h₂ : LDRExecHeader.numberOfSections.get exec.header < 256 ^ 2 := Field.get_lt
    simp only [PE32Loader.sectOff, PE32Loader.numberOfSections, DosHeader.size, LDRExecHeader.size]
    omega
  have href := h.refused_iff hok
  have hgo : ¬ exec.numberOfSections < 1 → ¬ exec.sectOff > exec.fCachedBlobSz →
      ¬ exec.numberOfSections > (exec.fCachedBlobSz - exec.sectOff) / LDRSectionHeader.size →
      ¬ exec.Refused := fun h₁ h₂ h₃ hR => (href.mp hR).elim h₁ fun h => h.elim h₂ h₃
  have hsub : optOffset + LDRExecHeader.sizeOfOptionalHeader.get exec.header = exec.sectOff := rfl
  have hnum : LDRExecHeader.numberOfSections.get exec.header = exec.numberOfSections := rfl
  have himage : LDROptionalHeader.imageBase.get exec.opt = exec.imageBase := rfl
  have hpages : pageCount (LDROptionalHeader.sizeOfImage.get exec.opt) = exec.pages := rfl
  simp only [loadHeadersChecked, returns_bind, h.returns_header hcount, h.returns_header hopt,
    h.returns_opt hsize, h.returns_opt hbase, returns_ite, returns_pure, returns_add, returns_sub,
    hsub, hnum, himage, hpages]
  -- the three checks of the section table, the pages, and then the loop over the sections
  refine ⟨fun hc => ?_, fun hc => ⟨hsectWord.1.trans (by decide), fun ht => ?_, fun ht =>
    ⟨Nat.not_lt.mp ht, fun hr => ?_, fun hr => ⟨fun hmap => ?_, fun hmap => ?_⟩⟩⟩⟩
  · rw [loadImage_refused hfresh (href.mpr (.inl hc))]
    exact ⟨rfl, hnil⟩
  · rw [loadImage_refused hfresh (href.mpr (.inr (.inl ht)))]
    exact ⟨rfl, hnil⟩
  · rw [loadImage_refused hfresh (href.mpr (.inr (.inr hr)))]
    exact ⟨rfl, hnil⟩
  · rw [loadImage_unmapped hfresh (hgo hc ht hr) (Prod.ext hmap rfl)]
    exact ⟨rfl, hnil⟩
  · rw [Bool.not_eq_false] at hmap
    have hroom : exec.sectOff + (0 + exec.numberOfSections) * LDRSectionHeader.size ≤
        exec.fCachedBlobSz := by
      rw [gt_iff_lt, Nat.not_lt, Nat.le_div_iff_mul_le (by decide)] at hr
      rw [Nat.zero_add]
      omega
    have hword : exec.sectOff + (0 + exec.numberOfSections) * LDRSectionHeader.size < 2 ^ 64 := by
      simp only [LDRSectionHeader.size]
      omega
    refine (returns_copySections h hroom hword).mono fun r hr' => ?_
    obtain ⟨heq, hl⟩ := hr'
    rw [← exec.sections_eq] at heq
    have hdone : ¬ (mapImage root exec.imageBase exec.pages s).1 = false := by
      rw [hmap]
      exact Bool.noConfusion
    rw [loadImage, if_neg (not_not.mpr hfresh), if_neg (hgo hc ht hr), if_neg hdone, ← heq]
    obtain ⟨e, s₂, l⟩ := r
    cases e <;> exact returns_pure.mpr ⟨rfl, hl⟩

theorem Headed.returns_loadImage (h : Headed exec) (hok : exec.fBad = false) :
    Returns (loadImageChecked root exec s) fun r =>
      r.1 = loadImage root exec s ∧ CopiesFit exec r.2 := by
  by_cases him : exec.fImage ≠ 0
  · rw [loadImageChecked, if_pos him, loadImage_again him]
    exact returns_pure.mpr ⟨rfl, fun _ h => absurd h List.not_mem_nil⟩
  · have hlong : 248 ≤ exec.fCachedBlobSz := h.long
    have hgo : ¬ (exec.fBad = true ∨ exec.fCachedBlobSz = 0) := by
      rintro (hbad | h0)
      · exact Bool.noConfusion (hok.symm.trans hbad)
      · omega
    rw [loadImageChecked, if_neg him, if_neg hgo, h.execHeader, h.optHeader]
    exact h.returns_loadHeaders hok (not_not.mp him)

/-- **`LoadImage` stays inside the blob and the image.** On a blob that the constructor accepts, at
whatever call of `LoadImage` and in whatever machine, every read is inside the blob, no sum,
difference or product of offsets and sizes wraps, the outcome is that of the unchecked function, and
every copy fits the blob and the image. -/
theorem loadImage_inside (hok : pe32Bad blob len = false) (root fImage : Nat) (s : Machine) :
    Returns (loadImageChecked root { pe32Loader blob len with fImage := fImage } s) fun r =>
      r.1 = loadImage root { pe32Loader blob len with fImage := fImage } s ∧
        CopiesFit { pe32Loader blob len with fImage := fImage } r.2 :=
  (headed_of_accepted hok fImage).returns_loadImage hok

/-- The header of a section of `raw` bytes, which are at `ptr` in the blob and go to `va` in the image. -/
def sectionHeader (va raw ptr : Nat) : Store :=
  LDRSectionHeader.virtualAddress.set va <| LDRSectionHeader.sizeOfRawData.set raw <|
    LDRSectionHeader.pointerToRawData.set ptr zeros

/-- An image of one page at 1 GiB, with two sections: 16 bytes for `0x100` and 8 bytes for `0x200`. Their
headers are at 256, behind room for a data directory. -/
def twoSections : Store :=
  blit (blit (blit (blit (blit (fun i => [kMagMz0, kMagMz1].getD i 0)
    128 24 (LDRExecHeader.machine.set kPeMachineAMD64 <|
      LDRExecHeader.numberOfSections.set 2 <| LDRExecHeader.sizeOfOptionalHeader.set 104 zeros))
    152 96 (LDROptionalHeader.imageBase.set 0x40000000 <|
      LDROptionalHeader.sizeOfImage.set 0x1000 <|
      LDROptionalHeader.subsystem.set kNeKernelPESubsystem zeros))
    256 40 (sectionHeader 0x100 16 384))
    296 40 (sectionHeader 0x200 8 400))
    384 24 (fun _ => 0x90)

/-- How a load comes to its end, and its copies. -/
def loadCopies (root : Nat) (exec : PE32Loader) (s : Machine) :
    Option (Outcome × List (Nat × Nat × Nat)) :=
  match loadImageChecked root exec s with
  | .ok r => some (r.1.1, r.2.map fun c => (c.src, c.dst, c.n))
  | .error _ => none

theorem loadCopies_ok {r : (Outcome × PE32Loader × Machine) × List SectionCopy}
    (h : loadImageChecked root exec s = .ok r) :
    loadCopies root exec s = some (r.1.1, r.2.map fun c => (c.src, c.dst, c.n)) := by
  rw [loadCopies, h]

theorem loadImage_inside_two : pe32Bad twoSections 440 = false ∧
    ∃ r, loadImageChecked 0x1000 { pe32Loader twoSections 440 with fImage := 0 } (bareMachine 18) =
        .ok r ∧
      r.1.1 = .returned kErrorSuccess 0x40000000 ∧
      r.2.map (fun c => (c.src, c.dst, c.n)) = [(384, 0x100, 16), (400, 0x200, 8)] ∧
      CopiesFit { pe32Loader twoSections 440 with fImage := 0 } r.2 := by
  have hok : pe32Bad twoSections 440 = false := by decide +kernel
  obtain ⟨r, hr, -, hfits⟩ := loadImage_inside hok 0x1000 0 (bareMachine 18)
  have hrun : loadCopies 0x1000 { pe32Loader twoSections 440 with fImage := 0 } (bareMachine 18) =
      some (.returned kErrorSuccess 0x40000000, [(384, 0x100, 16), (400, 0x200, 8)]) := by
    decide +kernel
  obtain ⟨hend, hcopies⟩ := Prod.mk.inj (Option.some.inj ((loadCopies_ok hr).symm.trans hrun))
  exact ⟨hok, r, hr, hend, hcopies, hfits⟩

end NeKernel.KernelKit
