import NeKernel.KernelKit.ImageMemory

/-!
# The PE32+ loader

`PE32Loader` on a blob in memory: the constructor's checks and `LoadImage`. The headers are laid out
back to back; what is past the end of the blob is whatever the memory holds there.
-/

namespace NeKernel.KernelKit

open ByteStore HALKit

/-! ## Layout -/

def kMagMz0 : UInt8 := 0x4D

def kMagMz1 : UInt8 := 0x5A

def kPeMachineAMD64 : Nat := 0x8664

def kNeKernelPESubsystem : Nat := 0x11

/-- Sanity cap for untrusted images. -/
def kPeMaxImageSz : Nat := 0x4000000

namespace DosHeader

def size : Nat := 128

end DosHeader

namespace LDRExecHeader

def size : Nat := 24
def machine : Field := ⟨4, 2⟩
def numberOfSections : Field := ⟨6, 2⟩
def sizeOfOptionalHeader : Field := ⟨20, 2⟩

end LDRExecHeader

namespace LDROptionalHeader

def size : Nat := 96
def addressOfEntryPoint : Field := ⟨16, 4⟩
def imageBase : Field := ⟨24, 8⟩
def sizeOfImage : Field := ⟨56, 4⟩
def subsystem : Field := ⟨68, 2⟩

end LDROptionalHeader

namespace LDRSectionHeader

def size : Nat := 40
def virtualSize : Field := ⟨8, 4⟩
def virtualAddress : Field := ⟨12, 4⟩
def sizeOfRawData : Field := ⟨16, 4⟩
def pointerToRawData : Field := ⟨20, 4⟩

end LDRSectionHeader

/-- `ldr_find_exec_header`. -/
def ldrFindExecHeader (blob : Store) : Option Store :=
  if blob 0 ≠ kMagMz0 then none
  else if blob 1 ≠ kMagMz1 then none
  else some (slice blob DosHeader.size)

/-- `ldr_find_opt_exec_header`. -/
def ldrFindOptExecHeader (blob : Store) : Option Store :=
  (ldrFindExecHeader blob).map fun exec => slice exec LDRExecHeader.size

/-! ## The loader -/

/-- A loader on a blob in memory; `fImage` is `0` until the image is mapped. -/
structure PE32Loader where
  blob : Store
  fCachedBlobSz : Nat
  fImage : Nat
  fBad : Bool

def kMinPeSz : Nat := DosHeader.size + LDRExecHeader.size + LDROptionalHeader.size

/-- The checks of the constructor on a blob that is there. -/
def pe32Bad (blob : Store) (len : Nat) : Bool :=
  if len < kMinPeSz then true
  else
    match ldrFindExecHeader blob, ldrFindOptExecHeader blob with
    | some header, some opt =>
      if LDRExecHeader.machine.get header ≠ kPeMachineAMD64 then true
      else if LDROptionalHeader.subsystem.get opt ≠ kNeKernelPESubsystem then true
      else LDROptionalHeader.sizeOfImage.get opt < 1 ∨
        LDROptionalHeader.sizeOfImage.get opt > kPeMaxImageSz
    | _, _ => true

/-- `PE32Loader::PE32Loader` on a blob that is there. -/
def pe32Loader (blob : Store) (len : Nat) : PE32Loader where
  blob := blob
  fCachedBlobSz := len
  fImage := 0
  fBad := pe32Bad blob len

namespace PE32Loader

/-- The header behind the DOS header. -/
def header (exec : PE32Loader) : Store := slice exec.blob DosHeader.size

/-- The optional header. -/
def opt (exec : PE32Loader) : Store := slice exec.header LDRExecHeader.size

def imageBase (exec : PE32Loader) : Nat := LDROptionalHeader.imageBase.get exec.opt

def sizeOfImage (exec : PE32Loader) : Nat := LDROptionalHeader.sizeOfImage.get exec.opt

def addressOfEntryPoint (exec : PE32Loader) : Nat :=
  LDROptionalHeader.addressOfEntryPoint.get exec.opt

def numberOfSections (exec : PE32Loader) : Nat :=
  LDRExecHeader.numberOfSections.get exec.header

/-- `sect_off`. -/
def sectOff (exec : PE32Loader) : Nat :=
  DosHeader.size + LDRExecHeader.size + LDRExecHeader.sizeOfOptionalHeader.get exec.header

/-- The section headers. -/
def sections (exec : PE32Loader) : List Store :=
  (List.range exec.numberOfSections).map fun i =>
    slice exec.blob (exec.sectOff + i * LDRSectionHeader.size)

/-- `pages`. -/
def pages (exec : PE32Loader) : Nat := pageCount exec.sizeOfImage

/-- `LoadImage` returns before it maps anything. -/
def Refused (exec : PE32Loader) : Prop :=
  exec.fBad = true ∨ exec.fCachedBlobSz = 0 ∨ ldrFindExecHeader exec.blob = none ∨
    exec.numberOfSections < 1 ∨ exec.sectOff > exec.fCachedBlobSz ∨
    exec.numberOfSections > (exec.fCachedBlobSz - exec.sectOff) / LDRSectionHeader.size

instance (exec : PE32Loader) : Decidable exec.Refused := inferInstanceAs (Decidable (_ ∨ _))

/-- A section that does not fit the image or the blob. -/
def Malformed (exec : PE32Loader) (sec : Store) : Prop :=
  LDRSectionHeader.virtualAddress.get sec > exec.sizeOfImage ∨
  LDRSectionHeader.sizeOfRawData.get sec >
    exec.sizeOfImage - LDRSectionHeader.virtualAddress.get sec ∨
  LDRSectionHeader.pointerToRawData.get sec > exec.fCachedBlobSz ∨
  LDRSectionHeader.sizeOfRawData.get sec >
    exec.fCachedBlobSz - LDRSectionHeader.pointerToRawData.get sec

instance (exec : PE32Loader) (sec : Store) : Decidable (exec.Malformed sec) :=
  inferInstanceAs (Decidable (_ ∨ _))

/-- Where the bytes of a section go. -/
def dest (exec : PE32Loader) (sec : Store) : Nat :=
  u64 (exec.imageBase + LDRSectionHeader.virtualAddress.get sec)

end PE32Loader

/-- How the loop over the sections ends. -/
inductive CopyEnd where
  | done
  | malformed
  | fault
deriving DecidableEq

/-- The loop over the sections in `LoadImage`. -/
def copySections (root : Nat) (exec : PE32Loader) : List Store → Machine → CopyEnd × Machine
  | [], s => (.done, s)
  | sec :: secs, s =>
    if LDRSectionHeader.sizeOfRawData.get sec = 0 then copySections root exec secs s
    else if exec.Malformed sec then (.malformed, s)
    else
      let c := rtCopyMemorySafe root s
        (slice exec.blob (LDRSectionHeader.pointerToRawData.get sec)) (exec.dest sec)
        (LDRSectionHeader.sizeOfRawData.get sec)
        (exec.sizeOfImage - LDRSectionHeader.virtualAddress.get sec)
      if c.1 = false then (.fault, c.2) else copySections root exec secs c.2

/-- `PE32Loader::LoadImage`. -/
def loadImage (root : Nat) (exec : PE32Loader) (s : Machine) : Outcome × PE32Loader × Machine :=
  if exec.fImage ≠ 0 then (.returned kErrorSuccess exec.fImage, exec, s)
  else if exec.Refused then (.returned kErrorInvalidData 0, exec, s)
  else
    let r := mapImage root exec.imageBase exec.pages s
    if r.1 = false then (.returned kErrorHeapOutOfMemory 0, exec, r.2)
    else
      match copySections root exec exec.sections r.2 with
      | (.fault, s) => (.fault, exec, s)
      | (.malformed, s) =>
        (.returned kErrorInvalidData 0, exec, ldrUnmapPages root exec.imageBase exec.pages s)
      | (.done, s) =>
        (.returned kErrorSuccess exec.imageBase, { exec with fImage := exec.imageBase }, s)

/-- `PE32Loader::FindStart`. -/
def PE32Loader.findStart (root : Nat) (exec : PE32Loader) (s : Machine) :
    Outcome × PE32Loader × Machine :=
  match loadImage root exec s with
  | (.fault, exec, s) => (.fault, exec, s)
  | (.returned _ image, exec, s) =>
    if image = 0 then (.returned kErrorExecutable 0, exec, s)
    else
      match ldrFindOptExecHeader exec.blob with
      | none => (.returned kErrorExecutable 0, exec, s)
      | some opt =>
        let entry := LDROptionalHeader.addressOfEntryPoint.get opt
        if entry = 0 then (.returned kErrorExecutable 0, exec, s)
        else (.returned kErrorSuccess (u64 (LDROptionalHeader.imageBase.get opt + entry)), exec, s)

/-! ## What the sections write -/

namespace PE32Loader

/-- The sections whose bytes are copied: those with bytes, ahead of the first malformed one. -/
def ahead (exec : PE32Loader) : List Store → List Store
  | [] => []
  | sec :: secs =>
    if LDRSectionHeader.sizeOfRawData.get sec = 0 then exec.ahead secs
    else if exec.Malformed sec then []
    else sec :: exec.ahead secs

/-- The loop comes to a malformed section unless it faults. -/
def EndsMalformed (exec : PE32Loader) (secs : List Store) : Prop :=
  ∃ sec ∈ secs, LDRSectionHeader.sizeOfRawData.get sec ≠ 0 ∧ exec.Malformed sec

instance (exec : PE32Loader) (secs : List Store) : Decidable (exec.EndsMalformed secs) :=
  inferInstanceAs (Decidable (∃ sec ∈ secs, _))

/-- The address of a byte of a section. -/
def byteAddr (exec : PE32Loader) (sec : Store) (i : Nat) : Nat := u64 (exec.dest sec + i)

/-- A byte of a section is copied to this address. Nothing is copied to a section at `0`. -/
def Copies (exec : PE32Loader) (sec : Store) (va : Nat) : Prop :=
  exec.dest sec ≠ 0 ∧
    ∃ i, i < LDRSectionHeader.sizeOfRawData.get sec ∧ va = exec.byteAddr sec i

end PE32Loader

variable {A : PageMap} {W V : Set Nat} {root : Nat} {exec : PE32Loader} {sec : Store}
  {secs : List Store} {s s' : Machine}

/-- What is copied fits its room. -/
theorem PE32Loader.copy_eq (hfits : ¬ exec.Malformed sec) (src : Store) :
    rtCopyMemorySafe root s src (exec.dest sec) (LDRSectionHeader.sizeOfRawData.get sec)
        (exec.sizeOfImage - LDRSectionHeader.virtualAddress.get sec) =
      if exec.dest sec = 0 then (true, s)
      else copyBytes root (exec.dest sec) src (LDRSectionHeader.sizeOfRawData.get sec) s := by
  have hroom : ¬ LDRSectionHeader.sizeOfRawData.get sec >
      exec.sizeOfImage - LDRSectionHeader.virtualAddress.get sec := fun h => hfits (.inr (.inl h))
  unfold rtCopyMemorySafe
  by_cases h0 : exec.dest sec = 0
  · rw [if_pos (.inl h0), if_neg fun h => h.1 h0, if_pos h0]
  · rw [if_neg (not_or.mpr ⟨h0, hroom⟩), if_neg h0]

theorem copySections_skip (h : LDRSectionHeader.sizeOfRawData.get sec = 0) :
    copySections root exec (sec :: secs) s = copySections root exec secs s := if_pos h

theorem copySections_malformed (h : LDRSectionHeader.sizeOfRawData.get sec ≠ 0)
    (hbad : exec.Malformed sec) : copySections root exec (sec :: secs) s = (.malformed, s) := by
  rw [copySections, if_neg h, if_pos hbad]

/-- The copy of one section. -/
def copySection (root : Nat) (exec : PE32Loader) (sec : Store) (s : Machine) : Bool × Machine :=
  if exec.dest sec = 0 then (true, s)
  else copyBytes root (exec.dest sec)
    (slice exec.blob (LDRSectionHeader.pointerToRawData.get sec))
    (LDRSectionHeader.sizeOfRawData.get sec) s

theorem copySections_fault (h : LDRSectionHeader.sizeOfRawData.get sec ≠ 0)
    (hfits : ¬ exec.Malformed sec) (hc : copySection root exec sec s = (false, s')) :
    copySections root exec (sec :: secs) s = (.fault, s') := by
  rw [copySections, if_neg h, if_neg hfits, PE32Loader.copy_eq hfits, ← copySection, hc]
  exact if_pos rfl

theorem copySections_next (h : LDRSectionHeader.sizeOfRawData.get sec ≠ 0)
    (hfits : ¬ exec.Malformed sec) (hc : copySection root exec sec s = (true, s')) :
    copySections root exec (sec :: secs) s = copySections root exec secs s' := by
  rw [copySections, if_neg h, if_neg hfits, PE32Loader.copy_eq hfits, ← copySection, hc]
  exact if_neg fun heq => Bool.noConfusion heq

/-- The copy of a section stays on pages that lead to no table. -/
theorem copySection_wrote (hs : Space root A s.phys) (hout : Outside root A s.phys W)
    (hV : ∀ va, exec.Copies sec va → Canonical va → va ∈ V ∧ pageOf va ∈ W) :
    Wrote root V s (copySection root exec sec s).2 := by
  unfold copySection
  split
  · exact Wrote.nothing
  · next h0 =>
      have hin : ∀ va ∈ target (exec.dest sec) (LDRSectionHeader.sizeOfRawData.get sec),
          va ∈ V ∧ pageOf va ∈ W := fun va ⟨hc, hi⟩ => hV va ⟨h0, hi⟩ hc
      exact (copyBytes_wrote _ hs hout fun va hva => (hin va hva).2).mono
        fun va hva => (hin va hva).1

/-- **The sections that are copied** write to their own bytes only, and keep the tables. -/
theorem copySections_wrote (hs : Space root A s.phys) (hout : Outside root A s.phys W)
    (hV : ∀ sec ∈ exec.ahead secs, ∀ va, exec.Copies sec va → Canonical va →
      va ∈ V ∧ pageOf va ∈ W) :
    Wrote root V s (copySections root exec secs s).2 := by
  induction secs generalizing s with
  | nil => exact Wrote.nothing
  | cons sec secs ih =>
      rw [PE32Loader.ahead] at hV
      by_cases hraw : LDRSectionHeader.sizeOfRawData.get sec = 0
      · rw [if_pos hraw] at hV
        rw [copySections_skip hraw]
        exact ih hs hout hV
      · by_cases hbad : exec.Malformed sec
        · rw [copySections_malformed hraw hbad]
          exact Wrote.nothing
        · rw [if_neg hraw, if_neg hbad] at hV
          have hone := copySection_wrote hs hout (hV sec List.mem_cons_self)
          rcases hc : copySection root exec sec s with ⟨_ | _, s₁⟩
          · rw [hc] at hone
            rw [copySections_fault hraw hbad hc]
            exact hone
          · rw [hc] at hone
            rw [copySections_next hraw hbad hc]
            exact hone.trans (ih (hone.space hs) (hone.outside hout)
              fun sec' hin => hV sec' (List.mem_cons_of_mem sec hin))

theorem endsMalformed_cons : exec.EndsMalformed (sec :: secs) ↔
    LDRSectionHeader.sizeOfRawData.get sec ≠ 0 ∧ exec.Malformed sec ∨ exec.EndsMalformed secs := by
  constructor
  · rintro ⟨sec', hin, h⟩
    rcases List.mem_cons.mp hin with rfl | hin
    · exact .inl h
    · exact .inr ⟨sec', hin, h⟩
  · rintro (h | ⟨sec', hin, h⟩)
    · exact ⟨sec, List.mem_cons_self, h⟩
    · exact ⟨sec', List.mem_cons_of_mem sec hin, h⟩

/-- A copy that ends without a fault has been to canonical addresses, and they are in the log. -/
theorem copySection_log (hc : copySection root exec sec s = (true, s')) :
    (∀ va ∈ s.written, va ∈ s'.written) ∧
      ∀ va, exec.Copies sec va → Canonical va ∧ va ∈ s'.written := by
  unfold copySection at hc
  split at hc
  · next h0 =>
      cases hc
      exact ⟨fun _ h => h, fun va hva => absurd h0 hva.1⟩
  · obtain ⟨hold, hnew⟩ := copyBytes_log root (exec.dest sec)
      (LDRSectionHeader.sizeOfRawData.get sec)
      (slice exec.blob (LDRSectionHeader.pointerToRawData.get sec)) s
    rw [hc] at hold hnew
    exact ⟨hold, fun va ⟨_, i, hi, hva⟩ => hva ▸ hnew rfl i hi⟩

/-- **A loop that does not fault** has copied the sections ahead of the malformed one, and stops at
that one if there is one. -/
theorem copySections_end (hr : (copySections root exec secs s).1 ≠ .fault) :
    ((copySections root exec secs s).1 = .malformed ↔ exec.EndsMalformed secs) ∧
      (∀ va ∈ s.written, va ∈ (copySections root exec secs s).2.written) ∧
      ∀ sec ∈ exec.ahead secs, ∀ va, exec.Copies sec va →
        Canonical va ∧ va ∈ (copySections root exec secs s).2.written := by
  induction secs generalizing s with
  | nil =>
      refine ⟨⟨fun h => ?_, fun ⟨_, h, _⟩ => absurd h List.not_mem_nil⟩, fun _ h => h,
        fun _ h => absurd h List.not_mem_nil⟩
      cases h
  | cons sec secs ih =>
      rw [PE32Loader.ahead, endsMalformed_cons]
      by_cases hraw : LDRSectionHeader.sizeOfRawData.get sec = 0
      · rw [copySections_skip hraw] at hr ⊢
        rw [if_pos hraw]
        obtain ⟨hend, hlog⟩ := ih hr
        exact ⟨hend.trans ⟨.inr, fun h => h.resolve_left fun h => h.1 hraw⟩, hlog⟩
      · rw [if_neg hraw]
        by_cases hbad : exec.Malformed sec
        · rw [copySections_malformed hraw hbad, if_pos hbad]
          exact ⟨⟨fun _ => .inl ⟨hraw, hbad⟩, fun _ => rfl⟩, fun _ h => h,
            fun _ h => absurd h List.not_mem_nil⟩
        · rw [if_neg hbad]
          rcases hc : copySection root exec sec s with ⟨_ | _, s₁⟩
          · rw [copySections_fault hraw hbad hc] at hr
            exact absurd rfl hr
          · rw [copySections_next hraw hbad hc] at hr ⊢
            obtain ⟨hend, hlog, hcopies⟩ := ih hr
            obtain ⟨hold, hnew⟩ := copySection_log hc
            refine ⟨hend.trans ⟨.inr, fun h => h.resolve_left fun h => hbad h.2⟩,
              fun va hva => hlog va (hold va hva), fun sec' hin va hva => ?_⟩
            rcases List.mem_cons.mp hin with rfl | hin
            · exact ⟨(hnew va hva).1, hlog va (hnew va hva).2⟩
            · exact hcopies sec' hin va hva

/-- The loop does not fault when every byte goes to a mapped page. -/
theorem copySections_noFault (hs : Space root A s.phys) (hout : Outside root A s.phys W)
    (hmapped : ∀ sec ∈ exec.ahead secs, ∀ va, exec.Copies sec va →
      Canonical va ∧ pageOf va ∈ W ∧ A (pageOf va) ≠ none) :
    (copySections root exec secs s).1 ≠ .fault := by
  induction secs generalizing s with
  | nil => exact fun h => by cases h
  | cons sec secs ih =>
      rw [PE32Loader.ahead] at hmapped
      by_cases hraw : LDRSectionHeader.sizeOfRawData.get sec = 0
      · rw [if_pos hraw] at hmapped
        rw [copySections_skip hraw]
        exact ih hs hout hmapped
      · by_cases hbad : exec.Malformed sec
        · rw [copySections_malformed hraw hbad]
          exact fun h => by cases h
        · rw [if_neg hraw, if_neg hbad] at hmapped
          have hhere := hmapped sec List.mem_cons_self
          have hone : Wrote root Set.univ s (copySection root exec sec s).2 :=
            copySection_wrote hs hout fun va hva _ => ⟨Set.mem_univ va, (hhere va hva).2.1⟩
          obtain ⟨s₁, hc⟩ : ∃ s₁, copySection root exec sec s = (true, s₁) := by
            unfold copySection
            split
            · exact ⟨s, rfl⟩
            · next h0 => exact copyBytes_true hs hout fun i hi => hhere _ ⟨h0, i, hi, rfl⟩
          rw [hc] at hone
          rw [copySections_next hraw hbad hc]
          exact ih (hone.space hs) (hone.outside hout)
            fun sec' hin => hmapped sec' (List.mem_cons_of_mem sec hin)

/-- A loop that does not fault has been to mapped pages only. -/
theorem copySections_visited (hs : Space root A s.phys) (hout : Outside root A s.phys W)
    (hin : ∀ sec ∈ exec.ahead secs, ∀ va, exec.Copies sec va → Canonical va → pageOf va ∈ W)
    (hr : (copySections root exec secs s).1 ≠ .fault) :
    ∀ sec ∈ exec.ahead secs, ∀ va, exec.Copies sec va → A (pageOf va) ≠ none := by
  induction secs generalizing s with
  | nil => exact fun _ h => absurd h List.not_mem_nil
  | cons sec secs ih =>
      rw [PE32Loader.ahead] at hin ⊢
      by_cases hraw : LDRSectionHeader.sizeOfRawData.get sec = 0
      · rw [if_pos hraw] at hin ⊢
        rw [copySections_skip hraw] at hr
        exact ih hs hout hin hr
      · by_cases hbad : exec.Malformed sec
        · rw [if_neg hraw, if_pos hbad]
          exact fun _ h => absurd h List.not_mem_nil
        · rw [if_neg hraw, if_neg hbad] at hin ⊢
          have hhere := hin sec List.mem_cons_self
          have hone : Wrote root Set.univ s (copySection root exec sec s).2 :=
            copySection_wrote hs hout fun va hva hc => ⟨Set.mem_univ va, hhere va hva hc⟩
          rcases hc : copySection root exec sec s with ⟨_ | _, s₁⟩
          · rw [copySections_fault hraw hbad hc] at hr
            exact absurd rfl hr
          · rw [hc] at hone
            rw [copySections_next hraw hbad hc] at hr
            intro sec' hsec' va hva
            rcases List.mem_cons.mp hsec' with rfl | hsec'
            · obtain ⟨h0, i, hi, rfl⟩ := hva
              rw [copySection, if_neg h0] at hc
              exact copyBytes_mapped hs hout (fun va ⟨hcan, hi⟩ => hhere va ⟨h0, hi⟩ hcan) hc i hi
            · exact ih (hone.space hs) (hone.outside hout)
                (fun sec'' hin'' => hin sec'' (List.mem_cons_of_mem sec hin'')) hr sec' hsec' va hva

/-! ## The ways through `LoadImage` -/

theorem loadImage_refused (hfresh : exec.fImage = 0) (h : exec.Refused) :
    loadImage root exec s = (.returned kErrorInvalidData 0, exec, s) := by
  rw [loadImage, if_neg (not_not.mpr hfresh), if_pos h]

theorem loadImage_unmapped (hfresh : exec.fImage = 0) (h : ¬ exec.Refused)
    (hmap : mapImage root exec.imageBase exec.pages s = (false, s')) :
    loadImage root exec s = (.returned kErrorHeapOutOfMemory 0, exec, s') := by
  rw [loadImage, if_neg (not_not.mpr hfresh), if_neg h, hmap]
  exact if_pos rfl

/-- What `LoadImage` returns when the loop over the sections has ended. -/
def loadOutcome (exec : PE32Loader) : CopyEnd → Outcome
  | .done => .returned kErrorSuccess exec.imageBase
  | .malformed => .returned kErrorInvalidData 0
  | .fault => .fault

theorem loadImage_mapped {s₁ s₂ : Machine} {c : CopyEnd} (hfresh : exec.fImage = 0)
    (h : ¬ exec.Refused) (hmap : mapImage root exec.imageBase exec.pages s = (true, s₁))
    (hc : copySections root exec exec.sections s₁ = (c, s₂)) :
    (loadImage root exec s).1 = loadOutcome exec c ∧
      (loadImage root exec s).2.2 =
        if c = .malformed then ldrUnmapPages root exec.imageBase exec.pages s₂ else s₂ := by
  rw [loadImage, if_neg (not_not.mpr hfresh), if_neg h, hmap]
  simp only [Bool.true_eq_false, if_false, hc]
  cases c <;> exact ⟨rfl, rfl⟩

theorem PE32Loader.pages_le (exec : PE32Loader) : exec.pages ≤ 2 ^ 20 := by
  have hcount := (pageCount_spec exec.sizeOfImage).2
  have hsize : exec.sizeOfImage < 256 ^ 4 := Field.get_lt
  rw [PE32Loader.pages]
  omega

/-- **Unwinding an image that was mapped**, after its sections have been written. -/
theorem unwind_written {base pages : Nat} {A' : PageMap} {p' : Phys} {s₂ : Machine}
    (hpool : Pool s) (hpages : pages ≤ 2 ^ 36)
    (hplaced : Placed root (imagePages base 0 pages) A A' s.phys p')
    (hw : Wrote root V { s with phys := p' } s₂) :
    ∃ A'', Space root A'' (ldrUnmapPages root base pages s₂).phys ∧
      (∀ pg ∈ imagePages base 0 pages, A'' pg = none) ∧
      (∀ pg, pg ∉ imagePages base 0 pages → A'' pg = A pg) ∧
      AllReturned root s (ldrUnmapPages root base pages s₂) ∧
      (ldrUnmapPages root base pages s₂).written = s₂.written := by
  obtain ⟨A'', hs'', hnone, hother, hgave⟩ :=
    hplaced.unwind hw.later (hw.space hplaced.space) hpages hpool hw.pool
  refine ⟨A'', hs'', hnone, hother, ?_, hgave.written⟩
  obtain ⟨used, heq, hused⟩ := hplaced.spent
  obtain ⟨given, hfreed, hgiven⟩ := hgave.freed
  refine ⟨used, given, ?_, ?_, fun f hf hf0 => ?_⟩
  · rw [hgave.same, hw.answers, heq]
  · rw [hfreed, hw.freed]
  · rcases hused f hf hf0 with ht | hpage
    · exact .inl (hgave.toLater.tables f (hw.later.tables f ht))
    · exact .inr ((hgiven f).mpr hpage)

end NeKernel.KernelKit
