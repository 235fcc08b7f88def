import NeKernel.KernelKit.PEFReads

/-!
# Sections that load

A section that `pef_find_section` accepts is loaded by `FindSymbol` if the constructor has accepted the
blob and the section has bytes in the file: a zero-fill section is refused for want of a source. What
is loaded reads as the file bytes and zeros behind them on the pages of the section. Past them, where
the section does not start at a page, its memory is what was mapped there before
(`findSymbol_loads_iff`).
-/

namespace NeKernel.KernelKit

open ByteStore HALKit

variable {A A' : PageMap} {root len kind i : Nat} {blob hdr : Store} {s s' : Machine}
  {name sect : List UInt8}

/-- The byte `i` of a section should read as: the file bytes, and zeros behind them. -/
def sectionByte (blob hdr : Store) (i : Nat) : UInt8 :=
  if i < PEFCommandHeader.offsetSize.get hdr then blob (PEFCommandHeader.offset.get hdr + i) else 0

/-- `FindSymbol` returns the address of the section, and its memory reads as it should. -/
def LoadsSection (root : Nat) (blob : Store) (len : Nat) (name : List UInt8) (kind : Nat)
    (hdr : Store) (s : Machine) : Prop :=
  ∃ s', findSymbol root (pefLoader blob len) name kind s =
      (.returned kErrorSuccess (PEFCommandHeader.vmAddress.get hdr), s') ∧
    ∀ i < PEFCommandHeader.vmSize.get hdr,
      byteAt root s' (PEFCommandHeader.vmAddress.get hdr + i) = some (sectionByte blob hdr i)

/-- The memory of the section that is not on its own pages is already there: mapped under the file
bytes, and zero behind them. -/
def TailThere (root : Nat) (A : PageMap) (s : Machine) (hdr : Store) : Prop :=
  ∀ i < PEFCommandHeader.vmSize.get hdr,
    pageOf (PEFCommandHeader.vmAddress.get hdr + i) ∉ sectionPageSet hdr →
      (i < PEFCommandHeader.offsetSize.get hdr →
        A (pageOf (PEFCommandHeader.vmAddress.get hdr + i)) ≠ none) ∧
      (PEFCommandHeader.offsetSize.get hdr ≤ i →
        byteAt root s (PEFCommandHeader.vmAddress.get hdr + i) = some 0)

/-- A section whose pages hold all of its memory has no tail. -/
theorem tailThere_of_room (hroom : PEFCommandHeader.vmAddress.get hdr % 4096 +
    PEFCommandHeader.vmSize.get hdr ≤ 4096 * sectionPages hdr) : TailThere root A s hdr := by
  intro i hi hstray
  exact absurd (page_of_room (by omega)) hstray

theorem InWindow.memory (hw : InWindow hdr) (hi : i < PEFCommandHeader.vmSize.get hdr) :
    PEFCommandHeader.vmAddress.get hdr + i ∈ imageWindow := by
  have hbase := hw.base
  have hfin := hw.fin
  rw [imageWindow, Set.mem_Ico]
  omega

/-- The copy of the file bytes, seen in the memory of the section. -/
theorem byteAt_copied {s₁ s₂ : Machine} (hI : ImageSpace root A s₁) (hw : InWindow hdr)
    (hcopy : copyBytes root (PEFCommandHeader.vmAddress.get hdr)
      (slice blob (PEFCommandHeader.offset.get hdr)) (PEFCommandHeader.offsetSize.get hdr) s₁ =
      (true, s₂)) (hi : i < PEFCommandHeader.vmSize.get hdr) :
    byteAt root s₂ (PEFCommandHeader.vmAddress.get hdr + i) =
      if i < PEFCommandHeader.offsetSize.get hdr then
        some (blob (PEFCommandHeader.offset.get hdr + i))
      else byteAt root s₁ (PEFCommandHeader.vmAddress.get hdr + i) := by
  obtain ⟨-, hbytes⟩ := hI.copy imageWindow_subset (fun i hi => hw.bytes hi) hcopy
  rw [hbytes _ (hw.memory hi), copied]
  by_cases hfile : i < PEFCommandHeader.offsetSize.get hdr
  · rw [if_pos hfile, if_pos (by omega), Nat.add_sub_cancel_left]
    rfl
  · rw [if_neg hfile, if_neg (by omega)]

/-- What mapping the pages of the section does to its memory. -/
structure Blanked (root : Nat) (A A' : PageMap) (s s₁ : Machine) (hdr : Store) : Prop where
  space : ImageSpace root A' s₁
  mapped : ∀ pg ∈ sectionPageSet hdr, A' pg ≠ none
  other : ∀ pg, pg ∉ sectionPageSet hdr → A' pg = A pg
  blank : ∀ i < PEFCommandHeader.vmSize.get hdr,
    pageOf (PEFCommandHeader.vmAddress.get hdr + i) ∈ sectionPageSet hdr →
      byteAt root s₁ (PEFCommandHeader.vmAddress.get hdr + i) = some 0
  kept : ∀ i < PEFCommandHeader.vmSize.get hdr,
    pageOf (PEFCommandHeader.vmAddress.get hdr + i) ∉ sectionPageSet hdr →
      byteAt root s₁ (PEFCommandHeader.vmAddress.get hdr + i) =
        byteAt root s (PEFCommandHeader.vmAddress.get hdr + i)

theorem exists_blanked (hI : ImageSpace root A s) (hw : InWindow hdr)
    (hn : Frames (4 * sectionPages hdr) s.phys) :
    ∃ s₁ A', mapImage root (PEFCommandHeader.vmAddress.get hdr) (sectionPages hdr) s = (true, s₁) ∧
      Blanked root A A' s s₁ hdr := by
  have hmany := hn.many
  obtain ⟨p', hmap, -⟩ := mapImage_enough (PEFCommandHeader.vmAddress.get hdr)
    hI.space hw.pageCount_le hn.nonzero (by omega)
  obtain ⟨q, A', hq, hplaced, hzero⟩ := mapImage_done hI.space hw.pageCount_le hmap
  obtain rfl : p' = q := congrArg Machine.phys hq
  obtain ⟨hI', hview⟩ := hI.placed hw.pages hplaced hzero
  refine ⟨_, A', hmap, hI', fun pg hpg => ?_, hplaced.other,
    fun i hi => (hview _ (imageWindow_subset (hw.memory hi))).1,
    fun i hi => (hview _ (imageWindow_subset (hw.memory hi))).2⟩
  obtain ⟨f, hf, -⟩ := hplaced.page pg hpg
  rw [hf]
  exact Option.some_ne_none f

/-- A section that has loaded and reads as it should found its tail there. -/
theorem tailThere_of_reads {s₁ s₂ : Machine} (hB : Blanked root A A' s s₁ hdr) (hw : InWindow hdr)
    (hcopy : copyBytes root (PEFCommandHeader.vmAddress.get hdr)
      (slice blob (PEFCommandHeader.offset.get hdr)) (PEFCommandHeader.offsetSize.get hdr) s₁ =
      (true, s₂))
    (hreads : ∀ i < PEFCommandHeader.vmSize.get hdr,
      byteAt root s₂ (PEFCommandHeader.vmAddress.get hdr + i) = some (sectionByte blob hdr i)) :
    TailThere root A s hdr := by
  refine fun i hi hstray => ⟨fun hfile => ?_, fun hpast => ?_⟩
  · rw [← hB.other _ hstray]
    have hlt := imageWindow_lt (hw.memory hi)
    have hmapped := copyBytes_mapped hB.space.space hB.space.outside
      (fun va hva => page_of_window (hw.target_subset hva)) hcopy i hfile
    rwa [u64_of_lt (by omega)] at hmapped
  · have hread := hreads i hi
    have hfile := Nat.not_lt.mpr hpast
    rwa [byteAt_copied hB.space hw hcopy hi, if_neg hfile, hB.kept i hi hstray, sectionByte,
      if_neg hfile] at hread

/-- A section whose tail is there loads without a fault. -/
theorem copy_of_tailThere {s₁ : Machine} (hB : Blanked root A A' s s₁ hdr) (hw : InWindow hdr)
    (htail : TailThere root A s hdr) (src : Store) :
    ∃ s₂, copyBytes root (PEFCommandHeader.vmAddress.get hdr) src
      (PEFCommandHeader.offsetSize.get hdr) s₁ = (true, s₂) := by
  apply copyBytes_true hB.space.space hB.space.outside
  intro i hi
  have hmem := hw.bytes hi
  have hlt := imageWindow_lt hmem
  rw [u64_of_lt (by omega)]
  refine ⟨canonical_of_window hmem, page_of_window hmem, ?_⟩
  by_cases hown : pageOf (PEFCommandHeader.vmAddress.get hdr + i) ∈ sectionPageSet hdr
  · exact hB.mapped _ hown
  · rw [hB.other _ hown]
    exact (htail i (hi.trans_le hw.file_le) hown).1 hi

/-- And it reads as it should. -/
theorem reads_of_tailThere {s₁ s₂ : Machine} (hB : Blanked root A A' s s₁ hdr) (hw : InWindow hdr)
    (htail : TailThere root A s hdr)
    (hcopy : copyBytes root (PEFCommandHeader.vmAddress.get hdr)
      (slice blob (PEFCommandHeader.offset.get hdr)) (PEFCommandHeader.offsetSize.get hdr) s₁ =
      (true, s₂)) (hi : i < PEFCommandHeader.vmSize.get hdr) :
    byteAt root s₂ (PEFCommandHeader.vmAddress.get hdr + i) = some (sectionByte blob hdr i) := by
  rw [byteAt_copied hB.space hw hcopy hi, sectionByte]
  by_cases hfile : i < PEFCommandHeader.offsetSize.get hdr
  · rw [if_pos hfile, if_pos hfile]
  · rw [if_neg hfile, if_neg hfile]
    by_cases hown : pageOf (PEFCommandHeader.vmAddress.get hdr + i) ∈ sectionPageSet hdr
    · exact hB.blank i hi hown
    · rw [hB.kept i hi hown]
      exact (htail i hi hown).2 (Nat.not_lt.mp hfile)

/-- **Loading an accepted section** with frames for it and a source: it succeeds, and its memory reads
as it should, exactly when its tail is there already. -/
theorem pefLoadSection_reads_iff (blob : Store) (hI : ImageSpace root A s) (hw : InWindow hdr)
    (hn : Frames (4 * sectionPages hdr) s.phys) :
    (∃ s', pefLoadSection root hdr (some (slice blob (PEFCommandHeader.offset.get hdr))) s =
        (.returned kErrorSuccess (PEFCommandHeader.vmAddress.get hdr), s') ∧
      ∀ i < PEFCommandHeader.vmSize.get hdr,
        byteAt root s' (PEFCommandHeader.vmAddress.get hdr + i) = some (sectionByte blob hdr i)) ↔
    TailThere root A s hdr := by
  obtain ⟨s₁, A', hmap, hB⟩ := exists_blanked hI hw hn
  constructor
  · rintro ⟨s', hload, hreads⟩
    rcases hcopy : copyBytes root (PEFCommandHeader.vmAddress.get hdr)
      (slice blob (PEFCommandHeader.offset.get hdr)) (PEFCommandHeader.offsetSize.get hdr) s₁ with
      ⟨_ | _, s₂⟩
    · rw [pefLoadSection_fault hw hmap hcopy] at hload
      cases (Prod.mk.inj hload).1
    · rw [pefLoadSection_copied hw hmap hcopy] at hload
      obtain rfl : s₂ = s' := (Prod.mk.inj hload).2
      exact tailThere_of_reads hB hw hcopy hreads
  · intro htail
    obtain ⟨s₂, hcopy⟩ := copy_of_tailThere hB hw htail (slice blob (PEFCommandHeader.offset.get hdr))
    exact ⟨s₂, pefLoadSection_copied hw hmap hcopy,
      fun i hi => reads_of_tailThere hB hw htail hcopy hi⟩

/-- `FindSymbol` fails before it loads anything. -/
theorem not_loads_of_refused
    (h : findSymbol root (pefLoader blob len) name kind s = (.returned kErrorInvalidData 0, s)) :
    ¬ LoadsSection root blob len name kind hdr s := by
  rintro ⟨s', hload, -⟩
  rw [h] at hload
  have hcode : kErrorInvalidData = kErrorSuccess :=
    (Outcome.returned.inj (Prod.mk.inj hload).1).1
  exact absurd hcode (by decide)

theorem pefFindSection_len (hfind : pefFindSection blob len sect kind = some hdr) : len ≠ 0 := by
  unfold pefFindSection at hfind
  split at hfind
  · next hread =>
      have hsize := (pefReadContainer_iff (b := ⟨blob, len⟩)).mp hread |>.1
      simp only [PEFContainer.size] at hsize
      omega
  · cases hfind

/-- The section of a symbol is what `FindSymbol` finds, unless the constructor has refused the blob. -/
theorem section_of_found (hmake : pefMakeName kind name = some sect)
    (hfind : pefFindSection blob len sect kind = some hdr) :
    (pefLoader blob len).section? name kind =
      if (pefLoader blob len).fBad = true then none else some hdr := by
  have hlen : (pefLoader blob len).len ≠ 0 := pefFindSection_len hfind
  unfold PEFLoader.section?
  by_cases hbad : (pefLoader blob len).fBad = true
  · rw [if_pos (.inl hbad), if_pos hbad]
  · rw [if_neg (not_or.mpr ⟨hbad, hlen⟩), if_neg hbad, hmake, Option.bind_some]
    exact hfind

/-- **An accepted section is not always one that loads.** `pef_find_section` has found the section of
the symbol and there are frames. `FindSymbol` then succeeds and the memory of the section reads as its
file bytes and zeros exactly when the constructor has accepted the blob, the section has file bytes,
and the part of it that is not on its own pages is there already. -/
theorem findSymbol_loads_iff (hmake : pefMakeName kind name = some sect)
    (hfind : pefFindSection blob len sect kind = some hdr) (hI : ImageSpace root A s)
    (hn : Frames (4 * sectionPages hdr) s.phys) :
    LoadsSection root blob len name kind hdr s ↔
      (pefLoader blob len).fBad = false ∧ 0 < PEFCommandHeader.offsetSize.get hdr ∧
        TailThere root A s hdr := by
  have hsection := section_of_found hmake hfind
  by_cases hbad : (pefLoader blob len).fBad = true
  · rw [if_pos hbad] at hsection
    refine iff_of_false (not_loads_of_refused ?_) fun h => ?_
    · rw [findSymbol, hsection]
    · exact Bool.noConfusion (hbad.symm.trans h.1)
  · rw [if_neg hbad] at hsection
    have hgood : (pefLoader blob len).fBad = false := Bool.eq_false_of_not_eq_true hbad
    by_cases hfile : 0 < PEFCommandHeader.offsetSize.get hdr
    · have hsource : (pefLoader blob len).source hdr =
          some (slice blob (PEFCommandHeader.offset.get hdr)) := if_pos hfile
      rw [and_iff_right hgood, and_iff_right hfile,
        ← pefLoadSection_reads_iff blob hI (PEFLoader.section_inWindow hsection) hn,
        LoadsSection, findSymbol, hsection]
      simp only [hsource]
    · -- a zero-fill section has no source
      have hsource : (pefLoader blob len).source hdr = none := if_neg hfile
      refine iff_of_false (not_loads_of_refused ?_) fun h => hfile h.2.1
      rw [findSymbol, hsection]
      simp only [hsource, pefLoadSection]

/-- The start section of the sample image is one byte at the beginning of a page. -/
theorem findSymbol_loads_iff_start :
    LoadsSection 0x1000 (sampleImage 0x40001000).blob 979 kPefStart kPefCode
      (headerAt (sampleImage 0x40001000).blob 0) (bareMachine 4) := by
  have hone : OneByte (headerAt (sampleImage 0x40001000).blob 0) 0x40000000 := ⟨rfl, rfl, rfl⟩
  have hframes : Frames (4 * sectionPages (headerAt (sampleImage 0x40001000).blob 0))
      (bareMachine 4).phys := by
    rw [hone.pages]
    exact bareMachine_frames
  refine (findSymbol_loads_iff (rfl : pefMakeName kPefCode kPefStart = some _) rfl
    (bareMachine_own windowPages (by decide)) hframes).mpr ⟨rfl, ?_, tailThere_of_room ?_⟩
  · rw [hone.file]
    exact Nat.one_pos
  · rw [hone.address, hone.memory, hone.pages]
    decide

/-- A container whose first section has memory and no bytes in the file. -/
def zeroFillBlob : Store :=
  blit sampleContainer 64 304 <| PEFCommandHeader.offsetSize.set 0 <|
    sampleHeader (kZeroPrefix ++ [0x61]) kPefZero 0 0x40000000

/-- The zero-fill section is found and is not loaded. -/
theorem zeroFill_refused : ¬ ∀ blob len kind name sect hdr root A s,
    pefMakeName kind name = some sect → pefFindSection blob len sect kind = some hdr →
    ImageSpace root A s → Frames (4 * sectionPages hdr) s.phys →
    LoadsSection root blob len name kind hdr s := by
  intro h
  have hframes : Frames (4 * sectionPages (headerAt zeroFillBlob 0)) (bareMachine 4).phys := by
    rw [show sectionPages (headerAt zeroFillBlob 0) = 1 from rfl]
    exact bareMachine_frames
  have hloads := h zeroFillBlob 979 kPefZero [0x61] (kZeroPrefix ++ [0x61])
    (headerAt zeroFillBlob 0) 0x1000 _ (bareMachine 4) rfl rfl (bareMachine_own windowPages (by decide))
    hframes
  exact not_loads_of_refused rfl hloads

end NeKernel.KernelKit
