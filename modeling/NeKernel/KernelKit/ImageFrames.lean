import NeKernel.KernelKit.PE32Reads

/-!
# Images in frames of their own

Both loaders count the pages of an image from its size and map them from the page of its first byte
on. An image that does not start at a page can stick out of the last one, and the bytes there are what
was mapped before. `PE32Loader::FindStart` adds the entry point to the base without a look at the size.
`images_owned_iff` says when every byte of an image is in a frame the load took, and its start in the
image.
-/

namespace NeKernel.KernelKit

open ByteStore HALKit

variable {A A' : PageMap} {P V : Set Nat} {root base n pg va v : Nat} {s s' : Machine} {p' : Phys}
  {hdr sec : Store} {exec : PE32Loader}

/-! ## Addresses of an image -/

/-- The addresses of the bytes are canonical when they are in one half of the address space. -/
theorem canonical_bytes_iff (hbase : base < 2 ^ 64) (hpos : 0 < n) (hn : n ≤ 2 ^ 47) :
    (∀ va ∈ bytesAt base n, Canonical va) ↔ base + n ≤ 2 ^ 47 ∨ 2 ^ 64 - 2 ^ 47 ≤ base := by
  constructor
  · intro h
    have hfirst := h _ ⟨0, hpos, rfl⟩
    rw [Nat.add_zero, u64_of_lt hbase] at hfirst
    by_contra hno
    -- the first address past the lower half is not canonical
    have hpast := h _ ⟨2 ^ 47 - base, by unfold Canonical at hfirst; omega, rfl⟩
    rw [u64_of_lt (by omega)] at hpast
    unfold Canonical at hfirst hpast
    omega
  · rintro h va ⟨o, ho, rfl⟩
    simp only [Canonical, u64]
    omega

/-! ## Frames a load took -/

/-- An address is mapped to a frame that was taken between `s` and `s'`. -/
def Took (root : Nat) (s s' : Machine) (va : Nat) : Prop :=
  ∃ used f, s.phys.answers = used ++ s'.phys.answers ∧ f ∈ used ∧ f ≠ 0 ∧
    translate s'.phys.mem root va = some (f + va % 4096)

/-- The pages of an image that was mapped lead to frames the load took. -/
theorem took_of_page (hp : Placed root P A A' s.phys p') (hw : Wrote root V { s with phys := p' } s')
    (hc : Canonical va) (hpg : pageOf va ∈ P) : Took root s s' va := by
  obtain ⟨used, heq, -⟩ := hp.spent
  obtain ⟨f, hf, hown⟩ := hp.page _ hpg
  have hleft : s'.phys.answers = p'.answers := hw.answers
  have hin := hown.answer
  rw [heq] at hin
  refine ⟨used, f, by rw [heq, hleft], (List.mem_append.mp hin).resolve_right hown.notAnswer,
    hown.frame.ne_zero, ?_⟩
  rw [translate_eq (hw.space hp.space).holds hc, PagedMemory.place_of_mapped hf]

/-- **No other page does**, when what was mapped before leads to no answer. -/
theorem page_of_took (hp : Placed root P A A' s.phys p') (hw : Wrote root V { s with phys := p' } s')
    (hout : Outside root A s.phys Set.univ) (h : Took root s s' va) :
    Canonical va ∧ pageOf va ∈ P := by
  obtain ⟨used, f, heq, hin, -, htr⟩ := h
  have hc := canonical_of_translate htr
  refine ⟨hc, by_contra fun hstray => ?_⟩
  rw [translate_eq (hw.space hp.space).holds hc, PagedMemory.place, hp.other _ hstray] at htr
  obtain ⟨g, hg, hsum⟩ := Option.map_eq_some_iff.mp htr
  obtain rfl : g = f := Nat.add_right_cancel hsum
  obtain ⟨-, -, hnew⟩ := hout _ (Set.mem_univ _) g hg
  exact hnew (heq ▸ List.mem_append_left _ hin)

/-- The bytes of an image are in frames the load took when its pages hold them. -/
theorem took_of_room (hp : Placed root (imagePages base 0 (pageCount n)) A A' s.phys p')
    (hw : Wrote root V { s with phys := p' } s') (hpos : 0 < n) (hn : pageCount n < 2 ^ 36)
    (hc : ∀ va ∈ bytesAt base n, Canonical va) (hroom : Room base n) :
    ∀ va ∈ bytesAt base n, Took root s s' va :=
  fun va hva => took_of_page hp hw (hc va hva) ((room_iff hpos hn).mp hroom va hva)

/-- There, the bytes are in frames the load took only when the pages hold them. -/
theorem Laid.room (h : Laid base n A A' s p') (hw : Wrote 0x1000 V { s with phys := p' } s')
    (hpos : 0 < n) (hn : pageCount n < 2 ^ 36)
    (htook : ∀ va ∈ bytesAt base n, Took 0x1000 s s' va) :
    Room base n ∧ ∀ va ∈ bytesAt base n, Canonical va := by
  have hpage := fun va hva => page_of_took h.placed hw h.before (htook va hva)
  exact ⟨(room_iff hpos hn).mpr fun va hva => (hpage va hva).2, fun va hva => (hpage va hva).1⟩

/-! ## PEF -/

/-- The memory of a section. -/
def sectionBytes (hdr : Store) : Set Nat :=
  bytesAt (PEFCommandHeader.vmAddress.get hdr) (PEFCommandHeader.vmSize.get hdr)

/-- A section that `FindSymbol` loads is in frames the call took, and the address it returns is in the
section. -/
def SectionOwned (root : Nat) (exec : PEFLoader) (name : List UInt8) (kind : Nat) (s : Machine) :
    Prop :=
  ∀ v, (findSymbol root exec name kind s).1 = .returned kErrorSuccess v →
    ∃ hdr, exec.section? name kind = some hdr ∧ v ∈ sectionBytes hdr ∧
      ∀ va ∈ sectionBytes hdr, Took root s (findSymbol root exec name kind s).2 va

/-- `FindStart` returns an address in the section of the start symbol. -/
def StartInSection (root : Nat) (exec : PEFLoader) (s : Machine) : Prop :=
  ∀ v, (exec.findStart root s).1 = .returned kErrorSuccess v →
    ∃ hdr, exec.section? kPefStart kPefCode = some hdr ∧ v ∈ sectionBytes hdr

theorem InWindow.size_lt (hw : InWindow hdr) :
    PEFCommandHeader.vmSize.get hdr ≤ 2 ^ 47 ∧
      pageCount (PEFCommandHeader.vmSize.get hdr) < 2 ^ 36 := by
  have hbase := hw.base
  have hfin := hw.fin
  have hcount := (pageCount_spec (PEFCommandHeader.vmSize.get hdr)).2
  simp only [kPefBaseOrigin, kPefMaxImageSz] at hbase hfin
  omega

theorem InWindow.canonical (hw : InWindow hdr) : ∀ va ∈ sectionBytes hdr, Canonical va := by
  have hbase := hw.base
  have hfin := hw.fin
  simp only [kPefBaseOrigin, kPefMaxImageSz] at hbase hfin
  refine (canonical_bytes_iff ?_ hw.some_bytes hw.size_lt.1).mpr ?_ <;> omega

theorem InWindow.start (hw : InWindow hdr) :
    PEFCommandHeader.vmAddress.get hdr ∈ sectionBytes hdr := by
  have hfin := hw.fin
  simp only [kPefBaseOrigin, kPefMaxImageSz] at hfin
  refine ⟨0, hw.some_bytes, ?_⟩
  rw [Nat.add_zero, u64_of_lt (by omega)]

/-- What a successful call of `FindSymbol` has done. -/
theorem loaded_section {exec : PEFLoader} {name : List UInt8} {kind : Nat} (hR : Ready root A s)
    (hload : (findSymbol root exec name kind s).1 = .returned kErrorSuccess v) :
    ∃ hdr A' p', exec.loads name kind = some hdr ∧ v = PEFCommandHeader.vmAddress.get hdr ∧
      Placed root (sectionPageSet hdr) A A' s.phys p' ∧
      Wrote root imageWindow { s with phys := p' } (findSymbol root exec name kind s).2 := by
  cases h : exec.loads name kind with
  | none =>
      rw [findSymbol_none h] at hload
      have hcode : kErrorInvalidData = kErrorSuccess := (Outcome.returned.inj hload).1
      exact absurd hcode (by decide)
  | some hdr =>
      obtain ⟨hw, heq⟩ := findSymbol_some root s h
      rw [heq] at hload ⊢
      rcases hmap : mapImage root (PEFCommandHeader.vmAddress.get hdr) (sectionPages hdr) s with
        ⟨_ | _, s₁⟩
      · rw [pefLoadSection_unmapped hmap] at hload
        have hcode : kErrorHeapOutOfMemory = kErrorSuccess := (Outcome.returned.inj hload).1
        exact absurd hcode (by decide)
      · obtain ⟨p', A', rfl, hplaced, -⟩ := mapImage_done hR.space hw.pageCount_le hmap
        have hout : Outside root A' p' windowPages := hR.placed hw.pages hplaced
        have hwrote : Wrote root imageWindow { s with phys := p' }
            (copyBytes root (PEFCommandHeader.vmAddress.get hdr) (exec.fileBytes hdr)
              (PEFCommandHeader.offsetSize.get hdr) { s with phys := p' }).2 :=
          (copyBytes_wrote _ hplaced.space hout fun va hva =>
            page_of_window (hw.target_subset hva)).mono hw.target_subset
        rcases hcopy : copyBytes root (PEFCommandHeader.vmAddress.get hdr) (exec.fileBytes hdr)
          (PEFCommandHeader.offsetSize.get hdr) { s with phys := p' } with ⟨_ | _, s₂⟩
        · rw [pefLoadSection_fault hw hmap hcopy] at hload
          cases hload
        · rw [hcopy] at hwrote
          rw [pefLoadSection_copied hw hmap hcopy] at hload ⊢
          exact ⟨hdr, A', p', rfl, (Outcome.returned.inj hload).2.symm, hplaced, hwrote⟩

/-- A section whose pages hold it is the load's own. -/
theorem sectionOwned_of_room {exec : PEFLoader} {name : List UInt8} {kind : Nat}
    (hR : Ready root A s) (hroom : ∀ hdr, exec.loads name kind = some hdr →
      Room (PEFCommandHeader.vmAddress.get hdr) (PEFCommandHeader.vmSize.get hdr)) :
    SectionOwned root exec name kind s := by
  intro v hload
  obtain ⟨hdr, A', p', h, hv, hplaced, hwrote⟩ := loaded_section hR hload
  have hw := loads_inWindow h
  rw [hv]
  exact ⟨hdr, (Option.filter_eq_some_iff.mp h).1, hw.start,
    took_of_room hplaced hwrote hw.some_bytes hw.size_lt.2 hw.canonical (hroom hdr h)⟩

/-- A section that is the load's own wherever it is loaded fits its pages. -/
theorem room_of_sectionOwned {exec : PEFLoader} {name : List UInt8} {kind : Nat}
    (h : exec.loads name kind = some hdr)
    (hown : ∀ root A s, Ready root A s → SectionOwned root exec name kind s) :
    Room (PEFCommandHeader.vmAddress.get hdr) (PEFCommandHeader.vmSize.get hdr) := by
  have hw := loads_inWindow h
  have hmost : pageCount (PEFCommandHeader.vmSize.get hdr) ≤ 2 ^ 20 := by
    have hcount := (pageCount_spec (PEFCommandHeader.vmSize.get hdr)).2
    have hsize : PEFCommandHeader.vmSize.get hdr ≤ kPefMaxImageSz := by
      have hbase := hw.base
      have hfin := hw.fin
      omega
    rw [kPefMaxImageSz] at hsize
    omega
  obtain ⟨A, A', s, p', hlaid⟩ := exists_laid (PEFCommandHeader.vmAddress.get hdr) hmost
  have hmemory : ∀ i < PEFCommandHeader.offsetSize.get hdr,
      u64 (PEFCommandHeader.vmAddress.get hdr + i) ∈ sectionBytes hdr :=
    fun i hi => ⟨i, hi.trans_le hw.file_le, rfl⟩
  obtain ⟨s₂, hcopy⟩ : ∃ s₂, copyBytes 0x1000 (PEFCommandHeader.vmAddress.get hdr)
      (exec.fileBytes hdr) (PEFCommandHeader.offsetSize.get hdr) { s with phys := p' } = (true, s₂) :=
    copyBytes_true hlaid.placed.space hlaid.outside fun i hi =>
      ⟨hw.canonical _ (hmemory i hi), Set.mem_univ _, hlaid.mapped _ (hmemory i hi)⟩
  have hload : findSymbol 0x1000 exec name kind s =
      (.returned kErrorSuccess (PEFCommandHeader.vmAddress.get hdr), s₂) := by
    rw [(findSymbol_some 0x1000 s h).2]
    exact pefLoadSection_copied hw hlaid.map hcopy
  obtain ⟨hdr', hsect, -, htook⟩ := hown 0x1000 A s hlaid.ready _ (congrArg Prod.fst hload)
  obtain rfl : hdr = hdr' :=
    Option.some.inj ((Option.filter_eq_some_iff.mp h).1.symm.trans hsect)
  have hwrote : Wrote 0x1000 _ { s with phys := p' }
      (copyBytes 0x1000 (PEFCommandHeader.vmAddress.get hdr) (exec.fileBytes hdr)
        (PEFCommandHeader.offsetSize.get hdr) { s with phys := p' }).2 :=
    copyBytes_wrote _ hlaid.placed.space hlaid.outside fun va _ => Set.mem_univ _
  rw [hcopy] at hwrote
  rw [hload] at htook
  exact (hlaid.room hwrote hw.some_bytes hw.size_lt.2 htook).1

/-- **Every start of a PEF image** is the first byte of its section. -/
theorem startInSection (exec : PEFLoader) (hR : Ready root A s) : StartInSection root exec s := by
  intro v hstart
  rw [PEFLoader.findStart] at hstart
  rcases hload : findSymbol root exec kPefStart kPefCode s with ⟨⟨code, sym⟩ | _, s₁⟩
  · rw [hload] at hstart
    by_cases hsym : sym = 0
    · simp only [hsym, ne_eq, not_true_eq_false, if_false] at hstart
      have hcode : kErrorExecutable = kErrorSuccess := (Outcome.returned.inj hstart).1
      exact absurd hcode (by decide)
    · simp only [ne_eq, hsym, not_false_eq_true, if_true] at hstart
      obtain ⟨hdr, -, -, h, hv, -⟩ := loaded_section hR ((congrArg Prod.fst hload).trans hstart)
      rw [hv]
      exact ⟨hdr, (Option.filter_eq_some_iff.mp h).1, (loads_inWindow h).start⟩
  · rw [hload] at hstart
    cases hstart

/-! ## PE32+ -/

namespace PE32Loader

/-- Nothing in the blob keeps the image from being loaded. -/
def Loadable (exec : PE32Loader) : Prop :=
  ¬ exec.Refused ∧ ¬ exec.EndsMalformed exec.sections ∧
    ∀ sec ∈ exec.ahead exec.sections, ∀ va, exec.Copies sec va → Canonical va

/-- The pages of the image hold it, and its addresses are in one half of the address space. -/
def HasRoom (exec : PE32Loader) : Prop :=
  Room exec.imageBase exec.sizeOfImage ∧
    (exec.imageBase + exec.sizeOfImage ≤ 2 ^ 47 ∨ 2 ^ 64 - 2 ^ 47 ≤ exec.imageBase)

instance (exec : PE32Loader) : Decidable exec.HasRoom := inferInstanceAs (Decidable (_ ∧ _))

/-- `FindStart` has no start to return, or one that the size allows. -/
def EntryInside (exec : PE32Loader) : Prop :=
  exec.imageBase = 0 ∨ exec.addressOfEntryPoint = 0 ∨ exec.addressOfEntryPoint < exec.sizeOfImage

instance (exec : PE32Loader) : Decidable exec.EntryInside := inferInstanceAs (Decidable (_ ∨ _))

end PE32Loader

/-- The image `LoadImage` loads is in frames the call took, and `FindStart` returns an address in the
image. -/
structure ImageOwned (root : Nat) (exec : PE32Loader) (s : Machine) : Prop where
  took : ∀ v, (loadImage root exec s).1 = .returned kErrorSuccess v →
    ∀ va ∈ exec.imageBytes, Took root s (loadImage root exec s).2.2 va
  start : ∀ v, (exec.findStart root s).1 = .returned kErrorSuccess v → v ∈ exec.imageBytes

/-- The constructor bounds the size of an image. -/
theorem sized_of_accepted {blob : Store} {len : Nat} (h : pe32Bad blob len = false) :
    0 < (pe32Loader blob len).sizeOfImage ∧ (pe32Loader blob len).sizeOfImage ≤ kPeMaxImageSz := by
  have hhead := headed_of_accepted h 0
  unfold pe32Bad at h
  split at h
  · cases h
  · rw [ldrFindOptExecHeader, ldrFindExecHeader_eq, if_pos ⟨hhead.magic0, hhead.magic1⟩] at h
    simp only [Option.map_some] at h
    split at h
    · cases h
    · split at h
      · cases h
      · obtain ⟨hmin, hmax⟩ := not_or.mp (of_decide_eq_false h)
        exact ⟨Nat.not_lt.mp hmin, Nat.not_lt.mp hmax⟩

/-- How a first call of `LoadImage` ends: in a fault, in an error without an address, or with the image
mapped and its sections copied. -/
theorem loadImage_cases (root : Nat) (s : Machine) (hfresh : exec.fImage = 0) :
    (loadImage root exec s).1 = .fault ∨
    (∃ c, c ≠ kErrorSuccess ∧ (loadImage root exec s).1 = .returned c 0) ∨
    ¬ exec.Refused ∧ (loadImage root exec s).1 = .returned kErrorSuccess exec.imageBase ∧
      ∃ s₁, mapImage root exec.imageBase exec.pages s = (true, s₁) ∧
        copySections root exec exec.sections s₁ = (.done, (loadImage root exec s).2.2) := by
  by_cases href : exec.Refused
  · rw [loadImage_refused hfresh href]
    exact .inr (.inl ⟨kErrorInvalidData, by decide, rfl⟩)
  · rcases hmap : mapImage root exec.imageBase exec.pages s with ⟨_ | _, s₁⟩
    · rw [loadImage_unmapped hfresh href hmap]
      exact .inr (.inl ⟨kErrorHeapOutOfMemory, by decide, rfl⟩)
    · rcases hc : copySections root exec exec.sections s₁ with ⟨c, s₂⟩
      obtain ⟨hout, hstate⟩ := loadImage_mapped hfresh href hmap hc
      cases c with
      | done =>
          rw [if_neg fun h => by cases h] at hstate
          exact .inr (.inr ⟨href, hout, s₁, rfl, hc.trans (congrArg _ hstate.symm)⟩)
      | malformed => exact .inr (.inl ⟨kErrorInvalidData, by decide, hout⟩)
      | fault => exact .inl hout

/-- What a successful call of `LoadImage` has done. -/
theorem loaded_image (hfresh : exec.fImage = 0)
    (hload : (loadImage root exec s).1 = .returned kErrorSuccess v) :
    ¬ exec.Refused ∧ ∃ s₁, mapImage root exec.imageBase exec.pages s = (true, s₁) ∧
      copySections root exec exec.sections s₁ = (.done, (loadImage root exec s).2.2) := by
  rcases loadImage_cases root s hfresh with hfault | ⟨c, hc, herr⟩ | ⟨href, -, hdone⟩
  · rw [hfault] at hload
    cases hload
  · rw [herr] at hload
    exact absurd (Outcome.returned.inj hload).1 hc
  · exact ⟨href, hdone⟩

theorem loadable_of_loaded (hfresh : exec.fImage = 0)
    (hload : (loadImage root exec s).1 = .returned kErrorSuccess v) : exec.Loadable := by
  obtain ⟨href, s₁, -, hcopy⟩ := loaded_image hfresh hload
  have hend := congrArg Prod.fst hcopy
  have hrun : (copySections root exec exec.sections s₁).1 ≠ .fault := fun h => by
    rw [hend] at h
    cases h
  obtain ⟨hbad, -, hcopies⟩ := copySections_end hrun
  refine ⟨href, fun h => ?_, fun sec hsec va hva => (hcopies sec hsec va hva).1⟩
  have hmalformed := hbad.mpr h
  rw [hend] at hmalformed
  cases hmalformed

/-! ### The start of an image -/

theorem Headed.optFound (h : Headed exec) : ldrFindOptExecHeader exec.blob = some exec.opt := by
  rw [ldrFindOptExecHeader, ldrFindExecHeader_eq, if_pos ⟨h.magic0, h.magic1⟩]
  rfl

theorem loadImage_blob (root : Nat) (exec : PE32Loader) (s : Machine) :
    (loadImage root exec s).2.1.blob = exec.blob := by
  unfold loadImage
  split
  · rfl
  · split
    · rfl
    · dsimp only
      split
      · rfl
      · split <;> rfl

/-- What `FindStart` makes of the outcome of `LoadImage`. -/
def startOutcome (exec : PE32Loader) : Outcome → Outcome
  | .fault => .fault
  | .returned _ image =>
    if image = 0 ∨ exec.addressOfEntryPoint = 0 then .returned kErrorExecutable 0
    else .returned kErrorSuccess (u64 (exec.imageBase + exec.addressOfEntryPoint))

theorem Headed.findStart_eq (h : Headed exec) (root : Nat) (s : Machine) :
    (exec.findStart root s).1 = startOutcome exec (loadImage root exec s).1 := by
  have hblob := loadImage_blob root exec s
  rcases hload : loadImage root exec s with ⟨⟨code, image⟩ | _, exec', s'⟩
  · rw [hload] at hblob
    simp only at hblob
    rw [PE32Loader.findStart, hload]
    simp only [startOutcome, hblob, h.optFound]
    by_cases himage : image = 0
    · rw [if_pos himage, if_pos (.inl himage)]
    · by_cases hentry : exec.addressOfEntryPoint = 0
      · have hfield : LDROptionalHeader.addressOfEntryPoint.get exec.opt = 0 := hentry
        rw [if_neg himage, if_pos hfield, if_pos (.inr hentry)]
      · have hfield : ¬ LDROptionalHeader.addressOfEntryPoint.get exec.opt = 0 := hentry
        rw [if_neg himage, if_neg hfield, if_neg (not_or.mpr ⟨himage, hentry⟩)]
        rfl
  · rw [PE32Loader.findStart, hload]
    rfl

/-- `FindStart` returns an address of an image that is loaded only. -/
theorem loaded_of_start (hfresh : exec.fImage = 0)
    (hstart : (exec.findStart root s).1 = .returned kErrorSuccess v) :
    (loadImage root exec s).1 = .returned kErrorSuccess exec.imageBase := by
  rcases loadImage_cases root s hfresh with hfault | ⟨c, -, herr⟩ | ⟨-, hload, -⟩
  · rcases h : loadImage root exec s with ⟨o, exec', s'⟩
    rw [h] at hfault
    obtain rfl : o = .fault := hfault
    rw [PE32Loader.findStart, h] at hstart
    cases hstart
  · rcases h : loadImage root exec s with ⟨o, exec', s'⟩
    rw [h] at herr
    obtain rfl : o = .returned c 0 := herr
    rw [PE32Loader.findStart, h] at hstart
    have hcode : kErrorExecutable = kErrorSuccess := (Outcome.returned.inj hstart).1
    exact absurd hcode (by decide)
  · exact hload

/-- **The start is in the image** when the entry point is. -/
theorem start_mem_iff (hsize : exec.sizeOfImage ≤ kPeMaxImageSz) :
    u64 (exec.imageBase + exec.addressOfEntryPoint) ∈ exec.imageBytes ↔
      exec.addressOfEntryPoint < exec.sizeOfImage := by
  have hentry : exec.addressOfEntryPoint < 256 ^ 4 := Field.get_lt
  rw [kPeMaxImageSz] at hsize
  constructor
  · rintro ⟨o, ho, heq⟩
    simp only [u64] at heq
    omega
  · exact fun h => ⟨_, h, rfl⟩

/-! ### When an image is the load's own -/

theorem PE32Loader.imageBase_lt (exec : PE32Loader) : exec.imageBase < 2 ^ 64 := Field.get_lt

/-- What a load of an image with room leaves. -/
theorem took_of_hasRoom (hR : Ready root A s) (hfresh : exec.fImage = 0) (hpos : 0 < exec.sizeOfImage)
    (hsize : exec.sizeOfImage ≤ kPeMaxImageSz) (hroom : exec.HasRoom)
    (hload : (loadImage root exec s).1 = .returned kErrorSuccess v) :
    ∀ va ∈ exec.imageBytes, Took root s (loadImage root exec s).2.2 va := by
  obtain ⟨-, s₁, hmap, hcopy⟩ := loaded_image hfresh hload
  have hpages := exec.pages_le
  rw [kPeMaxImageSz] at hsize
  obtain ⟨p', A', rfl, hplaced, -⟩ := mapImage_done hR.space (by omega) hmap
  have hheld := (room_iff hpos (hpages.trans_lt (by decide))).mp hroom.1
  -- the sections write to the pages of the image only, and those lead to no table
  have hout : Outside root A' p' (∅ ∪ exec.pageSet) :=
    Outside.placed (fun _ h => absurd h (Set.notMem_empty _)) hplaced
  have hwrote : Wrote root Set.univ { s with phys := p' }
      (copySections root exec exec.sections { s with phys := p' }).2 :=
    copySections_wrote hplaced.space hout fun sec hsec va hva _ =>
      ⟨Set.mem_univ va, .inr (hheld va (exec.copies_mem (exec.mem_ahead hsec) hva))⟩
  rw [hcopy] at hwrote
  exact took_of_room hplaced hwrote hpos (hpages.trans_lt (by decide))
    ((canonical_bytes_iff exec.imageBase_lt hpos (by omega)).mpr hroom.2) hroom.1

/-- Somewhere a loadable image loads, and there it is the load's own only with room. -/
theorem exists_load (hfresh : exec.fImage = 0) (hpos : 0 < exec.sizeOfImage)
    (hsize : exec.sizeOfImage ≤ kPeMaxImageSz) (hok : exec.Loadable) :
    ∃ A s, Ready 0x1000 A s ∧
      (loadImage 0x1000 exec s).1 = .returned kErrorSuccess exec.imageBase ∧
      ((∀ va ∈ exec.imageBytes, Took 0x1000 s (loadImage 0x1000 exec s).2.2 va) → exec.HasRoom) := by
  obtain ⟨href, hend, hcan⟩ := hok
  have hpages := exec.pages_le
  rw [kPeMaxImageSz] at hsize
  obtain ⟨A, A', s, p', hlaid⟩ := exists_laid exec.imageBase hpages
  obtain ⟨hrun, hwrote⟩ := hlaid.copies hcan
  have hbad := (copySections_end hrun).1
  rcases hcopy : copySections 0x1000 exec exec.sections { s with phys := p' } with ⟨c, s₂⟩
  rw [hcopy] at hrun hwrote hbad
  obtain ⟨hout, hstate⟩ := loadImage_mapped hfresh href hlaid.map hcopy
  cases c with
  | malformed => exact absurd (hbad.mp rfl) hend
  | fault => exact absurd rfl hrun
  | done =>
      rw [if_neg fun h => by cases h] at hstate
      refine ⟨A, s, hlaid.ready, hout, fun htook => ?_⟩
      rw [hstate] at htook
      obtain ⟨hroom, hbytes⟩ := hlaid.room hwrote hpos (hpages.trans_lt (by decide)) htook
      exact ⟨hroom, (canonical_bytes_iff exec.imageBase_lt hpos (by omega)).mp hbytes⟩

theorem accepted_of_loadable {blob : Store} {len : Nat} (h : (pe32Loader blob len).Loadable) :
    pe32Bad blob len = false := Bool.eq_false_of_not_eq_true fun hbad => h.1 (.inl hbad)

/-- **The PE32+ image of a blob** is the load's own, wherever it is loaded, exactly when it is never
loaded or has room and its entry point inside. -/
theorem imageOwned_iff (blob : Store) (len : Nat) :
    (∀ root A s, Ready root A s → ImageOwned root (pe32Loader blob len) s) ↔
      ((pe32Loader blob len).Loadable →
        (pe32Loader blob len).HasRoom ∧ (pe32Loader blob len).EntryInside) := by
  constructor
  · intro h hok
    have hgood := accepted_of_loadable hok
    obtain ⟨hpos, hsize⟩ := sized_of_accepted hgood
    obtain ⟨A, s, hR, hload, hroom⟩ := exists_load rfl hpos hsize hok
    obtain ⟨htook, hstart⟩ := h 0x1000 A s hR
    refine ⟨hroom (htook _ hload), ?_⟩
    -- an entry point past the size is what `FindStart` would return
    by_contra hno
    obtain ⟨hbase, hentry, hout⟩ : (pe32Loader blob len).imageBase ≠ 0 ∧
        (pe32Loader blob len).addressOfEntryPoint ≠ 0 ∧
        ¬ (pe32Loader blob len).addressOfEntryPoint < (pe32Loader blob len).sizeOfImage := by
      simpa only [PE32Loader.EntryInside, not_or] using hno
    have hhead : Headed (pe32Loader blob len) := headed_of_accepted hgood 0
    have heq := hhead.findStart_eq 0x1000 s
    rw [hload, startOutcome, if_neg (not_or.mpr ⟨hbase, hentry⟩)] at heq
    exact hout ((start_mem_iff hsize).mp (hstart _ heq))
  · intro h root A s hR
    refine ⟨fun v hload => ?_, fun v hstart => ?_⟩
    · have hok : (pe32Loader blob len).Loadable := loadable_of_loaded rfl hload
      obtain ⟨hpos, hsize⟩ := sized_of_accepted (accepted_of_loadable hok)
      exact took_of_hasRoom hR rfl hpos hsize (h hok).1 hload
    · have hload := loaded_of_start rfl hstart
      have hok : (pe32Loader blob len).Loadable := loadable_of_loaded rfl hload
      have hgood := accepted_of_loadable hok
      have hhead : Headed (pe32Loader blob len) := headed_of_accepted hgood 0
      rw [hhead.findStart_eq, hload, startOutcome] at hstart
      split at hstart
      · have hcode : kErrorExecutable = kErrorSuccess := (Outcome.returned.inj hstart).1
        exact absurd hcode (by decide)
      · next hsome =>
          obtain ⟨hbase, hentry⟩ := not_or.mp hsome
          rw [← (Outcome.returned.inj hstart).2]
          exact (start_mem_iff (sized_of_accepted hgood).2).mpr
            (((h hok).2.resolve_left hbase).resolve_left hentry)

/-- **Images in frames of their own.** Wherever the images of a blob are loaded, every byte of a PEF
section is in a frame the call took exactly when the section has room on its pages, and `FindStart`
returns an address in it; and every byte of the PE32+ image is, with its start in the image, exactly
when nothing can load it or it has room and its entry point inside. -/
theorem images_owned_iff (blob : Store) (len : Nat) :
    (∀ name kind,
      (∀ root A s, Ready root A s → SectionOwned root (pefLoader blob len) name kind s) ↔
        ∀ hdr, (pefLoader blob len).loads name kind = some hdr →
          Room (PEFCommandHeader.vmAddress.get hdr) (PEFCommandHeader.vmSize.get hdr)) ∧
    (∀ root A s, Ready root A s → StartInSection root (pefLoader blob len) s) ∧
    ((∀ root A s, Ready root A s → ImageOwned root (pe32Loader blob len) s) ↔
      ((pe32Loader blob len).Loadable →
        (pe32Loader blob len).HasRoom ∧ (pe32Loader blob len).EntryInside)) := by
  refine ⟨fun name kind => ⟨fun h hdr hloads => room_of_sectionOwned hloads h,
    fun h root A s hR => sectionOwned_of_room hR h⟩, fun root A s hR => startInSection _ hR, ?_⟩
  exact imageOwned_iff blob len

/-- An image of one page whose base is half a page in: its second half is on no page of its own. -/
theorem image_sticks_out : ¬ ∀ blob len root A s, Ready root A s →
    (∀ name kind, SectionOwned root (pefLoader blob len) name kind s) ∧
      StartInSection root (pefLoader blob len) s ∧ ImageOwned root (pe32Loader blob len) s := by
  intro h
  have hok : (sampleExec 0x40000800).Loadable := by
    refine ⟨by decide +kernel, by decide +kernel, fun sec hsec => ?_⟩
    rw [show (sampleExec 0x40000800).ahead (sampleExec 0x40000800).sections = [] from rfl] at hsec
    exact absurd hsec List.not_mem_nil
  have hsize : (sampleExec 0x40000800).sizeOfImage = 0x1000 := rfl
  obtain ⟨A, s, hR, hload, hroom⟩ := exists_load rfl (by rw [hsize]; decide) (by rw [hsize]; decide) hok
  have hown := (h (sampleExec 0x40000800).blob 288 0x1000 A s hR).2.2
  exact absurd (hroom (hown.took _ hload)).1 (by decide)

end NeKernel.KernelKit
