import NeKernel.KernelKit.ImageFrames
import NeKernel.Lib.Overlay

/-!
# What an image reads as

`LoadImage` maps zeroed frames and copies the raw data of the sections over them, in the order of the
table. Raw data can be longer than the memory of their section, so each address reads as the last raw
data that were copied there (`loadImage_seen`). The sections of an image read as they should exactly
when what is on top at each of their bytes is right (`loadImage_content_iff`). That is so where no raw
data are longer than their section (`contentOnTop_of_fits`).
-/

namespace NeKernel.KernelKit

open ByteStore HALKit Overlay PagedMemory

variable {A : PageMap} {W : Set Nat} {root i va v : Nat} {s s' : Machine} {exec : PE32Loader}
  {sec sec' : Store} {secs : List Store}

namespace PE32Loader

/-- What byte `i` of a section should be: the raw data, and zeros behind them. -/
def content (exec : PE32Loader) (sec : Store) (i : Nat) : UInt8 :=
  if i < LDRSectionHeader.sizeOfRawData.get sec then
    exec.blob (LDRSectionHeader.pointerToRawData.get sec + i)
  else 0

/-- The memory of every section is inside the image. -/
def SectionsInside (exec : PE32Loader) : Prop :=
  ∀ sec ∈ exec.sections,
    LDRSectionHeader.virtualAddress.get sec + LDRSectionHeader.virtualSize.get sec ≤ exec.sizeOfImage

/-- Where in the raw data of a section an address is, as a 64-bit word. -/
def offsetIn (exec : PE32Loader) (sec : Store) (va : Nat) : Nat := u64 (va + (2 ^ 64 - exec.dest sec))

/-- The raw data of a section, over what the addresses read as. Nothing is copied to a section at
`0`. -/
def rawLayer (exec : PE32Loader) (sec : Store) : Layer Nat (Option UInt8) where
  value := fun va =>
    if exec.dest sec ≠ 0 ∧ va < 2 ^ 64 ∧
        exec.offsetIn sec va < LDRSectionHeader.sizeOfRawData.get sec then
      some (some (exec.blob (LDRSectionHeader.pointerToRawData.get sec + exec.offsetIn sec va)))
    else none
  covers := ∅

/-- The zeroed pages of the image, over what the addresses read as. -/
def pageLayer (exec : PE32Loader) : Layer Nat (Option UInt8) where
  value := fun _ => none
  covers := {va | Canonical va ∧ pageOf va ∈ exec.pageSet}

/-- The pages with bytes of the image that are not mapped for it. -/
def tailPages (exec : PE32Loader) : Set Nat :=
  {pg | pg ∉ exec.pageSet ∧ ∃ va ∈ exec.imageBytes, pageOf va = pg}

/-! ## One section -/

theorem dest_lt (exec : PE32Loader) (sec : Store) : exec.dest sec < 2 ^ 64 := u64_lt _

theorem rawLayer_value (h0 : exec.dest sec ≠ 0) (hi : i < LDRSectionHeader.sizeOfRawData.get sec) :
    (exec.rawLayer sec).value (exec.byteAddr sec i) =
      some (some (exec.blob (LDRSectionHeader.pointerToRawData.get sec + i))) := by
  have hdest := exec.dest_lt sec
  have hraw : LDRSectionHeader.sizeOfRawData.get sec < 256 ^ 4 := Field.get_lt
  have hoffset : exec.offsetIn sec (exec.byteAddr sec i) = i := by
    simp only [offsetIn, byteAddr, u64]
    omega
  simp only [rawLayer, hoffset]
  exact if_pos ⟨h0, u64_lt _, hi⟩

theorem rawLayer_none (h : ¬ exec.Copies sec va) : (exec.rawLayer sec).value va = none := by
  apply if_neg
  rintro ⟨h0, hlt, hraw⟩
  have hdest := exec.dest_lt sec
  refine h ⟨h0, _, hraw, ?_⟩
  simp only [offsetIn, byteAddr, u64]
  omega

theorem rawLayer_touches : (exec.rawLayer sec).Touches va ↔ exec.Copies sec va := by
  constructor
  · intro h
    by_contra hno
    exact h.elim (fun hvalue => hvalue (rawLayer_none hno)) (Set.notMem_empty va)
  · rintro ⟨h0, i, hi, rfl⟩
    rw [Layer.Touches, rawLayer_value h0 hi]
    exact .inl (Option.some_ne_none _)

theorem rawLayer_leaves (h0 : exec.dest sec ≠ 0) (hi : i < LDRSectionHeader.sizeOfRawData.get sec) :
    (exec.rawLayer sec).leaves (some 0) (exec.byteAddr sec i) =
      some (exec.blob (LDRSectionHeader.pointerToRawData.get sec + i)) := by
  rw [Layer.leaves, rawLayer_value h0 hi, Option.getD_some]

theorem pageLayer_own {old : Nat → Option UInt8} (hc : Canonical va)
    (hpg : pageOf va ∈ exec.pageSet) : exec.pageLayer.apply (some 0) old va = some 0 :=
  Layer.apply_covered (l := exec.pageLayer) rfl ⟨hc, hpg⟩

theorem pageLayer_other {old : Nat → Option UInt8}
    (h : ¬ (Canonical va ∧ pageOf va ∈ exec.pageSet)) :
    exec.pageLayer.apply (some 0) old va = old va :=
  Layer.apply_outside (l := exec.pageLayer) rfl h

/-- A section with raw data is copied when no section is malformed. -/
theorem mem_ahead_of_wellFormed (hend : ¬ exec.EndsMalformed secs) (hsec : sec ∈ secs)
    (hraw : LDRSectionHeader.sizeOfRawData.get sec ≠ 0) : sec ∈ exec.ahead secs := by
  induction secs with
  | nil => exact absurd hsec List.not_mem_nil
  | cons first secs ih =>
      obtain ⟨hfirst, hrest⟩ := not_or.mp (mt endsMalformed_cons.mpr hend)
      rw [ahead]
      rcases List.mem_cons.mp hsec with rfl | hsec
      · rw [if_neg hraw, if_neg fun hbad => hfirst ⟨hraw, hbad⟩]
        exact List.mem_cons_self
      · split
        · exact ih hrest hsec
        · next hsome =>
            rw [if_neg fun hbad => hfirst ⟨hsome, hbad⟩]
            exact List.mem_cons_of_mem first (ih hrest hsec)

/-- The bytes of a section inside the image are bytes of the image. -/
theorem SectionsInside.byteAddr_mem (h : exec.SectionsInside) (hsec : sec ∈ exec.sections)
    (hi : i < LDRSectionHeader.virtualSize.get sec) : exec.byteAddr sec i ∈ exec.imageBytes := by
  have hin := h sec hsec
  refine ⟨LDRSectionHeader.virtualAddress.get sec + i, by omega, ?_⟩
  simp only [byteAddr, dest, u64]
  omega

/-- At most one page of an image is not mapped for it. -/
theorem tailPages_apart (A : PageMap) (exec : PE32Loader) : FramesApart A exec.tailPages 4096 := by
  rintro pg ⟨hout, va, hva, rfl⟩ pg' ⟨hout', va', hva', rfl⟩ f f' - - hne
  have htail := (page_of_byte hva).resolve_left hout
  have htail' := (page_of_byte hva').resolve_left hout'
  exact absurd (htail.trans htail'.symm) hne

/-- Where there is room, none is. -/
theorem tailPages_of_room (hpos : 0 < exec.sizeOfImage)
    (hroom : Room exec.imageBase exec.sizeOfImage) : exec.tailPages = ∅ := by
  rw [Set.eq_empty_iff_forall_notMem]
  rintro pg ⟨hout, va, hva, rfl⟩
  exact hout ((room_iff hpos (exec.pages_le.trans_lt (by decide))).mp hroom va hva)

end PE32Loader

open PE32Loader

/-- The copy of a section is its raw data over what was there. -/
theorem copySection_seen (hs : Space root A s.phys) (hout : Outside root A s.phys W)
    (hap : FramesApart A W 4096)
    (hin : ∀ va, exec.Copies sec va → Canonical va → pageOf va ∈ W)
    (hc : copySection root exec sec s = (true, s')) (hva : Canonical va) (hpg : pageOf va ∈ W) :
    byteAt root s' va = (exec.rawLayer sec).apply (some 0) (byteAt root s) va := by
  by_cases h0 : exec.dest sec = 0
  · rw [copySection, if_pos h0] at hc
    cases hc
    rw [Layer.apply_untouched fun ht => (rawLayer_touches.mp ht).1 h0]
  · rw [copySection, if_neg h0] at hc
    have hraw : LDRSectionHeader.sizeOfRawData.get sec < 256 ^ 4 := Field.get_lt
    have hpages : ∀ va ∈ target (exec.dest sec) (LDRSectionHeader.sizeOfRawData.get sec),
        pageOf va ∈ W := by
      rintro va ⟨hcan, hi⟩
      exact hin va ⟨h0, hi⟩ hcan
    obtain ⟨hthere, helse⟩ := copyBytes_seen hs hout hap (by omega) hpages hc hva hpg
    by_cases hcopies : exec.Copies sec va
    · obtain ⟨-, i, hi, rfl⟩ := hcopies
      rw [hthere i hi rfl, Layer.apply_value (rawLayer_value h0 hi), slice_apply]
    · rw [helse fun i hi heq => hcopies ⟨h0, i, hi, heq⟩,
        Layer.apply_untouched fun ht => hcopies (rawLayer_touches.mp ht)]

/-- **The loop over the sections** leaves their raw data on each other, first one first. -/
theorem copySections_seen (hs : Space root A s.phys) (hout : Outside root A s.phys W)
    (hap : FramesApart A W 4096)
    (hin : ∀ sec ∈ exec.ahead secs, ∀ va, exec.Copies sec va → Canonical va → pageOf va ∈ W)
    (hr : copySections root exec secs s = (.done, s')) (hva : Canonical va) (hpg : pageOf va ∈ W) :
    byteAt root s' va = applyAll (some 0) (secs.map exec.rawLayer) (byteAt root s) va := by
  induction secs generalizing s with
  | nil =>
      cases hr
      rfl
  | cons sec secs ih =>
      rw [ahead] at hin
      rw [List.map_cons, applyAll]
      by_cases hraw : LDRSectionHeader.sizeOfRawData.get sec = 0
      · have hnone : ¬ (exec.rawLayer sec).Touches va := by
          rw [rawLayer_touches]
          rintro ⟨-, i, hi, -⟩
          exact absurd hi (hraw ▸ Nat.not_lt_zero i)
        rw [copySections_skip hraw] at hr
        rw [if_pos hraw] at hin
        rw [ih hs hout hin hr]
        exact applyAll_congr (Layer.apply_untouched hnone).symm
      · by_cases hbad : exec.Malformed sec
        · rw [copySections_malformed hraw hbad] at hr
          cases hr
        · rw [if_neg hraw, if_neg hbad] at hin
          have hhere := hin sec List.mem_cons_self
          rcases hc : copySection root exec sec s with ⟨_ | _, s₁⟩
          · rw [copySections_fault hraw hbad hc] at hr
            cases hr
          · have hw := copySection_wrote (V := Set.univ) hs hout fun va hva hcan =>
              ⟨Set.mem_univ va, hhere va hva hcan⟩
            rw [hc] at hw
            rw [copySections_next hraw hbad hc] at hr
            rw [ih (hw.space hs) (hw.outside hout)
              (fun sec' hsec' => hin sec' (List.mem_cons_of_mem sec hsec')) hr]
            exact applyAll_congr (copySection_seen hs hout hap hhere hc hva hpg)

/-! ## The image -/

/-- **What an image reads as** when it is loaded: the raw data of its sections, over zeros where its
pages are. -/
theorem loadImage_seen (hs : Space root A s.phys) (hout : Outside root A s.phys exec.tailPages)
    (hfresh : exec.fImage = 0) (hload : (loadImage root exec s).1 = .returned kErrorSuccess v)
    (hva : va ∈ exec.imageBytes) :
    byteAt root (loadImage root exec s).2.2 va =
      applyAll (some 0) (exec.sections.map exec.rawLayer)
        (exec.pageLayer.apply (some 0) (byteAt root s)) va := by
  obtain ⟨-, s₁, hmap, hcopy⟩ := loaded_image hfresh hload
  obtain ⟨-, hend, hcan⟩ := loadable_of_loaded hfresh hload
  by_cases hc : Canonical va
  · obtain ⟨p', A', rfl, hplaced, hzero⟩ := mapImage_done hs (exec.pages_le.trans (by decide)) hmap
    have hout' : Outside root A' p' (exec.tailPages ∪ exec.pageSet) := hout.placed hplaced
    have hap := framesApart_placed (exec.tailPages_apart A) hout hplaced
    have hpage : ∀ va ∈ exec.imageBytes, pageOf va ∈ exec.tailPages ∪ exec.pageSet := by
      intro va hva
      by_cases hown : pageOf va ∈ exec.pageSet
      · exact .inr hown
      · exact .inl ⟨hown, va, hva, rfl⟩
    rw [copySections_seen hplaced.space hout' hap
      (fun sec hsec va hva _ => hpage va (exec.copies_mem (exec.mem_ahead hsec) hva)) hcopy hc
      (hpage va hva)]
    apply applyAll_congr
    have hlook := look_placed (o := va % 4096) hout hplaced hzero (Nat.mod_lt _ (by decide))
      (hpage va hva)
    rw [byteAt_eq (s := { s with phys := p' }) hplaced.space.holds hc]
    by_cases hown : pageOf va ∈ exec.pageSet
    · rw [pageLayer_own hc hown]
      exact hlook.1 hown
    · rw [pageLayer_other fun h => hown h.2, byteAt_eq hs.holds hc]
      exact hlook.2 hown
  · -- such an address is read by nobody, and nothing has been copied there
    have hnone : ∀ s : Machine, byteAt root s va = none := fun s => by
      rw [byteAt, translate_none hc, Option.map_none]
    have hcopied : ∀ sec ∈ exec.sections, ¬ (exec.rawLayer sec).Touches va := by
      intro sec hsec ht
      have hcopies := rawLayer_touches.mp ht
      obtain ⟨-, i, hi, -⟩ := id hcopies
      exact hc (hcan sec (mem_ahead_of_wellFormed hend hsec (by omega)) va hcopies)
    rw [applyAll_untouched hcopied, pageLayer_other fun h => hc h.1, hnone, hnone]

/-- Every byte of every section reads as it should. -/
def ReadsContent (root : Nat) (exec : PE32Loader) (s : Machine) : Prop :=
  ∀ sec ∈ exec.sections, ∀ i < LDRSectionHeader.virtualSize.get sec,
    byteAt root s (exec.byteAddr sec i) = some (exec.content sec i)

/-- Where a byte of a section is, the last raw data of all that are copied there have the right byte.
Where none are, the byte is zero, and on a page of the image or zero before. -/
def ContentOnTop (root : Nat) (exec : PE32Loader) (s : Machine) : Prop :=
  ∀ sec ∈ exec.sections, ∀ i < LDRSectionHeader.virtualSize.get sec,
    TopIs (some 0) exec.rawLayer exec.sections (exec.pageLayer.apply (some 0) (byteAt root s))
      (exec.byteAddr sec i) (some (exec.content sec i))

/-- **An image that is loaded** has the content of its sections exactly when that is on top. -/
theorem loadImage_content_iff (hs : Space root A s.phys) (hout : Outside root A s.phys exec.tailPages)
    (hfresh : exec.fImage = 0) (hinside : exec.SectionsInside)
    (hload : (loadImage root exec s).1 = .returned kErrorSuccess v) :
    ReadsContent root exec (loadImage root exec s).2.2 ↔ ContentOnTop root exec s := by
  apply forall₂_congr
  intro sec hsec
  apply forall₂_congr
  intro i hi
  rw [loadImage_seen hs hout hfresh hload (hinside.byteAddr_mem hsec hi)]
  exact applyAll_eq_iff

/-! ## Raw data that fit their sections -/

namespace PE32Loader

/-- The memory of the two sections does not overlap. -/
def SectionsApart (sec sec' : Store) : Prop :=
  LDRSectionHeader.virtualAddress.get sec + LDRSectionHeader.virtualSize.get sec ≤
      LDRSectionHeader.virtualAddress.get sec' ∨
    LDRSectionHeader.virtualAddress.get sec' + LDRSectionHeader.virtualSize.get sec' ≤
      LDRSectionHeader.virtualAddress.get sec

instance : Std.Symm SectionsApart where
  symm := fun _ _ h => Or.symm h

end PE32Loader

/-- **Raw data that fit** the memory of their sections are all there is on top, in an image with room
and none of its sections at `0`. -/
theorem contentOnTop_of_fits (root : Nat) (s : Machine) (hroom : exec.HasRoom)
    (hsize : exec.sizeOfImage ≤ kPeMaxImageSz) (hinside : exec.SectionsInside)
    (hapart : exec.sections.Pairwise SectionsApart)
    (hfits : ∀ sec ∈ exec.sections,
      LDRSectionHeader.sizeOfRawData.get sec ≤ LDRSectionHeader.virtualSize.get sec)
    (hdest : ∀ sec ∈ exec.sections, exec.dest sec ≠ 0) : ContentOnTop root exec s := by
  intro sec hsec i hi
  have hin := hinside sec hsec
  rw [kPeMaxImageSz] at hsize
  constructor
  · intro sec' htop
    have hsec' : sec' ∈ exec.sections := htop.mem
    obtain ⟨-, j, hj, haddr⟩ := rawLayer_touches.mp htop.touches
    have hin' := hinside sec' hsec'
    have hfit := hfits sec' hsec'
    -- the two bytes have one place in the image
    have hplace : LDRSectionHeader.virtualAddress.get sec + i =
        LDRSectionHeader.virtualAddress.get sec' + j := by
      simp only [byteAddr, dest, u64] at haddr
      omega
    obtain rfl : sec = sec' := by
      by_contra hne
      have happ := hapart.forall hsec hsec' hne
      rw [SectionsApart] at happ
      omega
    obtain rfl : i = j := by omega
    rw [rawLayer_leaves (hdest sec hsec) hj, content, if_pos hj]
  · intro hnone
    have hpast : ¬ i < LDRSectionHeader.sizeOfRawData.get sec := fun hlt =>
      hnone sec hsec (rawLayer_touches.mpr ⟨hdest sec hsec, i, hlt, rfl⟩)
    have hpos : 0 < exec.sizeOfImage := by omega
    have hva := hinside.byteAddr_mem hsec hi
    have hc := (canonical_bytes_iff exec.imageBase_lt hpos (by omega)).mpr hroom.2 _ hva
    have hpage := (room_iff hpos (exec.pages_le.trans_lt (by decide))).mp hroom.1 _ hva
    rw [pageLayer_own hc hpage, content, if_neg hpast]

end NeKernel.KernelKit
