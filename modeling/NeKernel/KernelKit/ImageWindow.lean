import NeKernel.KernelKit.PE32CodeMgr
import NeKernel.KernelKit.SectionsKept

/-!
# Images and the window

A load of an untrusted blob is *confined* when it changes the translation of no address outside the
image window and writes through none. `pef_find_section` bounds a section by the window, so every
load of a PEF section is confined (`findSymbol_confined`). `LoadImage` bounds the size of a PE32+
image, not its base: it is confined exactly when the pages of the image are in the window and the
bytes of its sections go there too (`confined_iff_staysInside`).
-/

namespace NeKernel.KernelKit

open ByteStore HALKit

variable {A A' : PageMap} {P V W : Set Nat} {root base n pg va f : Nat} {s s' s₁ : Machine}
  {hdr : Store} {exec : PE32Loader} {sec : Store}

/-! ## Confined loads -/

/-- A state images may be loaded in: fresh frames that the allocator takes back, and no table behind
the window. -/
structure Ready (root : Nat) (A : PageMap) (s : Machine) : Prop where
  space : Space root A s.phys
  pool : Pool s
  outside : Outside root A s.phys windowPages

/-- Between `s` and `s'` the translation of addresses of the window may have changed, and bytes may
have been written through them; nothing happened to other addresses. -/
structure Confined (root : Nat) (s s' : Machine) : Prop where
  translations : ∀ va, va ∉ imageWindow →
    translate s'.phys.mem root va = translate s.phys.mem root va
  writes : ∃ l, s'.written = l ++ s.written ∧ ∀ va ∈ l, va ∈ imageWindow

theorem Confined.refl : Confined root s s :=
  ⟨fun _ _ => rfl, [], rfl, fun _ h => absurd h List.not_mem_nil⟩

/-- An address outside the window is on a page outside it. -/
theorem page_notMem_window (hc : Canonical va) (hva : va ∉ imageWindow) :
    pageOf va ∉ windowPages := by
  intro hpg
  rcases hc with hlow | ⟨hhigh, hlt⟩
  · exact hva ((mem_imageWindow_iff (by omega)).mpr hpg)
  · have := hpg.2
    simp only [pageOf, kPefBaseOrigin, kPefMaxImageSz] at this
    omega

/-- The maps before and after agree outside the window. -/
theorem Confined.of_maps (hs : Holds s.phys.mem root A) (hs' : Holds s'.phys.mem root A')
    (hA : ∀ pg, pg ∉ windowPages → A' pg = A pg)
    (hw : ∃ l, s'.written = l ++ s.written ∧ ∀ va ∈ l, va ∈ imageWindow) : Confined root s s' where
  translations := by
    intro va hva
    by_cases hc : Canonical va
    · rw [translate_eq (p := s'.phys) hs' hc, translate_eq (p := s.phys) hs hc,
        PagedMemory.place, PagedMemory.place, hA _ (page_notMem_window hc hva)]
    · rw [translate_none (p := s'.phys) hc, translate_none (p := s.phys) hc]
  writes := hw

/-- An image that could not be mapped. -/
theorem mapImage_failed_confined {base : Nat} (hR : Ready root A s) (hn : n ≤ 2 ^ 36)
    (hP : imagePages base 0 n ⊆ windowPages) (hr : mapImage root base n s = (false, s')) :
    Confined root s s' := by
  obtain ⟨k, A', hk, hs', -, hother, -, hwritten, -⟩ := mapImage_failed hR.space hR.pool hn hr
  apply Confined.of_maps hR.space.holds hs'.holds
  · intro pg hpg
    apply hother
    rintro ⟨j, -, hj, rfl⟩
    exact hpg (hP ⟨j, Nat.zero_le j, by omega, rfl⟩)
  · exact ⟨[], hwritten, fun _ h => absurd h List.not_mem_nil⟩

/-- An image that is mapped in the window, and bytes that are written there. -/
theorem mapped_confined {p' : Phys} (hR : Ready root A s) (hP : P ⊆ windowPages)
    (hp : Placed root P A A' s.phys p') (hw : Wrote root imageWindow { s with phys := p' } s') :
    Confined root s s' :=
  Confined.of_maps hR.space.holds (hw.space hp.space).holds
    (fun pg hpg => hp.other pg fun h => hpg (hP h)) hw.written

theorem Ready.placed {p' : Phys} (hR : Ready root A s) (hP : P ⊆ windowPages)
    (hp : Placed root P A A' s.phys p') : Outside root A' p' windowPages := by
  have hout := hR.outside.placed hp
  rwa [Set.union_eq_self_of_subset_right hP] at hout

/-! ## PEF -/

theorem pefLoadSection_confined (hR : Ready root A s) (hw : InWindow hdr) (src : Option Store) :
    Confined root s (pefLoadSection root hdr src s).2 := by
  cases src with
  | none => exact Confined.refl
  | some src =>
      rcases hmap : mapImage root (PEFCommandHeader.vmAddress.get hdr) (sectionPages hdr) s with
        ⟨_ | _, s₁⟩
      · rw [pefLoadSection_unmapped hmap]
        exact mapImage_failed_confined hR hw.pageCount_le hw.pages hmap
      · obtain ⟨p', A', rfl, hplaced, -⟩ := mapImage_done hR.space hw.pageCount_le hmap
        have hout : Outside root A' p' windowPages := hR.placed hw.pages hplaced
        have hwrote : Wrote root imageWindow { s with phys := p' }
            (copyBytes root (PEFCommandHeader.vmAddress.get hdr) src
              (PEFCommandHeader.offsetSize.get hdr) { s with phys := p' }).2 :=
          (copyBytes_wrote src hplaced.space hout fun va hva =>
            page_of_window (hw.target_subset hva)).mono hw.target_subset
        rcases hcopy : copyBytes root (PEFCommandHeader.vmAddress.get hdr) src
          (PEFCommandHeader.offsetSize.get hdr) { s with phys := p' } with ⟨b, s₂⟩
        rw [hcopy] at hwrote
        rw [pefLoadSection_mapped hw hmap hcopy]
        exact mapped_confined hR hw.pages hplaced hwrote

/-- **Every load of a PEF section is confined.** -/
theorem findSymbol_confined (exec : PEFLoader) (name : List UInt8) (kind : Nat)
    (hR : Ready root A s) : Confined root s (findSymbol root exec name kind s).2 := by
  unfold findSymbol
  cases h : exec.section? name kind with
  | none => exact Confined.refl
  | some hdr => exact pefLoadSection_confined hR (PEFLoader.section_inWindow h) _

/-! ## PE32+ -/

namespace PE32Loader

/-- The pages under an image. -/
def pageSet (exec : PE32Loader) : Set Nat := imagePages exec.imageBase 0 exec.pages

/-- The memory of an image. -/
def imageBytes (exec : PE32Loader) : Set Nat := bytesAt exec.imageBase exec.sizeOfImage

/-- The pages of the image are in the window, and so is every byte that can be written. -/
def StaysInside (exec : PE32Loader) : Prop :=
  exec.pageSet ⊆ windowPages ∧
    ∀ sec ∈ exec.ahead exec.sections, ∀ va, exec.Copies sec va → Canonical va → va ∈ imageWindow

end PE32Loader

/-- **A load of an image that stays inside the window is confined.** -/
theorem loadImage_confined (hR : Ready root A s) (hfresh : exec.fImage = 0)
    (hin : exec.Refused ∨ exec.StaysInside) : Confined root s (loadImage root exec s).2.2 := by
  by_cases href : exec.Refused
  · rw [loadImage_refused hfresh href]
    exact Confined.refl
  · obtain ⟨hP, hbytes⟩ := hin.resolve_left href
    have hn : exec.pages ≤ 2 ^ 36 := exec.pages_le.trans (by decide)
    rcases hmap : mapImage root exec.imageBase exec.pages s with ⟨_ | _, s₁⟩
    · rw [loadImage_unmapped hfresh href hmap]
      exact mapImage_failed_confined hR hn hP hmap
    · obtain ⟨p', A', rfl, hplaced, -⟩ := mapImage_done hR.space hn hmap
      rcases hc : copySections root exec exec.sections { s with phys := p' } with ⟨c, s₂⟩
      have hout : Outside root A' p' windowPages := hR.placed hP hplaced
      have hw : Wrote root imageWindow { s with phys := p' }
          (copySections root exec exec.sections { s with phys := p' }).2 :=
        copySections_wrote hplaced.space hout fun sec hsec va hva hcan =>
          ⟨hbytes sec hsec va hva hcan, page_of_window (hbytes sec hsec va hva hcan)⟩
      rw [hc] at hw
      rw [(loadImage_mapped hfresh href hmap hc).2]
      split
      · obtain ⟨A'', hs'', -, hother, -, hwritten⟩ := unwind_written hR.pool hn hplaced hw
        apply Confined.of_maps hR.space.holds hs''.holds
        · exact fun pg hpg => hother pg fun h => hpg (hP h)
        · rw [hwritten]
          exact hw.written
      · exact mapped_confined hR hP hplaced hw

/-! ### An image that does not stay inside

The other direction needs a state in which such an image does harm: a machine with one page that the
image runs over. -/

/-- There is a machine with frames to give and one page mapped. -/
theorem exists_mapped (hpg : pg < 2 ^ 36) (hn : n < 2 ^ 38) :
    ∃ s f, Space 0x1000 (Function.update (fun _ => none) pg (some f)) s.phys ∧ Pool s ∧
      Frames n s.phys ∧ s.written = [] ∧
      TableFrame f ∧ f ∉ tables s.phys.mem 0x1000 ∧ f ∉ s.phys.answers := by
  have hs := bareMachine_space (n := 3 + n) (by omega)
  have hframes := bareMachine_frames (n := 3 + n)
  have hmany := hframes.many
  have hf : TableFrame ((n + 5) * 4096) := ⟨by omega, by omega, by omega⟩
  have hpage : pageOf (pg * 4096) = pg := by
    rw [pageOf]
    omega
  obtain ⟨p', hmap, hleft⟩ := mmMapPageIn_enough (pg * 4096) kImageFlags hs.holds.shape hs.answers
    (TableFrame.mappable hf) hframes.nonzero (by omega)
  have hg := mmMapPageIn_grown (pg * 4096) ((n + 5) * 4096) kImageFlags hs.holds.shape hs.answers
  have hheld := mmMapPageIn_spec hs.holds hs.answers (by have := hf.bound; omega) hmap
  rw [hmap] at hg
  simp only at hg hheld
  rw [mapSpec_image, hpage] at hheld
  -- the frame lies behind those of the machine
  have hnot : (n + 5) * 4096 ∉ tables (bareMachine (3 + n)).phys.mem 0x1000 := by
    rintro ⟨q, -, ht⟩
    have := (tableAt_zero ht).2
    omega
  have hans : (n + 5) * 4096 ∉ (bareMachine (3 + n)).phys.answers := by
    intro hin
    obtain ⟨k, hk, heq⟩ := mem_frameList.mp hin
    omega
  refine ⟨{ bareMachine (3 + n) with phys := p' }, (n + 5) * 4096, ⟨hheld, hg.fresh⟩, ?_,
    hframes.later hg.toLater hleft, rfl, hf, hg.notMem hnot hans⟩
  intro f hin hf0
  obtain ⟨hbase, hcursor⟩ := bareMachine_pool f (hg.answers f hin) hf0
  exact ⟨hbase, hcursor⟩

/-- An image may be loaded there when the page is not in the window. -/
theorem ready_of_stray (hs : Space root (Function.update (fun _ => none) pg (some f)) s.phys)
    (hpool : Pool s) (hstray : pg ∉ windowPages) :
    Ready root (Function.update (fun _ => none) pg (some f)) s where
  space := hs
  pool := hpool
  outside := by
    intro pg' hpg' g hg
    have hne : pg' ≠ pg := fun heq => hstray (heq ▸ hpg')
    rw [Function.update_of_ne hne] at hg
    cases hg

/-- The page of such a machine leads to no table and no answer. -/
theorem outside_one {p : Phys} (hf : TableFrame f) (hnot : f ∉ tables p.mem root)
    (hans : f ∉ p.answers) :
    Outside root (Function.update (fun _ => none) pg (some f)) p Set.univ := by
  intro pg' _ g hg
  rw [Function.update_apply] at hg
  split at hg
  · obtain rfl : f = g := Option.some.inj hg
    exact ⟨hf, hnot, hans⟩
  · cases hg

/-- Nor do its pages after an image has been mapped. -/
theorem outside_everywhere {P : Set Nat} {p p' : Phys}
    (hp : Placed root P (Function.update (fun _ => none) pg (some f)) A' p p')
    (hf : TableFrame f) (hnot : f ∉ tables p.mem root) (hans : f ∉ p.answers) :
    Outside root A' p' Set.univ := by
  have hout := (outside_one hf hnot hans).placed hp
  rwa [Set.univ_union] at hout

/-- A machine where the pages of an image have been mapped, and the page behind them was there
before. -/
structure Laid (base n : Nat) (A A' : PageMap) (s : Machine) (p' : Phys) : Prop where
  ready : Ready 0x1000 A s
  quiet : s.written = []
  map : mapImage 0x1000 base (pageCount n) s = (true, { s with phys := p' })
  placed : Placed 0x1000 (imagePages base 0 (pageCount n)) A A' s.phys p'
  before : Outside 0x1000 A s.phys Set.univ
  outside : Outside 0x1000 A' p' Set.univ
  mapped : ∀ va ∈ bytesAt base n, A' (pageOf va) ≠ none

theorem exists_laid (base : Nat) (hn : pageCount n ≤ 2 ^ 20) :
    ∃ A A' s p', Laid base n A A' s p' := by
  have hpage : imagePage base (pageCount n) < 2 ^ 36 := by
    rw [imagePage_eq]
    omega
  obtain ⟨s, f, hs, hpool, hframes, hquiet, hf, hnot, hans⟩ :=
    exists_mapped (n := 4 * pageCount n) hpage (by omega)
  obtain ⟨p', hmap, -⟩ := mapImage_enough base hs (by omega) hframes.nonzero hframes.many
  obtain ⟨q, A', hq, hplaced, -⟩ := mapImage_done hs (by omega) hmap
  obtain rfl : p' = q := congrArg Machine.phys hq
  have hbefore : Outside 0x1000
      (Function.update (fun _ => none) (imagePage base (pageCount n)) (some f)) s.phys Set.univ :=
    outside_one hf hnot hans
  refine ⟨_, A', s, p', ⟨hs, hpool, fun pg _ => hbefore pg (Set.mem_univ pg)⟩, hquiet, hmap, hplaced,
    hbefore, outside_everywhere hplaced hf hnot hans, fun va hva => ?_⟩
  by_cases hin : pageOf va ∈ imagePages base 0 (pageCount n)
  · obtain ⟨g, hg, -⟩ := hplaced.page _ hin
    rw [hg]
    exact Option.some_ne_none g
  · rw [hplaced.other _ hin, (page_of_byte hva).resolve_left hin, Function.update_self]
    exact Option.some_ne_none f

/-! ### Where bytes can go -/

/-- The sections that are copied have bytes and fit. -/
theorem PE32Loader.mem_ahead {secs : List Store} (h : sec ∈ exec.ahead secs) :
    ¬ exec.Malformed sec := by
  induction secs with
  | nil => exact absurd h List.not_mem_nil
  | cons sec' secs ih =>
      rw [PE32Loader.ahead] at h
      split at h
      · exact ih h
      · split at h
        · exact absurd h List.not_mem_nil
        · next hfits =>
            rcases List.mem_cons.mp h with rfl | h
            · exact hfits
            · exact ih h

/-- A byte of a section is a byte of the image. -/
theorem PE32Loader.copies_mem (hfits : ¬ exec.Malformed sec) (hva : exec.Copies sec va) :
    va ∈ exec.imageBytes := by
  obtain ⟨-, i, hi, rfl⟩ := hva
  simp only [PE32Loader.Malformed, not_or, not_lt] at hfits
  refine ⟨LDRSectionHeader.virtualAddress.get sec + i, by omega, ?_⟩
  simp only [PE32Loader.byteAddr, PE32Loader.dest, u64]
  omega

/-- An image whose pages are in the window is in one half of the address space or in none. -/
theorem PE32Loader.canonical_iff_low (hP : exec.pageSet ⊆ windowPages) (hva : va ∈ exec.imageBytes) :
    Canonical va ↔ exec.imageBase < 2 ^ 47 := by
  obtain ⟨o, ho, rfl⟩ := hva
  have hbase : exec.imageBase < 256 ^ 8 := Field.get_lt
  have hcount : exec.sizeOfImage ≤ exec.pages * 4096 := (pageCount_spec exec.sizeOfImage).1
  have hpages := exec.pages_le
  have hwindow : ∀ j, j < exec.pages → imagePage exec.imageBase j ∈ windowPages :=
    fun j hj => hP ⟨j, Nat.zero_le j, by omega, rfl⟩
  have hfirst := hwindow 0 (by omega)
  have hlast := hwindow (exec.pages - 1) (by omega)
  rw [imagePage_eq, windowPages, Set.mem_Ico] at hfirst hlast
  simp only [kPefBaseOrigin, kPefMaxImageSz] at hfirst hlast
  rw [u64_of_lt (by omega), Canonical]
  omega

/-- Sections that go to canonical addresses are copied without a fault. -/
theorem Laid.copies {p' : Phys} (h : Laid exec.imageBase exec.sizeOfImage A A' s p')
    (hcan : ∀ sec ∈ exec.ahead exec.sections, ∀ va, exec.Copies sec va → Canonical va) :
    (copySections 0x1000 exec exec.sections { s with phys := p' }).1 ≠ .fault ∧
      Wrote 0x1000 Set.univ { s with phys := p' }
        (copySections 0x1000 exec exec.sections { s with phys := p' }).2 where
  left := copySections_noFault h.placed.space h.outside fun sec hsec va hva =>
    ⟨hcan sec hsec va hva, Set.mem_univ _, h.mapped va (exec.copies_mem (exec.mem_ahead hsec) hva)⟩
  right := copySections_wrote h.placed.space h.outside
    fun _ _ va _ _ => ⟨Set.mem_univ va, Set.mem_univ _⟩

/-! ### What is not confined -/

/-- Every page has an address. -/
theorem exists_canonical (hpg : pg < 2 ^ 36) :
    ∃ va, Canonical va ∧ pageOf va = pg ∧ va % 4096 = 0 := by
  by_cases hlow : pg < 2 ^ 35
  · refine ⟨pg * 4096, .inl (by omega), ?_, Nat.mul_mod_left pg 4096⟩
    rw [pageOf]
    omega
  · refine ⟨2 ^ 64 - 2 ^ 48 + pg * 4096, .inr (by omega), ?_, by omega⟩
    rw [pageOf]
    omega

/-- Where the addresses of a page lead, its frame is. -/
theorem frame_of_translate {B : PageMap} (hs : Holds s.phys.mem root A)
    (hs' : Holds s'.phys.mem root B) (hva : Canonical va)
    (heq : translate s'.phys.mem root va = translate s.phys.mem root va)
    (hf : A (pageOf va) = some f) : B (pageOf va) = some f := by
  rw [translate_eq hs' hva, translate_eq hs hva, PagedMemory.place_of_mapped hf] at heq
  obtain ⟨g, hg, hsum⟩ := Option.map_eq_some_iff.mp heq
  rw [hg, Nat.add_right_cancel hsum]

/-- A load that leaves a page outside the window with another frame is not confined. -/
theorem Confined.frame_eq {B : PageMap} (h : Confined root s s') (hs : Holds s.phys.mem root A)
    (hs' : Holds s'.phys.mem root B) (hpg : pg < 2 ^ 36) (hstray : pg ∉ windowPages)
    (hf : A pg = some f) : B pg = some f := by
  obtain ⟨va, hc, rfl, -⟩ := exists_canonical hpg
  have heq := h.translations va fun hva => hstray (page_of_window hva)
  exact frame_of_translate hs hs' hc heq hf

/-- A page that is not in the window is not in a confined image: the image maps it anew. -/
theorem pages_of_confined (hfresh : exec.fImage = 0) (href : ¬ exec.Refused)
    (h : ∀ root A s, Ready root A s → Confined root s (loadImage root exec s).2.2) :
    exec.pageSet ⊆ windowPages := by
  intro pg hpg
  by_contra hstray
  have hn : exec.pages ≤ 2 ^ 36 := exec.pages_le.trans (by decide)
  have hlt : pg < 2 ^ 36 := by
    obtain ⟨j, -, -, rfl⟩ := hpg
    rw [imagePage_eq]
    exact Nat.mod_lt _ (by decide)
  obtain ⟨s, f, hs, hpool, hframes, -, hf, hnot, hans⟩ :=
    exists_mapped (n := 4 * exec.pages) hlt (by have := exec.pages_le; omega)
  have hconf := h 0x1000 _ s (ready_of_stray hs hpool hstray)
  obtain ⟨p', hmap, -⟩ := mapImage_enough exec.imageBase hs hn hframes.nonzero hframes.many
  obtain ⟨q, A', hq, hplaced, -⟩ := mapImage_done hs hn hmap
  obtain rfl : p' = q := congrArg Machine.phys hq
  -- the page has a frame of its own now, which was an answer
  have hnew : A' pg ≠ some f := by
    obtain ⟨g, hg, hown⟩ := hplaced.page pg hpg
    rw [hg]
    exact fun heq => hans (Option.some.inj heq ▸ hown.answer)
  rcases hc : copySections 0x1000 exec exec.sections { s with phys := p' } with ⟨c, s₂⟩
  have hw : Wrote 0x1000 Set.univ { s with phys := p' }
      (copySections 0x1000 exec exec.sections { s with phys := p' }).2 :=
    copySections_wrote hplaced.space (outside_everywhere hplaced hf hnot hans)
      fun _ _ va _ _ => ⟨Set.mem_univ va, Set.mem_univ _⟩
  rw [hc] at hw
  obtain ⟨B, hB, hchanged⟩ : ∃ B, Holds (loadImage 0x1000 exec s).2.2.phys.mem 0x1000 B ∧
      B pg ≠ some f := by
    rw [(loadImage_mapped hfresh href hmap hc).2]
    split
    · obtain ⟨A'', hs'', hnone, -⟩ := unwind_written hpool hn hplaced hw
      refine ⟨A'', hs''.holds, ?_⟩
      rw [hnone pg hpg]
      exact (Option.some_ne_none f).symm
    · exact ⟨A', (hw.space hplaced.space).holds, hnew⟩
  exact hchanged (hconf.frame_eq hs.holds hB hlt hstray (Function.update_self _ _ _))

/-- A byte that can be written is in the window: were it not, it would be written to the page behind
the image. -/
theorem bytes_of_confined (hfresh : exec.fImage = 0) (href : ¬ exec.Refused)
    (hP : exec.pageSet ⊆ windowPages)
    (h : ∀ root A s, Ready root A s → Confined root s (loadImage root exec s).2.2) :
    ∀ sec ∈ exec.ahead exec.sections, ∀ va, exec.Copies sec va → Canonical va →
      va ∈ imageWindow := by
  intro sec hsec va hva hc
  by_contra hstray
  have hn : exec.pages ≤ 2 ^ 36 := exec.pages_le.trans (by decide)
  have hlow := (exec.canonical_iff_low hP (exec.copies_mem (exec.mem_ahead hsec) hva)).mp hc
  obtain ⟨A, A', s, p', hlaid⟩ := exists_laid exec.imageBase exec.pages_le
  -- all bytes of the sections go where this one goes: to canonical addresses
  obtain ⟨hrun, hw⟩ := hlaid.copies fun sec' hsec' va' hva' =>
    (exec.canonical_iff_low hP (exec.copies_mem (exec.mem_ahead hsec') hva')).mpr hlow
  obtain ⟨-, -, hcopies⟩ := copySections_end hrun
  have hwritten := (hcopies sec hsec va hva).2
  rcases hcs : copySections 0x1000 exec exec.sections { s with phys := p' } with ⟨c, s₂⟩
  rw [hcs] at hw hwritten
  obtain ⟨l, hl, hin⟩ := (h 0x1000 A s hlaid.ready).writes
  have hlogged : va ∈ (loadImage 0x1000 exec s).2.2.written := by
    rw [(loadImage_mapped hfresh href hlaid.map hcs).2]
    split
    · obtain ⟨-, -, -, -, -, hsame⟩ := unwind_written hlaid.ready.pool hn hlaid.placed hw
      rw [hsame]
      exact hwritten
    · exact hwritten
  rw [hl, hlaid.quiet, List.append_nil] at hlogged
  exact hstray (hin va hlogged)

/-- **Confinement.** Loading a blob is confined, as a PEF image and as a PE32+ image and in every
state, exactly when the PE32+ loader refuses it before it maps anything or the image stays inside
the window. -/
theorem confined_iff_staysInside (blob : Store) (len : Nat) :
    (∀ root A s, Ready root A s →
      (∀ name kind, Confined root s (findSymbol root (pefLoader blob len) name kind s).2) ∧
      Confined root s (loadImage root (pe32Loader blob len) s).2.2) ↔
    (pe32Loader blob len).Refused ∨ (pe32Loader blob len).StaysInside := by
  constructor
  · intro h
    by_cases href : (pe32Loader blob len).Refused
    · exact .inl href
    · have hload := fun root A s hR => (h root A s hR).2
      have hP := pages_of_confined rfl href hload
      exact .inr ⟨hP, bytes_of_confined rfl href hP hload⟩
  · intro hin root A s hR
    exact ⟨fun name kind => findSymbol_confined _ name kind hR, loadImage_confined hR rfl hin⟩

/-! ### An image over the kernel -/

/-- An image of one page, with one section header that has no bytes. -/
def sampleExec (imageBase : Nat) : PE32Loader :=
  pe32Loader (blit (blit (fun i => [kMagMz0, kMagMz1].getD i 0)
    128 24 (LDRExecHeader.machine.set kPeMachineAMD64 <|
      LDRExecHeader.numberOfSections.set 1 <| LDRExecHeader.sizeOfOptionalHeader.set 96 zeros))
    152 96 (LDROptionalHeader.imageBase.set imageBase <|
      LDROptionalHeader.sizeOfImage.set 0x1000 <|
      LDROptionalHeader.subsystem.set kNeKernelPESubsystem zeros)) 288

/-- An image at 1 MiB takes the page there away. -/
theorem image_over_kernel : ∃ root A s, Ready root A s ∧
    ¬ Confined root s (loadImage root (sampleExec 0x100000) s).2.2 := by
  by_contra hno
  have h : ∀ root A s, Ready root A s →
      Confined root s (loadImage root (sampleExec 0x100000) s).2.2 :=
    fun root A s hR => by_contra fun hconf => hno ⟨root, A, s, hR, hconf⟩
  have href : ¬ (sampleExec 0x100000).Refused := by decide +kernel
  have hpages : (sampleExec 0x100000).pages = 1 := rfl
  have hbase : (sampleExec 0x100000).imageBase = 0x100000 := rfl
  have hin := pages_of_confined rfl href h ⟨0, Nat.zero_le 0, by rw [hpages]; decide, rfl⟩
  rw [hbase, imagePage_eq, windowPages, Set.mem_Ico] at hin
  exact absurd hin.1 (by decide)

end NeKernel.KernelKit
