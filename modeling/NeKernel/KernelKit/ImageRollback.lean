import NeKernel.KernelKit.ImageWindow

/-!
# Loads that fail

A load that fails unmaps the pages it has mapped and gives their frames back. It does not map again
what was there before. So a failed load leaves every translation as it was exactly when the pages it
can have taken away were free before (`restores_iff`): all but the last one where a frame can run
out, and all of them where a malformed section is found behind the mapping loop. The frames are
never lost.
-/

namespace NeKernel.KernelKit

open ByteStore HALKit

variable {A A' : PageMap} {P V W : Set Nat} {root base n i pg f : Nat} {m : Store}
  {p p' : Phys} {s s' s₁ : Machine} {hdr : Store} {exec : PE32Loader}

/-! ## Failures -/

/-- The call returned an error. -/
def Failed (o : Outcome) : Prop := ∃ code value, o = .returned code value ∧ code ≠ kErrorSuccess

theorem failed_outOfMemory : Failed (.returned kErrorHeapOutOfMemory 0) :=
  ⟨_, _, rfl, by decide⟩

theorem failed_invalidData : Failed (.returned kErrorInvalidData 0) := ⟨_, _, rfl, by decide⟩

theorem not_failed_success (value : Nat) : ¬ Failed (.returned kErrorSuccess value) := by
  rintro ⟨code, value', heq, hne⟩
  cases heq
  exact hne rfl

theorem not_failed_fault : ¬ Failed .fault := by
  rintro ⟨code, value, heq, -⟩
  cases heq

/-- Between `s` and `s'` no translation has changed, and no frame is lost. -/
structure Restored (root : Nat) (s s' : Machine) : Prop where
  translations : ∀ va, translate s'.phys.mem root va = translate s.phys.mem root va
  frames : AllReturned root s s'

/-- From the tables in `m`, whatever frames the allocator has and wherever it runs out, a call that
fails restores the state. -/
def Restores (root : Nat) (m : Store) (call : Machine → Outcome × Machine) : Prop :=
  ∀ s, s.phys.mem = m → FreshAnswers m root s.phys.answers → Pool s → Failed (call s).1 →
    Restored root s (call s).2

theorem Restored.refl : Restored root s s :=
  ⟨fun _ => rfl, [], [], rfl, rfl, fun _ h => absurd h List.not_mem_nil⟩

/-- Equal maps translate alike. -/
theorem Restored.of_maps (hs : Holds s.phys.mem root A) (hs' : Holds s'.phys.mem root A')
    (hA : ∀ pg, A' pg = A pg) (hall : AllReturned root s s') : Restored root s s' where
  translations := by
    intro va
    have hsame : A' (pageOf va) = A (pageOf va) := hA _
    unfold translate
    split
    · rw [hs'.pages, hs.pages, hsame]
    · rfl
  frames := hall

/-- A restored state has the page where it was. -/
theorem Restored.frame_eq {B : PageMap} (h : Restored root s s') (hs : Holds s.phys.mem root A)
    (hs' : Holds s'.phys.mem root B) (hpg : pg < 2 ^ 36) (hf : A pg = some f) : B pg = some f := by
  obtain ⟨va, hc, rfl, -⟩ := exists_canonical hpg
  exact frame_of_translate hs hs' hc (h.translations va) hf

/-! ## Where the frames run out -/

/-- The frames in front of others are fresh like them. -/
theorem freshAnswers_front {l l' : List Nat} (h : FreshAnswers m root (l ++ l')) :
    FreshAnswers m root l :=
  ⟨fun f hf => h.fresh f (List.mem_append_left l' hf), (List.pairwise_append.mp h.once).1⟩

/-- A machine with some frames to give, all of which it takes back. -/
def machineWith (m : Store) (l : List Nat) : Machine := ⟨⟨m, l⟩, 0, 0, l.sum + 1, [], []⟩

theorem machineWith_pool (l : List Nat) : Pool (machineWith m l) :=
  fun _ hf _ => ⟨Nat.zero_le _, Nat.lt_succ_of_le (List.single_le_sum (by simp) _ hf)⟩

/-- **The frames can run out** behind any page but the last: that page is then unmapped. -/
theorem mapImage_runsOut (base : Nat) (hh : Holds m root A) (hn : n ≤ 2 ^ 32) (hi : i + 1 < n) :
    ∃ s s' A', s.phys.mem = m ∧ FreshAnswers m root s.phys.answers ∧ Pool s ∧
      mapImage root base n s = (false, s') ∧ Holds s'.phys.mem root A' ∧
      A' (imagePage base i) = none := by
  obtain ⟨L, hlen, hfresh, hL⟩ := exists_freshAnswers m root ∅ (n := 4 * (i + 1))
    (by rw [Finset.card_empty]; omega)
  have hs : Space root A ⟨m, L⟩ := ⟨hh, hfresh⟩
  obtain ⟨p₁, hmap, -⟩ := mapPages_enough base (i := 0) (n := i + 1) hs (by omega)
    (fun f hf => (hL f hf).1) (by rw [hlen])
  obtain ⟨used, hused, hcall⟩ := mapPages_uses base (i := 0) hs (by omega) p₁ hmap
  have hfront : FreshAnswers m root used := by
    rw [show L = used ++ p₁.answers from hused] at hfresh
    exact freshAnswers_front hfresh
  have hrun := hcall []
  rw [List.append_nil] at hrun
  -- the run is stuck at the next page, without a frame
  have hstuck : mapPages root base n 0 ⟨m, used⟩ = (.stuck (i + 1) 0, ⟨p₁.mem, []⟩) := by
    obtain ⟨k, rfl⟩ : ∃ k, n = i + 1 + (k + 1) := ⟨n - i - 2, by omega⟩
    rw [mapPages_add (k + 1) hrun, Nat.zero_add]
    rfl
  have hs₀ : Space root A (machineWith m used).phys := ⟨hh, hfront⟩
  obtain ⟨A₁, hplaced, -⟩ := mapPages_done hs₀ (by omega) hrun
  have hrefl : Later root ⟨p₁.mem, []⟩
      { machineWith m used with phys := ⟨p₁.mem, []⟩ }.phys := Later.refl
  obtain ⟨A', hs', hnone, -, -⟩ := hplaced.unwind hrefl hplaced.space (by omega)
    (machineWith_pool used) fun _ => Iff.rfl
  refine ⟨machineWith m used, _, A', rfl, hfront, machineWith_pool used, ?_, hs'.holds,
    hnone _ ⟨i, Nat.zero_le i, by omega, rfl⟩⟩
  simp only [mapImage, machineWith, hstuck, freeFrame_zero]

/-! ## Unwinding -/

/-- The pages of an image but the last one are free. -/
def FreeButLast (A : PageMap) (base n : Nat) : Prop :=
  ∀ i, i + 1 < n → A (imagePage base i) = none

/-- An image that cannot be mapped is taken back when its pages but the last one were free. -/
theorem mapImage_restored (hs : Space root A s.phys) (hpool : Pool s) (hn : n ≤ 2 ^ 32)
    (hfree : FreeButLast A base n) (hr : mapImage root base n s = (false, s')) :
    Restored root s s' := by
  obtain ⟨k, A', hk, hs', hnone, hother, hall, -, -⟩ :=
    mapImage_failed hs hpool (by omega) hr
  apply Restored.of_maps hs.holds hs'.holds _ hall
  intro pg
  by_cases hpg : pg ∈ imagePages base 0 k
  · rw [hnone pg hpg]
    obtain ⟨j, -, hj, rfl⟩ := hpg
    exact (hfree j (by omega)).symm
  · exact hother pg hpg

/-- A loader that fails when its image cannot be mapped, and then restores the state, finds the pages
but the last one free. -/
theorem freeButLast_of_restores {call : Machine → Outcome × Machine} (hh : Holds m root A)
    (hn : n ≤ 2 ^ 32) (h : Restores root m call)
    (hcall : ∀ s s', mapImage root base n s = (false, s') → Failed (call s).1 ∧ (call s).2 = s') :
    FreeButLast A base n := by
  intro i hi
  obtain ⟨s, s', A', hm, hfresh, hpool, hmap, hh', hnone⟩ := mapImage_runsOut base hh hn hi
  obtain ⟨hfail, heq⟩ := hcall s s' hmap
  have hrest := h s hm hfresh hpool hfail
  rw [heq] at hrest
  cases hf : A (imagePage base i) with
  | none => rfl
  | some f =>
      rw [← hm] at hh
      have hlt : imagePage base i < 2 ^ 36 := pageOf_lt _
      have hkept := hrest.frame_eq hh hh' hlt hf
      rw [hnone] at hkept
      cases hkept

/-- **A PEF section** is taken back, wherever the frames run out, exactly when there is nothing to
load or its pages but the last one were free. -/
theorem pefLoadSection_restores_iff (hh : Holds m root A) (hw : InWindow hdr) (src : Option Store) :
    Restores root m (pefLoadSection root hdr src) ↔
      src = none ∨ FreeButLast A (PEFCommandHeader.vmAddress.get hdr) (sectionPages hdr) := by
  have hn : sectionPages hdr ≤ 2 ^ 32 := by
    have hfin := hw.fin
    have hcount := (pageCount_spec (PEFCommandHeader.vmSize.get hdr)).2
    rw [sectionPages]
    simp only [kPefBaseOrigin, kPefMaxImageSz] at hfin
    omega
  cases src with
  | none =>
      refine iff_of_true (fun s _ _ _ _ => ?_) (.inl rfl)
      exact Restored.refl
  | some src =>
      constructor
      · intro h
        refine .inr (freeButLast_of_restores hh hn h fun s s' hmap => ?_)
        rw [pefLoadSection_unmapped hmap]
        exact ⟨failed_outOfMemory, rfl⟩
      · intro hfree s hm hfresh hpool hfail
        have hs : Space root A s.phys := ⟨hm ▸ hh, hm ▸ hfresh⟩
        rcases hmap : mapImage root (PEFCommandHeader.vmAddress.get hdr) (sectionPages hdr) s with
          ⟨_ | _, s₁⟩
        · rw [pefLoadSection_unmapped hmap]
          exact mapImage_restored hs hpool hn (hfree.resolve_left fun h => by cases h) hmap
        · -- a section that is mapped does not fail
          rcases hcopy : copyBytes root (PEFCommandHeader.vmAddress.get hdr) src
            (PEFCommandHeader.offsetSize.get hdr) s₁ with ⟨_ | _, s₂⟩
          · rw [pefLoadSection_fault hw hmap hcopy] at hfail
            exact absurd hfail not_failed_fault
          · rw [pefLoadSection_copied hw hmap hcopy] at hfail
            exact absurd hfail (not_failed_success _)

/-! ## PE32+ -/

/-- `LoadImage` as a call on the machine. -/
def loadCall (root : Nat) (exec : PE32Loader) (s : Machine) : Outcome × Machine :=
  ((loadImage root exec s).1, (loadImage root exec s).2.2)

namespace PE32Loader

/-- The bytes that are copied stay on the pages of the image. -/
def OnImage (exec : PE32Loader) : Prop :=
  ∀ sec ∈ exec.ahead exec.sections, ∀ va, exec.Copies sec va → Canonical va →
    pageOf va ∈ exec.pageSet

/-- Every byte that is copied goes to a page of the image or to one that was mapped before. -/
def AllMapped (exec : PE32Loader) (A : PageMap) : Prop :=
  ∀ sec ∈ exec.ahead exec.sections, ∀ va, exec.Copies sec va →
    Canonical va ∧ (pageOf va ∈ exec.pageSet ∨ A (pageOf va) ≠ none)

/-- When a load can be taken back: it is refused, or the pages but the last one are free, and all of
them are where the load comes to a malformed section. -/
def TakenBack (exec : PE32Loader) (A : PageMap) : Prop :=
  exec.Refused ∨ FreeButLast A exec.imageBase exec.pages ∧
    (exec.EndsMalformed exec.sections → exec.AllMapped A →
      exec.OnImage ∧ ∀ pg ∈ exec.pageSet, A pg = none)

end PE32Loader

/-- The bytes of an image are on its pages and on the one behind them. -/
theorem PE32Loader.page_or_behind {sec : Store} {va : Nat} (hfits : ¬ exec.Malformed sec)
    (hva : exec.Copies sec va) :
    pageOf va ∈ exec.pageSet ∨ pageOf va = imagePage exec.imageBase exec.pages := by
  obtain ⟨o, ho, rfl⟩ := exec.copies_mem hfits hva
  have hcount : exec.sizeOfImage ≤ exec.pages * 4096 := (pageCount_spec exec.sizeOfImage).1
  have hpage : pageOf (u64 (exec.imageBase + o)) =
      imagePage exec.imageBase ((exec.imageBase % 4096 + o) / 4096) := by
    rw [imagePage_eq, pageOf, u64]
    omega
  by_cases hj : (exec.imageBase % 4096 + o) / 4096 < exec.pages
  · exact .inl ⟨_, Nat.zero_le _, by omega, hpage⟩
  · right
    rw [hpage, show (exec.imageBase % 4096 + o) / 4096 = exec.pages by omega]

/-- Copies on the pages of an image write to frames of its own. -/
theorem copySections_onImage {p' : Phys} (hon : exec.OnImage)
    (hplaced : Placed root exec.pageSet A A' s.phys p') :
    Outside root A' p' exec.pageSet ∧
      Wrote root Set.univ { s with phys := p' }
        (copySections root exec exec.sections { s with phys := p' }).2 := by
  have hnone : Outside root A s.phys ∅ := fun _ h => absurd h (Set.notMem_empty _)
  have hout := hnone.placed hplaced
  rw [Set.empty_union] at hout
  refine ⟨hout, copySections_wrote hplaced.space hout fun sec hsec va hva hc => ?_⟩
  exact ⟨Set.mem_univ va, hon sec hsec va hva hc⟩

/-- A loop that does not fault has written to the page behind the image only if that was mapped. -/
theorem behind_mapped {p' : Phys} {sec : Store} {va : Nat}
    (hplaced : Placed root exec.pageSet A A' s.phys p')
    (hrun : (copySections root exec exec.sections { s with phys := p' }).1 ≠ .fault)
    (hsec : sec ∈ exec.ahead exec.sections) (hva : exec.Copies sec va)
    (hbehind : pageOf va = imagePage exec.imageBase exec.pages) : A (pageOf va) ≠ none := by
  intro hfree
  have hpages := exec.pages_le
  have hnotin : pageOf va ∉ exec.pageSet := by
    rw [hbehind]
    rintro ⟨j, -, hj, heq⟩
    have := imagePage_inj (by omega) (by omega) heq
    omega
  have hunmapped : A' (pageOf va) = none := (hplaced.other _ hnotin).trans hfree
  -- as long as that page is not mapped, nothing but frames of the image is written
  have hnone : Outside root A s.phys ∅ := fun _ h => absurd h (Set.notMem_empty _)
  have hout : Outside root A' p' (exec.pageSet ∪ {pageOf va}) := by
    intro pg hpg f hf
    rcases hpg with hpg | hpg
    · exact hnone.placed hplaced pg (.inr hpg) f hf
    · rw [Set.mem_singleton_iff.mp hpg, hunmapped] at hf
      cases hf
  have hvisited := copySections_visited (s := { s with phys := p' }) hplaced.space hout
    (fun sec' hsec' va' hva' _ => by
      rcases exec.page_or_behind (exec.mem_ahead hsec') hva' with hin | hbeh
      · exact .inl hin
      · exact .inr (hbeh.trans hbehind.symm)) hrun
  exact hvisited sec hsec va hva hunmapped

/-- **A PE32+ image that can be taken back** is taken back, wherever the load fails. -/
theorem loadImage_restores (hh : Holds m root A) (hfresh : exec.fImage = 0)
    (hback : exec.TakenBack A) : Restores root m (loadCall root exec) := by
  intro s hm hanswers hpool hfail
  have hs : Space root A s.phys := ⟨hm ▸ hh, hm ▸ hanswers⟩
  have hpages := exec.pages_le
  by_cases href : exec.Refused
  · rw [loadCall, loadImage_refused hfresh href]
    exact Restored.refl
  · obtain ⟨hfree, hbad⟩ := hback.resolve_left href
    rcases hmap : mapImage root exec.imageBase exec.pages s with ⟨_ | _, s₁⟩
    · rw [loadCall, loadImage_unmapped hfresh href hmap]
      exact mapImage_restored hs hpool (by omega) hfree hmap
    · obtain ⟨p', A', rfl, hplaced, -⟩ := mapImage_done hs (by omega) hmap
      rcases hc : copySections root exec exec.sections { s with phys := p' } with ⟨c, s₂⟩
      obtain ⟨hout, hend⟩ := loadImage_mapped hfresh href hmap hc
      rw [loadCall] at hfail ⊢
      simp only [hout] at hfail
      rw [hend]
      -- only a malformed section is a failure here
      cases c with
      | done => exact absurd hfail (not_failed_success _)
      | fault => exact absurd hfail not_failed_fault
      | malformed =>
          have hrun : (copySections root exec exec.sections { s with phys := p' }).1 ≠ .fault := by
            rw [hc]
            exact fun h => by cases h
          obtain ⟨hmal, -, hcopies⟩ := copySections_end hrun
          rw [hc] at hmal
          have hall : exec.AllMapped A := by
            intro sec hsec va hva
            refine ⟨(hcopies sec hsec va hva).1, ?_⟩
            rcases exec.page_or_behind (exec.mem_ahead hsec) hva with hin | hbehind
            · exact .inl hin
            · exact .inr (behind_mapped hplaced hrun hsec hva hbehind)
          obtain ⟨hon, hclear⟩ := hbad (hmal.mp rfl) hall
          obtain ⟨-, hw⟩ := copySections_onImage hon hplaced
          rw [hc] at hw
          obtain ⟨A'', hs'', hgone, hother, hall, -⟩ :=
            unwind_written hpool (by omega) hplaced hw
          rw [if_pos rfl]
          apply Restored.of_maps hs.holds hs''.holds _ hall
          intro pg
          by_cases hpg : pg ∈ exec.pageSet
          · rw [hgone pg hpg, hclear pg hpg]
          · exact hother pg hpg

/-- An image that is taken back can be, unless its bytes go to a page behind it that was mapped. -/
theorem takenBack_of_restores (hh : Holds m root A) (hfresh : exec.fImage = 0)
    (hspill : exec.AllMapped A → exec.OnImage) (h : Restores root m (loadCall root exec)) :
    exec.TakenBack A := by
  by_cases href : exec.Refused
  · exact .inl href
  · have hpages := exec.pages_le
    refine .inr ⟨freeButLast_of_restores hh (by omega) h fun s s' hmap => ?_,
      fun hmal hall => ⟨hspill hall, fun pg hpg => ?_⟩⟩
    · rw [loadCall, loadImage_unmapped hfresh href hmap]
      exact ⟨failed_outOfMemory, rfl⟩
    · have hon := hspill hall
      -- with frames for all pages the load comes to the malformed section
      obtain ⟨L, hlen, hanswers, hL⟩ := exists_freshAnswers m root ∅ (n := 4 * exec.pages)
        (by rw [Finset.card_empty]; omega)
      have hs : Space root A (machineWith m L).phys := ⟨hh, hanswers⟩
      obtain ⟨p', hmap, -⟩ := mapImage_enough (s := machineWith m L) (n := exec.pages)
        exec.imageBase hs (by omega) (fun f hf => (hL f hf).1) (by rw [← hlen]; exact Nat.le_refl _)
      obtain ⟨q, A', hq, hplaced, -⟩ := mapImage_done hs (by omega) hmap
      obtain rfl : p' = q := congrArg Machine.phys hq
      obtain ⟨hout, hw⟩ := copySections_onImage hon hplaced
      have hrun := copySections_noFault (s := { machineWith m L with phys := p' }) hplaced.space
        hout fun sec hsec va hva => by
          have hcan := (hall sec hsec va hva).1
          have hin := hon sec hsec va hva hcan
          obtain ⟨g, hg, -⟩ := hplaced.page _ hin
          exact ⟨hcan, hin, fun hno => by rw [hno] at hg; cases hg⟩
      have hend := (copySections_end hrun).1.mpr hmal
      rcases hc : copySections root exec exec.sections { machineWith m L with phys := p' } with
        ⟨c, s₂⟩
      rw [hc] at hend hw
      simp only at hend
      subst hend
      obtain ⟨hres, hfin⟩ := loadImage_mapped hfresh href hmap hc
      have hrest := h (machineWith m L) rfl hanswers (machineWith_pool L) (by
        rw [loadCall, hres]
        exact failed_invalidData)
      obtain ⟨A'', hs'', hgone, -⟩ := unwind_written (machineWith_pool L) (by omega) hplaced hw
      rw [loadCall, hfin, if_pos rfl] at hrest
      cases hf : A pg with
      | none => rfl
      | some f =>
          have hlt : pg < 2 ^ 36 := by
            obtain ⟨j, -, -, rfl⟩ := hpg
            exact pageOf_lt _
          have hkept := hrest.frame_eq hs.holds hs''.holds hlt hf
          rw [hgone pg hpg] at hkept
          cases hkept

/-- **Loads that fail restore the state**, whatever frames there are and wherever they run out: a
PEF section exactly when it has no source or its pages but the last one were free before; a PE32+
image if it can be taken back, and only if, unless its bytes go to a page behind it that was mapped
before. -/
theorem restores_iff (hh : Holds m root A) :
    (∀ (exec : PEFLoader) name kind hdr, exec.section? name kind = some hdr →
      (Restores root m (pefLoadSection root hdr (exec.source hdr)) ↔
        exec.source hdr = none ∨
          FreeButLast A (PEFCommandHeader.vmAddress.get hdr) (sectionPages hdr))) ∧
    ∀ blob len,
      ((pe32Loader blob len).TakenBack A → Restores root m (loadCall root (pe32Loader blob len))) ∧
      (((pe32Loader blob len).AllMapped A → (pe32Loader blob len).OnImage) →
        Restores root m (loadCall root (pe32Loader blob len)) →
        (pe32Loader blob len).TakenBack A) := by
  refine ⟨fun exec name kind hdr hsect => ?_, fun blob len => ⟨?_, ?_⟩⟩
  · exact pefLoadSection_restores_iff hh (PEFLoader.section_inWindow hsect) _
  · exact loadImage_restores hh rfl
  · exact takenBack_of_restores hh rfl

/-- From empty tables. -/
theorem restores_iff_bare :
    (∀ (exec : PEFLoader) name kind hdr, exec.section? name kind = some hdr →
      (Restores 0x1000 (bareMachine 0).phys.mem (pefLoadSection 0x1000 hdr (exec.source hdr)) ↔
        exec.source hdr = none ∨ FreeButLast (fun _ => none) (PEFCommandHeader.vmAddress.get hdr)
          (sectionPages hdr))) ∧
    ∀ blob len,
      ((pe32Loader blob len).TakenBack (fun _ => none) →
        Restores 0x1000 (bareMachine 0).phys.mem (loadCall 0x1000 (pe32Loader blob len))) ∧
      (((pe32Loader blob len).AllMapped (fun _ => none) → (pe32Loader blob len).OnImage) →
        Restores 0x1000 (bareMachine 0).phys.mem (loadCall 0x1000 (pe32Loader blob len)) →
        (pe32Loader blob len).TakenBack fun _ => none) :=
  restores_iff (bareMachine_space (by decide)).holds

/-! ## A page that is lost -/

/-- An image whose start section has two pages at `0x40000000`. -/
def sampleTwoPages : PEFLoader :=
  pefLoader (blit sampleContainer 64 304 <| PEFCommandHeader.vmSize.set 0x2000 <|
    sampleHeader (kCodePrefix ++ kPefStart) kPefCode 976 0x40000000) 979

/-- A start section of two pages, the first of which was mapped: a load that gets one frame less than
it needs takes the page away. -/
theorem failed_load_unmaps : ∃ m A hdr, Holds m 0x1000 A ∧
    sampleTwoPages.section? kPefStart kPefCode = some hdr ∧
    ¬ Restores 0x1000 m (pefLoadSection 0x1000 hdr (sampleTwoPages.source hdr)) := by
  obtain ⟨s, f, hs, -⟩ := exists_mapped (n := 0) (show 0x40000 < 2 ^ 36 by decide) (by decide)
  have hsect : sampleTwoPages.section? kPefStart kPefCode =
      some (headerAt sampleTwoPages.blob 0) := rfl
  have hpages : sectionPages (headerAt sampleTwoPages.blob 0) = 2 := rfl
  have hbase : PEFCommandHeader.vmAddress.get (headerAt sampleTwoPages.blob 0) = 0x40000000 := rfl
  have hsize : PEFCommandHeader.offsetSize.get (headerAt sampleTwoPages.blob 0) = 1 := rfl
  refine ⟨s.phys.mem, _, _, hs.holds, hsect, ?_⟩
  rw [pefLoadSection_restores_iff hs.holds (PEFLoader.section_inWindow hsect),
    PEFLoader.source, hsize, if_pos Nat.one_pos, hbase, hpages]
  rintro (h | h)
  · cases h
  · have hfree := h 0 (by decide)
    rw [imagePage_eq, show (0x40000000 / 4096 + 0) % 2 ^ 36 = 0x40000 from rfl,
      Function.update_self] at hfree
    cases hfree

end NeKernel.KernelKit
