import NeKernel.HALKit.FrameUse
import Mathlib.Data.Set.Lattice
import Mathlib.Order.CompletePartialOrder

/-!
# Pages under an image

What the loaders of executables do to the address space: map a run of pages, a fresh frame under
each; give the frames back and unmap the pages when one of them fails; and copy bytes through the
mapping. Both loaders share these steps.

Two pictures go with them. `Placed` says that a set of pages got frames of their own and that all
other pages, tables and frames are as they were; unmapping such a set clears its pages, hands back
their frames and keeps everything else (`ldrUnmapPages_spec`).

A blob is memory of the kernel that no image is mapped over. Permissions are not modelled: the
kernel writes wherever a page is mapped.
-/

namespace NeKernel.KernelKit

open ByteStore HALKit

/-! ## The machine -/

/-- Physical memory with the answers of the allocator, the head of its free list, the range of frames
it takes back, the frames it has been given back and the addresses written through. -/
structure Machine where
  phys : Phys
  kPmmFreeHead : Nat
  kPmmBase : Nat
  kPmmCursor : Nat
  freed : List Nat
  written : List Nat

/-- `pmmi_free_frame`. -/
def pmmiFreeFrame (s : Machine) (frame : Nat) : Machine :=
  if frame = 0 ∨ pageOffset frame ≠ 0 ∨ frame < s.kPmmBase ∨ frame ≥ s.kPmmCursor then s
  else
    { s with
      phys := ⟨putLE s.phys.mem frame 8 s.kPmmFreeHead, s.phys.answers⟩
      kPmmFreeHead := frame
      freed := frame :: s.freed }

/-- The addresses the processor takes: the upper bits repeat bit 47. -/
def Canonical (va : Nat) : Prop := va < 2 ^ 47 ∨ 2 ^ 64 - 2 ^ 47 ≤ va ∧ va < 2 ^ 64

instance (va : Nat) : Decidable (Canonical va) := inferInstanceAs (Decidable (_ ∨ _))

/-- Where the processor finds the byte at an address; `none` is a fault. -/
def translate (m : Store) (root va : Nat) : Option Nat :=
  if Canonical va then (resolve m root (pageIdx va)).map fun f => f + va % 4096 else none

/-- A store of one byte; `false` is a fault. -/
def storeByte (root : Nat) (s : Machine) (va : Nat) (b : UInt8) : Bool × Machine :=
  match translate s.phys.mem root va with
  | none => (false, s)
  | some a =>
      (true, { s with
        phys := ⟨Function.update s.phys.mem a b, s.phys.answers⟩
        written := va :: s.written })

/-- The copy loop of `rt_copy_memory_safe`, first byte first; it ends at a fault. -/
def copyBytes (root dst : Nat) (src : Store) : Nat → Machine → Bool × Machine
  | 0, s => (true, s)
  | n + 1, s =>
    let r := copyBytes root dst src n s
    if r.1 = false then r else storeByte root r.2 (u64 (dst + n)) (src n)

/-- `rt_copy_memory_safe` from a source that is there. -/
def rtCopyMemorySafe (root : Nat) (s : Machine) (src : Store) (dst len dstSize : Nat) :
    Bool × Machine :=
  if dst = 0 ∨ len > dstSize then
    if dst ≠ 0 ∧ dstSize ≠ 0 then copyBytes root dst zeros dstSize s else (true, s)
  else copyBytes root dst src len s

/-! ## Mapping and unmapping -/

/-- `kMMFlagsPresent | kMMFlagsWr | kMMFlagsUser`. -/
def kImageFlags : Nat := kMMFlagsPresent ||| kMMFlagsWr ||| kMMFlagsUser

/-- How the mapping loop ends: all pages are mapped, or it is stuck at one, with a frame in hand. -/
inductive MapEnd where
  | done
  | stuck (i frame : Nat)

/-- The mapping loop of both loaders, from page `i` on. -/
def mapPages (root base : Nat) : Nat → Nat → Phys → MapEnd × Phys
  | 0, _, p => (.done, p)
  | n + 1, i, p =>
    let r := nextFrame p
    if r.1 = 0 then (.stuck i 0, r.2)
    else
      let m := mmMapPageIn r.2 root (u64 (base + i * kPageSize)) r.1 kImageFlags
      if m.1 ≠ kErrorSuccess then (.stuck i r.1, m.2) else mapPages root base n (i + 1) m.2

/-- `ldr_unmap_pages`. -/
def ldrUnmapPages (root base : Nat) : Nat → Machine → Machine
  | 0, s => s
  | n + 1, s =>
    let r := mmUnmapPage s.phys root (u64 (base + n * kPageSize))
    ldrUnmapPages root base n (pmmiFreeFrame { s with phys := r.2 } r.1)

/-- The mapping of an image of both loaders, with its unwinding; `false` on failure. -/
def mapImage (root base pages : Nat) (s : Machine) : Bool × Machine :=
  match mapPages root base pages 0 s.phys with
  | (.done, p) => (true, { s with phys := p })
  | (.stuck i frame, p) =>
      (false, ldrUnmapPages root base i (pmmiFreeFrame { s with phys := p } frame))

/-- The pages that hold `n` bytes, as both loaders count them. -/
def pageCount (n : Nat) : Nat := n / kPageSize + if n % kPageSize ≠ 0 then 1 else 0

/-- How a loader's call ends. -/
inductive Outcome where
  | returned (code : Int) (value : Nat)
  | fault
deriving DecidableEq

/-! ## Pages -/

theorem pageCount_spec (n : Nat) : n ≤ pageCount n * 4096 ∧ pageCount n * 4096 < n + 4096 := by
  by_cases h : n % kPageSize = 0
  · rw [pageCount, if_neg (not_not.mpr h)]
    simp only [kPageSize] at *
    omega
  · rw [pageCount, if_pos h]
    simp only [kPageSize] at *
    omega

/-- The number of the `j`-th page of an image. -/
def imagePage (base j : Nat) : Nat := pageOf (u64 (base + j * kPageSize))

/-- The pages `i`, …, `i + n - 1` of an image. -/
def imagePages (base i n : Nat) : Set Nat := {pg | ∃ j, i ≤ j ∧ j < i + n ∧ pg = imagePage base j}

theorem imagePage_eq (base j : Nat) : imagePage base j = (base / 4096 + j) % 2 ^ 36 := by
  simp only [imagePage, pageOf, u64, kPageSize]
  omega

theorem imagePage_inj {base j k : Nat} (hj : j < 2 ^ 36) (hk : k < 2 ^ 36)
    (h : imagePage base j = imagePage base k) : j = k := by
  rw [imagePage_eq, imagePage_eq] at h
  omega

theorem mem_imagePages {base i n pg : Nat} :
    pg ∈ imagePages base i n ↔ ∃ j, i ≤ j ∧ j < i + n ∧ pg = imagePage base j := Iff.rfl

theorem imagePages_zero (base i : Nat) : imagePages base i 0 = ∅ := by
  ext pg
  rw [mem_imagePages]
  constructor
  · rintro ⟨j, h₁, h₂, -⟩
    omega
  · exact False.elim

theorem imagePages_succ (base i n : Nat) :
    imagePages base i (n + 1) = {imagePage base i} ∪ imagePages base (i + 1) n := by
  ext pg
  rw [Set.mem_union, Set.mem_singleton_iff, mem_imagePages, mem_imagePages]
  constructor
  · rintro ⟨j, h₁, h₂, rfl⟩
    by_cases hj : j = i
    · exact .inl (by rw [hj])
    · exact .inr ⟨j, by omega, by omega, rfl⟩
  · rintro (rfl | ⟨j, h₁, h₂, rfl⟩)
    · exact ⟨i, by omega, by omega, rfl⟩
    · exact ⟨j, by omega, by omega, rfl⟩

/-- The first page of a run is none of the others. -/
theorem imagePages_disjoint (base : Nat) {i n : Nat} (hn : i + (n + 1) ≤ 2 ^ 36) :
    Disjoint {imagePage base i} (imagePages base (i + 1) n) := by
  rw [Set.disjoint_singleton_left]
  rintro ⟨j, h₁, h₂, heq⟩
  have := imagePage_inj (by omega) (by omega) heq
  omega

/-- The pages of a run are the last one and those before it. -/
theorem mem_imagePages_last {base n pg : Nat} : pg ∈ imagePages base 0 (n + 1) ↔
    pg = imagePage base n ∨ pg ∈ imagePages base 0 n := by
  rw [mem_imagePages, mem_imagePages]
  constructor
  · rintro ⟨j, -, hj, rfl⟩
    by_cases hjn : j = n
    · exact .inl (by rw [hjn])
    · exact .inr ⟨j, by omega, by omega, rfl⟩
  · rintro (rfl | ⟨j, -, hj, rfl⟩)
    · exact ⟨n, by omega, by omega, rfl⟩
    · exact ⟨j, by omega, by omega, rfl⟩

theorem ne_of_mem_before {base n pg : Nat} (hn : n < 2 ^ 36) (hpg : pg ∈ imagePages base 0 n) :
    pg ≠ imagePage base n := by
  obtain ⟨j, -, hj, rfl⟩ := hpg
  intro heq
  have := imagePage_inj (by omega) hn heq
  omega

/-! ## The bytes of an image and its pages -/

variable {A A' A'' : PageMap} {P Q : Set Nat} {p p' p'' : Phys} {root base va f g i n o : Nat}

/-- `n` bytes of memory from `base` on. -/
def bytesAt (base n : Nat) : Set Nat := {va | ∃ o, o < n ∧ va = u64 (base + o)}

/-- The pages counted for `n` bytes hold them from `base` on. -/
def Room (base n : Nat) : Prop := base % 4096 + n ≤ 4096 * pageCount n

instance (base n : Nat) : Decidable (Room base n) := inferInstanceAs (Decidable (_ ≤ _))

theorem pageOf_u64 (x : Nat) : pageOf (u64 x) = pageOf x := by
  simp only [pageOf, u64]
  omega

theorem pageOf_offset (base o : Nat) :
    pageOf (base + o) = imagePage base ((base % 4096 + o) / 4096) := by
  rw [imagePage_eq, pageOf]
  omega

/-- A byte that has room is on one of the pages. -/
theorem page_of_room (hroom : base % 4096 + o < 4096 * n) : pageOf (base + o) ∈ imagePages base 0 n :=
  ⟨(base % 4096 + o) / 4096, Nat.zero_le _, by omega, pageOf_offset base o⟩

/-- A byte is on one of the pages counted for them, or on the page behind. -/
theorem page_of_byte (hva : va ∈ bytesAt base n) :
    pageOf va ∈ imagePages base 0 (pageCount n) ∨ pageOf va = imagePage base (pageCount n) := by
  obtain ⟨o, ho, rfl⟩ := hva
  have hcount := (pageCount_spec n).1
  rw [pageOf_u64]
  by_cases hroom : base % 4096 + o < 4096 * pageCount n
  · exact .inl (page_of_room hroom)
  · right
    rw [pageOf_offset]
    congr 1
    omega

/-- **The pages hold the bytes** exactly when there is room behind the first of them. -/
theorem room_iff (hpos : 0 < n) (hn : pageCount n < 2 ^ 36) :
    Room base n ↔ ∀ va ∈ bytesAt base n, pageOf va ∈ imagePages base 0 (pageCount n) := by
  constructor
  · rintro hroom va ⟨o, ho, rfl⟩
    rw [pageOf_u64]
    exact page_of_room ((Nat.add_lt_add_left ho _).trans_le hroom)
  · intro h
    -- the last byte says it for all
    obtain ⟨j, -, hj, heq⟩ := h _ ⟨n - 1, by omega, rfl⟩
    have hcount := (pageCount_spec n).1
    rw [pageOf_u64, pageOf_offset] at heq
    have hlast := imagePage_inj (by omega) (by omega) heq
    rw [Room]
    omega

/-! ## Pages that got frames of their own -/

/-- The tables hold a map, and the answers are fresh. -/
structure Space (root : Nat) (A : PageMap) (p : Phys) : Prop where
  holds : Holds p.mem root A
  answers : FreshAnswers p.mem root p.answers

/-- A frame that was an answer and now is the loader's. -/
structure Own (root : Nat) (p p' : Phys) (f : Nat) : Prop where
  frame : TableFrame f
  answer : f ∈ p.answers
  outside : f ∉ tables p'.mem root ∧ f ∉ p'.answers

theorem Own.notTable (h : Own root p p' f) : f ∉ tables p'.mem root := h.outside.1

theorem Own.notAnswer (h : Own root p p' f) : f ∉ p'.answers := h.outside.2

/-- Between `p` and `p'` the pages of `P` were mapped to frames of their own. -/
structure Placed (root : Nat) (P : Set Nat) (A A' : PageMap) (p p' : Phys) : Prop
    extends Later root p p' where
  space : Space root A' p'
  other : ∀ pg, pg ∉ P → A' pg = A pg
  page : ∀ pg ∈ P, ∃ f, A' pg = some f ∧ Own root p p' f
  inj : ∀ pg ∈ P, ∀ pg' ∈ P, A' pg = A' pg' → pg = pg'
  table : ∀ va, pageOf va ∈ P → ∃ pt, tableAt p'.mem root (pagePath va) = some pt
  spent : ∃ used, p.answers = used ++ p'.answers ∧
    ∀ f ∈ used, f ≠ 0 → f ∈ tables p'.mem root ∨ ∃ pg ∈ P, A' pg = some f
  rest : ∀ g, TableFrame g → g ∉ tables p.mem root → g ∉ p.answers →
    AgreeOn p.mem p'.mem g kPageSize

/-- A call that only grows the tree places nothing. -/
theorem Placed.of_grown (hh : Holds p'.mem root A) (hg : Grown root p p') :
    Placed root ∅ A A p p' where
  toLater := hg.toLater
  space := ⟨hh, hg.fresh⟩
  other := fun _ _ => rfl
  page := fun _ hpg => absurd hpg (Set.notMem_empty _)
  inj := fun _ hpg => absurd hpg (Set.notMem_empty _)
  table := fun _ hpg => absurd hpg (Set.notMem_empty _)
  spent := by
    obtain ⟨used, heq, hused⟩ := hg.spent
    exact ⟨used, heq, fun f hf hf0 => .inl (hused f hf hf0)⟩
  rest := hg.rest

/-- **Placing on pages that are apart** adds up. -/
theorem Placed.trans (h : Placed root P A A' p p') (h' : Placed root Q A' A'' p' p'')
    (hd : Disjoint P Q) : Placed root (P ∪ Q) A A'' p p'' := by
  have hkeep : ∀ pg ∈ P, A'' pg = A' pg := fun pg hpg =>
    h'.other pg (Set.disjoint_left.mp hd hpg)
  -- the frames of `P` are neither answers nor tables any more, so the second call cannot take them
  have hown : ∀ f, Own root p p' f → Own root p p'' f := fun f hf =>
    ⟨hf.frame, hf.answer, h'.notMem hf.notTable hf.notAnswer⟩
  have hcross : ∀ pg ∈ P, ∀ pg' ∈ Q, A'' pg ≠ A'' pg' := by
    intro pg hpg pg' hpg' heq
    obtain ⟨f, hf, hfown⟩ := h.page pg hpg
    obtain ⟨f', hf', hfown'⟩ := h'.page pg' hpg'
    rw [hkeep pg hpg, hf, hf'] at heq
    exact hfown.notAnswer (Option.some.inj heq ▸ hfown'.answer)
  refine
    { toLater := h.toLater.trans h'.toLater
      space := h'.space
      other := fun pg hpg => ?_
      page := fun pg hpg => ?_
      inj := fun pg hpg pg' hpg' heq => ?_
      table := fun va hva => ?_
      spent := ?_
      rest := fun g hg hnot hans => ?_ }
  · rw [Set.mem_union, not_or] at hpg
    rw [h'.other pg hpg.2, h.other pg hpg.1]
  · rcases hpg with hpg | hpg
    · obtain ⟨f, hf, hfown⟩ := h.page pg hpg
      exact ⟨f, (hkeep pg hpg).trans hf, hown f hfown⟩
    · obtain ⟨f, hf, hfown⟩ := h'.page pg hpg
      exact ⟨f, hf, hfown.frame, h.answers f hfown.answer, hfown.outside⟩
  · rcases hpg with hpg | hpg <;> rcases hpg' with hpg' | hpg'
    · rw [hkeep pg hpg, hkeep pg' hpg'] at heq
      exact h.inj pg hpg pg' hpg' heq
    · exact absurd heq (hcross pg hpg pg' hpg')
    · exact absurd heq.symm (hcross pg' hpg' pg hpg)
    · exact h'.inj pg hpg pg' hpg' heq
  · rcases hva with hva | hva
    · obtain ⟨pt, hpt⟩ := h.table va hva
      exact ⟨pt, h'.old _ _ (by rw [pagePath_length]) hpt⟩
    · exact h'.table va hva
  · obtain ⟨used, heq, hused⟩ := h.spent
    obtain ⟨used', heq', hused'⟩ := h'.spent
    refine ⟨used ++ used', by rw [heq, heq', List.append_assoc], fun f hf hf0 => ?_⟩
    rcases List.mem_append.mp hf with hf | hf
    · rcases hused f hf hf0 with ht | ⟨pg, hpg, hfpg⟩
      · exact .inl (h'.tables f ht)
      · exact .inr ⟨pg, .inl hpg, (hkeep pg hpg).trans hfpg⟩
    · rcases hused' f hf hf0 with ht | ⟨pg, hpg, hfpg⟩
      · exact .inl ht
      · exact .inr ⟨pg, .inr hpg, hfpg⟩
  · obtain ⟨hnot', hans'⟩ := h.notMem hnot hans
    exact (h.rest g hg hnot hans).trans (h'.rest g hg hnot' hans')

/-! ## Mapping a run of pages -/

/-- The answers behind a frame that was taken for an image. -/
theorem Space.take {fs : List Nat} {m : Store} (hs : Space root A ⟨m, f :: fs⟩) (hf0 : f ≠ 0) :
    FreshFrame m root f ∧ f ∉ fs ∧ Space root A ⟨fill m f kPageSize 0, fs⟩ ∧
      HALKit.tables (fill m f kPageSize 0) root = HALKit.tables m root ∧
      Later root ⟨m, f :: fs⟩ ⟨fill m f kPageSize 0, fs⟩ := by
  have hf := hs.answers.fresh f List.mem_cons_self hf0
  have hagree := hs.holds.shape.agree_frame hf.toTableFrame hf.notMem
    (show OnlyAt m (fill m f kPageSize 0) f kPageSize from
      OnlyAt.blit (Nat.le_refl _) (Nat.le_refl _))
  have htables : ∀ q, q.length ≤ 3 →
      tableAt (fill m f kPageSize 0) root q = tableAt m root q := fun q hq => tableAt_agree hagree hq
  have hlater := Later.of_agree (f :: fs) hagree
  refine ⟨hf, fun hin => ?_, ⟨hs.holds.agree hagree, hs.answers.tail.congr htables⟩,
    tables_congr htables, hlater.old, hlater.new, fun _ hin => List.mem_cons_of_mem f hin⟩
  exact ((List.pairwise_cons.mp hs.answers.once).1 f hin).elim hf0 fun hne => hne rfl

theorem TableFrame.mappable (hf : TableFrame f) : Mappable f := ⟨hf.ne_zero, hf.aligned⟩

theorem mapSpec_image : mapSpec A va f kImageFlags kErrorSuccess =
    Function.update A (pageOf va) (some f) := by
  rw [mapSpec, if_pos rfl, if_pos (by decide)]

/-- The bytes of a frame are zero. -/
def Zeroed (m : Store) (f : Nat) : Prop := ∀ x, x < kPageSize → m (f + x) = 0

theorem zeroed_fill {m : Store} : Zeroed (fill m f kPageSize 0) f :=
  fun x hx => blit_apply_of_mem (Nat.le_add_right f x) (Nat.add_lt_add_left hx f)

/-- **One page.** A frame that is taken and mapped is the page's own, and it is empty. -/
theorem placed_one {fs : List Nat} {m : Store} (hs : Space root A ⟨m, f :: fs⟩) (hf0 : f ≠ 0)
    (hr : mmMapPageIn ⟨fill m f kPageSize 0, fs⟩ root va f kImageFlags = (kErrorSuccess, p')) :
    Placed root {pageOf va} A (Function.update A (pageOf va) (some f)) ⟨m, f :: fs⟩ p' ∧
      Zeroed p'.mem f := by
  obtain ⟨hf, hnot, hs', htables, hlater⟩ := hs.take hf0
  have hbound := hf.bound
  have hg := mmMapPageIn_grown va f kImageFlags hs'.holds.shape
    hs'.answers
  have hheld := mmMapPageIn_spec hs'.holds hs'.answers (by omega) hr
  obtain ⟨pt, hpt⟩ := mmMapPageIn_table hs'.holds.shape hs'.answers
    (TableFrame.mappable hf.toTableFrame) hr
  rw [hr] at hg
  simp only at hg hheld
  rw [mapSpec_image] at hheld
  have houtside := hg.notMem (by rw [htables]; exact hf.notMem) hnot
  obtain ⟨used, heq, hused⟩ := hg.spent
  have hself : Function.update A (pageOf va) (some f) (pageOf va) = some f :=
    Function.update_self _ _ _
  refine ⟨
    { toLater := hlater.trans hg.toLater
      space := ⟨hheld, hg.fresh⟩
      other := fun pg hpg => Function.update_of_ne hpg _ _
      page := fun pg hpg => ?_
      inj := fun pg hpg pg' hpg' _ => hpg.trans hpg'.symm
      table := fun va' hva' => ?_
      spent := ⟨f :: used, by rw [List.cons_append]; exact congrArg (f :: ·) heq, ?_⟩
      rest := fun g hgf hgt hga => ?_ }, fun x hx => ?_⟩
  · rw [Set.mem_singleton_iff.mp hpg]
    exact ⟨f, hself, hf.toTableFrame, List.mem_cons_self, houtside⟩
  · -- an address of the same page has the same page table
    have hidx := pageIdx_eq_iff.mpr (Set.mem_singleton_iff.mp hva')
    have hpath : pagePath va' = pagePath va := by
      simp only [pageIdx, List.cons.injEq, and_true] at hidx
      simp only [pagePath, hidx.1, hidx.2.1, hidx.2.2.1]
    exact ⟨pt, hpath ▸ hpt⟩
  · intro g hgu hg0
    rcases List.mem_cons.mp hgu with rfl | hgu
    · exact .inr ⟨pageOf va, rfl, hself⟩
    · exact .inl (hused g hgu hg0)
  · have hgne : g ≠ f := fun h => hga (h ▸ List.mem_cons_self)
    have hapart := hgf.apart hf.toTableFrame hgne
    have hfill : AgreeOn m (fill m f kPageSize 0) g kPageSize := by
      apply AgreeOn.symm
      apply AgreeOn.blit
      simp only [kPageSize]
      omega
    refine hfill.trans (hg.rest g hgf (by rw [htables]; exact hgt) fun hin => ?_)
    exact hga (List.mem_cons_of_mem _ hin)
  · have hkeep := hg.rest f hf.toTableFrame (by rw [htables]; exact hf.notMem) hnot
    rw [← hkeep (f + x) (Nat.le_add_right f x) (Nat.add_lt_add_left hx f)]
    exact zeroed_fill x hx

/-- A zeroed frame that the loader owns stays zeroed while other pages are placed. -/
theorem Placed.zeroed (h : Placed root Q A' A'' p' p'') (hf : Own root p p' f)
    (hz : Zeroed p'.mem f) : Zeroed p''.mem f := by
  intro x hx
  rw [← hz x hx]
  exact (h.rest f hf.frame hf.notTable hf.notAnswer (f + x) (Nat.le_add_right f x)
    (Nat.add_lt_add_left hx f)).symm

/-- The first page of a run: no frame for it, a frame that could not be mapped, or a frame under it
and the rest of the run. -/
theorem mapPages_succ (root base n i : Nat) (p : Phys) :
    ((nextFrame p).1 = 0 ∧ mapPages root base (n + 1) i p = (.stuck i 0, (nextFrame p).2)) ∨
    ∃ f fs, f ≠ 0 ∧ p.answers = f :: fs ∧ ∃ c p₁,
      mmMapPageIn ⟨fill p.mem f kPageSize 0, fs⟩ root (u64 (base + i * kPageSize)) f kImageFlags =
        (c, p₁) ∧
      (c ≠ kErrorSuccess ∧ mapPages root base (n + 1) i p = (.stuck i f, p₁) ∨
        c = kErrorSuccess ∧ mapPages root base (n + 1) i p = mapPages root base n (i + 1) p₁) := by
  obtain ⟨m, as⟩ := p
  by_cases h0 : (nextFrame ⟨m, as⟩).1 = 0
  · refine .inl ⟨h0, ?_⟩
    rw [mapPages]
    exact if_pos h0
  · rcases hnext : nextFrame ⟨m, as⟩ with ⟨f, mem, fs⟩
    rw [hnext] at h0
    obtain rfl : as = f :: fs := answers_of_nextFrame h0 hnext
    rcases hmap : mmMapPageIn ⟨fill m f kPageSize 0, fs⟩ root (u64 (base + i * kPageSize)) f
      kImageFlags with ⟨c, p₁⟩
    refine .inr ⟨f, fs, h0, rfl, c, p₁, hmap, ?_⟩
    simp only [mapPages, nextFrame_cons h0, if_neg h0, hmap]
    by_cases hc : c = kErrorSuccess
    · exact .inr ⟨hc, if_neg (not_not.mpr hc)⟩
    · exact .inl ⟨hc, if_pos hc⟩

/-- A run that comes to its end took a frame for the first page and mapped it. -/
theorem mapPages_succ_done (hr : mapPages root base (n + 1) i p = (.done, p')) :
    ∃ f fs m p₁, p = ⟨m, f :: fs⟩ ∧ f ≠ 0 ∧
      mmMapPageIn ⟨fill m f kPageSize 0, fs⟩ root (u64 (base + i * kPageSize)) f kImageFlags =
        (kErrorSuccess, p₁) ∧
      mapPages root base n (i + 1) p₁ = (.done, p') := by
  rcases mapPages_succ root base n i p with ⟨-, heq⟩ | ⟨f, fs, hf0, hans, c, p₁, hmap, hcase⟩
  · rw [heq] at hr
    cases hr
  · rcases hcase with ⟨-, heq⟩ | ⟨rfl, heq⟩
    · rw [heq] at hr
      cases hr
    · obtain ⟨m, as⟩ := p
      obtain rfl : as = f :: fs := hans
      exact ⟨f, fs, m, p₁, rfl, hf0, hmap, heq ▸ hr⟩

/-- **A run that is mapped to the end** got a zeroed frame of its own under each page. -/
theorem mapPages_done (hs : Space root A p) (hn : i + n ≤ 2 ^ 36)
    (hr : mapPages root base n i p = (.done, p')) :
    ∃ A', Placed root (imagePages base i n) A A' p p' ∧
      ∀ pg ∈ imagePages base i n, ∀ f, A' pg = some f → Zeroed p'.mem f := by
  induction n generalizing A p i with
  | zero =>
      cases hr
      rw [imagePages_zero]
      exact ⟨A, Placed.of_grown hs.holds (Grown.refl hs.answers),
        fun pg hpg => absurd hpg (Set.notMem_empty _)⟩
  | succ n ih =>
      obtain ⟨f, fs, m, p₁, rfl, hf0, hmap, hrest⟩ := mapPages_succ_done hr
      obtain ⟨hone, hzero⟩ := placed_one hs hf0 hmap
      obtain ⟨A', hplaced, hzeros⟩ := ih hone.space (by omega) hrest
      have hdisj := imagePages_disjoint base hn
      rw [imagePages_succ]
      refine ⟨A', hone.trans hplaced hdisj, fun pg hpg g hg => ?_⟩
      rcases hpg with hpg | hpg
      · -- the frame under the first page is the loader's own while the others are mapped
        obtain ⟨f', hf', hown⟩ := hone.page pg hpg
        rw [hplaced.other pg (Set.disjoint_left.mp hdisj hpg), hf'] at hg
        obtain rfl : f' = g := Option.some.inj hg
        rw [Set.mem_singleton_iff.mp hpg, imagePage, Function.update_self] at hf'
        exact hplaced.zeroed hown (Option.some.inj hf' ▸ hzero)
      · exact hzeros pg hpg g hg

/-- A page that is mapped, and the rest of the run. -/
theorem mapPages_cons {fs : List Nat} {m : Store} {p₁ : Phys} (n : Nat) (hf0 : f ≠ 0)
    (hmap : mmMapPageIn ⟨fill m f kPageSize 0, fs⟩ root (u64 (base + i * kPageSize)) f kImageFlags =
      (kErrorSuccess, p₁)) :
    mapPages root base (n + 1) i ⟨m, f :: fs⟩ = mapPages root base n (i + 1) p₁ := by
  rw [mapPages]
  simp only [nextFrame_cons hf0, if_neg hf0, hmap]
  exact if_neg (not_not.mpr rfl)

/-- **With four frames for each page** a run is mapped to the end, and the other frames are left. -/
theorem mapPages_enough (base : Nat) (hs : Space root A p) (hn : i + n ≤ 2 ^ 36)
    (h0 : ∀ f ∈ p.answers, f ≠ 0) (hmany : 4 * n ≤ p.answers.length) :
    ∃ p', mapPages root base n i p = (.done, p') ∧ p.answers.length ≤ p'.answers.length + 4 * n := by
  induction n generalizing A p i with
  | zero => exact ⟨p, rfl, Nat.le_refl _⟩
  | succ n ih =>
      obtain ⟨m, as⟩ := p
      rcases as with _ | ⟨f, fs⟩
      · rw [List.length_nil] at hmany
        omega
      · rw [List.length_cons] at hmany
        have hf0 : f ≠ 0 := h0 f List.mem_cons_self
        obtain ⟨hf, -, hs', -, -⟩ := hs.take hf0
        obtain ⟨p₁, hmap, hleft⟩ := mmMapPageIn_enough (u64 (base + i * kPageSize))
          kImageFlags hs'.holds.shape hs'.answers
          (TableFrame.mappable hf.toTableFrame) (fun g hg => h0 g (List.mem_cons_of_mem f hg))
          (by show 3 ≤ fs.length; omega)
        simp only at hleft
        obtain ⟨hone, -⟩ := placed_one hs hf0 hmap
        obtain ⟨p', hrest, hleft'⟩ := ih (i := i + 1) hone.space (by omega)
          (fun g hg => h0 g (hone.answers g hg)) (by omega)
        refine ⟨p', ?_, by rw [List.length_cons]; omega⟩
        rw [← hrest]
        exact mapPages_cons n hf0 hmap

/-- A run whose first pages are mapped goes on behind them. -/
theorem mapPages_add (k : Nat) (hr : mapPages root base n i p = (.done, p')) :
    mapPages root base (n + k) i p = mapPages root base k (i + n) p' := by
  induction n generalizing i p with
  | zero =>
      cases hr
      rw [Nat.zero_add, Nat.add_zero]
  | succ n ih =>
      obtain ⟨f, fs, m, p₁, rfl, hf0, hmap, hrest⟩ := mapPages_succ_done hr
      rw [Nat.add_right_comm, mapPages_cons (n + k) hf0 hmap, ih hrest, Nat.add_right_comm,
        Nat.add_assoc]

/-- **A run that is mapped to the end** depends on the frames it took, not on those behind them. -/
theorem mapPages_uses (base : Nat) (hs : Space root A p) (hn : i + n ≤ 2 ^ 36) :
    Uses (mapPages root base n i) p .done := by
  induction n generalizing A p i with
  | zero =>
      intro p' hr
      cases hr
      exact ⟨[], rfl, fun _ => rfl⟩
  | succ n ih =>
      intro p' hr
      obtain ⟨f, fs, m, p₁, rfl, hf0, hmap, hrest⟩ := mapPages_succ_done hr
      obtain ⟨hone, -⟩ := placed_one hs hf0 hmap
      obtain ⟨hf, -, hs', -, -⟩ := hs.take hf0
      obtain ⟨used, hused, hcall⟩ := mmMapPageIn_uses hs'.holds.shape hs'.answers
        (TableFrame.mappable hf.toTableFrame) p₁ hmap
      obtain ⟨used', hused', hcall'⟩ := ih hone.space (by omega) p' hrest
      refine ⟨f :: (used ++ used'), ?_, fun X => ?_⟩
      · rw [show fs = used ++ p₁.answers from hused, hused', List.cons_append, List.append_assoc]
      · have hhere := hcall (used' ++ X)
        rw [List.cons_append, List.append_assoc, mapPages_cons n hf0 hhere]
        exact hcall' X

/-- What is known when the mapping loop is stuck, `frame` being in hand. -/
structure Stuck (root : Nat) (A : PageMap) (p p' : Phys) (frame : Nat) : Prop
    extends Later root p p' where
  space : Space root A p'
  inHand : frame ≠ 0 → Own root p p' frame
  spent : ∃ used, p.answers = used ++ p'.answers ∧
    ∀ f ∈ used, f ≠ 0 → f ∈ tables p'.mem root ∨ f = frame

/-- The allocator has no frame. -/
theorem stuck_noFrame (hs : Space root A p) (h0 : (nextFrame p).1 = 0) :
    Stuck root A p (nextFrame p).2 0 := by
  obtain ⟨m, as⟩ := p
  have hg : Grown root ⟨m, as⟩ (nextFrame ⟨m, as⟩).2 ∧ (nextFrame ⟨m, as⟩).2.mem = m := by
    cases as with
    | nil => exact ⟨Grown.refl hs.answers, rfl⟩
    | cons f fs =>
        by_cases hf : f = 0
        · subst hf
          exact ⟨Grown.skip hs.answers, rfl⟩
        · rw [nextFrame_cons hf] at h0
          exact absurd h0 hf
  refine ⟨hg.1.toLater, ⟨?_, hg.1.fresh⟩, fun h => absurd rfl h, ?_⟩
  · rw [hg.2]
    exact hs.holds
  · obtain ⟨used, heq, hused⟩ := hg.1.spent
    exact ⟨used, heq, fun f hf hf0 => .inl (hused f hf hf0)⟩

/-- The frame that was taken could not be mapped. -/
theorem stuck_unmapped {fs : List Nat} {m : Store} {c : Int} (hs : Space root A ⟨m, f :: fs⟩)
    (hf0 : f ≠ 0) (hc : c ≠ kErrorSuccess)
    (hr : mmMapPageIn ⟨fill m f kPageSize 0, fs⟩ root va f kImageFlags = (c, p')) :
    Stuck root A ⟨m, f :: fs⟩ p' f := by
  obtain ⟨hf, hnot, hs', htables, hlater⟩ := hs.take hf0
  have hbound := hf.bound
  have hg := mmMapPageIn_grown va f kImageFlags hs'.holds.shape
    hs'.answers
  have hheld := mmMapPageIn_spec hs'.holds hs'.answers (by omega) hr
  rw [hr] at hg
  simp only [mapSpec, if_neg hc] at hg hheld
  refine ⟨hlater.trans hg.toLater, ⟨hheld, hg.fresh⟩, fun _ => ⟨hf.toTableFrame,
    List.mem_cons_self, hg.notMem (by rw [htables]; exact hf.notMem) hnot⟩, ?_⟩
  obtain ⟨used, heq, hused⟩ := hg.spent
  refine ⟨f :: used, by rw [List.cons_append]; exact congrArg (f :: ·) heq, fun g hgu hg0 => ?_⟩
  rcases List.mem_cons.mp hgu with rfl | hgu
  · exact .inr rfl
  · exact .inl (hused g hgu hg0)

/-- **A run that gets stuck** has placed the pages before, and nothing at the page it is stuck at. -/
theorem mapPages_stuck {k frame : Nat} (hs : Space root A p) (hn : i + n ≤ 2 ^ 36)
    (hr : mapPages root base n i p = (.stuck k frame, p')) :
    i ≤ k ∧ k < i + n ∧ ∃ A' p₁, Placed root (imagePages base i (k - i)) A A' p p₁ ∧
      Stuck root A' p₁ p' frame := by
  induction n generalizing A p i with
  | zero => cases hr
  | succ n ih =>
      have hnone : imagePages base i (i - i) = ∅ := by
        rw [Nat.sub_self, imagePages_zero]
      have hrefl := Placed.of_grown hs.holds (Grown.refl hs.answers)
      rcases mapPages_succ root base n i p with ⟨h0, heq⟩ | ⟨f, fs, hf0, hans, c, p₁, hmap, hcase⟩
      · rw [heq] at hr
        cases hr
        exact ⟨Nat.le_refl _, by omega, A, p, hnone ▸ hrefl, stuck_noFrame hs h0⟩
      · obtain ⟨m, as⟩ := p
        obtain rfl : as = f :: fs := hans
        rcases hcase with ⟨hc, heq⟩ | ⟨rfl, heq⟩
        · rw [heq] at hr
          cases hr
          exact ⟨Nat.le_refl _, by omega, A, _, hnone ▸ hrefl, stuck_unmapped hs hf0 hc hmap⟩
        · obtain ⟨hone, -⟩ := placed_one hs hf0 hmap
          rw [heq] at hr
          obtain ⟨hle, hlt, A', p₂, hrest, hstuck⟩ := ih hone.space (by omega) hr
          have hsplit : imagePages base i (k - i) =
              {imagePage base i} ∪ imagePages base (i + 1) (k - (i + 1)) := by
            rw [← imagePages_succ, show k - (i + 1) + 1 = k - i by omega]
          refine ⟨by omega, by omega, A', p₂, ?_, hstuck⟩
          rw [hsplit]
          exact hone.trans hrest (imagePages_disjoint base (by omega))

/-! ## Giving back and unmapping -/

variable {s s' s'' : Machine} {F G : Set Nat}

/-- The range of frames the allocator takes back. -/
def InPool (s : Machine) (f : Nat) : Prop := s.kPmmBase ≤ f ∧ f < s.kPmmCursor

/-- Every frame the allocator may still give is one it takes back. -/
def Pool (s : Machine) : Prop := ∀ f ∈ s.phys.answers, f ≠ 0 → InPool s f

/-- Between `s` and `s'` exactly the frames of `F` were given back. -/
structure GaveBack (root : Nat) (F : Set Nat) (s s' : Machine) : Prop
    extends Later root s.phys s'.phys where
  freed : ∃ given, s'.freed = given ++ s.freed ∧ ∀ f, f ∈ given ↔ f ∈ F
  same : s'.phys.answers = s.phys.answers
  written : s'.written = s.written
  pool : ∀ f, InPool s' f ↔ InPool s f

theorem GaveBack.trans (h : GaveBack root F s s') (h' : GaveBack root G s' s'') :
    GaveBack root (F ∪ G) s s'' where
  toLater := h.toLater.trans h'.toLater
  freed := by
    obtain ⟨given, heq, hgiven⟩ := h.freed
    obtain ⟨given', heq', hgiven'⟩ := h'.freed
    refine ⟨given' ++ given, by rw [heq', heq, List.append_assoc], fun f => ?_⟩
    rw [List.mem_append, hgiven', hgiven, Set.mem_union, or_comm]
  same := h'.same.trans h.same
  written := h'.written.trans h.written
  pool := fun f => (h'.pool f).trans (h.pool f)

theorem GaveBack.nothing : GaveBack root ∅ s s where
  toLater := Later.refl
  freed := ⟨[], rfl, fun _ => iff_of_false List.not_mem_nil (Set.notMem_empty _)⟩
  same := rfl
  written := rfl
  pool := fun _ => Iff.rfl

/-- `pmmi_free_frame` takes back a frame of its own that is no table. -/
theorem freeFrame_gaveBack (hs : Space root A s.phys) (hf : TableFrame f)
    (hnot : f ∉ HALKit.tables s.phys.mem root) (hpool : InPool s f) :
    Space root A (pmmiFreeFrame s f).phys ∧ GaveBack root {f} s (pmmiFreeFrame s f) := by
  have hoff : pageOffset f = 0 := hf.aligned
  have haccept : ¬ (f = 0 ∨ pageOffset f ≠ 0 ∨ f < s.kPmmBase ∨ f ≥ s.kPmmCursor) := by
    rintro (h | h | h | h)
    · exact hf.ne_zero h
    · exact h hoff
    · exact absurd hpool.1 (Nat.not_le.mpr h)
    · exact absurd hpool.2 (Nat.not_lt.mpr h)
  have hlink : OnlyAt s.phys.mem (putLE s.phys.mem f 8 s.kPmmFreeHead) f kPageSize := by
    apply OnlyAt.putLE
    · exact Nat.le_refl f
    · exact Nat.add_le_add_left (by decide) f
  have hagree := hs.holds.shape.agree_frame hf hnot hlink
  unfold pmmiFreeFrame
  rw [if_neg haccept]
  refine ⟨⟨hs.holds.agree hagree, hs.answers.congr fun q hq => tableAt_agree hagree hq⟩,
    { toLater := Later.of_agree _ hagree
      freed := ⟨[f], rfl, fun g => List.mem_singleton⟩
      same := rfl
      written := rfl
      pool := fun _ => Iff.rfl }⟩

theorem freeFrame_zero : pmmiFreeFrame s 0 = s := if_pos (.inl rfl)

/-- A page of an image that can be unmapped again: it is mapped in a page table, to a frame that the
allocator takes back and that is no table. -/
structure Unmappable (root : Nat) (A : PageMap) (s : Machine) (va f : Nat) : Prop where
  mapped : A (pageOf va) = some f
  frame : TableFrame f
  outside : f ∉ tables s.phys.mem root ∧ f ∉ s.phys.answers
  pool : InPool s f
  table : ∃ pt, tableAt s.phys.mem root (pagePath va) = some pt

/-- One page of `ldr_unmap_pages`. -/
theorem unmapPage_spec (hs : Space root A s.phys) (hu : Unmappable root A s va f)
    {r : Nat × Phys} (hr : mmUnmapPage s.phys root va = r) :
    Space root (Function.update A (pageOf va) none)
        (pmmiFreeFrame { s with phys := r.2 } r.1).phys ∧
      GaveBack root {f} s (pmmiFreeFrame { s with phys := r.2 } r.1) := by
  obtain ⟨pt, hpt⟩ := hu.table
  obtain ⟨m', hun, hheld, hg⟩ := mmUnmapPage_mapped hs.holds hs.answers hpt hu.mapped
  rw [hun] at hr
  subst hr
  have hs' : Space root (Function.update A (pageOf va) none)
      { s with phys := ⟨m', s.phys.answers⟩ }.phys := ⟨hheld, hg.fresh⟩
  have hgave : GaveBack root ∅ s { s with phys := ⟨m', s.phys.answers⟩ } :=
    { toLater := hg.toLater
      freed := ⟨[], rfl, fun _ => iff_of_false List.not_mem_nil (Set.notMem_empty _)⟩
      same := rfl
      written := rfl
      pool := fun _ => Iff.rfl }
  obtain ⟨hspace, hgave'⟩ := freeFrame_gaveBack hs' hu.frame
    (hg.notMem hu.outside.1 hu.outside.2).1 hu.pool
  refine ⟨hspace, ?_⟩
  have hboth := hgave.trans hgave'
  rwa [Set.empty_union] at hboth

/-- **`ldr_unmap_pages`** clears its pages, gives their frames back and touches no other page. -/
theorem ldrUnmapPages_spec (hs : Space root A s.phys) (hn : n ≤ 2 ^ 36)
    (hu : ∀ j, j < n → ∃ f, Unmappable root A s (u64 (base + j * kPageSize)) f) :
    ∃ A', Space root A' (ldrUnmapPages root base n s).phys ∧
      (∀ pg ∈ imagePages base 0 n, A' pg = none) ∧ (∀ pg, pg ∉ imagePages base 0 n → A' pg = A pg) ∧
      GaveBack root {f | ∃ pg ∈ imagePages base 0 n, A pg = some f} s
        (ldrUnmapPages root base n s) := by
  induction n generalizing A s with
  | zero =>
      rw [imagePages_zero]
      refine ⟨A, hs, fun pg hpg => absurd hpg (Set.notMem_empty _), fun _ _ => rfl, ?_⟩
      have hnone : {f | ∃ pg ∈ (∅ : Set Nat), A pg = some f} = ∅ := by
        ext f
        constructor
        · rintro ⟨pg, hpg, -⟩
          exact hpg
        · exact False.elim
      rw [hnone]
      exact GaveBack.nothing
  | succ n ih =>
      obtain ⟨f, hf⟩ := hu n (Nat.lt_succ_self n)
      rw [ldrUnmapPages]
      rcases hr : mmUnmapPage s.phys root (u64 (base + n * kPageSize)) with ⟨g, p₁⟩
      obtain ⟨hs₁, hgave⟩ := unmapPage_spec hs hf hr
      simp only at hs₁ hgave ⊢
      generalize pmmiFreeFrame { s with phys := p₁ } g = s₁ at hs₁ hgave ⊢
      -- the pages before the last one are mapped as they were
      have hkeep : ∀ pg ∈ imagePages base 0 n,
          Function.update A (imagePage base n) none pg = A pg := fun pg hpg =>
        Function.update_of_ne (ne_of_mem_before (by omega) hpg) _ _
      obtain ⟨A', hs', hnone, hother, hgave'⟩ := ih hs₁ (by omega) fun j hj => by
        obtain ⟨f', hf'⟩ := hu j (Nat.lt_succ_of_lt hj)
        obtain ⟨pt, hpt⟩ := hf'.table
        exact ⟨f',
          { mapped := (hkeep _ ⟨j, Nat.zero_le j, by omega, rfl⟩).trans hf'.mapped
            frame := hf'.frame
            outside := hgave.notMem hf'.outside.1 hf'.outside.2
            pool := (hgave.pool f').mpr hf'.pool
            table := ⟨pt, hgave.old _ _ (by rw [pagePath_length]) hpt⟩ }⟩
      have hlast : imagePage base n ∉ imagePages base 0 n := fun hin =>
        ne_of_mem_before (by omega) hin rfl
      refine ⟨A', hs', fun pg hpg => ?_, fun pg hpg => ?_, ?_⟩
      · rcases mem_imagePages_last.mp hpg with rfl | hpg
        · rw [hother _ hlast]
          exact Function.update_self _ _ _
        · exact hnone pg hpg
      · rw [mem_imagePages_last, not_or] at hpg
        rw [hother pg hpg.2]
        exact Function.update_of_ne hpg.1 _ _
      · have hset : {f | ∃ pg ∈ imagePages base 0 (n + 1), A pg = some f} =
            {f} ∪ {f | ∃ pg ∈ imagePages base 0 n,
              Function.update A (imagePage base n) none pg = some f} := by
          ext g'
          constructor
          · rintro ⟨pg, hpg, hg'⟩
            rcases mem_imagePages_last.mp hpg with rfl | hin
            · exact .inl (Option.some.inj (hg'.symm.trans hf.mapped))
            · exact .inr ⟨pg, hin, (hkeep pg hin).trans hg'⟩
          · rintro (rfl | ⟨pg, hpg, hg'⟩)
            · exact ⟨imagePage base n, mem_imagePages_last.mpr (.inl rfl), hf.mapped⟩
            · exact ⟨pg, mem_imagePages_last.mpr (.inr hpg), (hkeep pg hpg).symm.trans hg'⟩
        rw [hset]
        exact hgave.trans hgave'

/-- The pages that were placed can be unmapped again, also after the tables have grown. -/
theorem Placed.unmappable {k : Nat} {s₁ : Machine}
    (h : Placed root (imagePages base 0 k) A A' s.phys p) (hlater : Later root p s₁.phys)
    (hpool : Pool s) (hsame : ∀ f, InPool s₁ f ↔ InPool s f) :
    ∀ j, j < k → ∃ f, Unmappable root A' s₁ (u64 (base + j * kPageSize)) f := by
  intro j hj
  have hpg : pageOf (u64 (base + j * kPageSize)) ∈ imagePages base 0 k :=
    ⟨j, Nat.zero_le j, by omega, rfl⟩
  obtain ⟨f, hf, hown⟩ := h.page _ hpg
  obtain ⟨pt, hpt⟩ := h.table _ hpg
  exact ⟨f,
    { mapped := hf
      frame := hown.frame
      outside := hlater.notMem hown.notTable hown.notAnswer
      pool := (hsame f).mpr (hpool f hown.answer hown.frame.ne_zero)
      table := ⟨pt, hlater.old _ _ (by rw [pagePath_length]) hpt⟩ }⟩

/-- **Unwinding**: the placed pages are unmapped, their frames given back, and no other page has
changed since before they were placed. -/
theorem Placed.unwind {k : Nat} {s₁ : Machine}
    (h : Placed root (imagePages base 0 k) A A' s.phys p) (hlater : Later root p s₁.phys)
    (hs : Space root A' s₁.phys) (hk : k ≤ 2 ^ 36) (hpool : Pool s)
    (hsame : ∀ f, InPool s₁ f ↔ InPool s f) :
    ∃ A'', Space root A'' (ldrUnmapPages root base k s₁).phys ∧
      (∀ pg ∈ imagePages base 0 k, A'' pg = none) ∧
      (∀ pg, pg ∉ imagePages base 0 k → A'' pg = A pg) ∧
      GaveBack root {f | ∃ pg ∈ imagePages base 0 k, A' pg = some f} s₁
        (ldrUnmapPages root base k s₁) := by
  obtain ⟨A'', hs'', hnone, hother, hgave⟩ :=
    ldrUnmapPages_spec hs hk (h.unmappable hlater hpool hsame)
  exact ⟨A'', hs'', hnone, fun pg hpg => (hother pg hpg).trans (h.other pg hpg), hgave⟩

/-! ## Mapping an image -/

/-- Every frame taken between `s` and `s'` is a table or was given back. -/
def AllReturned (root : Nat) (s s' : Machine) : Prop :=
  ∃ used given, s.phys.answers = used ++ s'.phys.answers ∧ s'.freed = given ++ s.freed ∧
    ∀ f ∈ used, f ≠ 0 → f ∈ tables s'.phys.mem root ∨ f ∈ given

/-- An image that is mapped. -/
theorem mapImage_done (hs : Space root A s.phys) (hn : n ≤ 2 ^ 36)
    (hr : mapImage root base n s = (true, s')) :
    ∃ p' A', s' = { s with phys := p' } ∧ Placed root (imagePages base 0 n) A A' s.phys p' ∧
      ∀ pg ∈ imagePages base 0 n, ∀ f, A' pg = some f → Zeroed p'.mem f := by
  rcases hmap : mapPages root base n 0 s.phys with ⟨_ | ⟨k, frame⟩, p'⟩
  · rw [mapImage, hmap] at hr
    cases hr
    obtain ⟨A', hplaced, hzero⟩ := mapPages_done hs (by omega) hmap
    exact ⟨p', A', rfl, hplaced, hzero⟩
  · rw [mapImage, hmap] at hr
    cases hr

theorem mapImage_enough (base : Nat) (hs : Space root A s.phys) (hn : n ≤ 2 ^ 36)
    (h0 : ∀ f ∈ s.phys.answers, f ≠ 0) (hmany : 4 * n ≤ s.phys.answers.length) :
    ∃ p', mapImage root base n s = (true, { s with phys := p' }) ∧
      s.phys.answers.length ≤ p'.answers.length + 4 * n := by
  obtain ⟨p', hmap, hleft⟩ := mapPages_enough base (i := 0) hs (by omega) h0 hmany
  exact ⟨p', by rw [mapImage, hmap], hleft⟩

/-- **An image that cannot be mapped** leaves the pages before the one it got stuck at unmapped, and
has given back every frame that is no table. -/
theorem mapImage_failed (hs : Space root A s.phys) (hpool : Pool s) (hn : n ≤ 2 ^ 36)
    (hr : mapImage root base n s = (false, s')) :
    ∃ k A', k < n ∧ Space root A' s'.phys ∧ (∀ pg ∈ imagePages base 0 k, A' pg = none) ∧
      (∀ pg, pg ∉ imagePages base 0 k → A' pg = A pg) ∧ AllReturned root s s' ∧
      s'.written = s.written ∧ Later root s.phys s'.phys := by
  rcases hmap : mapPages root base n 0 s.phys with ⟨_ | ⟨k, frame⟩, p'⟩
  · rw [mapImage, hmap] at hr
    cases hr
  · rw [mapImage, hmap] at hr
    obtain ⟨-, hlt, A₁, p₁, hplaced, hstuck⟩ := mapPages_stuck hs (by omega) hmap
    rw [Nat.sub_zero] at hplaced
    -- the frame in hand goes back first
    obtain ⟨hs₂, hgave⟩ : Space root A₁ (pmmiFreeFrame { s with phys := p' } frame).phys ∧
        GaveBack root {f | f = frame ∧ f ≠ 0} { s with phys := p' }
          (pmmiFreeFrame { s with phys := p' } frame) := by
      by_cases h0 : frame = 0
      · have hnone : {f | f = frame ∧ f ≠ 0} = (∅ : Set Nat) := by
          ext f
          exact ⟨fun h => h.2 (h.1.trans h0), False.elim⟩
        rw [hnone, h0, freeFrame_zero]
        exact ⟨hstuck.space, GaveBack.nothing⟩
      · have hone : {f | f = frame ∧ f ≠ 0} = ({frame} : Set Nat) := by
          ext f
          exact ⟨fun h => h.1, fun h => ⟨h, fun hf0 => h0 (h.symm.trans hf0)⟩⟩
        have hown := hstuck.inHand h0
        rw [hone]
        exact freeFrame_gaveBack hstuck.space hown.frame hown.notTable
          (hpool frame (hplaced.answers frame hown.answer) h0)
    have hr' : s' = ldrUnmapPages root base k (pmmiFreeFrame { s with phys := p' } frame) :=
      (Prod.mk.inj hr).2.symm
    generalize pmmiFreeFrame { s with phys := p' } frame = s₂ at hs₂ hgave hr'
    subst hr'
    have hlater : Later root p₁ s₂.phys := hstuck.toLater.trans hgave.toLater
    obtain ⟨A₂, hs', hnone, hother, hgave'⟩ :=
      hplaced.unwind hlater hs₂ (by omega) hpool fun f => hgave.pool f
    refine ⟨k, A₂, by omega, hs', hnone, hother, ?_, hgave'.written.trans hgave.written,
      (hplaced.toLater.trans hlater).trans hgave'.toLater⟩
    obtain ⟨used, heq, hused⟩ := hplaced.spent
    obtain ⟨used', heq', hused'⟩ := hstuck.spent
    obtain ⟨given, hfreed, hgiven⟩ := (hgave.trans hgave').freed
    have hsame : (ldrUnmapPages root base k s₂).phys.answers = p'.answers :=
      hgave'.same.trans hgave.same
    refine ⟨used ++ used', given, by rw [hsame, heq, heq', List.append_assoc], hfreed,
      fun f hf hf0 => ?_⟩
    have hup := hgave'.toLater.tables
    rcases List.mem_append.mp hf with hf | hf
    · rcases hused f hf hf0 with ht | ⟨pg, hpg, hfpg⟩
      · exact .inl (hup f (hlater.tables f ht))
      · exact .inr ((hgiven f).mpr (.inr ⟨pg, hpg, hfpg⟩))
    · rcases hused' f hf hf0 with ht | rfl
      · exact .inl (hup f (hgave.toLater.tables f ht))
      · exact .inr ((hgiven f).mpr (.inl ⟨rfl, hf0⟩))

end NeKernel.KernelKit
