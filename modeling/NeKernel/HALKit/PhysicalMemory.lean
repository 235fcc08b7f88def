import NeKernel.Lib.ByteStore
import NeKernel.Lib.Chain
import NeKernel.Lib.Runs
import NeKernel.NeKit.Config
import Mathlib.Data.Finset.Card

/-!
# The frame allocator

`pmmi_init`, `pmmi_alloc_frame` and `pmmi_free_frame` on the one physical memory, with the free list
threaded through the first word of the freed frames. The frames handed out are kept beside the
allocator in a run; their owners write into them as they like.

The frames below the cursor are those on the free list and those handed out, each once
(`PmmInv`). Everything promised of the allocator is read off that invariant (`pmm_contract`). The
locks are never seen taken by a single caller and are left out.
-/

namespace NeKernel.HALKit

open ByteStore Runs Threaded

def kPageSize : Nat := 0x1000

/-- The memory and the statics of the allocator. -/
structure Pmm where
  mem : Store
  kPmmBase : Nat
  kPmmCursor : Nat
  kPmmEnd : Nat
  kPmmFreeHead : Nat
  kPmmFree : Nat
  kPmmUsed : Nat

/-- `x & kPmmAlign`. -/
def pageOffset (x : Nat) : Nat := x % kPageSize

/-- `x & ~kPmmAlign`. -/
def pageDown (x : Nat) : Nat := x - pageOffset x

theorem pageDown_le (x : Nat) : pageDown x ≤ x := Nat.sub_le x (pageOffset x)

theorem pageDown_aligned (x : Nat) : pageDown x % kPageSize = 0 := by
  simp only [pageDown, pageOffset, kPageSize]
  omega

/-- `pmmi_init`. -/
def pmmiInit (p : Pmm) (base sz : Nat) : Pmm :=
  let start := pageDown (u64 (base + (kPageSize - 1)))
  let fin := pageDown (u64 (base + sz))
  if fin ≤ start then { p with kPmmCursor := 0, kPmmEnd := 0 }
  else
    { p with
      kPmmBase := start
      kPmmCursor := start
      kPmmEnd := fin
      kPmmFreeHead := 0
      kPmmFree := (fin - start) / kPageSize
      kPmmUsed := 0 }

/-- The tail of `pmmi_alloc_frame`, once it has a frame. -/
def takeFrame (p : Pmm) (frame : Nat) : Pmm :=
  { p with
    mem := fill p.mem frame kPageSize 0
    kPmmFree := u64 (p.kPmmFree + (2 ^ 64 - 1))
    kPmmUsed := u64 (p.kPmmUsed + 1) }

/-- `pmmi_alloc_frame`. -/
def pmmiAllocFrame (p : Pmm) : Nat × Pmm :=
  if p.kPmmFreeHead ≠ 0 then
    (p.kPmmFreeHead, takeFrame { p with kPmmFreeHead := getLE p.mem p.kPmmFreeHead 8 } p.kPmmFreeHead)
  else if p.kPmmCursor ≠ 0 ∧ p.kPmmCursor < p.kPmmEnd then
    (p.kPmmCursor, takeFrame { p with kPmmCursor := u64 (p.kPmmCursor + kPageSize) } p.kPmmCursor)
  else (0, p)

/-- The values `pmmi_free_frame` does not take. -/
def freeRejects (p : Pmm) (frame : Nat) : Prop :=
  frame = 0 ∨ pageOffset frame ≠ 0 ∨ frame < p.kPmmBase ∨ frame ≥ p.kPmmCursor

instance (p : Pmm) (frame : Nat) : Decidable (freeRejects p frame) := by
  unfold freeRejects
  infer_instance

/-- `pmmi_free_frame`. -/
def pmmiFreeFrame (p : Pmm) (frame : Nat) : Pmm :=
  if freeRejects p frame then p
  else
    { p with
      mem := putLE p.mem frame 8 p.kPmmFreeHead
      kPmmFreeHead := frame
      kPmmFree := u64 (p.kPmmFree + 1)
      kPmmUsed := u64 (p.kPmmUsed + (2 ^ 64 - 1)) }

/-- `pmmi_free_frames`. -/
def pmmiFreeFrames (p : Pmm) : Nat := p.kPmmFree

/-- `pmmi_used_frames`. -/
def pmmiUsedFrames (p : Pmm) : Nat := p.kPmmUsed

/-! ## Runs -/

/-- An allocator and the frames handed out. -/
structure PmmRun where
  pmm : Pmm
  outstanding : Finset Nat

inductive PmmCall where
  | alloc
  | free (frame : Nat)
  | write (frame a n : Nat) (src : Store)

/-- Frees name outstanding frames or rejected values, and owners write inside their frames. -/
def PmmOk (s : PmmRun) : PmmCall → Prop
  | .alloc => True
  | .free frame => frame ∈ s.outstanding ∨ freeRejects s.pmm frame
  | .write frame a n _ => frame ∈ s.outstanding ∧ frame ≤ a ∧ a + n ≤ frame + kPageSize

/-- One call, with the frame an allocation returns. -/
def pmmApply (s : PmmRun) : PmmCall → Nat × PmmRun
  | .alloc =>
      let r := pmmiAllocFrame s.pmm
      (r.1, { pmm := r.2
              outstanding := if r.1 = 0 then s.outstanding else insert r.1 s.outstanding })
  | .free frame => (0, { pmm := pmmiFreeFrame s.pmm frame, outstanding := s.outstanding.erase frame })
  | .write _ a n src => (0, { s with pmm := { s.pmm with mem := blit s.pmm.mem a n src } })

def PmmStep (s : PmmRun) (c : PmmCall) (s' : PmmRun) : Prop := s' = (pmmApply s c).2

/-- The rounded region of `pmmi_init`. -/
structure Region where
  start : Nat
  fin : Nat
  start_pos : 0 < start
  lt : start < fin
  bound : fin < 2 ^ 64
  aligned : start % kPageSize = 0
  aligned' : fin % kPageSize = 0

/-- The number of frames of the region. -/
def Region.frames (R : Region) : Nat := (R.fin - R.start) / kPageSize

/-- A frame of the region below `cursor`. -/
structure Region.Frame (R : Region) (cursor a : Nat) : Prop where
  aligned : a % kPageSize = 0
  le : R.start ≤ a
  lt : a < cursor

/-- The allocator invariant, `l` being the free list. -/
structure PmmInv (R : Region) (s : PmmRun) (l : List Nat) : Prop where
  base : s.pmm.kPmmBase = R.start
  fin : s.pmm.kPmmEnd = R.fin
  cursorAligned : s.pmm.kPmmCursor % kPageSize = 0
  start_le : R.start ≤ s.pmm.kPmmCursor
  cursor_le : s.pmm.kPmmCursor ≤ R.fin
  chain : Chain (fun a => getLE s.pmm.mem a 8) 0 s.pmm.kPmmFreeHead l
  nodup : l.Nodup
  free : ∀ a ∈ l, R.Frame s.pmm.kPmmCursor a
  out : ∀ a ∈ s.outstanding, R.Frame s.pmm.kPmmCursor a
  disjoint : ∀ a ∈ l, a ∉ s.outstanding
  cover : ∀ a, R.Frame s.pmm.kPmmCursor a → a ∈ l ∨ a ∈ s.outstanding
  count : l.length + s.outstanding.card = (s.pmm.kPmmCursor - R.start) / kPageSize
  freeFrames : s.pmm.kPmmFree = l.length + (R.fin - s.pmm.kPmmCursor) / kPageSize
  usedFrames : s.pmm.kPmmUsed = s.outstanding.card

variable {R : Region} {s s' : PmmRun} {l : List Nat} {a b n frame : Nat} {src : Store}

theorem Region.Frame.mono (h : R.Frame a n) (hab : a ≤ b) : R.Frame b n :=
  ⟨h.aligned, h.le, Nat.lt_of_lt_of_le h.lt hab⟩

theorem Region.Frame.ne_zero (h : R.Frame b a) : a ≠ 0 := by
  have := R.start_pos
  have := h.le
  omega

/-- Frames that differ do not overlap. -/
theorem Region.Frame.apart (h : R.Frame n a) (h' : R.Frame n b) (hne : a ≠ b) :
    a + kPageSize ≤ b ∨ b + kPageSize ≤ a := by
  have h₁ := h.aligned
  have h₂ := h'.aligned
  simp only [kPageSize] at *
  omega

/-- A frame below the cursor ends at or below it. -/
theorem PmmInv.frame_end (hI : PmmInv R s l) (h : R.Frame s.pmm.kPmmCursor a) :
    a + kPageSize ≤ s.pmm.kPmmCursor := by
  have h₁ := h.aligned
  have h₂ := hI.cursorAligned
  have h₃ := h.lt
  simp only [kPageSize] at *
  omega

/-- A write inside an outstanding frame leaves the free list alone. -/
theorem PmmInv.write (hI : PmmInv R s l) (hf : frame ∈ s.outstanding) {mem : Store}
    (hm : OnlyAt s.pmm.mem mem frame kPageSize) :
    PmmInv R { s with pmm := { s.pmm with mem := mem } } l := by
  refine { hI with chain := hI.chain.congr fun a ha => ?_ }
  apply hm.getLE_eq
  have hne : a ≠ frame := fun h => hI.disjoint a ha (h ▸ hf)
  have := (hI.free a ha).apart (hI.out frame hf) hne
  simp only [kPageSize] at *
  omega

/-- The two counters always add up to the frames of the region. -/
theorem PmmInv.counters (hI : PmmInv R s l) :
    s.pmm.kPmmFree + s.pmm.kPmmUsed = R.frames := by
  have h₁ := hI.freeFrames
  have h₂ := hI.usedFrames
  have h₃ := hI.count
  have h₄ := hI.cursorAligned
  have h₅ := hI.start_le
  have h₆ := hI.cursor_le
  have h₇ := R.aligned
  have h₈ := R.aligned'
  simp only [Region.frames, kPageSize] at *
  omega

/-- Handing out `f`, which is taken off the free list or cut from the untouched part, with the head
and the cursor moved accordingly. -/
theorem PmmInv.handOut (hI : PmmInv R s l) {l' : List Nat} {f head' cursor' : Nat}
    (hchain : Chain (fun a => getLE s.pmm.mem a 8) 0 head' l') (hnodup : l'.Nodup)
    (hsub : ∀ a ∈ l', a ∈ l) (hf : R.Frame cursor' f) (hfl : f ∉ l') (hfo : f ∉ s.outstanding)
    (hcur : s.pmm.kPmmCursor ≤ cursor') (hcur' : cursor' ≤ R.fin)
    (haligned : cursor' % kPageSize = 0)
    (hcover : ∀ a, R.Frame cursor' a → a ∈ l' ∨ a = f ∨ a ∈ s.outstanding)
    (hcount : l'.length + (s.outstanding.card + 1) = (cursor' - R.start) / kPageSize) :
    PmmInv R
      { pmm := takeFrame { s.pmm with kPmmFreeHead := head', kPmmCursor := cursor' } f
        outstanding := insert f s.outstanding } l' := by
  have hcard : (insert f s.outstanding).card = s.outstanding.card + 1 :=
    Finset.card_insert_of_notMem hfo
  -- the free counter goes down by one, the used counter up by one, neither wraps
  have hfree : u64 (s.pmm.kPmmFree + (2 ^ 64 - 1)) = l'.length + (R.fin - cursor') / kPageSize ∧
      u64 (s.pmm.kPmmUsed + 1) = s.outstanding.card + 1 := by
    have h₁ := hI.counters
    have h₂ := hI.usedFrames
    have h₃ := hI.start_le
    have h₄ := R.aligned
    have h₅ := R.aligned'
    have h₆ := R.bound
    simp only [Region.frames, kPageSize, u64] at *
    omega
  refine ⟨hI.base, hI.fin, haligned, hI.start_le.trans hcur, hcur', ?_, hnodup, ?_, ?_, ?_, ?_, ?_,
    hfree.1, ?_⟩
  · refine hchain.congr fun a ha => ?_
    show getLE (fill s.pmm.mem f kPageSize 0) a 8 = getLE s.pmm.mem a 8
    apply getLE_blit_of_disjoint
    have hfr := (hI.free a (hsub a ha)).mono hcur
    have := hfr.apart hf fun h => hfl (h ▸ ha)
    simp only [kPageSize] at *
    omega
  · exact fun a ha => (hI.free a (hsub a ha)).mono hcur
  · intro a ha
    rcases Finset.mem_insert.mp ha with rfl | ha
    · exact hf
    · exact (hI.out a ha).mono hcur
  · intro a ha hout
    rcases Finset.mem_insert.mp hout with rfl | hout
    · exact hfl ha
    · exact hI.disjoint a (hsub a ha) hout
  · intro a ha
    rcases hcover a ha with h | h | h
    · exact .inl h
    · exact .inr (Finset.mem_insert.mpr (.inl h))
    · exact .inr (Finset.mem_insert.mpr (.inr h))
  · simp only [hcard]
    exact hcount
  · simp only [hcard]
    exact hfree.2

theorem fill_frame_zero {m : Store} {i : Nat} (hi : i < kPageSize) :
    fill m a kPageSize 0 (a + i) = 0 := blit_apply_of_mem (by omega) (by omega)

/-- What an allocation hands out: a frame of the region that is not outstanding, zeroed. -/
structure Handed (R : Region) (s : PmmRun) (f : Nat) (s' : PmmRun) : Prop where
  fresh : f ∉ s.outstanding
  aligned : f % kPageSize = 0
  start_le : R.start ≤ f
  le_fin : f + kPageSize ≤ R.fin
  zero : ∀ i < kPageSize, s'.pmm.mem (f + i) = 0

/-- An allocation hands out a frame and keeps the invariant, or nothing is left and nothing
changes. -/
theorem PmmInv.alloc (hI : PmmInv R s l) :
    ((pmmApply s .alloc).1 = 0 ∧ (pmmApply s .alloc).2 = s ∧ s.pmm.kPmmFree = 0) ∨
    ((pmmApply s .alloc).1 ≠ 0 ∧
      Handed R s (pmmApply s .alloc).1 (pmmApply s .alloc).2 ∧
      ∃ l', PmmInv R (pmmApply s .alloc).2 l') := by
  have hcurpos : s.pmm.kPmmCursor ≠ 0 := by
    have := R.start_pos
    have := hI.start_le
    omega
  by_cases hhead : s.pmm.kPmmFreeHead ≠ 0
  · -- the first frame of the free list
    right
    have halloc : pmmApply s .alloc = (s.pmm.kPmmFreeHead,
        { pmm := takeFrame { s.pmm with kPmmFreeHead := getLE s.pmm.mem s.pmm.kPmmFreeHead 8 }
            s.pmm.kPmmFreeHead
          outstanding := insert s.pmm.kPmmFreeHead s.outstanding }) := by
      simp only [pmmApply, pmmiAllocFrame, if_pos hhead, if_neg hhead]
    obtain ⟨l', hl, hchain⟩ := hI.chain.pop hhead
    have hmem : s.pmm.kPmmFreeHead ∈ l := hl ▸ List.mem_cons_self
    have hnd := hI.nodup
    rw [hl, List.nodup_cons] at hnd
    have hframe := hI.free _ hmem
    have hout := hI.disjoint _ hmem
    rw [halloc]
    refine ⟨hhead, ⟨hout, hframe.aligned, hframe.le, ?_, fun i hi => fill_frame_zero hi⟩, l', ?_⟩
    · exact (hI.frame_end hframe).trans hI.cursor_le
    · refine hI.handOut hchain hnd.2 (fun a ha => hl ▸ List.mem_cons_of_mem _ ha) hframe hnd.1 hout
        (Nat.le_refl _) hI.cursor_le hI.cursorAligned ?_ ?_
      · intro a ha
        rcases hI.cover a ha with h | h
        · rw [hl] at h
          rcases List.mem_cons.mp h with h | h
          · exact .inr (.inl h)
          · exact .inl h
        · exact .inr (.inr h)
      · rw [← hI.count, hl, List.length_cons]
        omega
  · have hnil : l = [] := by
      have := hI.chain
      rw [not_not.mp hhead] at this
      exact this.eq_nil
    by_cases hlt : s.pmm.kPmmCursor < R.fin
    · -- the first untouched frame
      right
      have hnext : u64 (s.pmm.kPmmCursor + kPageSize) = s.pmm.kPmmCursor + kPageSize ∧
          s.pmm.kPmmCursor + kPageSize ≤ R.fin := by
        have h₁ := hI.cursorAligned
        have h₂ := R.aligned'
        have h₃ := R.bound
        simp only [kPageSize, u64] at *
        omega
      have halloc : pmmApply s .alloc = (s.pmm.kPmmCursor,
          { pmm := takeFrame { s.pmm with kPmmCursor := s.pmm.kPmmCursor + kPageSize }
              s.pmm.kPmmCursor
            outstanding := insert s.pmm.kPmmCursor s.outstanding }) := by
        have hgo : s.pmm.kPmmCursor ≠ 0 ∧ s.pmm.kPmmCursor < s.pmm.kPmmEnd :=
          ⟨hcurpos, by rwa [hI.fin]⟩
        simp only [pmmApply, pmmiAllocFrame, if_neg hhead, if_pos hgo, if_neg hcurpos, hnext.1]
      have hframe : R.Frame (s.pmm.kPmmCursor + kPageSize) s.pmm.kPmmCursor :=
        ⟨hI.cursorAligned, hI.start_le, by simp only [kPageSize]; omega⟩
      have hout : s.pmm.kPmmCursor ∉ s.outstanding := fun h => Nat.lt_irrefl _ (hI.out _ h).lt
      rw [halloc]
      refine ⟨hcurpos, ⟨hout, hI.cursorAligned, hI.start_le, hnext.2,
        fun i hi => fill_frame_zero hi⟩, l, ?_⟩
      · refine hI.handOut hI.chain hI.nodup (fun a ha => ha) hframe
          (fun h => Nat.lt_irrefl _ (hI.free _ h).lt) hout (Nat.le_add_right _ _) hnext.2 ?_ ?_ ?_
        · have := hI.cursorAligned
          simp only [kPageSize] at *
          omega
        · intro a ha
          by_cases hac : a < s.pmm.kPmmCursor
          · rcases hI.cover a ⟨ha.aligned, ha.le, hac⟩ with h | h
            · exact .inl h
            · exact .inr (.inr h)
          · right
            left
            have h₁ := ha.aligned
            have h₂ := ha.lt
            have h₃ := hI.cursorAligned
            simp only [kPageSize] at *
            omega
        · have h₁ := hI.count
          have h₂ := hI.start_le
          simp only [kPageSize] at *
          omega
    · -- nothing is left
      left
      have hcur : s.pmm.kPmmCursor = R.fin := by
        have := hI.cursor_le
        omega
      refine ⟨?_, ?_, ?_⟩
      · simp [pmmApply, pmmiAllocFrame, hhead, hI.fin, hlt]
      · simp [pmmApply, pmmiAllocFrame, hhead, hI.fin, hlt]
      · rw [hI.freeFrames, hnil, hcur]
        simp

/-- A frame that is given back goes in front of the free list; anything else is ignored. -/
theorem PmmInv.free_call (hI : PmmInv R s l) (hok : PmmOk s (.free frame)) :
    ∃ l', PmmInv R (pmmApply s (.free frame)).2 l' := by
  by_cases hout : frame ∈ s.outstanding
  · have hframe := hI.out frame hout
    -- a frame that is out passes every guard
    have hacc : ¬ freeRejects s.pmm frame := by
      rintro (h | h | h | h)
      · exact hframe.ne_zero h
      · exact h hframe.aligned
      · have := hframe.le
        rw [hI.base] at h
        omega
      · have := hframe.lt
        omega
    have hcard : (s.outstanding.erase frame).card + 1 = s.outstanding.card :=
      Finset.card_erase_add_one hout
    have hhead : s.pmm.kPmmFreeHead < 256 ^ 8 := by
      by_cases h0 : s.pmm.kPmmFreeHead = 0
      · rw [h0]; decide
      · obtain ⟨l', hl, -⟩ := hI.chain.pop h0
        have h₁ := (hI.free _ (hl ▸ List.mem_cons_self)).lt
        have h₂ := hI.cursor_le
        have h₃ := R.bound
        omega
    refine ⟨frame :: l, ?_⟩
    simp only [pmmApply, pmmiFreeFrame, hacc, ↓reduceIte]
    refine ⟨hI.base, hI.fin, hI.cursorAligned, hI.start_le, hI.cursor_le, ?_, ?_, ?_, ?_, ?_, ?_,
      ?_, ?_, ?_⟩
    · refine hI.chain.push hframe.ne_zero ?_ fun a ha => ?_
      · rw [getLE_putLE_same, Nat.mod_eq_of_lt hhead]
      · apply getLE_putLE_of_disjoint
        have := (hI.free a ha).apart hframe fun h => hI.disjoint a ha (h ▸ hout)
        simp only [kPageSize] at *
        omega
    · exact List.nodup_cons.mpr ⟨fun h => hI.disjoint _ h hout, hI.nodup⟩
    · exact List.forall_mem_cons.mpr ⟨hframe, hI.free⟩
    · exact fun a ha => hI.out a (Finset.mem_of_mem_erase ha)
    · refine List.forall_mem_cons.mpr ⟨Finset.notMem_erase _ _, fun a ha h => ?_⟩
      exact hI.disjoint a ha (Finset.mem_of_mem_erase h)
    · intro a ha
      by_cases hne : a = frame
      · exact .inl (hne ▸ List.mem_cons_self)
      · rcases hI.cover a ha with h | h
        · exact .inl (List.mem_cons_of_mem _ h)
        · exact .inr (Finset.mem_erase.mpr ⟨hne, h⟩)
    · have := hI.count
      simp only [List.length_cons]
      omega
    -- the counters move by one frame and still fit their words
    all_goals
      have h₁ := hI.counters
      have h₂ := hI.usedFrames
      have h₃ := hI.freeFrames
      have h₄ := R.bound
      simp only [Region.frames, kPageSize, u64, List.length_cons] at *
      omega
  · -- what is not out has to be turned away, and then nothing happens
    have hrej : freeRejects s.pmm frame := hok.resolve_left hout
    refine ⟨l, ?_⟩
    simp only [pmmApply, pmmiFreeFrame, hrej, ↓reduceIte, Finset.erase_eq_of_notMem hout]
    exact hI

theorem pmmInv_step {c : PmmCall} (hI : ∃ l, PmmInv R s l) (hok : PmmOk s c) (h : PmmStep s c s') :
    ∃ l, PmmInv R s' l := by
  obtain ⟨l, hI⟩ := hI
  subst h
  cases c with
  | alloc =>
      rcases hI.alloc with ⟨-, hs, -⟩ | ⟨-, -, hI'⟩
      · exact ⟨l, by rwa [hs]⟩
      · exact hI'
  | free frame => exact hI.free_call hok
  | write frame a n src =>
      obtain ⟨hf, ha, han⟩ := hok
      exact ⟨l, hI.write hf (OnlyAt.blit ha han)⟩

/-! ## What `pmmi_init` sets up -/

/-- The region of `pmmi_init`, rounded to pages. -/
def region (base sz : Nat) (hbase : 0 < base) (hwrap : base + sz + (kPageSize - 1) < 2 ^ 64)
    (hne : pageDown (base + (kPageSize - 1)) < pageDown (base + sz)) : Region where
  start := pageDown (base + (kPageSize - 1))
  fin := pageDown (base + sz)
  start_pos := by
    simp only [pageDown, pageOffset, kPageSize]
    omega
  lt := hne
  bound := (pageDown_le (base + sz)).trans_lt (by omega)
  aligned := pageDown_aligned (base + (kPageSize - 1))
  aligned' := pageDown_aligned (base + sz)

/-- A region just handed over: no frame is cut from it yet. -/
theorem pmmInv_fresh (R : Region) (p : Pmm) :
    PmmInv R
      { pmm := { p with
          kPmmBase := R.start
          kPmmCursor := R.start
          kPmmEnd := R.fin
          kPmmFreeHead := 0
          kPmmFree := (R.fin - R.start) / kPageSize
          kPmmUsed := 0 }
        outstanding := ∅ } [] := by
  refine ⟨rfl, rfl, R.aligned, Nat.le_refl _, Nat.le_of_lt R.lt, .nil, .nil, by simp, by simp,
    by simp, ?_, by simp, by simp, by simp⟩
  intro a ha
  exact absurd ha.lt (Nat.not_lt.mpr ha.le)

theorem pmmInv_init (p : Pmm) {base sz : Nat} (hbase : 0 < base)
    (hwrap : base + sz + (kPageSize - 1) < 2 ^ 64)
    (hne : pageDown (base + (kPageSize - 1)) < pageDown (base + sz)) :
    PmmInv (region base sz hbase hwrap hne) { pmm := pmmiInit p base sz, outstanding := ∅ } [] := by
  have hinit : pmmiInit p base sz = { p with
      kPmmBase := pageDown (base + (kPageSize - 1))
      kPmmCursor := pageDown (base + (kPageSize - 1))
      kPmmEnd := pageDown (base + sz)
      kPmmFreeHead := 0
      kPmmFree := (pageDown (base + sz) - pageDown (base + (kPageSize - 1))) / kPageSize
      kPmmUsed := 0 } := by
    rw [pmmiInit, u64_of_lt (by simp only [kPageSize] at *; omega), u64_of_lt (by omega)]
    simp only [if_neg (Nat.not_le.mpr hne)]
  rw [hinit]
  exact pmmInv_fresh (region base sz hbase hwrap hne) p

/-- **The allocator keeps its promises.** After one `pmmi_init` on a non-empty region and any run of
allocations, frees and writes of owners: the two counters add up to the frames of the region, the
used counter is the number of outstanding frames, and the next allocation either hands out a
zeroed frame of the region that is not outstanding, or returns `0` with no frame left. -/
theorem pmm_contract (p : Pmm) (base sz : Nat) (hbase : 0 < base)
    (hwrap : base + sz + (kPageSize - 1) < 2 ^ 64)
    (hne : pageDown (base + (kPageSize - 1)) < pageDown (base + sz))
    (hr : Reach PmmStep PmmOk { pmm := pmmiInit p base sz, outstanding := ∅ } s) :
    pmmiFreeFrames s.pmm + pmmiUsedFrames s.pmm = (region base sz hbase hwrap hne).frames ∧
      pmmiUsedFrames s.pmm = s.outstanding.card ∧
      ((pmmApply s .alloc).1 = 0 → pmmiFreeFrames s.pmm = 0) ∧
      ((pmmApply s .alloc).1 ≠ 0 →
        Handed (region base sz hbase hwrap hne) s (pmmApply s .alloc).1 (pmmApply s .alloc).2) := by
  obtain ⟨l, hI⟩ : ∃ l, PmmInv (region base sz hbase hwrap hne) s l :=
    hr.inv ⟨[], pmmInv_init p hbase hwrap hne⟩ fun _ _ _ hI hok hst => pmmInv_step hI hok hst
  refine ⟨hI.counters, hI.usedFrames, ?_, ?_⟩
  · intro h0
    rcases hI.alloc with ⟨-, -, hfree⟩ | ⟨hne0, -⟩
    · exact hfree
    · exact absurd h0 hne0
  · intro hne0
    rcases hI.alloc with ⟨h0, -⟩ | ⟨-, hh, -⟩
    · exact absurd h0 hne0
    · exact hh

/-- An allocator nothing has been handed to yet. -/
def zeroPmm : Pmm where
  mem := zeros
  kPmmBase := 0
  kPmmCursor := 0
  kPmmEnd := 0
  kPmmFreeHead := 0
  kPmmFree := 0
  kPmmUsed := 0

/-- Two frames, one of them handed out. -/
def twoFrames : PmmRun := (pmmApply { pmm := pmmiInit zeroPmm 0x1000 0x2000, outstanding := ∅ } .alloc).2

theorem pmm_contract_two : twoFrames.outstanding = {0x1000} ∧
    pmmiFreeFrames twoFrames.pmm + pmmiUsedFrames twoFrames.pmm = 2 ∧
      pmmiUsedFrames twoFrames.pmm = 1 ∧ (pmmApply twoFrames .alloc).1 = 0x2000 ∧
      (pmmApply twoFrames .alloc).1 ∉ twoFrames.outstanding := by
  obtain ⟨hsum, hused, -, hhand⟩ := pmm_contract zeroPmm 0x1000 0x2000 (by decide) (by decide)
    (by decide) (.step .alloc .init trivial rfl : Reach PmmStep PmmOk _ twoFrames)
  exact ⟨rfl, hsum, hused, rfl, (hhand (by decide)).fresh⟩

end NeKernel.HALKit
