import NeKernel.HALKit.PhysicalMemory

/-!
# Frees of any value

`pmmi_free_frame` given anything, in any state `pmmi_init`, `pmmi_alloc_frame`, earlier frees and the
owners' writes lead to: a region that could not be taken included, and a second region after the
first.

The guards read the range below the cursor only. Of the frames in it the invariant leaves two kinds,
those handed out and those on the free list (`PmmInv.cover`), and the guards let both pass. So a free
is right exactly when what it names is turned away by them or is not on the free list
(`freed_iff_spared`).
-/

namespace NeKernel.HALKit

open ByteStore Runs Threaded

inductive FrameCall where
  | init (base sz : Nat)
  | call (c : PmmCall)

/-- `end <= start` in `pmmi_init`. -/
def initRefused (base sz : Nat) : Prop :=
  pageDown (u64 (base + sz)) ≤ pageDown (u64 (base + (kPageSize - 1)))

instance (base sz : Nat) : Decidable (initRefused base sz) := by
  unfold initRefused
  infer_instance

/-- A region that is taken starts with no frame handed out; one that is not leaves those of the
region before it out. -/
def frameApply (s : PmmRun) : FrameCall → PmmRun
  | .init base sz =>
      { pmm := pmmiInit s.pmm base sz
        outstanding := if initRefused base sz then s.outstanding else ∅ }
  | .call c => (pmmApply s c).2

def FrameStep (s : PmmRun) (c : FrameCall) (s' : PmmRun) : Prop := s' = frameApply s c

/-- Following the links from the head of the free list never meets `frame`. -/
def NotListed (p : Pmm) (frame : Nat) : Prop :=
  ∀ l, Chain (fun a => getLE p.mem a 8) 0 p.kPmmFreeHead l → frame ∉ l

/-- The free names a value the guards turn away, or a frame that is not on the free list. -/
def Spared (p : Pmm) (frame : Nat) : Prop := freeRejects p frame ∨ NotListed p frame

/-- Every free is spared, and owners write inside their frames. -/
def SparedOk (s : PmmRun) : FrameCall → Prop
  | .init _ _ => True
  | .call (.free frame) => Spared s.pmm frame
  | .call c => PmmOk s c

/-- A free changes the allocator only if it names a frame that is handed out. -/
def FreesHandedOut (s : PmmRun) (frame : Nat) : Prop :=
  pmmiFreeFrame s.pmm frame ≠ s.pmm → frame ∈ s.outstanding

/-- There is a region and its frames are accounted for, or there is none: the cursor is `0`, and
whatever the free list holds nothing can be given back. -/
def FramesInv (s : PmmRun) : Prop := s.pmm.kPmmCursor = 0 ∨ ∃ R l, PmmInv R s l

variable {R : Region} {s s' : PmmRun} {l : List Nat} {frame : Nat}

/-- A free that is not turned away counts one frame more. -/
theorem pmmiFreeFrame_ne (p : Pmm) (hacc : ¬ freeRejects p frame) : pmmiFreeFrame p frame ≠ p := by
  intro heq
  have hfree := congrArg Pmm.kPmmFree heq
  simp only [pmmiFreeFrame, if_neg hacc, u64] at hfree
  omega

theorem freeRejects_of_cursor {p : Pmm} (h : p.kPmmCursor = 0) (frame : Nat) :
    freeRejects p frame := .inr (.inr (.inr (h ▸ Nat.zero_le _)))

/-- What the guards let pass is a frame below the cursor. -/
theorem PmmInv.frame_of_accepted (hI : PmmInv R s l) (hacc : ¬ freeRejects s.pmm frame) :
    R.Frame s.pmm.kPmmCursor frame := by
  simp only [freeRejects, not_or, not_not, Nat.not_lt, ge_iff_le, Nat.not_le] at hacc
  obtain ⟨-, haligned, hbase, hcursor⟩ := hacc
  exact ⟨haligned, hI.base ▸ hbase, hcursor⟩

theorem PmmInv.freed_iff (hI : PmmInv R s l) (frame : Nat) :
    FreesHandedOut s frame ↔ Spared s.pmm frame := by
  by_cases hrej : freeRejects s.pmm frame
  · refine iff_of_true (fun hne => absurd ?_ hne) (.inl hrej)
    rw [pmmiFreeFrame, if_pos hrej]
  · have hcover := hI.cover frame (hI.frame_of_accepted hrej)
    constructor
    · intro h
      refine .inr fun l' hl' hmem => ?_
      rw [← hI.chain.unique hl'] at hmem
      exact hI.disjoint frame hmem (h (pmmiFreeFrame_ne s.pmm hrej))
    · rintro (h | h)
      · exact absurd h hrej
      · exact fun _ => hcover.resolve_left (h l hI.chain)

theorem FramesInv.freed_iff (hI : FramesInv s) (frame : Nat) :
    FreesHandedOut s frame ↔ Spared s.pmm frame := by
  rcases hI with h0 | ⟨R, l, hI⟩
  · have hrej := freeRejects_of_cursor h0 frame
    refine iff_of_true (fun hne => absurd ?_ hne) (.inl hrej)
    rw [pmmiFreeFrame, if_pos hrej]
  · exact hI.freed_iff frame

/-! ## Every step keeps the frames accounted for -/

/-- The region `pmmi_init` takes, whatever it is given, unless it is empty or starts at `0`. -/
def initRegion (base sz : Nat) (hpos : 0 < pageDown (u64 (base + (kPageSize - 1))))
    (hgo : ¬ initRefused base sz) : Region where
  start := pageDown (u64 (base + (kPageSize - 1)))
  fin := pageDown (u64 (base + sz))
  start_pos := hpos
  lt := Nat.not_le.mp hgo
  bound := (pageDown_le (u64 (base + sz))).trans_lt (u64_lt (base + sz))
  aligned := pageDown_aligned (u64 (base + (kPageSize - 1)))
  aligned' := pageDown_aligned (u64 (base + sz))

theorem framesInv_init (s : PmmRun) (base sz : Nat) : FramesInv (frameApply s (.init base sz)) := by
  by_cases hgo : initRefused base sz
  · left
    simp only [frameApply, pmmiInit, if_pos (show _ ≤ _ from hgo)]
  · by_cases hpos : 0 < pageDown (u64 (base + (kPageSize - 1)))
    · right
      refine ⟨initRegion base sz hpos hgo, [], ?_⟩
      simp only [frameApply, pmmiInit, if_neg hgo, if_neg (show ¬ _ ≤ _ from hgo)]
      exact pmmInv_fresh (initRegion base sz hpos hgo) s.pmm
    · left
      simp only [frameApply, pmmiInit, if_neg (show ¬ _ ≤ _ from hgo)]
      omega

/-- With the cursor at `0` only frames already on the free list can still be handed out, and nothing
moves the cursor. -/
theorem cursor_zero_step (h0 : s.pmm.kPmmCursor = 0) (c : PmmCall) :
    (pmmApply s c).2.pmm.kPmmCursor = 0 := by
  cases c with
  | alloc =>
      simp only [pmmApply, pmmiAllocFrame, h0]
      split <;> simp [takeFrame, h0]
  | free frame =>
      simp only [pmmApply, pmmiFreeFrame, if_pos (freeRejects_of_cursor h0 frame), h0]
  | write frame a n src => exact h0

theorem framesInv_step {c : FrameCall} (hI : FramesInv s) (hok : SparedOk s c)
    (h : FrameStep s c s') : FramesInv s' := by
  subst h
  cases c with
  | init base sz => exact framesInv_init s base sz
  | call c =>
      rcases hI with h0 | ⟨R, l, hI⟩
      · exact .inl (cursor_zero_step h0 c)
      · have hok' : PmmOk s c := by
          cases c with
          | alloc => trivial
          | write frame a n src => exact hok
          | free frame =>
              by_cases hrej : freeRejects s.pmm frame
              · exact .inr hrej
              · exact .inl ((hI.freed_iff frame).mpr hok (pmmiFreeFrame_ne s.pmm hrej))
        exact .inr ⟨R, pmmInv_step ⟨l, hI⟩ hok' rfl⟩

/-- The zeroed statics over any memory. -/
def atBoot (m : Store) : PmmRun := { pmm := { zeroPmm with mem := m }, outstanding := ∅ }

/-- **A frame that is free already is freed again.** After any run of the allocator, whatever
regions it was handed and however often that failed, whose frees are all spared: a free of any value
whatever touches the allocator only for a frame that is handed out exactly when it is spared. -/
theorem freed_iff_spared (m : Store) (hr : Reach FrameStep SparedOk (atBoot m) s) (frame : Nat) :
    FreesHandedOut s frame ↔ Spared s.pmm frame := by
  have hI : FramesInv s := hr.inv (.inl rfl) fun _ _ _ hI hok hst => framesInv_step hI hok hst
  exact hI.freed_iff frame

/-- One of two frames is handed out and given back. -/
def givenBack : PmmRun :=
  frameApply (frameApply (frameApply (atBoot zeros) (.init 0x1000 0x2000)) (.call .alloc))
    (.call (.free 0x1000))

theorem notListed_out : NotListed (frameApply (frameApply (atBoot zeros) (.init 0x1000 0x2000))
    (.call .alloc)).pmm 0x1000 := by
  intro l hl
  rw [show l = [] from Chain.eq_nil hl]
  exact List.not_mem_nil

theorem givenBack_reach : Reach FrameStep SparedOk (atBoot zeros) givenBack := by
  have hinit : Reach FrameStep SparedOk (atBoot zeros) _ := .step (.init 0x1000 0x2000) .init trivial rfl
  exact .step (.call (.free 0x1000)) (.step (.call .alloc) hinit trivial rfl) (.inr notListed_out) rfl

theorem freed_iff_spared_second : ¬ Spared givenBack.pmm 0x1000 ∧ 0x1000 ∉ givenBack.outstanding ∧
    pmmiFreeFrame givenBack.pmm 0x1000 ≠ givenBack.pmm := by
  have hout : 0x1000 ∉ givenBack.outstanding := by decide
  have hne : pmmiFreeFrame givenBack.pmm 0x1000 ≠ givenBack.pmm := pmmiFreeFrame_ne _ (by decide)
  refine ⟨fun h => hout ?_, hout, hne⟩
  exact (freed_iff_spared zeros givenBack_reach 0x1000).mpr h hne

/-- The second free of a frame is taken: three frames are now free of the two there are. -/
theorem freed_twice : ¬ ∀ (m : Store) (s : PmmRun),
    Reachable FrameStep (atBoot m) s → ∀ frame, FreesHandedOut s frame := by
  intro h
  have hr : Reachable FrameStep (atBoot zeros) givenBack := givenBack_reach.mono fun _ _ _ => trivial
  exact absurd (h zeros givenBack hr 0x1000 (pmmiFreeFrame_ne _ (by decide))) (by decide)

end NeKernel.HALKit
