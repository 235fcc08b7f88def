import NeKernel.Heap.HeapMgr
import NeKernel.Lib.Runs

/-!
# The blocks of the heap

Runs of heap operations, with the blocks handed out so far kept beside the heap. As long as every
request fits, blocks are stacked one behind the other (`Stacked`), the region ahead of them is
still zero, and so are the 35 bytes in the middle of each block that neither of its headers
covers.

Three things follow. The bitmap header of a block reaches back over the last eight bytes of the
block before it unless that one was asked for with eight bytes of pad (`disjoint_iff_padded`). The
header that `mm_free_ptr` and `mm_is_valid_ptr` look for is in the uncovered middle, where no
magic ever stands, so no pointer is ever valid or freed (`free_never_succeeds`). And a request that
does not fit is not refused (`allocContract_iff`).
-/

namespace NeKernel.Heap

open ByteStore Runs

/-- A block handed out by `mm_alloc_ptr`: outstanding until it is passed to `mm_free_ptr`. -/
structure Block where
  ptr : Nat
  sz : Nat
  pad : Nat
  outstanding : Bool
  deriving DecidableEq

/-- A heap and the blocks handed out, the newest first. -/
structure HeapRun where
  heap : HeapState
  blocks : List Block

inductive Call where
  | alloc (sz : Nat) (wr user : Bool) (pad : Nat)
  | free (p : Nat)
  | write (p a n : Nat) (src : Store)
  | protect (p : Nat)
  | setFlags (p flags : Nat)
  | ctlPage (p : Nat) (enable : Bool)

/-- The block at `p` is outstanding. -/
def HeapRun.Holds (s : HeapRun) (b : Block) : Prop := b ∈ s.blocks ∧ b.outstanding = true

/-- The request fits: it is not over the largest size once both headers are added, and what is
left of the region has room for the three words, both headers, the bytes and the pad. -/
def Fits (h : HeapState) (sz pad : Nat) : Prop :=
  sz + kHeapMgrHdrSz ≤ kBitMapMaxSz ∧
    h.kBitMapCursor + (8 * kBitMapSz + kHeapMgrHdrSz + sz + pad) ≤ h.kKernelBitMpSize

/-- The calls of an orderly caller: requests that fit or ask for nothing, frees and changes of
outstanding pointers, and writes of owners inside their own bytes. -/
def Orderly (s : HeapRun) : Call → Prop
  | .alloc sz _ _ pad => sz = 0 ∨ Fits s.heap sz pad
  | .free p => ∃ b, s.Holds b ∧ b.ptr = p
  | .write p a n _ => ∃ b, s.Holds b ∧ b.ptr = p ∧ p ≤ a ∧ a + n ≤ p + b.sz
  | .protect p => ∃ b, s.Holds b ∧ b.ptr = p
  | .setFlags p _ => ∃ b, s.Holds b ∧ b.ptr = p
  | .ctlPage p _ => ∃ b, s.Holds b ∧ b.ptr = p

/-- One call. `none` when it does not return. -/
def applyCall (s : HeapRun) : Call → Option HeapRun
  | .alloc sz wr user pad => (mmAllocPtr s.heap sz wr user pad).map fun r =>
      { heap := r.2
        blocks := if r.1 = 0 then s.blocks else ⟨r.1, sz, pad, true⟩ :: s.blocks }
  | .free p => (mmFreePtr s.heap p).map fun r =>
      { heap := r.2
        blocks := s.blocks.map fun b => if b.ptr = p then { b with outstanding := false } else b }
  | .write _ a n src => some { s with heap := { s.heap with mem := blit s.heap.mem a n src } }
  | .protect p => some { s with heap := { s.heap with mem := (mmProtectPtr s.heap.mem p).2 } }
  | .setFlags p flags =>
      some { s with heap := { s.heap with mem := (mmSetPtrFlags s.heap.mem p flags).2 } }
  | .ctlPage p enable =>
      some { s with heap := { s.heap with mem := (mmCtlPage s.heap.mem p enable).2 } }

def Step (s : HeapRun) (c : Call) (s' : HeapRun) : Prop := applyCall s c = some s'

/-- A fresh heap: the region is zero and the cursor at its start. -/
structure FreshHeap (h : HeapState) : Prop where
  cursor : h.kBitMapCursor = 0
  noWrap : h.kKernelBitMpStart + h.kKernelBitMpSize ≤ 2 ^ 64
  zero : ∀ x, h.kKernelBitMpStart ≤ x → x < h.kKernelBitMpStart + h.kKernelBitMpSize → h.mem x = 0

/-! ## The shape of the heap -/

/-- Blocks stacked from `start` on, the newest first, with the cursor behind them. A block has its
bitmap header at the cursor it found, its information block 59 bytes on, and moves the cursor by
its size, its pad, both headers and the alignment. -/
inductive Stacked (start : Nat) : Nat → List Block → Prop
  | nil : Stacked start 0 []
  | cons {cursor : Nat} {b : Block} {bs : List Block} : Stacked start cursor bs → b.sz ≠ 0 →
      b.ptr = start + cursor + 94 → Stacked start (cursor + (86 + b.sz + b.pad)) (b :: bs)

/-- The middle of a block that neither header covers is zero. -/
def GapZero (m : Store) (b : Block) : Prop := ∀ x, b.ptr - 70 ≤ x → x < b.ptr - 35 → m x = 0

/-- The heap invariant. -/
structure HeapInv (s : HeapRun) : Prop where
  noWrap : s.heap.kKernelBitMpStart + s.heap.kKernelBitMpSize ≤ 2 ^ 64
  stacked : Stacked s.heap.kKernelBitMpStart s.heap.kBitMapCursor s.blocks
  room : s.blocks ≠ [] → s.heap.kBitMapCursor + 8 ≤ s.heap.kKernelBitMpSize
  ahead : ∀ x, s.heap.kKernelBitMpStart + s.heap.kBitMapCursor + 8 ≤ x →
    x < s.heap.kKernelBitMpStart + s.heap.kKernelBitMpSize → s.heap.mem x = 0
  gaps : ∀ b ∈ s.blocks, GapZero s.heap.mem b

variable {s s' : HeapRun} {start cursor : Nat} {bs : List Block} {b c : Block}

/-- Every block lies between the start and eight bytes past the cursor. -/
theorem Stacked.bounds (h : Stacked start cursor bs) (hb : b ∈ bs) :
    start + 94 ≤ b.ptr ∧ b.ptr + b.sz + b.pad ≤ start + cursor + 8 ∧ b.sz ≠ 0 := by
  induction h with
  | nil => cases hb
  | cons hst hsz hptr ih =>
      rcases List.mem_cons.mp hb with rfl | hb
      · exact ⟨by omega, by omega, hsz⟩
      · obtain ⟨h₁, h₂, h₃⟩ := ih hb
        exact ⟨h₁, by omega, h₃⟩

theorem Stacked.cursor_nil (h : Stacked start cursor []) : cursor = 0 := by
  cases h
  rfl

/-- A newer block starts at most eight bytes before the end of an older one. -/
theorem Stacked.pairwise (h : Stacked start cursor bs) :
    bs.Pairwise fun b c => c.ptr + c.sz + c.pad + 86 ≤ b.ptr := by
  induction h with
  | nil => exact .nil
  | cons hst hsz hptr ih =>
      refine .cons ?_ ih
      intro c hc
      obtain ⟨-, h₂, -⟩ := hst.bounds hc
      omega

/-- Two blocks of the stack are the same, or one is stacked on the other. -/
theorem Stacked.apart (h : Stacked start cursor bs) (hb : b ∈ bs) (hc : c ∈ bs) :
    b = c ∨ c.ptr + c.sz + c.pad + 86 ≤ b.ptr ∨ b.ptr + b.sz + b.pad + 86 ≤ c.ptr := by
  by_cases hbc : b = c
  · exact .inl hbc
  · right
    refine List.Pairwise.forall_of_forall_of_flip (R := fun b c : Block => b ≠ c →
      c.ptr + c.sz + c.pad + 86 ≤ b.ptr ∨ b.ptr + b.sz + b.pad + 86 ≤ c.ptr) ?_ ?_ ?_ hb hc hbc
    · intro x _ hx
      exact absurd rfl hx
    · exact h.pairwise.imp fun hle _ => .inl hle
    · exact h.pairwise.imp fun hle _ => .inr hle

/-- The blocks keep their places when their outstanding marks change. -/
theorem Stacked.marks (h : Stacked start cursor bs) (f : Block → Block)
    (hf : ∀ b, (f b).ptr = b.ptr ∧ (f b).sz = b.sz ∧ (f b).pad = b.pad) :
    Stacked start cursor (bs.map f) := by
  induction h with
  | nil => exact .nil
  | @cons cursor b bs hst hsz hptr ih =>
      obtain ⟨h₁, h₂, h₃⟩ := hf b
      rw [List.map_cons, ← h₂, ← h₃]
      exact .cons ih (by rwa [h₂]) (by rwa [h₁])

theorem HeapInv.cursor_le (hI : HeapInv s) : s.heap.kBitMapCursor ≤ s.heap.kKernelBitMpSize := by
  by_cases hnil : s.blocks = []
  · have h := hI.stacked
    rw [hnil] at h
    have := h.cursor_nil
    omega
  · have := hI.room hnil
    omega

theorem heapInv_fresh {h : HeapState} (hf : FreshHeap h) :
    HeapInv { heap := h, blocks := [] } where
  noWrap := hf.noWrap
  stacked := by
    show Stacked _ h.kBitMapCursor []
    rw [hf.cursor]
    exact .nil
  room := fun hne => absurd rfl hne
  ahead := fun x h₁ h₂ => hf.zero x (by simp only at h₁; omega) h₂
  gaps := fun b hb => by cases hb

/-- What is written inside the information block or the bytes of a block of the stack touches
neither the region ahead nor the middle of any block. -/
theorem HeapInv.write (hI : HeapInv s) (hb : b ∈ s.blocks) {mem : Store} {a n : Nat}
    (hm : OnlyAt s.heap.mem mem a n) (ha : b.ptr - 35 ≤ a) (han : a + n ≤ b.ptr + b.sz) :
    HeapInv { s with heap := { s.heap with mem := mem } } where
  noWrap := hI.noWrap
  stacked := hI.stacked
  room := hI.room
  ahead := by
    intro x h₁ h₂
    simp only at h₁ h₂ ⊢
    obtain ⟨-, hend, -⟩ := hI.stacked.bounds hb
    rw [hm x (by omega)]
    exact hI.ahead x h₁ h₂
  gaps := by
    intro c hc x h₁ h₂
    simp only at hc ⊢
    obtain ⟨hlow, -, -⟩ := hI.stacked.bounds hb
    obtain ⟨hlow', -, -⟩ := hI.stacked.bounds hc
    have : x < a ∨ a + n ≤ x := by
      rcases hI.stacked.apart hb hc with rfl | h | h <;> omega
    rw [hm x this]
    exact hI.gaps c hc x h₁ h₂

/-- The header that validity and freeing look for is in the uncovered middle. -/
theorem HeapInv.notBitMap (hI : HeapInv s) (hb : b ∈ s.blocks) :
    isBitMap s.heap.mem (b.ptr - kHeapMgrHdrSz) = false := by
  obtain ⟨hlow, -, -⟩ := hI.stacked.bounds hb
  have hzero : bitSet s.heap.mem (b.ptr - kHeapMgrHdrSz) kBitMapMagIdx = 0 := by
    rw [bitSet, getLE_eq_zero_iff]
    intro i hi
    apply hI.gaps b hb <;> simp only [kHeapMgrHdrSz, infoSz, kBitMapMagIdx] <;> omega
  unfold isBitMap
  split
  · rfl
  · rw [hzero]
    decide

theorem HeapInv.used_zero (hI : HeapInv s) {sz pad : Nat} (hfit : Fits s.heap sz pad) :
    bitSet s.heap.mem (s.heap.kKernelBitMpStart + s.heap.kBitMapCursor) kBitMapUsedIdx = 0 := by
  obtain ⟨-, hfit⟩ := hfit
  simp only [kBitMapSz, kHeapMgrHdrSz, infoSz] at hfit
  rw [bitSet, getLE_eq_zero_iff]
  intro i hi
  apply hI.ahead <;> simp only [kBitMapUsedIdx] <;> omega

/-- A request that fits gets the block at the cursor. -/
theorem HeapInv.alloc (hI : HeapInv s) {sz pad : Nat} (wr user : Bool) (hsz : sz ≠ 0)
    (hfit : Fits s.heap sz pad) :
    ∃ h', mmAllocPtr s.heap sz wr user pad =
        some (s.heap.kKernelBitMpStart + s.heap.kBitMapCursor + 94, h') ∧
      h'.kKernelBitMpStart = s.heap.kKernelBitMpStart ∧
      h'.kKernelBitMpSize = s.heap.kKernelBitMpSize ∧
      h'.kBitMapCursor = s.heap.kBitMapCursor + (86 + sz + pad) ∧
      HeapInv { heap := h'
                blocks := ⟨s.heap.kKernelBitMpStart + s.heap.kBitMapCursor + 94, sz, pad, true⟩ ::
                  s.blocks } := by
  have hused := hI.used_zero hfit
  obtain ⟨hmax, hroom⟩ := hfit
  have hnw := hI.noWrap
  simp only [kBitMapSz, kHeapMgrHdrSz, infoSz] at hroom
  obtain ⟨h', halloc, hstart, hsize, hcur, hmem⟩ :=
    mmAllocPtr_fits wr user hsz hmax rfl (show _ + 94 + sz + pad ≤ _ by omega) hused
  refine ⟨h', halloc, hstart, hsize, hcur, ?_, ?_, ?_, ?_, ?_⟩
  · simp only [hstart, hsize]
    exact hnw
  · simp only [hstart, hcur]
    exact .cons (b := ⟨_, sz, pad, true⟩) hI.stacked hsz rfl
  · intro _
    simp only [hsize, hcur]
    omega
  · intro x h₁ h₂
    simp only [hstart, hsize, hcur] at h₁ h₂ ⊢
    rw [hmem x (by omega) (by omega)]
    exact hI.ahead x (by omega) h₂
  · -- the gap of the new block was ahead of the cursor, the others are below
    intro c hc x h₁ h₂
    simp only at hc ⊢
    rcases List.mem_cons.mp hc with rfl | hc
    · simp only at h₁ h₂
      rw [hmem x (by omega) (by omega)]
      exact hI.ahead x (by omega) (by omega)
    · obtain ⟨hlow, hend, -⟩ := hI.stacked.bounds hc
      rw [hmem x (by omega) (by omega)]
      exact hI.gaps c hc x h₁ h₂

theorem HeapInv.free (hI : HeapInv s) (hb : b ∈ s.blocks) :
    mmIsValidPtr s.heap.mem b.ptr = false ∧
      mmFreePtr s.heap b.ptr = some (kErrorHeapNotPresent, s.heap) :=
  refused_of_notBitMap (hI.notBitMap hb)

/-- Every orderly call returns and keeps the invariant. -/
theorem heapInv_step {cl : Call} (hI : HeapInv s) (hok : Orderly s cl) (h : Step s cl s') :
    HeapInv s' := by
  unfold Step at h
  cases cl with
  | alloc sz wr user pad =>
      simp only [applyCall] at h
      by_cases hsz : sz = 0
      · simp only [mmAllocPtr, hsz, ↓reduceIte, Option.map_some, Option.some.injEq] at h
        exact h ▸ hI
      · obtain ⟨h', halloc, -, -, -, hI'⟩ := hI.alloc wr user hsz (hok.resolve_left hsz)
        simp only [halloc, Option.map_some, Option.some.injEq] at h
        rw [if_neg (by omega)] at h
        exact h ▸ hI'
  | free p =>
      obtain ⟨b, ⟨hb, -⟩, rfl⟩ := hok
      simp only [applyCall, (hI.free hb).2, Option.map_some, Option.some.injEq] at h
      subst h
      -- the heap refuses the pointer, so only the mark of the block changes
      have hf : ∀ c : Block, (if c.ptr = b.ptr then { c with outstanding := false } else c).ptr =
          c.ptr ∧ (if c.ptr = b.ptr then { c with outstanding := false } else c).sz = c.sz ∧
          (if c.ptr = b.ptr then { c with outstanding := false } else c).pad = c.pad := by
        intro c
        split <;> exact ⟨rfl, rfl, rfl⟩
      refine ⟨hI.noWrap, hI.stacked.marks _ hf, ?_, hI.ahead, ?_⟩
      · intro hne
        exact hI.room fun hnil => hne (by simp only [hnil, List.map_nil])
      · intro c hc x h₁ h₂
        obtain ⟨d, hd, rfl⟩ := List.mem_map.mp hc
        rw [(hf d).1] at h₁ h₂
        exact hI.gaps d hd x h₁ h₂
  | write p a n src =>
      obtain ⟨b, ⟨hb, -⟩, rfl, ha, han⟩ := hok
      simp only [applyCall, Option.some.injEq] at h
      subst h
      exact hI.write hb (OnlyAt.blit (Nat.le_refl a) (Nat.le_refl (a + n))) (by omega) han
  | protect p =>
      obtain ⟨b, ⟨hb, -⟩, rfl⟩ := hok
      simp only [applyCall, Option.some.injEq] at h
      subst h
      obtain ⟨hlow, hend, hsz⟩ := hI.stacked.bounds hb
      have hroom := hI.room (List.ne_nil_of_mem hb)
      have hnw := hI.noWrap
      have hinfo : infoSz = 35 := rfl
      exact hI.write hb (onlyAt_mmProtectPtr (by omega) (by omega)) (by omega) (by omega)
  | setFlags p flags =>
      obtain ⟨b, ⟨hb, -⟩, rfl⟩ := hok
      have hinv : mmCheckPtrAddress s.heap.mem b.ptr = false := (hI.free hb).1
      simp only [applyCall, mmSetPtrFlags, hinv, ↓reduceIte, Option.some.injEq] at h
      exact h ▸ hI
  | ctlPage p enable =>
      obtain ⟨b, ⟨hb, -⟩, rfl⟩ := hok
      have hinv : mmCheckPtrAddress s.heap.mem b.ptr = false := (hI.free hb).1
      simp only [applyCall, mmCtlPage, hinv, ↓reduceIte, Option.some.injEq] at h
      exact h ▸ hI

theorem heapInv_reach {h : HeapState} (hf : FreshHeap h)
    (hr : Reach Step Orderly { heap := h, blocks := [] } s) : HeapInv s :=
  hr.inv (heapInv_fresh hf) fun _ _ _ hI hok hst => heapInv_step hI hok hst

/-! ## Which ranges overlap -/

/-- The byte ranges of a block: bitmap header, information block, the bytes of its owner. -/
def Block.ranges (b : Block) : List (Nat × Nat) :=
  [(b.ptr - infoSz - infoSz - 8 * kBitMapSz, 8 * kBitMapSz), (b.ptr - infoSz, infoSz), (b.ptr, b.sz)]

/-- Two ranges, each a start and a length, have no byte in common. -/
def DisjointRange (r r' : Nat × Nat) : Prop := r.1 + r.2 ≤ r'.1 ∨ r'.1 + r'.2 ≤ r.1

/-- All ranges of all outstanding blocks are pairwise disjoint. -/
def RangesDisjoint (s : HeapRun) : Prop :=
  ((s.blocks.filter Block.outstanding).flatMap Block.ranges).Pairwise DisjointRange

/-- A block that has an outstanding neighbour stacked on it was asked for with eight bytes of
pad, or is not outstanding itself. -/
def NeighboursPadded (s : HeapRun) : Prop :=
  s.blocks.IsChain fun newer older => newer.outstanding → older.outstanding → 8 ≤ older.pad

/-- A block at a distance is disjoint from the one behind it. -/
theorem ranges_disjoint_of_le (hlow : 94 ≤ b.ptr) (hc : 94 ≤ c.ptr)
    (h : c.ptr + c.sz + 94 ≤ b.ptr) :
    ∀ r ∈ b.ranges, ∀ r' ∈ c.ranges, DisjointRange r r' := by
  intro r hr r' hr'
  simp only [Block.ranges, List.mem_cons, List.not_mem_nil, or_false, infoSz, kBitMapSz] at hr hr'
  rcases hr with rfl | rfl | rfl <;> rcases hr' with rfl | rfl | rfl <;>
    simp only [DisjointRange] <;> omega

/-- Neighbours of the stack are disjoint exactly when the older one is padded. -/
theorem neighbours_disjoint_iff (hc : 94 ≤ c.ptr)
    (h : b.ptr = c.ptr + c.sz + c.pad + 86) :
    (∀ r ∈ b.ranges, ∀ r' ∈ c.ranges, DisjointRange r r') ↔ 8 ≤ c.pad := by
  constructor
  · intro hd
    have := hd _ (List.mem_cons_self) (c.ptr, c.sz) (by simp [Block.ranges])
    simp only [DisjointRange, infoSz, kBitMapSz] at this
    omega
  · intro hpad
    exact ranges_disjoint_of_le (by omega) hc (by omega)

theorem ranges_pairwise (hb : 94 ≤ b.ptr) : b.ranges.Pairwise DisjointRange := by
  simp only [Block.ranges, infoSz, kBitMapSz, List.pairwise_cons, DisjointRange, List.mem_cons,
    List.not_mem_nil, or_false, forall_eq_or_imp, forall_eq, List.Pairwise.nil, and_true,
    false_imp_iff, implies_true]
  omega

/-- Which outstanding blocks of a stack are disjoint is settled between neighbours. -/
theorem Stacked.pairwise_disjoint_iff (h : Stacked start cursor bs) :
    (bs.Pairwise fun b c => b.outstanding → c.outstanding →
        ∀ r ∈ b.ranges, ∀ r' ∈ c.ranges, DisjointRange r r') ↔
      bs.IsChain fun newer older => newer.outstanding → older.outstanding → 8 ≤ older.pad := by
  induction h with
  | nil => simp
  | @cons cursor b bs hst hsz hptr ih =>
      rw [List.pairwise_cons, ih]
      cases hst with
      | nil => simp
      | @cons cursor c bs hst hcsz hcptr =>
          rw [List.isChain_cons_cons]
          refine and_congr_left fun _ => ?_
          have hnear : (∀ r ∈ b.ranges, ∀ r' ∈ c.ranges, DisjointRange r r') ↔ 8 ≤ c.pad :=
            neighbours_disjoint_iff (by omega) (by omega)
          constructor
          · intro hall hbo hco
            exact hnear.mp (hall c List.mem_cons_self hbo hco)
          · intro hpad d hd hbo hdo
            rcases List.mem_cons.mp hd with rfl | hd
            · exact hnear.mpr (hpad hbo hdo)
            · -- a block further back ends before the neighbour begins
              obtain ⟨hlow, hend, -⟩ := hst.bounds hd
              exact ranges_disjoint_of_le (by omega) (by omega) (by omega)

/-- **Outstanding blocks are disjoint exactly where they are padded.** After every orderly run on a
fresh heap, the bytes, the information blocks and the bitmap headers of the outstanding blocks are
pairwise disjoint if and only if, of any two neighbours that are both outstanding, the older one
was asked for with eight bytes of pad. -/
theorem disjoint_iff_padded {h : HeapState} (hf : FreshHeap h)
    (hr : Reach Step Orderly { heap := h, blocks := [] } s) :
    RangesDisjoint s ↔ NeighboursPadded s := by
  have hI := heapInv_reach hf hr
  rw [NeighboursPadded, ← hI.stacked.pairwise_disjoint_iff, RangesDisjoint, List.pairwise_flatMap,
    List.pairwise_filter]
  refine and_iff_right fun b hb => ?_
  obtain ⟨hlow, -, -⟩ := hI.stacked.bounds (List.mem_filter.mp hb).1
  exact ranges_pairwise (by omega)

/-- A run goes on with any request that fits. -/
theorem reach_alloc {h : HeapState} (hf : FreshHeap h)
    (hr : Reach Step Orderly { heap := h, blocks := [] } s) {sz pad : Nat} (hsz : sz ≠ 0)
    (hfit : Fits s.heap sz pad) :
    ∃ h', Reach Step Orderly { heap := h, blocks := [] }
        { heap := h'
          blocks := ⟨s.heap.kKernelBitMpStart + s.heap.kBitMapCursor + 94, sz, pad, true⟩ ::
            s.blocks } ∧
      h'.kKernelBitMpStart = s.heap.kKernelBitMpStart ∧
      h'.kKernelBitMpSize = s.heap.kKernelBitMpSize ∧
      h'.kBitMapCursor = s.heap.kBitMapCursor + (86 + sz + pad) := by
  obtain ⟨h', halloc, hstart, hsize, hcur, -⟩ := (heapInv_reach hf hr).alloc true false hsz hfit
  refine ⟨h', .step (.alloc sz true false pad) hr (.inr hfit) ?_, hstart, hsize, hcur⟩
  simp only [Step, applyCall, halloc, Option.map_some, Option.some.injEq]
  rw [if_neg (by omega)]

/-- A page of zeroes as the region of a fresh heap. -/
def zeroHeap : HeapState where
  mem := zeros
  kKernelBitMpStart := 0x1000
  kKernelBitMpSize := 0x1000
  kBitMapCursor := 0
  biggest := 0

theorem zeroHeap_fresh : FreshHeap zeroHeap := ⟨rfl, by decide, fun _ _ _ => rfl⟩

/-- Two requests of 16 bytes on the zero page, each with `pad` bytes of pad. -/
theorem zeroHeap_two {pad : Nat} (hpad : pad ≤ 8) : ∃ s : HeapRun,
    Reach Step Orderly { heap := zeroHeap, blocks := [] } s ∧
      s.blocks = [⟨0x1000 + (102 + pad) + 94, 16, pad, true⟩, ⟨0x1000 + 94, 16, pad, true⟩] := by
  have hfit₀ : Fits zeroHeap 16 pad :=
    ⟨by decide, by simp only [zeroHeap, kBitMapSz, kHeapMgrHdrSz, infoSz]; omega⟩
  obtain ⟨h₁, hr₁, hstart, hsize, hcur⟩ := reach_alloc zeroHeap_fresh .init (by decide) hfit₀
  simp only [zeroHeap] at hstart hsize hcur
  have hfit : Fits h₁ 16 pad := by
    refine ⟨by decide, ?_⟩
    simp only [hcur, hsize, kBitMapSz, kHeapMgrHdrSz, infoSz]
    omega
  obtain ⟨h₂, hr₂, -⟩ := reach_alloc zeroHeap_fresh hr₁ (by decide) hfit
  refine ⟨_, hr₂, ?_⟩
  simp only [hstart, hcur, zeroHeap, List.cons.injEq, Block.mk.injEq, and_true]
  omega

/-- With eight bytes of pad the two blocks are disjoint. -/
theorem disjoint_iff_padded_two : ∃ s : HeapRun,
    Reach Step Orderly { heap := zeroHeap, blocks := [] } s ∧ s.blocks.length = 2 ∧
      RangesDisjoint s := by
  obtain ⟨s, hr, hbs⟩ := zeroHeap_two (show 8 ≤ 8 by decide)
  refine ⟨s, hr, by rw [hbs]; rfl, (disjoint_iff_padded zeroHeap_fresh hr).mpr ?_⟩
  rw [NeighboursPadded, hbs]
  decide

/-- Without pad they are not: the second bitmap header lies over the first block's last bytes. -/
theorem unpadded_overlap : ∃ s : HeapRun,
    Reach Step Orderly { heap := zeroHeap, blocks := [] } s ∧ ¬ RangesDisjoint s := by
  obtain ⟨s, hr, hbs⟩ := zeroHeap_two (show 0 ≤ 8 by decide)
  refine ⟨s, hr, ?_⟩
  rw [RangesDisjoint, hbs]
  intro hd
  have hfour : [(0x1000 + 102, 24), (0x1000 + 94, 16)].Pairwise DisjointRange :=
    hd.sublist (by decide)
  revert hfour
  simp [DisjointRange]

/-! ## Validity and freeing -/

/-- What an outstanding pointer is owed: it is valid; freeing it succeeds, marks its bitmap header
unused and ends its validity; and the other outstanding pointers keep their validity and bytes. -/
structure FreeContract (s : HeapRun) (b : Block) : Prop where
  valid : mmIsValidPtr s.heap.mem b.ptr = true
  frees : ∃ h', mmFreePtr s.heap b.ptr = some (kErrorSuccess, h') ∧
    bitSet h'.mem (b.ptr - infoSz - infoSz - 8 * kBitMapSz) kBitMapUsedIdx = 0 ∧
    mmIsValidPtr h'.mem b.ptr = false ∧
    ∀ c, s.Holds c → c.ptr ≠ b.ptr →
      mmIsValidPtr h'.mem c.ptr = mmIsValidPtr s.heap.mem c.ptr ∧
        AgreeOn h'.mem s.heap.mem c.ptr c.sz

theorem HeapInv.not_freeContract (hI : HeapInv s) (hb : b ∈ s.blocks) : ¬ FreeContract s b := by
  intro hc
  have := hc.valid
  rw [(hI.free hb).1] at this
  cases this

/-- **No pointer is valid and no free succeeds.** After every orderly run on a fresh heap, every
outstanding pointer is reported invalid, and freeing it is refused and changes nothing. -/
theorem free_never_succeeds {h : HeapState} (hf : FreshHeap h)
    (hr : Reach Step Orderly { heap := h, blocks := [] } s) (hb : s.Holds b) :
    ¬ FreeContract s b ∧ mmIsValidPtr s.heap.mem b.ptr = false ∧
      mmFreePtr s.heap b.ptr = some (kErrorHeapNotPresent, s.heap) := by
  have hI := heapInv_reach hf hr
  exact ⟨hI.not_freeContract hb.1, hI.free hb.1⟩

/-- One request of 16 bytes on the zero page. -/
theorem zeroHeap_one : ∃ (s : HeapRun) (b : Block),
    Reach Step Orderly { heap := zeroHeap, blocks := [] } s ∧ s.Holds b := by
  have hfit : Fits zeroHeap 16 0 := ⟨by decide, by decide⟩
  obtain ⟨h', hr, -⟩ := reach_alloc zeroHeap_fresh .init (by decide) hfit
  exact ⟨_, _, hr, List.mem_cons_self, rfl⟩

theorem free_never_succeeds_one : ∃ (s : HeapRun) (b : Block),
    s.Holds b ∧ ¬ FreeContract s b ∧ mmIsValidPtr s.heap.mem b.ptr = false ∧
      mmFreePtr s.heap b.ptr = some (kErrorHeapNotPresent, s.heap) := by
  obtain ⟨s, b, hr, hb⟩ := zeroHeap_one
  exact ⟨s, b, hb, free_never_succeeds zeroHeap_fresh hr hb⟩

/-- The pointer of the only request made on the zero page is not owed what it should be. -/
theorem outstanding_not_valid : ∃ (s : HeapRun) (b : Block),
    Reach Step Orderly { heap := zeroHeap, blocks := [] } s ∧ s.Holds b ∧ ¬ FreeContract s b := by
  obtain ⟨s, b, hr, hb⟩ := zeroHeap_one
  exact ⟨s, b, hr, hb, (heapInv_reach zeroHeap_fresh hr).not_freeContract hb.1⟩

/-! ## Requests that do not fit -/

/-- The request cannot be met: it is over the largest size, or wraps when the headers or the pad
are added, or is larger than what is left of the region. -/
def CannotBeMet (h : HeapState) (sz pad : Nat) : Prop :=
  sz + kHeapMgrHdrSz > kBitMapMaxSz ∨ sz + kHeapMgrHdrSz + pad ≥ 2 ^ 64 ∨
    h.kKernelBitMpSize - h.kBitMapCursor < 8 * kBitMapSz + kHeapMgrHdrSz + sz + pad

/-- What `mm_alloc_ptr` owes: it returns; a non-null result has its headers and its bytes inside
the region; and a request that cannot be met gets `nullptr` and writes nothing. -/
def AllocContract (h : HeapState) (sz : Nat) (wr user : Bool) (pad : Nat) : Prop :=
  ∃ p h', mmAllocPtr h sz wr user pad = some (p, h') ∧
    (p ≠ 0 → h.kKernelBitMpStart + (8 * kBitMapSz + kHeapMgrHdrSz) ≤ p ∧
      p + sz ≤ h.kKernelBitMpStart + h.kKernelBitMpSize) ∧
    (CannotBeMet h sz pad → p = 0 ∧ h' = h)

theorem fits_of_not_cannotBeMet {h : HeapState} {sz pad : Nat} (hcur : h.kBitMapCursor ≤
    h.kKernelBitMpSize) (hn : ¬ CannotBeMet h sz pad) : Fits h sz pad := by
  simp only [CannotBeMet, not_or] at hn
  exact ⟨by omega, by omega⟩

theorem Fits.not_cannotBeMet {h : HeapState} {sz pad : Nat}
    (hw : h.kKernelBitMpSize ≤ 2 ^ 64) (hf : Fits h sz pad) : ¬ CannotBeMet h sz pad := by
  obtain ⟨hmax, hroom⟩ := hf
  simp only [CannotBeMet, kBitMapSz] at hroom ⊢
  omega

/-- A request for something never comes back with `nullptr` and an unchanged heap. -/
theorem mmAllocPtr_not_refused {h : HeapState} {sz pad : Nat} {wr user : Bool} (hsz : sz ≠ 0) :
    mmAllocPtr h sz wr user pad ≠ some (0, h) := by
  intro ha
  rcases mmAllocPtr_cases hsz ha with hp | ⟨b, h0, h1⟩
  · exact absurd hp (by decide)
  · rw [h0] at h1
    cases h1

/-- **Only requests that fit are handled as promised.** After every orderly run on a fresh heap,
the next request is handled as promised if and only if it asks for nothing or fits. -/
theorem allocContract_iff {h : HeapState} (hf : FreshHeap h)
    (hr : Reach Step Orderly { heap := h, blocks := [] } s) (sz : Nat) (wr user : Bool)
    (pad : Nat) : AllocContract s.heap sz wr user pad ↔ sz = 0 ∨ Fits s.heap sz pad := by
  have hI := heapInv_reach hf hr
  have hnw := hI.noWrap
  constructor
  · rintro ⟨p, h', halloc, -, hrefuse⟩
    by_contra hn
    obtain ⟨hsz, hfit⟩ := not_or.mp hn
    by_cases hmet : CannotBeMet s.heap sz pad
    · obtain ⟨rfl, rfl⟩ := hrefuse hmet
      exact mmAllocPtr_not_refused hsz halloc
    · exact hfit (fits_of_not_cannotBeMet hI.cursor_le hmet)
  · rintro (rfl | hfit)
    · exact ⟨0, s.heap, by rw [mmAllocPtr, if_pos rfl], fun h => absurd rfl h,
        fun _ => ⟨rfl, rfl⟩⟩
    · by_cases hsz : sz = 0
      · exact ⟨0, s.heap, by rw [mmAllocPtr, if_pos hsz], fun h => absurd rfl h,
          fun _ => ⟨rfl, rfl⟩⟩
      · obtain ⟨h', halloc, -⟩ := hI.alloc wr user hsz hfit
        refine ⟨_, h', halloc, fun _ => ?_, fun hc =>
          absurd hc (hfit.not_cannotBeMet (by omega))⟩
        obtain ⟨-, hroom⟩ := hfit
        simp only [kBitMapSz, kHeapMgrHdrSz, infoSz] at hroom ⊢
        omega

theorem allocContract_iff_zero : AllocContract zeroHeap 16 true false 0 :=
  (allocContract_iff zeroHeap_fresh .init 16 true false 0).mpr (.inr ⟨by decide, by decide⟩)

/-- A request over the largest size is not refused: it gets the address behind an information block
written at address `35`. -/
theorem oversize_not_refused : ∃ h', mmAllocPtr zeroHeap (2 ^ 33) true false 0 = some (70, h') ∧
    h'.mem (35 + fMagic) = 0x75 ∧ ¬ AllocContract zeroHeap (2 ^ 33) true false 0 := by
  have hmet : CannotBeMet zeroHeap (2 ^ 33) 0 := .inl (by decide)
  refine ⟨_, rfl, by rfl, ?_⟩
  rintro ⟨p, h', halloc, -, hrefuse⟩
  obtain ⟨rfl, rfl⟩ := hrefuse hmet
  exact mmAllocPtr_not_refused (by decide) halloc

end NeKernel.Heap
