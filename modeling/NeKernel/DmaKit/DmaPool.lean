import NeKernel.Lib.BitMask
import NeKernel.Lib.Bump
import NeKernel.Lib.Runs
import NeKernel.NeKit.Config

/-!
# The DMA pool

`rtl_dma_alloc` moves `kDmaPoolPtr` up to the alignment and over the size, `rtl_dma_free` moves it down by
the size. What the alignment skipped is never given back; the mask that aligns is right for powers of two
only, and with an alignment of zero, which passes the check, it sends the cursor to the size itself; and
the sum that is compared with the end of the pool can wrap. `pool_right_iff` says what a run may ask for.
-/

namespace NeKernel.DmaKit

open Bump

def kNeDMAPoolStart : UInt64 := 0x1000000
def kNeDMAPoolSize : UInt64 := 0x1000000
def kNeDMABestAlign : UInt64 := 8

def kDmaPoolEnd : UInt64 := kNeDMAPoolStart + kNeDMAPoolSize

/-- The cursor, and the error the routines leave in `err_global_get()`. -/
structure DmaPool where
  kDmaPoolPtr : UInt64
  err : Int

/-- The address `align` moves the cursor to. -/
def alignedAddr (kDmaPoolPtr align : UInt64) : UInt64 := (kDmaPoolPtr + (align - 1)) &&& ~~~(align - 1)

/-- `rtl_dma_alloc`. -/
def rtlDmaAlloc (size align : UInt64) (p : DmaPool) : UInt64 × DmaPool :=
  if size = 0 then (0, p)
  else if align % kNeDMABestAlign ≠ 0 then (0, p)
  else
    let addr := alignedAddr p.kDmaPoolPtr align
    if addr + size > kDmaPoolEnd then (0, { p with err := kErrorDmaExhausted })
    else (addr, { p with kDmaPoolPtr := addr + size })

/-- `rtl_dma_free`. -/
def rtlDmaFree (size : UInt64) (p : DmaPool) : DmaPool :=
  if size = 0 then p
  else
    let ptr := p.kDmaPoolPtr - size
    if ptr = 0 ∨ ptr < kNeDMAPoolStart then { p with err := kErrorDmaExhausted }
    else { p with kDmaPoolPtr := ptr }

/-- `rtl_dma_flush`: what it fences does not change. -/
def rtlDmaFlush (ptr : UInt64) (p : DmaPool) : DmaPool :=
  if ptr > kDmaPoolEnd then p
  else if ptr = 0 ∨ ptr < kNeDMAPoolStart then { p with err := kErrorDmaExhausted }
  else p

/-! ## One call -/

variable {p : DmaPool} {size align addr c : UInt64}

/-- The pool refuses the request: it is empty, its alignment is not the architecture's, or the sum is past
the end. -/
def Refuses (p : DmaPool) (size align : UInt64) : Prop :=
  size = 0 ∨ align % kNeDMABestAlign ≠ 0 ∨ alignedAddr p.kDmaPoolPtr align + size > kDmaPoolEnd

instance : Decidable (Refuses p size align) := inferInstanceAs (Decidable (_ ∨ _))

theorem rtlDmaAlloc_refused (h : Refuses p size align) :
    (rtlDmaAlloc size align p).1 = 0 ∧ (rtlDmaAlloc size align p).2.kDmaPoolPtr = p.kDmaPoolPtr := by
  unfold rtlDmaAlloc
  split
  · exact ⟨rfl, rfl⟩
  · next hsize =>
      split
      · exact ⟨rfl, rfl⟩
      · next halign =>
          have hfull := (h.resolve_left hsize).resolve_left halign
          rw [if_pos hfull]
          exact ⟨rfl, rfl⟩

theorem rtlDmaAlloc_granted (h : ¬ Refuses p size align) :
    rtlDmaAlloc size align p = (alignedAddr p.kDmaPoolPtr align,
      { p with kDmaPoolPtr := alignedAddr p.kDmaPoolPtr align + size }) := by
  simp only [Refuses, not_or] at h
  rw [rtlDmaAlloc, if_neg h.1, if_neg h.2.1, if_neg h.2.2]

@[simp] theorem rtlDmaFlush_kDmaPoolPtr (ptr : UInt64) (p : DmaPool) :
    (rtlDmaFlush ptr p).kDmaPoolPtr = p.kDmaPoolPtr := by
  unfold rtlDmaFlush
  split
  · rfl
  · split <;> rfl

/-- The cursor a free leaves depends on the cursor only. -/
theorem rtlDmaFree_congr {q : DmaPool} (h : p.kDmaPoolPtr = q.kDmaPoolPtr) :
    (rtlDmaFree size p).kDmaPoolPtr = (rtlDmaFree size q).kDmaPoolPtr := by
  unfold rtlDmaFree
  rw [h]
  split
  · exact h
  · dsimp only
    split <;> rfl

/-- **A grant that is given back** leaves the cursor at the grant, or where it is when the grant is not
in the pool. -/
theorem rtlDmaFree_granted (h : ¬ Refuses p size align) :
    (rtlDmaFree size (rtlDmaAlloc size align p).2).kDmaPoolPtr =
      if alignedAddr p.kDmaPoolPtr align < kNeDMAPoolStart then
        alignedAddr p.kDmaPoolPtr align + size
      else alignedAddr p.kDmaPoolPtr align := by
  rw [rtlDmaAlloc_granted h, rtlDmaFree, if_neg fun hsize => h (.inl hsize)]
  simp only [UInt64.add_sub_cancel]
  by_cases hlow : alignedAddr p.kDmaPoolPtr align < kNeDMAPoolStart
  · rw [if_pos (.inr hlow), if_pos hlow]
  · have hne : alignedAddr p.kDmaPoolPtr align ≠ 0 := fun hzero => hlow (hzero ▸ (by decide))
    rw [if_neg (not_or.mpr ⟨hne, hlow⟩), if_neg hlow]

/-- A free that stays in the pool moves the cursor down. -/
theorem rtlDmaFree_toNat (h : kNeDMAPoolStart.toNat + size.toNat ≤ p.kDmaPoolPtr.toNat) :
    (rtlDmaFree size p).kDmaPoolPtr.toNat = p.kDmaPoolPtr.toNat - size.toNat := by
  have hback : (p.kDmaPoolPtr - size).toNat = p.kDmaPoolPtr.toNat - size.toNat :=
    UInt64.toNat_sub_of_le _ _ (UInt64.le_iff_toNat_le.mpr (by omega))
  unfold rtlDmaFree
  split
  · next hsize => rw [hsize, UInt64.toNat_zero, Nat.sub_zero]
  · rw [if_neg]
    · exact hback
    · rw [← UInt64.toNat_inj, UInt64.lt_iff_toNat_lt, UInt64.toNat_zero, hback]
      have hstart : 0 < kNeDMAPoolStart.toNat := by decide
      omega

/-- **The mask skips nothing** exactly when the cursor has no bit of it. -/
theorem alignedAddr_eq_iff : alignedAddr c align = c ↔ c &&& (align - 1) = 0 := by
  unfold alignedAddr
  constructor
  · intro h
    rw [← h, UInt64.and_assoc, UInt64.not_and_self, UInt64.and_zero]
  · intro h
    have hbits : c.toBitVec &&& (align - 1).toBitVec = 0#64 := congrArg UInt64.toBitVec h
    apply UInt64.toBitVec_inj.mp
    show (c.toBitVec + (align - 1).toBitVec) &&& ~~~(align - 1).toBitVec = c.toBitVec
    rw [BitVec.add_eq_or_of_and_eq_zero _ _ hbits]
    -- no bit of the cursor is one of the mask
    ext i hi
    have hbit := congrArg (fun v => v[i]) hbits
    simp only [BitVec.getElem_and, BitVec.getElem_zero] at hbit
    simp only [BitVec.getElem_and, BitVec.getElem_or, BitVec.getElem_not]
    cases hc : c.toBitVec[i] <;> cases hm : (align - 1).toBitVec[i] <;> simp_all

/-- The address that is aligned to a power of two. -/
theorem alignedAddr_toNat {n : Nat} (hn : n ≤ 64) (halign : (align - 1).toNat = 2 ^ n - 1) :
    (alignedAddr c align).toNat =
      (c.toNat + (2 ^ n - 1)) % 2 ^ 64 - (c.toNat + (2 ^ n - 1)) % 2 ^ 64 % 2 ^ n := by
  have hpow : 2 ^ n * 2 ^ (64 - n) = 2 ^ 64 := by rw [← Nat.pow_add, Nat.add_sub_cancel' hn]
  have hmask : (~~~(align - 1)).toNat = (2 ^ (64 - n) - 1) <<< n := by
    rw [UInt64.toNat_not, halign, Nat.shiftLeft_eq, Nat.sub_mul, Nat.one_mul, Nat.mul_comm, hpow]
    have := Nat.two_pow_pos n
    show 2 ^ 64 - 1 - (2 ^ n - 1) = _
    omega
  rw [alignedAddr, UInt64.toNat_and, UInt64.toNat_add, hmask, halign]
  apply BitMask.and_high
  rw [Nat.add_sub_cancel' hn]
  exact Nat.mod_lt _ (Nat.two_pow_pos 64)

/-- An address that is not null lies at the cursor or behind it. -/
theorem le_alignedAddr {n : Nat} (hn : n ≤ 64) (halign : (align - 1).toNat = 2 ^ n - 1)
    (hne : alignedAddr c align ≠ 0) : c ≤ alignedAddr c align := by
  have hpos : 0 < (alignedAddr c align).toNat := by
    rw [Nat.pos_iff_ne_zero, ← UInt64.toNat_zero, Ne, UInt64.toNat_inj]
    exact hne
  have hpow : 2 ^ n ≤ 2 ^ 64 := Nat.pow_le_pow_right (by decide) hn
  have hc := UInt64.toNat_lt c
  rw [UInt64.le_iff_toNat_le]
  rw [alignedAddr_toNat hn halign] at hpos ⊢
  have hlow := Nat.mod_lt ((c.toNat + (2 ^ n - 1)) % 2 ^ 64) (Nat.two_pow_pos n)
  by_cases hwrap : c.toNat + (2 ^ n - 1) < 2 ^ 64
  · rw [Nat.mod_eq_of_lt hwrap] at hlow ⊢
    omega
  · -- a sum that wraps is below the alignment
    have hsum : (c.toNat + (2 ^ n - 1)) % 2 ^ 64 = c.toNat + (2 ^ n - 1) - 2 ^ 64 := by
      rw [Nat.mod_eq_sub_mod (Nat.not_lt.mp hwrap), Nat.mod_eq_of_lt (by omega)]
    rw [hsum, Nat.mod_eq_of_lt (by omega)] at hpos
    omega

/-! ## Runs -/

/-- A pointer that was returned, with what was asked for. -/
structure Grant where
  addr : UInt64
  size : UInt64
  align : UInt64

def Grant.block (g : Grant) : Block := ⟨g.addr.toNat, g.size.toNat⟩

/-- The pool, and the pointers that are out, last one first. -/
structure History where
  pool : DmaPool
  live : List Grant

inductive Call where
  | alloc (size align : UInt64)
  | free

/-- A call: an allocation, or the release of the last pointer that is out. -/
inductive PoolStep : History → Call → History → Prop
  | granted {h : History} {size align : UInt64} (hne : (rtlDmaAlloc size align h.pool).1 ≠ 0) :
    PoolStep h (.alloc size align) ⟨(rtlDmaAlloc size align h.pool).2,
      ⟨(rtlDmaAlloc size align h.pool).1, size, align⟩ :: h.live⟩
  | null {h : History} {size align : UInt64} (hnull : (rtlDmaAlloc size align h.pool).1 = 0) :
    PoolStep h (.alloc size align) ⟨(rtlDmaAlloc size align h.pool).2, h.live⟩
  | free {pool : DmaPool} {g : Grant} {live : List Grant} :
    PoolStep ⟨pool, g :: live⟩ .free ⟨rtlDmaFree g.size pool, live⟩

/-- All that is out is given back, last one first. -/
def freeAll : List Grant → DmaPool → DmaPool
  | [], p => p
  | g :: live, p => freeAll live (rtlDmaFree g.size p)

/-- The pool does what it is for: what is out is aligned, lies in the pool below the cursor, and does not
overlap; the cursor is in the pool, and comes back to the start. -/
structure PoolRight (h : History) : Prop where
  inside : kNeDMAPoolStart ≤ h.pool.kDmaPoolPtr ∧ h.pool.kDmaPoolPtr ≤ kDmaPoolEnd
  aligned : ∀ g ∈ h.live, g.align.toNat ∣ g.addr.toNat
  placed : ∀ g ∈ h.live, kNeDMAPoolStart ≤ g.addr ∧ g.block.fin ≤ kDmaPoolEnd.toNat
  below : ∀ g ∈ h.live, g.block.fin ≤ h.pool.kDmaPoolPtr.toNat
  apart : h.live.Pairwise fun g g' => g.block.Apart g'.block
  drained : (freeAll h.live h.pool).kDmaPoolPtr = kNeDMAPoolStart

/-- The request fits where the cursor is: the cursor is a multiple of the alignment that has no bit of the
mask, and the size, not cut to 64 bits, ends in the pool. -/
structure FitsHere (c size align : UInt64) : Prop where
  mask : c &&& (align - 1) = 0
  multiple : align.toNat ∣ c.toNat
  room : c.toNat + size.toNat ≤ kDmaPoolEnd.toNat

/-- What a run may ask for: what the pool refuses, what fits where the cursor is, and a size that is the
cursor itself where the mask has no bit above. -/
def Harmless (h : History) : Call → Prop
  | .alloc size align => Refuses h.pool size align ∨
      FitsHere h.pool.kDmaPoolPtr size align ∨
      alignedAddr h.pool.kDmaPoolPtr align = 0 ∧ size = h.pool.kDmaPoolPtr
  | .free => True

/-- What is out lies one on the other up to the cursor. -/
structure Packed (h : History) : Prop where
  stacked : Stacked kNeDMAPoolStart.toNat (h.live.map Grant.block) h.pool.kDmaPoolPtr.toNat
  inside : h.pool.kDmaPoolPtr ≤ kDmaPoolEnd
  aligned : ∀ g ∈ h.live, g.align.toNat ∣ g.addr.toNat

variable {h h' : History} {l : Call} {live : List Grant}

/-- **Giving everything back** lowers the cursor by what was out. -/
theorem freeAll_toNat {cursor : Nat}
    (hs : Stacked kNeDMAPoolStart.toNat (live.map Grant.block) cursor)
    (hle : cursor ≤ p.kDmaPoolPtr.toNat) :
    (freeAll live p).kDmaPoolPtr.toNat =
      kNeDMAPoolStart.toNat + (p.kDmaPoolPtr.toNat - cursor) := by
  induction live generalizing cursor p with
  | nil =>
      have hcursor : cursor = kNeDMAPoolStart.toNat := hs
      rw [freeAll]
      omega
  | cons g live ih =>
      obtain ⟨hfin, -, hrest⟩ := hs
      have hlow := hrest.start_le
      simp only [Grant.block, Block.fin] at hfin hlow
      have hptr : (rtlDmaFree g.size p).kDmaPoolPtr.toNat = p.kDmaPoolPtr.toNat - g.size.toNat :=
        rtlDmaFree_toNat (by omega)
      rw [freeAll, ih hrest (by rw [hptr]; simp only [Grant.block]; omega), hptr]
      simp only [Grant.block]
      omega

theorem Packed.start_le (hp : Packed h) : kNeDMAPoolStart ≤ h.pool.kDmaPoolPtr :=
  UInt64.le_iff_toNat_le.mpr hp.stacked.start_le

theorem Packed.bounds (hp : Packed h) : ∀ g ∈ h.live,
    kNeDMAPoolStart.toNat ≤ g.addr.toNat ∧ g.block.fin ≤ h.pool.kDmaPoolPtr.toNat :=
  fun g hg => hp.stacked.bounds g.block (List.mem_map_of_mem hg)

/-- A pool whose grants lie one on the other does what it is for. -/
theorem Packed.right (hp : Packed h) : PoolRight h where
  inside := ⟨hp.start_le, hp.inside⟩
  aligned := hp.aligned
  placed := fun g hg =>
    ⟨UInt64.le_iff_toNat_le.mpr (hp.bounds g hg).1,
      (hp.bounds g hg).2.trans (UInt64.le_iff_toNat_le.mp hp.inside)⟩
  below := fun g hg => (hp.bounds g hg).2
  apart := List.pairwise_map.mp hp.stacked.apart
  drained := by
    rw [← UInt64.toNat_inj, freeAll_toNat hp.stacked (Nat.le_refl _), Nat.sub_self, Nat.add_zero]

/-- The cursor is where it was and so are the grants. -/
theorem Packed.same (hp : Packed h) {pool : DmaPool}
    (hptr : pool.kDmaPoolPtr = h.pool.kDmaPoolPtr) : Packed ⟨pool, h.live⟩ :=
  ⟨hptr ▸ hp.stacked, hptr ▸ hp.inside, hp.aligned⟩

/-- A request that fits is put where the cursor is. -/
theorem Packed.grant (hp : Packed h) (hfits : FitsHere h.pool.kDmaPoolPtr size align)
    (hsize : size ≠ 0) :
    Packed ⟨{ h.pool with kDmaPoolPtr := h.pool.kDmaPoolPtr + size },
      ⟨h.pool.kDmaPoolPtr, size, align⟩ :: h.live⟩ := by
  have hend : kDmaPoolEnd.toNat < 2 ^ 64 := UInt64.toNat_lt _
  have hsum : (h.pool.kDmaPoolPtr + size).toNat = h.pool.kDmaPoolPtr.toNat + size.toNat := by
    have := hfits.room
    rw [UInt64.toNat_add, Nat.mod_eq_of_lt (by omega)]
  have hpos : 0 < size.toNat := by
    rw [Nat.pos_iff_ne_zero, ← UInt64.toNat_zero, Ne, UInt64.toNat_inj]
    exact hsize
  refine ⟨⟨hsum.symm, hpos, hp.stacked⟩, ?_, ?_⟩
  · exact UInt64.le_iff_toNat_le.mpr (hsum ▸ hfits.room)
  · intro g hg
    rcases List.mem_cons.mp hg with rfl | hg
    · exact hfits.multiple
    · exact hp.aligned g hg

/-- The last grant is given back. -/
theorem Packed.release {g : Grant} (hp : Packed ⟨p, g :: live⟩) :
    Packed ⟨rtlDmaFree g.size p, live⟩ := by
  obtain ⟨hfin, -, hrest⟩ := hp.stacked
  have hlow := hrest.start_le
  simp only [Grant.block, Block.fin] at hfin hlow
  have hptr : (rtlDmaFree g.size p).kDmaPoolPtr.toNat = g.addr.toNat := by
    rw [rtlDmaFree_toNat (by omega)]
    omega
  refine ⟨hptr ▸ hrest, UInt64.le_iff_toNat_le.mpr ?_, fun g' hg' =>
    hp.aligned g' (List.mem_cons_of_mem _ hg')⟩
  have hend := UInt64.le_iff_toNat_le.mp hp.inside
  show (rtlDmaFree g.size p).kDmaPoolPtr.toNat ≤ kDmaPoolEnd.toNat
  simp only at hend
  omega

theorem Packed.ptr_ne_zero (hp : Packed h) : h.pool.kDmaPoolPtr ≠ 0 := by
  intro hzero
  have hlow := hp.start_le
  rw [hzero] at hlow
  exact absurd hlow (by decide)

/-- **A harmless call** keeps the grants one on the other. -/
theorem Packed.step (hp : Packed h) (hok : Harmless h l) (hst : PoolStep h l h') : Packed h' := by
  cases hst with
  | @granted _ size align hne =>
      by_cases href : Refuses h.pool size align
      · exact absurd (rtlDmaAlloc_refused href).1 hne
      · rw [rtlDmaAlloc_granted href] at hne ⊢
        rcases hok.resolve_left href with hfits | ⟨hzero, -⟩
        · rw [alignedAddr_eq_iff.mpr hfits.mask]
          exact hp.grant hfits fun hsize => href (.inl hsize)
        · exact absurd hzero hne
  | @null _ size align hnull =>
      by_cases href : Refuses h.pool size align
      · exact hp.same (rtlDmaAlloc_refused href).2
      · rw [rtlDmaAlloc_granted href] at hnull ⊢
        rcases hok.resolve_left href with hfits | ⟨hzero, hsize⟩
        · rw [alignedAddr_eq_iff.mpr hfits.mask] at hnull
          exact absurd hnull hp.ptr_ne_zero
        · exact hp.same (by rw [hzero, UInt64.zero_add, hsize])
  | free => exact hp.release

/-- A grant that keeps the pool right fits where the cursor is. -/
theorem Packed.fitsHere (hp : Packed h) (hsize : size ≠ 0)
    (hright : PoolRight ⟨{ h.pool with kDmaPoolPtr := alignedAddr h.pool.kDmaPoolPtr align + size },
      ⟨alignedAddr h.pool.kDmaPoolPtr align, size, align⟩ :: h.live⟩) :
    FitsHere h.pool.kDmaPoolPtr size align := by
  obtain ⟨hstart, hroom⟩ := hright.placed _ List.mem_cons_self
  simp only [Grant.block, Block.fin] at hroom
  have hpos : 0 < size.toNat := by
    rw [Nat.pos_iff_ne_zero, ← UInt64.toNat_zero, Ne, UInt64.toNat_inj]
    exact hsize
  have hend : kDmaPoolEnd.toNat < 2 ^ 64 := UInt64.toNat_lt _
  have hsum : (alignedAddr h.pool.kDmaPoolPtr align + size).toNat =
      (alignedAddr h.pool.kDmaPoolPtr align).toNat + size.toNat := by
    rw [UInt64.toNat_add, Nat.mod_eq_of_lt (by omega)]
  -- the grant is apart from the others, so it lies behind the cursor
  have hle : h.pool.kDmaPoolPtr.toNat ≤ (alignedAddr h.pool.kDmaPoolPtr align).toNat := by
    refine hp.stacked.cursor_le
      (b := (⟨alignedAddr h.pool.kDmaPoolPtr align, size, align⟩ : Grant).block)
      (UInt64.le_iff_toNat_le.mp hstart) hpos fun b hb => ?_
    obtain ⟨g, hg, rfl⟩ := List.mem_map.mp hb
    exact (List.pairwise_cons.mp hright.apart).1 g hg
  -- and what is given back in the end is what was asked for
  have hback := hright.drained
  have hlow := hp.stacked.start_le
  have hfree : (rtlDmaFree size { h.pool with
      kDmaPoolPtr := alignedAddr h.pool.kDmaPoolPtr align + size }).kDmaPoolPtr.toNat =
        (alignedAddr h.pool.kDmaPoolPtr align).toNat := by
    rw [rtlDmaFree_toNat]
    · simp only [hsum]
      omega
    · simp only [hsum]
      omega
  rw [freeAll, ← UInt64.toNat_inj, freeAll_toNat hp.stacked (by rw [hfree]; exact hle), hfree] at hback
  have hsame : alignedAddr h.pool.kDmaPoolPtr align = h.pool.kDmaPoolPtr :=
    UInt64.toNat_inj.mp (by omega)
  have hmultiple := hright.aligned _ List.mem_cons_self
  simp only [hsame] at hmultiple hroom
  exact ⟨alignedAddr_eq_iff.mp hsame, hmultiple, hroom⟩

/-- A null grant that keeps the pool right is for a size that is the cursor. -/
theorem Packed.size_eq (hp : Packed h)
    (hright : PoolRight ⟨{ h.pool with kDmaPoolPtr := size }, h.live⟩) :
    size = h.pool.kDmaPoolPtr := by
  -- the cursor is the size now, and not below what is out
  have hle : h.pool.kDmaPoolPtr.toNat ≤ size.toNat := by
    rcases h with ⟨pool, _ | ⟨g, live⟩⟩
    · have hcursor : pool.kDmaPoolPtr.toNat = kNeDMAPoolStart.toNat := hp.stacked
      rw [hcursor]
      exact UInt64.le_iff_toNat_le.mp hright.inside.1
    · obtain ⟨hfin, -, -⟩ := hp.stacked
      rw [← hfin]
      exact hright.below g List.mem_cons_self
  have hback := hright.drained
  rw [← UInt64.toNat_inj, freeAll_toNat hp.stacked hle] at hback
  simp only at hback
  exact UInt64.toNat_inj.mp (by omega)

/-- **A call that is not harmless** breaks the pool. -/
theorem Packed.harmless (hp : Packed h) (hst : PoolStep h l h') (hright : PoolRight h') :
    Harmless h l := by
  cases hst with
  | @granted _ size align hne =>
      by_cases href : Refuses h.pool size align
      · exact .inl href
      · rw [rtlDmaAlloc_granted href] at hright
        exact .inr (.inl (hp.fitsHere (fun hsize => href (.inl hsize)) hright))
  | @null _ size align hnull =>
      by_cases href : Refuses h.pool size align
      · exact .inl href
      · rw [rtlDmaAlloc_granted href] at hnull hright
        simp only at hnull
        simp only [hnull, UInt64.zero_add] at hright
        exact .inr (.inr ⟨hnull, hp.size_eq hright⟩)
  | free => trivial

/-- A pool as it is at boot. -/
def Fresh (h : History) : Prop := h.pool.kDmaPoolPtr = kNeDMAPoolStart ∧ h.live = []

theorem Fresh.packed (hfresh : Fresh h) : Packed h := by
  rcases h with ⟨pool, live⟩
  obtain ⟨hptr, rfl⟩ := hfresh
  simp only at hptr
  exact ⟨congrArg UInt64.toNat hptr, hptr ▸ (by decide), fun g hg => absurd hg List.not_mem_nil⟩

/-- **The pool does what it is for** in every run of harmless calls, and after the next call exactly when
that is harmless, too. -/
theorem pool_right_iff {start h : History} (hfresh : Fresh start)
    (hreach : Runs.Reach PoolStep Harmless start h) :
    PoolRight h ∧ ∀ l h', PoolStep h l h' → (PoolRight h' ↔ Harmless h l) := by
  have hp : Packed h := hreach.inv hfresh.packed fun _ _ _ hp hok hst => hp.step hok hst
  exact ⟨hp.right, fun l h' hst => ⟨hp.harmless hst, fun hok => (hp.step hok hst).right⟩⟩

/-- The pool at boot. -/
def bootPool : History := ⟨⟨kNeDMAPoolStart, kErrorSuccess⟩, []⟩

/-- A page, aligned to a page. -/
theorem pool_right_iff_page :
    PoolRight ⟨⟨0x1001000, kErrorSuccess⟩, [⟨0x1000000, 0x1000, 0x1000⟩]⟩ := by
  have hfresh : Fresh bootPool := ⟨rfl, rfl⟩
  have hboot := pool_right_iff hfresh .init
  refine (hboot.2 (.alloc 0x1000 0x1000) _ (.granted (by decide))).mpr (.inr (.inl ⟨?_, ?_, ?_⟩))
  · decide
  · decide
  · decide

/-- Eight bytes, then eight more aligned to sixteen: the gap between them is lost. -/
theorem gap_is_lost : ∃ h h', PoolStep bootPool (.alloc 8 8) h ∧ PoolStep h (.alloc 8 16) h' ∧
    (freeAll h'.live h'.pool).kDmaPoolPtr = kNeDMAPoolStart + 8 ∧ ¬ PoolRight h' := by
  refine ⟨_, _, .granted (by decide), .granted (by decide), by decide, fun h => ?_⟩
  exact absurd h.drained (by decide)

end NeKernel.DmaKit
