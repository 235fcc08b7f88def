import NeKernel.BootKit.BootEFI
import NeKernel.HALKit.KernelTables
import NeKernel.HALKit.PhysicalMemory
import NeKernel.KernelKit.PEF

/-!
# The memory of the kernel

`hal_init_platform` carves the heap and the region of the frame allocator out of the range the
loader hands over. The image window is cut out of the range first, with the smaller side of what
is left, and the kernel's own tables are then built up to the end of the whole range
(`platform_regions`).
-/

namespace NeKernel.HALKit

open ByteStore
open BootKit (BootInfoHeader)

/-! ## `hal_init_platform` -/

def kImgWinStart : Nat := kPefBaseOrigin

def kImgWinEnd : Nat := kPefBaseOrigin + kPefMaxImageSz

/-- The region without the image window: what is below it or what is above it. -/
def cutWindow (regionBase regionSz : Nat) : Nat × Nat :=
  if regionBase < kImgWinEnd ∧ u64 (regionBase + regionSz) > kImgWinStart then
    let below := if regionBase < kImgWinStart then kImgWinStart - regionBase else 0
    let above :=
      if u64 (regionBase + regionSz) > kImgWinEnd then u64 (regionBase + regionSz) - kImgWinEnd else 0
    if below ≥ above then (regionBase, below) else (kImgWinEnd, above)
  else (regionBase, regionSz)

def kMinMapLimit : Nat := 0x100000000

/-- `map_limit`: the end of the range in whole GiB, and 4 GiB at least. -/
def mapLimit (ramEnd : Nat) : Nat :=
  if ramEnd > kMinMapLimit then u64 (ramEnd + (kGiB - 1)) - u64 (ramEnd + (kGiB - 1)) % kGiB
  else kMinMapLimit

/-- The memory `hal_init_platform` sets up, and the limit it gives to `mm_init_kernel_tables`. -/
structure PlatformMemory where
  kKernelBitMpStart : Nat
  kKernelBitMpSize : Nat
  pmm : Pmm
  mapLimit : Nat

/-- `hal_init_platform`, up to the kernel's own tables. -/
def halInitPlatform (handoverHdr : BootInfoHeader) (pmm : Pmm) : PlatformMemory :=
  let region := cutWindow handoverHdr.fBitMapStart handoverHdr.fBitMapSize
  let usableSz := region.2 / 2
  { kKernelBitMpStart := region.1
    kKernelBitMpSize := usableSz
    pmm := pmmiInit pmm (u64 (region.1 + usableSz)) (region.2 - usableSz)
    mapLimit := mapLimit (u64 (handoverHdr.fBitMapStart + handoverHdr.fBitMapSize)) }

/-- The bytes of the heap. -/
def PlatformMemory.heap (P : PlatformMemory) : Set Nat :=
  Set.Ico P.kKernelBitMpStart (P.kKernelBitMpStart + P.kKernelBitMpSize)

/-- The bytes of the frames. -/
def PlatformMemory.frames (P : PlatformMemory) : Set Nat := Set.Ico P.pmm.kPmmCursor P.pmm.kPmmEnd

/-- The bytes handed over. -/
def handedOver (handoverHdr : BootInfoHeader) : Set Nat :=
  Set.Ico handoverHdr.fBitMapStart (handoverHdr.fBitMapStart + handoverHdr.fBitMapSize)

/-- What the next `n` calls of `pmmi_alloc_frame` return. -/
def frameAnswers : Nat → Pmm → List Nat
  | 0, _ => []
  | n + 1, p => (pmmiAllocFrame p).1 :: frameAnswers n (pmmiAllocFrame p).2

/-! ## The regions -/

variable {base sz ramEnd n : Nat} {hdr : BootInfoHeader} {pmm : Pmm} {R : Region} {s : PmmRun}
  {l : List Nat}

/-- The region stays inside itself, and is on one side of the window or empty. -/
theorem cutWindow_spec (hend : base + sz < 2 ^ 64) {r : Nat × Nat} (hr : cutWindow base sz = r) :
    base ≤ r.1 ∧ r.1 + r.2 ≤ base + sz ∧
      (r.2 = 0 ∨ kImgWinEnd ≤ r.1 ∨ r.1 + r.2 ≤ kImgWinStart) := by
  have hbelow : (if base < kImgWinStart then kImgWinStart - base else 0) = kImgWinStart - base := by
    split <;> omega
  have habove : (if base + sz > kImgWinEnd then base + sz - kImgWinEnd else 0) =
      base + sz - kImgWinEnd := by
    split <;> omega
  unfold cutWindow at hr
  rw [u64_of_lt hend] at hr
  simp only [hbelow, habove] at hr
  split at hr
  · split at hr
    · subst hr
      simp only
      omega
    · subst hr
      simp only
      omega
  · next hapart =>
      subst hr
      simp only
      omega

/-- `pmmi_init` sets up a region inside the one it is given. -/
theorem pmmiInit_inside (p : Pmm) (hwrap : base + sz + (kPageSize - 1) < 2 ^ 64) :
    Set.Ico (pmmiInit p base sz).kPmmCursor (pmmiInit p base sz).kPmmEnd ⊆
      Set.Ico base (base + sz) := by
  unfold pmmiInit
  rw [u64_of_lt (by simp only [kPageSize] at *; omega), u64_of_lt (by omega)]
  simp only
  split
  · intro x hx
    exact absurd hx.2 (Nat.not_lt_zero x)
  · apply Set.Ico_subset_Ico
    · simp only [pageDown, pageOffset, kPageSize]
      omega
    · exact pageDown_le (base + sz)

theorem le_mapLimit (hram : ramEnd + (kGiB - 1) < 2 ^ 64) : ramEnd ≤ mapLimit ramEnd := by
  unfold mapLimit
  rw [u64_of_lt hram]
  split
  · simp only [kGiB]
    omega
  · next h => exact Nat.not_lt.mp h

theorem mapLimit_le (hram : ramEnd ≤ 2 ^ 47) : mapLimit ramEnd ≤ 2 ^ 47 := by
  unfold mapLimit
  rw [u64_of_lt (by simp only [kGiB]; omega)]
  split
  · simp only [kGiB] at *
    omega
  · decide

/-! ## The frames of the tables -/

theorem alloc_outstanding (hne : (pmmApply s .alloc).1 ≠ 0) :
    (pmmApply s .alloc).2.outstanding = insert (pmmApply s .alloc).1 s.outstanding := if_neg hne

/-- The answers of the allocator are frames of its region, each handed out once. -/
theorem PmmInv.frameAnswers (hI : PmmInv R s l) :
    (∀ f ∈ frameAnswers n s.pmm, f ≠ 0 →
      f ∉ s.outstanding ∧ f % kPageSize = 0 ∧ f + kPageSize ≤ R.fin) ∧
    (frameAnswers n s.pmm).Pairwise fun f g => f = 0 ∨ f ≠ g := by
  induction n generalizing s l with
  | zero => exact ⟨fun f hf => absurd hf List.not_mem_nil, .nil⟩
  | succ n ih =>
      rw [HALKit.frameAnswers, List.pairwise_cons, List.forall_mem_cons]
      rcases hI.alloc with ⟨hnone, hsame, -⟩ | ⟨hne, hhand, l', hI'⟩
      · have hpmm : (pmmiAllocFrame s.pmm).2 = s.pmm := congrArg PmmRun.pmm hsame
        obtain ⟨hframes, honce⟩ := ih hI
        rw [hpmm]
        exact ⟨⟨fun hne => absurd hnone hne, hframes⟩, fun _ _ => .inl hnone, honce⟩
      · obtain ⟨hframes, honce⟩ := ih hI'
        rw [alloc_outstanding hne] at hframes
        refine ⟨⟨fun _ => ⟨hhand.fresh, hhand.aligned, hhand.le_fin⟩, fun f hf hf0 => ?_⟩,
          fun f hf => .inr fun heq => ?_, honce⟩
        · obtain ⟨hnot, hframe⟩ := hframes f hf hf0
          exact ⟨fun hout => hnot (Finset.mem_insert_of_mem hout), hframe⟩
        · obtain ⟨hnot, -⟩ := hframes f hf (heq ▸ hne)
          exact hnot (heq ▸ Finset.mem_insert_self _ _)

/-- An allocator without frames answers `0`. -/
theorem frameAnswers_none {p : Pmm} (hhead : p.kPmmFreeHead = 0) (hcursor : p.kPmmCursor = 0) :
    ∀ f ∈ frameAnswers n p, f = 0 := by
  have hnone : pmmiAllocFrame p = (0, p) := by
    rw [pmmiAllocFrame, if_neg (not_not.mpr hhead), if_neg fun h => h.1 hcursor]
  induction n with
  | zero => exact fun f hf => absurd hf List.not_mem_nil
  | succ n ih =>
      rw [frameAnswers, hnone]
      exact List.forall_mem_cons.mpr ⟨rfl, ih⟩

/-- The statics of the allocator at boot. -/
def bootPmm (mem : Store) : Pmm := { zeroPmm with mem := mem }

/-- At boot, an allocator that is given a region below `2 ^ 47` answers with frames for tables. -/
theorem initAnswers_boot (mem : Store) (hbase : base = 0 → sz ≤ 1)
    (hend : base + sz ≤ 2 ^ 47) :
    InitAnswers (frameAnswers n (pmmiInit (bootPmm mem) base sz)) := by
  have hwrap : base + sz + (kPageSize - 1) < 2 ^ 64 := by
    simp only [kPageSize] at *
    omega
  by_cases hne : pageDown (base + (kPageSize - 1)) < pageDown (base + sz)
  · have hpos : 0 < base := by
      by_contra hzero
      have := hbase (by omega)
      simp only [pageDown, pageOffset, kPageSize] at *
      omega
    obtain ⟨hframes, honce⟩ := (pmmInv_init (bootPmm mem) hpos hwrap hne).frameAnswers (n := n)
    refine ⟨fun f hf hf0 => ⟨(hframes f hf hf0).2.1, hf0, ?_⟩, honce⟩
    have hle : f + kPageSize ≤ pageDown (base + sz) := (hframes f hf hf0).2.2
    have : pageDown (base + sz) ≤ base + sz := pageDown_le (base + sz)
    simp only [kPageSize] at *
    omega
  · have hzero : ∀ f ∈ frameAnswers n (pmmiInit (bootPmm mem) base sz), f = 0 := by
      unfold pmmiInit
      rw [u64_of_lt (by simp only [kPageSize] at *; omega), u64_of_lt (by omega)]
      simp only [if_pos (Nat.not_lt.mp hne)]
      exact frameAnswers_none rfl rfl
    refine ⟨fun f hf hf0 => absurd (hzero f hf) hf0, ?_⟩
    exact List.pairwise_of_forall_mem_list fun f hf _ _ => .inl (hzero f hf)

/-! ## The platform -/

/-- A byte below the limit is mapped to itself. -/
theorem identityMap_addr {limit x : Nat} (hlimit : limit ≤ 2 ^ 47) (hx : x < limit) :
    (identityMap limit).addr x = x := by
  have hpage : identityMap limit (pageOf x) = some (x - x % 4096) := by
    unfold identityMap
    rw [if_pos]
    · rw [pageOf, Option.some.injEq]
      omega
    · simp only [pageOf, gibs, kGiB]
      omega
  rw [PageMap.addr, hpage]
  simp only
  omega

/-- What `hal_init_platform` makes of a range, at boot. -/
def bootPlatform (mem : Store) (hdr : BootInfoHeader) : PlatformMemory :=
  halInitPlatform hdr (bootPmm mem)

/-- Heap and frames halve a region that lies on one side of the window. -/
theorem platform_halves (mem : Store)
    (hend : hdr.fBitMapStart + hdr.fBitMapSize ≤ 2 ^ 47) :
    ∃ base sz, hdr.fBitMapStart ≤ base ∧ base + sz ≤ hdr.fBitMapStart + hdr.fBitMapSize ∧
      (sz = 0 ∨ kImgWinEnd ≤ base ∨ base + sz ≤ kImgWinStart) ∧
      (bootPlatform mem hdr).heap = Set.Ico base (base + sz / 2) ∧
      (bootPlatform mem hdr).frames ⊆ Set.Ico (base + sz / 2) (base + sz) ∧
      ∀ n, InitAnswers (frameAnswers n (bootPlatform mem hdr).pmm) := by
  have hram : hdr.fBitMapStart + hdr.fBitMapSize < 2 ^ 64 := by omega
  obtain ⟨hbase, hin, hside⟩ := cutWindow_spec hram rfl
  generalize hr : cutWindow hdr.fBitMapStart hdr.fBitMapSize = r at hbase hin hside
  have hpmm : (bootPlatform mem hdr).pmm =
      pmmiInit (bootPmm mem) (r.1 + r.2 / 2) (r.2 - r.2 / 2) := by
    rw [bootPlatform, halInitPlatform, hr, u64_of_lt (by omega)]
  have hsum : r.1 + r.2 / 2 + (r.2 - r.2 / 2) = r.1 + r.2 := by omega
  refine ⟨r.1, r.2, hbase, hin, hside, ?_, ?_, fun n => ?_⟩
  · rw [PlatformMemory.heap, bootPlatform, halInitPlatform, hr]
  · rw [PlatformMemory.frames, hpmm, ← hsum]
    apply pmmiInit_inside
    simp only [kPageSize]
    omega
  · rw [hpmm]
    apply initAnswers_boot <;> omega

/-- **The memory of the kernel.** The heap and the frames are apart from each other and from the
image window, lie in the range that is handed over and below the limit of the tables, and the
tables, built from the frames, map both to themselves. -/
theorem platform_regions (mem : Store) (hdr : BootInfoHeader)
    (hend : hdr.fBitMapStart + hdr.fBitMapSize ≤ 2 ^ 47) :
    Disjoint (bootPlatform mem hdr).heap (bootPlatform mem hdr).frames ∧
    Disjoint (bootPlatform mem hdr).heap imageWindow ∧
    Disjoint (bootPlatform mem hdr).frames imageWindow ∧
    (bootPlatform mem hdr).heap ⊆ handedOver hdr ∧
    (bootPlatform mem hdr).frames ⊆ handedOver hdr ∧
    ∀ x ∈ (bootPlatform mem hdr).heap ∪ (bootPlatform mem hdr).frames,
      x < (bootPlatform mem hdr).mapLimit ∧
      ∀ n root p', mmInitKernelTables ⟨mem, frameAnswers n (bootPlatform mem hdr).pmm⟩
          (bootPlatform mem hdr).mapLimit = some (root, p') → root ≠ 0 →
        mmGetPageAddr p'.mem root x = x := by
  obtain ⟨base, sz, hbase, hin, hside, hheap, hframes, hanswers⟩ := platform_halves mem hend
  -- both regions come from one side of the window in the memory handed over
  have hregion : (bootPlatform mem hdr).heap ∪ (bootPlatform mem hdr).frames ⊆
      Set.Ico base (base + sz) := by
    rw [hheap]
    apply Set.union_subset
    · exact Set.Ico_subset_Ico_right (by omega)
    · exact hframes.trans (Set.Ico_subset_Ico_left (by omega))
  have hwindow : Disjoint (Set.Ico base (base + sz)) imageWindow := by
    rw [Set.disjoint_left]
    rintro x ⟨hx, hx'⟩ ⟨hw, hw'⟩
    simp only [kImgWinStart, kImgWinEnd] at hside
    omega
  have hinside : Set.Ico base (base + sz) ⊆ handedOver hdr := Set.Ico_subset_Ico hbase hin
  have hlimit : (bootPlatform mem hdr).mapLimit =
      mapLimit (hdr.fBitMapStart + hdr.fBitMapSize) := by
    show mapLimit (u64 _) = _
    rw [u64_of_lt (by omega)]
  refine ⟨?_, ?_, ?_, ?_, ?_, fun x hx => ?_⟩
  · rw [hheap, Set.disjoint_left]
    exact fun x hx hx' => absurd (hframes hx').1 (Nat.not_le.mpr hx.2)
  · exact hwindow.mono_left (Set.subset_union_left.trans hregion)
  · exact hwindow.mono_left (Set.subset_union_right.trans hregion)
  · exact (Set.subset_union_left.trans hregion).trans hinside
  · exact (Set.subset_union_right.trans hregion).trans hinside
  · have hlt : x < (bootPlatform mem hdr).mapLimit := by
      have hxin := (hinside (hregion hx)).2
      have hram : hdr.fBitMapStart + hdr.fBitMapSize + (kGiB - 1) < 2 ^ 64 := by
        simp only [kGiB]
        omega
      have := le_mapLimit hram
      rw [hlimit]
      omega
    refine ⟨hlt, fun n root p' hinit hroot => ?_⟩
    have hle : (bootPlatform mem hdr).mapLimit ≤ 2 ^ 47 := hlimit ▸ mapLimit_le hend
    rw [(mmInitKernelTables_spec hle (hanswers n) hinit hroot).read]
    exact identityMap_addr hle hlt

/-- A range around the window: the side above the window is taken. -/
theorem platform_regions_around :
    (bootPlatform zeros ⟨0x20000000, 0x48000000⟩).heap = Set.Ico 0x44000000 0x56000000 ∧
    Disjoint (bootPlatform zeros ⟨0x20000000, 0x48000000⟩).heap imageWindow :=
  ⟨rfl, (platform_regions zeros ⟨0x20000000, 0x48000000⟩ (by decide)).2.1⟩

end NeKernel.HALKit
