import NeKernel.NeKit.Config
import Mathlib.Data.List.Induction

/-!
# The memory map of the firmware

`boot_scan_memory` looks for the largest descriptor of free memory and hands it to the kernel. It
moves the start of the range 8 MiB up and leaves the size as it is, so the range ends 8 MiB behind
the descriptor. Only a second descriptor of the same size, 8 MiB above the first, would hold it.
-/

namespace NeKernel.BootKit

/-- `EfiConventionalMemory`. -/
def efiConventionalMemory : Nat := 7

/-- `kBootLowMemEnd`. -/
def kBootLowMemEnd : Nat := 0x100000

def mibCast (x : Nat) : Nat := x * 1024 * 1024

/-- What `boot_scan_memory` reads of an `EfiMemoryDescriptor`. -/
structure EfiMemoryDescriptor where
  kind : Nat
  physicalStart : Nat
  numberOfPages : Nat

/-- The range handed over to the kernel, in `BootInfoHeader`. -/
structure BootInfoHeader where
  fBitMapStart : Nat
  fBitMapSize : Nat

/-- The descriptors the loop does not skip. -/
def EfiMemoryDescriptor.Usable (desc : EfiMemoryDescriptor) : Prop :=
  desc.kind = efiConventionalMemory ∧ kBootLowMemEnd ≤ desc.physicalStart

instance (desc : EfiMemoryDescriptor) : Decidable desc.Usable := by
  unfold EfiMemoryDescriptor.Usable
  infer_instance

/-- `free_pages` and `first_free_page`. -/
structure ScanState where
  freePages : Nat
  firstFreePage : Nat

/-- The body of the loop of `boot_scan_memory`. -/
def scanDescriptor (s : ScanState) (desc : EfiMemoryDescriptor) : ScanState :=
  if ¬ desc.Usable then s
  else if desc.numberOfPages > s.freePages then ⟨desc.numberOfPages, desc.physicalStart⟩
  else s

/-- `boot_scan_memory`, on the map the firmware returns; `none` if it stops. -/
def bootScanMemory (map : List EfiMemoryDescriptor) : Option BootInfoHeader :=
  let s := map.foldl scanDescriptor ⟨0, 0⟩
  if s.firstFreePage = 0 ∨ s.freePages < 1 then none
  else some
    { fBitMapStart := u64 (s.firstFreePage + mibCast 8)
      fBitMapSize := u64 (s.freePages * 4096) }

/-! ## The search -/

variable {map : List EfiMemoryDescriptor} {d e : EfiMemoryDescriptor} {s : ScanState}
  {hdr : BootInfoHeader}

/-- `d` is at least as large as every other usable descriptor. -/
def Largest (map : List EfiMemoryDescriptor) (d : EfiMemoryDescriptor) : Prop :=
  d ∈ map ∧ d.Usable ∧ ∀ e ∈ map, e.Usable → e.numberOfPages ≤ d.numberOfPages

/-- `d` is the first of the largest descriptors. -/
def FirstLargest (map : List EfiMemoryDescriptor) (d : EfiMemoryDescriptor) : Prop :=
  ∃ before after, map = before ++ d :: after ∧ Largest map d ∧
    ∀ e ∈ before, e.Usable → e.numberOfPages < d.numberOfPages

theorem FirstLargest.largest (h : FirstLargest map d) : Largest map d := by
  obtain ⟨-, -, -, h, -⟩ := h
  exact h

/-- There is one first largest descriptor. -/
theorem FirstLargest.unique (h : FirstLargest map d) (h' : FirstLargest map e) : d = e := by
  obtain ⟨before, after, heq, hd, hbefore⟩ := h
  obtain ⟨before', after', heq', he, hbefore'⟩ := h'
  have hsame : d.numberOfPages = e.numberOfPages :=
    Nat.le_antisymm (he.2.2 d hd.1 hd.2.1) (hd.2.2 e he.1 he.2.1)
  rw [heq] at heq'
  rcases List.append_eq_append_iff.mp heq' with ⟨mid, hb, ha⟩ | ⟨mid, hb, ha⟩
  · cases mid with
    | nil => exact (List.cons.inj ha).1
    | cons x mid =>
        obtain ⟨rfl, -⟩ := List.cons.inj ha
        have := hbefore' d (hb ▸ by simp) hd.2.1
        omega
  · cases mid with
    | nil => exact (List.cons.inj ha).1.symm
    | cons x mid =>
        obtain ⟨rfl, -⟩ := List.cons.inj ha
        have := hbefore e (hb ▸ by simp) he.2.1
        omega

/-- What the loop knows of the descriptors it has seen: none of them has a page, or it has the
first largest one. -/
def Scanned (seen : List EfiMemoryDescriptor) (s : ScanState) : Prop :=
  s.freePages = 0 ∧ (∀ e ∈ seen, e.Usable → e.numberOfPages = 0) ∨
  ∃ d, FirstLargest seen d ∧ s = ⟨d.numberOfPages, d.physicalStart⟩ ∧ 0 < d.numberOfPages

/-- A smaller descriptor, or one that is skipped, changes nothing. -/
theorem FirstLargest.append_other (h : FirstLargest map d)
    (he : e.Usable → e.numberOfPages ≤ d.numberOfPages) : FirstLargest (map ++ [e]) d := by
  obtain ⟨before, after, rfl, ⟨hmem, husable, hall⟩, hbefore⟩ := h
  refine ⟨before, after ++ [e], ?_, ⟨List.mem_append_left _ hmem, husable, ?_⟩, hbefore⟩
  · rw [List.append_assoc, List.cons_append]
  · intro e' he' husable'
    rcases List.mem_append.mp he' with he' | he'
    · exact hall e' he' husable'
    · rw [List.mem_singleton.mp he'] at husable' ⊢
      exact he husable'

/-- A descriptor larger than all the others is the first largest. -/
theorem firstLargest_append (husable : e.Usable)
    (hlarger : ∀ e' ∈ map, e'.Usable → e'.numberOfPages < e.numberOfPages) :
    FirstLargest (map ++ [e]) e := by
  refine ⟨map, [], rfl, ⟨List.mem_append_right _ (List.mem_singleton_self e), husable, ?_⟩, hlarger⟩
  intro e' he' husable'
  rcases List.mem_append.mp he' with he' | he'
  · exact Nat.le_of_lt (hlarger e' he' husable')
  · rw [List.mem_singleton.mp he']

theorem Scanned.step (h : Scanned map s) : Scanned (map ++ [e]) (scanDescriptor s e) := by
  unfold scanDescriptor
  split
  · next hskip =>
      rcases h with ⟨hs, hall⟩ | ⟨d, hd, hs, hpos⟩
      · refine .inl ⟨hs, fun e' he' husable' => ?_⟩
        rcases List.mem_append.mp he' with he' | he'
        · exact hall e' he' husable'
        · exact absurd (List.mem_singleton.mp he' ▸ husable') hskip
      · exact .inr ⟨d, hd.append_other fun husable => absurd husable hskip, hs, hpos⟩
  · next husable =>
      have husable := not_not.mp husable
      split
      · next hlarger =>
          refine .inr ⟨e, firstLargest_append husable fun e' he' husable' => ?_, rfl, by omega⟩
          rcases h with ⟨-, hall⟩ | ⟨d, hd, rfl, -⟩
          · have := hall e' he' husable'
            omega
          · exact Nat.lt_of_le_of_lt (hd.largest.2.2 e' he' husable') hlarger
      · next hsmaller =>
          rcases h with ⟨hs, hall⟩ | ⟨d, hd, rfl, hpos⟩
          · refine .inl ⟨hs, fun e' he' husable' => ?_⟩
            rcases List.mem_append.mp he' with he' | he'
            · exact hall e' he' husable'
            · rw [List.mem_singleton.mp he']
              omega
          · exact .inr ⟨d, hd.append_other fun _ => Nat.not_lt.mp hsmaller, rfl, hpos⟩

theorem scanned (map : List EfiMemoryDescriptor) :
    Scanned map (map.foldl scanDescriptor ⟨0, 0⟩) := by
  induction map using List.reverseRecOn with
  | nil => exact .inl ⟨rfl, fun e he => absurd he (List.not_mem_nil)⟩
  | append_singleton map e ih =>
      rw [List.foldl_append]
      exact ih.step

/-- What is handed over is read off the first largest descriptor. -/
theorem bootScanMemory_spec (h : bootScanMemory map = some hdr) :
    ∃ d, FirstLargest map d ∧ 0 < d.numberOfPages ∧
      hdr = ⟨u64 (d.physicalStart + mibCast 8), u64 (d.numberOfPages * 4096)⟩ := by
  unfold bootScanMemory at h
  simp only at h
  split at h
  · cases h
  · next hgo =>
      rcases scanned map with ⟨hs, -⟩ | ⟨d, hd, hs, hpos⟩
      · omega
      · rw [hs] at h
        exact ⟨d, hd, hpos, (Option.some.inj h).symm⟩

/-! ## What is handed over -/

/-- The range lies in one of the largest descriptors. -/
def InLargest (map : List EfiMemoryDescriptor) (hdr : BootInfoHeader) : Prop :=
  ∃ e, Largest map e ∧ ∀ x, hdr.fBitMapStart ≤ x → x < hdr.fBitMapStart + hdr.fBitMapSize →
    e.physicalStart ≤ x ∧ x < e.physicalStart + e.numberOfPages * 4096

/-- The descriptor `e`, as large as `d`, holds what is handed over for `d`. From `2 ^ 52` pages on
a descriptor is larger than the address space, and its size in bytes wraps. -/
def Holds (d e : EfiMemoryDescriptor) : Prop :=
  if d.numberOfPages < 2 ^ 52 then e.physicalStart = u64 (d.physicalStart + mibCast 8)
  else u64 (d.numberOfPages * 4096) = 0 ∨ e.physicalStart ≤ u64 (d.physicalStart + mibCast 8)

/-- A range of natural numbers lies in another if it is empty or its ends do. -/
theorem range_subset_iff {a n b m : Nat} : (∀ x, a ≤ x → x < a + n → b ≤ x ∧ x < b + m) ↔
    n = 0 ∨ b ≤ a ∧ a + n ≤ b + m := by
  constructor
  · intro h
    by_cases hn : n = 0
    · exact .inl hn
    · have hfirst := h a (Nat.le_refl _) (by omega)
      have hlast := h (a + n - 1) (by omega) (by omega)
      omega
  · intro h x hx hx'
    omega

theorem holds_iff (hsame : e.numberOfPages = d.numberOfPages) (hpos : 0 < d.numberOfPages) :
    (u64 (d.numberOfPages * 4096) = 0 ∨ e.physicalStart ≤ u64 (d.physicalStart + mibCast 8) ∧
      u64 (d.physicalStart + mibCast 8) + u64 (d.numberOfPages * 4096) ≤
        e.physicalStart + e.numberOfPages * 4096) ↔ Holds d e := by
  have hlt := u64_lt (d.physicalStart + mibCast 8)
  unfold Holds
  rw [hsame]
  split
  · next hsmall =>
      rw [u64_of_lt (by omega : d.numberOfPages * 4096 < 2 ^ 64)]
      omega
  · next hlarge =>
      -- the descriptor ends behind everything that fits 64 bits
      have hwrap : u64 (d.numberOfPages * 4096) + 2 ^ 64 ≤ d.numberOfPages * 4096 := by
        unfold u64
        omega
      omega

/-- **The handed-over range.** It lies in one of the largest descriptors if and only if one of
them holds what is handed over for the first. -/
theorem inLargest_iff (map : List EfiMemoryDescriptor) (hdr : BootInfoHeader)
    (h : bootScanMemory map = some hdr) :
    InLargest map hdr ↔ ∃ d e, FirstLargest map d ∧ Largest map e ∧ Holds d e := by
  obtain ⟨d, hd, hpos, rfl⟩ := bootScanMemory_spec h
  have hsame : ∀ e, Largest map e → e.numberOfPages = d.numberOfPages := fun e he =>
    Nat.le_antisymm (hd.largest.2.2 e he.1 he.2.1) (he.2.2 d hd.largest.1 hd.largest.2.1)
  constructor
  · rintro ⟨e, he, hin⟩
    refine ⟨d, e, hd, he, ?_⟩
    rw [← holds_iff (hsame e he) hpos]
    exact range_subset_iff.mp hin
  · rintro ⟨d', e, hd', he, hholds⟩
    obtain rfl := hd'.unique hd
    refine ⟨e, he, range_subset_iff.mpr ?_⟩
    exact (holds_iff (hsame e he) hpos).mpr hholds

/-- 16 MiB of free memory. -/
def freeAt (start : Nat) : EfiMemoryDescriptor := ⟨efiConventionalMemory, start, 4096⟩

/-- Two descriptors of 16 MiB, the second 8 MiB above the first. -/
theorem inLargest_iff_overlapping :
    InLargest [freeAt 0x100000, freeAt 0x900000] ⟨0x900000, 0x1000000⟩ := by
  apply (inLargest_iff [freeAt 0x100000, freeAt 0x900000] _ rfl).mpr
  have hlargest : ∀ e ∈ [freeAt 0x100000, freeAt 0x900000],
      Largest [freeAt 0x100000, freeAt 0x900000] e := by
    intro e he
    refine ⟨he, ?_⟩
    simp only [List.mem_cons, List.not_mem_nil, or_false] at he
    rcases he with rfl | rfl <;> exact ⟨by decide, by decide⟩
  refine ⟨freeAt 0x100000, freeAt 0x900000, ⟨[], [freeAt 0x900000], rfl, ?_, ?_⟩, ?_, ?_⟩
  · exact hlargest _ List.mem_cons_self
  · intro e he
    cases he
  · exact hlargest _ (List.mem_cons_of_mem _ List.mem_cons_self)
  · rfl

/-- 16 MiB of free memory: the range handed over ends 8 MiB behind them. -/
theorem one_descriptor_exceeded :
    bootScanMemory [freeAt 0x100000] = some ⟨0x900000, 0x1000000⟩ ∧
      ¬ InLargest [freeAt 0x100000] ⟨0x900000, 0x1000000⟩ := by
  refine ⟨rfl, ?_⟩
  rintro ⟨e, ⟨hmem, -⟩, hin⟩
  rw [List.mem_singleton.mp hmem] at hin
  have hlast := (hin 0x18fffff (by decide) (by decide)).2
  revert hlast
  decide

end NeKernel.BootKit
