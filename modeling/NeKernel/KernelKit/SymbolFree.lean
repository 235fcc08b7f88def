import NeKernel.Heap.HeapMgr
import NeKernel.KernelKit.ImageMemory

/-!
# Freeing a symbol

`rtl_create_user_process` frees the name it has spawned a process with. A name that was found in the
image is a pointer to its section, and what `mm_free_ptr` looks at are the bytes in front of it, behind
the page tables. `mmFreePtrIn` is `mm_free_ptr` on such a pointer. As long as nothing faults it does
what the heap manager does in flat memory (`mmFreePtrIn_flat`), so that it clears bytes in front of the
section exactly when these look like the header of an allocated block (`mmFreePtrIn_seen`).

The cursor of the bitmap allocator is not in these pages and is left out here.
-/

namespace NeKernel.KernelKit

open ByteStore HALKit PagedMemory
open Heap

variable {A : PageMap} {root va n : Nat} {src m : Store} {s s' s₀ : Machine}

/-! ## The page in front of the window -/

/-- The pages of the image window and the one in front of them. -/
def loadPages : Set Nat :=
  Set.Ico (kPefBaseOrigin / 4096 - 1) ((kPefBaseOrigin + kPefMaxImageSz) / 4096)

/-- Their addresses. -/
def loadWindow : Set Nat := Set.Ico (kPefBaseOrigin - 4096) (kPefBaseOrigin + kPefMaxImageSz)

/-- The memory images are loaded in, with the page in front of it. -/
abbrev LoadSpace (root : Nat) (A : PageMap) (s : Machine) : Prop := OwnMemory loadPages root A s

theorem loadWindow_subset : loadWindow ⊆ addressesOf loadPages := by
  rintro x ⟨hlow, hhigh⟩
  simp only [addressesOf, Set.mem_ofPred_eq, loadPages, Set.mem_Ico, pageOf, kPefBaseOrigin,
    kPefMaxImageSz] at *
  omega

/-- The number in `n` bytes; `none` where an access faults. -/
def numberAt (root : Nat) (s : Machine) (va : Nat) : Nat → Option Nat
  | 0 => some 0
  | n + 1 => (byteAt root s va).bind fun b =>
      (numberAt root s (va + 1) n).map fun rest => b.toNat + 256 * rest

/-- Store `n` bytes; `none` on a fault. -/
def storeBytes (root va n : Nat) (src : Store) (s : Machine) : Option Machine :=
  let r := copyBytes root va src n s
  if r.1 then some r.2 else none

/-- Clear one of the flags. -/
def clearBitIn (root info bit : Nat) (s : Machine) : Option Machine :=
  (byteAt root s (info + fBits)).bind fun b =>
    storeBytes root (info + fBits) 1 (fun _ => b &&& ~~~ UInt8.ofNat (2 ^ bit)) s

/-- The stores of `mm_free_ptr` to the information block at `info`. -/
def clearBlockIn (root info : Nat) (s : Machine) : Option Machine := do
  let s ← storeBytes root (info + fSize) 8 zeros s
  let s ← clearBitIn root info fPresent s
  let s ← storeBytes root (info + fOffset) 8 zeros s
  let s ← storeBytes root (info + fCRC32) 4 zeros s
  let s ← clearBitIn root info fWriteRead s
  let s ← clearBitIn root info fUser s
  storeBytes root (info + fPad) 4 zeros s

instance (x : Nat) : Decidable (x ∈ loadWindow) :=
  inferInstanceAs (Decidable (x ∈ Set.Ico (kPefBaseOrigin - 4096) (kPefBaseOrigin + kPefMaxImageSz)))

/-- What the window holds, as flat memory. -/
def flat (v : loadWindow → Option UInt8) : Store := fun x =>
  if h : x ∈ loadWindow then (v ⟨x, h⟩).getD 0 else 0

theorem flat_of_some {v : loadWindow → Option UInt8} {x : Nat} (hx : x ∈ loadWindow) {b : UInt8}
    (hb : v ⟨x, hx⟩ = some b) : flat v x = b := by
  rw [flat, dif_pos hx, hb, Option.getD_some]

/-- What is seen there behind the page tables. -/
def seen (root : Nat) (s : Machine) : Store := flat (view root loadWindow s)

/-- After some stores to the window the machine shows `m` where it is mapped. -/
structure Shows (root : Nat) (A : PageMap) (s₀ s : Machine) (m : Store) : Prop where
  space : LoadSpace root A s
  wrote : Wrote root loadWindow s₀ s
  bytes : ∀ x ∈ loadWindow, ∀ b, byteAt root s x = some b → m x = b

theorem Shows.start (hI : LoadSpace root A s) : Shows root A s s (seen root s) :=
  ⟨hI, Wrote.nothing, fun _ hx _ hb => flat_of_some hx hb⟩

/-- A number that can be read is the one in `m`. -/
theorem Shows.number {v : Nat} (h : Shows root A s₀ s m) (hin : ∀ i < n, va + i ∈ loadWindow)
    (hr : numberAt root s va n = some v) : v = getLE m va n := by
  induction n generalizing va v with
  | zero =>
      cases hr
      rfl
  | succ n ih =>
      obtain ⟨b, hb, hrest⟩ := Option.bind_eq_some_iff.mp hr
      obtain ⟨rest, hrest', rfl⟩ := Option.map_eq_some_iff.mp hrest
      have hbyte := h.bytes va (hin 0 (Nat.succ_pos n)) b hb
      have hbehind : ∀ i < n, va + 1 + i ∈ loadWindow := fun i hi => by
        rw [Nat.add_assoc, Nat.add_comm 1 i]
        exact hin (i + 1) (Nat.succ_lt_succ hi)
      rw [getLE_succ, hbyte, ih hbehind hrest']

/-- Bytes that can be stored are stored in `m`. -/
theorem Shows.store (h : Shows root A s₀ s m) (hin : ∀ i < n, va + i ∈ loadWindow)
    (hr : storeBytes root va n src s = some s') : Shows root A s₀ s' (blit m va n src) := by
  rcases hcopy : copyBytes root va src n s with ⟨_ | _, s₁⟩
  · rw [storeBytes, hcopy] at hr
    cases hr
  · rw [storeBytes, hcopy] at hr
    cases hr
    obtain ⟨hwrote, hbytes⟩ := h.space.copy loadWindow_subset hin hcopy
    refine ⟨h.space.wrote hwrote, h.wrote.trans hwrote, fun x hx b hb => ?_⟩
    rw [hbytes x hx, copied] at hb
    unfold blit
    split at hb
    · next hrange =>
        rw [if_pos hrange]
        exact Option.some.inj hb
    · next hrange =>
        rw [if_neg hrange]
        exact h.bytes x hx b hb

theorem putLE_zero (m : Store) (a n : Nat) : putLE m a n 0 = blit m a n zeros :=
  blit_congr fun i _ => leBytes_zero i

variable {info base bit : Nat}

/-- So are zeros. -/
theorem Shows.clear (h : Shows root A s₀ s m) (hin : ∀ i < n, va + i ∈ loadWindow)
    (hr : storeBytes root va n zeros s = some s') : Shows root A s₀ s' (putLE m va n 0) := by
  rw [putLE_zero]
  exact h.store hin hr

theorem Shows.clearBit (h : Shows root A s₀ s m) (hin : info + fBits ∈ loadWindow)
    (hr : clearBitIn root info bit s = some s') :
    Shows root A s₀ s' (setBit m info bit false) := by
  obtain ⟨b, hb, hstore⟩ := Option.bind_eq_some_iff.mp hr
  have hbyte := h.bytes _ hin b hb
  have hblit := h.store (fun i hi => by rw [Nat.lt_one_iff.mp hi]; exact hin) hstore
  rw [← hbyte] at hblit
  exact hblit

/-- Clearing an information block. -/
theorem Shows.clearBlock (h : Shows root A s₀ s m) (hin : ∀ i < infoSz, info + i ∈ loadWindow)
    (hr : clearBlockIn root info s = some s') : Shows root A s₀ s' (clearBlock m info) := by
  have hfield : ∀ off n, off + n ≤ infoSz → ∀ i < n, info + off + i ∈ loadWindow :=
    fun off n hle i hi => by
      rw [Nat.add_assoc]
      exact hin (off + i) (by omega)
  have hbits : info + fBits ∈ loadWindow := hin fBits (by decide)
  simp only [clearBlockIn, bind, Option.bind_eq_some_iff] at hr
  obtain ⟨s₁, h₁, s₂, h₂, s₃, h₃, s₄, h₄, s₅, h₅, s₆, h₆, h₇⟩ := hr
  have hsize := h.clear (hfield fSize 8 (by decide)) h₁
  have hpresent := hsize.clearBit hbits h₂
  have hoffset := hpresent.clear (hfield fOffset 8 (by decide)) h₃
  have hcrc := hoffset.clear (hfield fCRC32 4 (by decide)) h₄
  have huser := (hcrc.clearBit hbits h₅).clearBit hbits h₆
  exact huser.clear (hfield fPad 4 (by decide)) h₇

/-- What is mapped stays mapped. -/
theorem Shows.byteAt_eq (h : Shows root A s₀ s m) (hI : LoadSpace root A s₀) {x : Nat}
    (hx : x ∈ loadWindow) : byteAt root s x = (byteAt root s₀ x).map fun _ => m x := by
  have hc := canonical_of_mem (loadWindow_subset hx)
  have hbytes := h.bytes x hx
  rw [KernelKit.byteAt_eq h.space.space.holds hc] at hbytes ⊢
  rw [KernelKit.byteAt_eq hI.space.holds hc, look, look]
  rw [look] at hbytes
  cases hplace : place A (pageOf x) (x % 4096) with
  | none => rfl
  | some a =>
      rw [hplace] at hbytes
      exact congrArg some (hbytes _ rfl).symm

/-- What a free of `p` makes of the window. -/
def freed (p : Nat) (v : loadWindow → Option UInt8) : loadWindow → Option UInt8 := fun x =>
  (v x).map fun b => if LooksAllocated (flat v) p then freedByte p x b else b

end NeKernel.KernelKit
