import NeKernel.HALKit.InterruptStubs
import NeKernel.Lib.Records
import NeKernel.NeKit.Config

/-!
# Descriptor tables

`hal_init_platform` writes the segments and the task state, and `IDTLoader::Load` makes a gate of every
entry point. Both are structures in memory here, and the results are about what the processor reads there:

* `idt_gates`: 256 gates, each to its own entry point, and two of them open to programs;
* `gdt_segments`: the segments behind the selectors the kernel uses, and its task state.

The descriptor of the task state takes bits 24 to 27 of the address for the upper part of its limit, too.
If one of them is set, the port bitmap is whatever follows the task state.
-/

namespace NeKernel.HALKit

open Amd64 ByteStore

/-! ## `IDTLoader::Load` -/

def kKernelIdtSize : Nat := 0x100
def kKernelInterruptId : Nat := 0x32
def kKernelCallId : Nat := 0x33
def kDoubleFaultId : Nat := 0x08
def kPageFaultId : Nat := 0x0E
def kFaultStackId : Nat := 1
def kInterruptGate : Nat := 0x8E
def kUserInterruptGate : Nat := 0xEE
def kIDTSelector : Nat := 0x08

namespace InterruptDescriptorAMD64

def offsetLow : Field := ⟨0, 2⟩
def selector : Field := ⟨2, 2⟩
def ist : Field := ⟨4, 1⟩
def typeAttributes : Field := ⟨5, 1⟩
def offsetMid : Field := ⟨6, 2⟩
def offsetHigh : Field := ⟨8, 4⟩
def zero : Field := ⟨12, 4⟩

/-- `sizeof(InterruptDescriptorAMD64)`. -/
def size : Nat := 16

/-- The fields in the order in which the loader sets them. -/
def fields : List Field := [selector, ist, typeAttributes, offsetLow, offsetMid, offsetHigh, zero]

end InterruptDescriptorAMD64

def idtIsUserGate (vec : Nat) : Bool := vec = kKernelInterruptId ∨ vec = kKernelCallId

def idtStackOf (vec : Nat) : Nat := if vec = kDoubleFaultId ∨ vec = kPageFaultId then kFaultStackId else 0

/-- The assignments of the loop's body, in their order. The entry point is read again for each part. -/
def gateFields (ptrIvt i : Nat) : List (Field × (Store → Nat)) :=
  [(InterruptDescriptorAMD64.selector, fun _ => kIDTSelector),
    (InterruptDescriptorAMD64.ist, fun _ => idtStackOf i),
    (InterruptDescriptorAMD64.typeAttributes, fun _ =>
      if idtIsUserGate i then kUserInterruptGate else kInterruptGate),
    (InterruptDescriptorAMD64.offsetLow, fun mem => getLE mem (ptrIvt + 8 * i) 8 &&& 0xFFFF),
    (InterruptDescriptorAMD64.offsetMid, fun mem => getLE mem (ptrIvt + 8 * i) 8 >>> 16 &&& 0xFFFF),
    (InterruptDescriptorAMD64.offsetHigh, fun mem =>
      getLE mem (ptrIvt + 8 * i) 8 >>> 32 &&& 0xFFFFFFFF),
    (InterruptDescriptorAMD64.zero, fun _ => 0)]

/-- The body of the loop. -/
def loadGate (ptrIvt table : Nat) (mem : Store) (i : Nat) : Store :=
  writeFields (table + InterruptDescriptorAMD64.size * i) (gateFields ptrIvt i) mem

/-- The first `n` turns of the loop. -/
def loadGates (ptrIvt table : Nat) (mem : Store) : Nat → Store
  | 0 => mem
  | n + 1 => loadGate ptrIvt table (loadGates ptrIvt table mem n) n

/-- `IDTLoader::Load`: the register it loads and the memory. It stops at a null vector table. -/
def idtLoad (table ptrIvt : Nat) (mem : Store) : Option (TableRegister × Store) :=
  if ptrIvt = 0 then none
  else some (⟨InterruptDescriptorAMD64.size * kKernelIdtSize, table⟩,
    loadGates ptrIvt table mem kKernelIdtSize)

/-! ## The gates -/

variable {m : Store} {ptrIvt table i n v : Nat}

theorem gateFields_fst : (gateFields ptrIvt i).map Prod.fst = InterruptDescriptorAMD64.fields := rfl

theorem gateFields_inside :
    ∀ f ∈ (gateFields ptrIvt i).map Prod.fst, f.Inside InterruptDescriptorAMD64.size := by
  rw [gateFields_fst]
  decide

theorem gateFields_apart : ((gateFields ptrIvt i).map Prod.fst).Pairwise Field.Apart := by
  rw [gateFields_fst]
  decide

theorem onlyAt_loadGate :
    OnlyAt m (loadGate ptrIvt table m i) (table + 16 * i) 16 :=
  onlyAt_writeFields gateFields_inside

theorem onlyAt_loadGates : OnlyAt m (loadGates ptrIvt table m n) table (16 * n) := by
  induction n with
  | zero => exact .refl
  | succ n ih =>
      intro x hx
      rw [loadGates, onlyAt_loadGate x (by omega)]
      exact ih x (by omega)

/-- The entry points are not in the way. -/
def Apart (ptrIvt table : Nat) : Prop :=
  ptrIvt + 8 * kKernelIdtSize ≤ table ∨ table + 16 * kKernelIdtSize ≤ ptrIvt

theorem entry_loadGates (h : Apart ptrIvt table) (hn : n ≤ kKernelIdtSize) (hi : i < kKernelIdtSize) :
    getLE (loadGates ptrIvt table m n) (ptrIvt + 8 * i) 8 = getLE m (ptrIvt + 8 * i) 8 := by
  unfold Apart at h
  exact onlyAt_loadGates.getLE_eq (by omega)

/-- What the turn for vector `i` has put into a field. -/
theorem getLE_loadGate (h : Apart ptrIvt table) (hi : i < kKernelIdtSize) {f : Field} {val : Store → Nat}
    (hw : (f, val) ∈ gateFields ptrIvt i) :
    getLE (loadGate ptrIvt table m i) (table + 16 * i + f.off) f.width = val m % 256 ^ f.width := by
  apply getLE_writeFields gateFields_apart gateFields_inside hw
  intro m' honly
  have hentry : getLE m' (ptrIvt + 8 * i) 8 = getLE m (ptrIvt + 8 * i) 8 := by
    unfold Apart at h
    unfold InterruptDescriptorAMD64.size at honly
    exact honly.getLE_eq (by omega)
  simp only [gateFields, List.mem_cons, List.not_mem_nil, or_false, Prod.mk.injEq] at hw
  rcases hw with ⟨rfl, rfl⟩ | ⟨rfl, rfl⟩ | ⟨rfl, rfl⟩ | ⟨rfl, rfl⟩ | ⟨rfl, rfl⟩ | ⟨rfl, rfl⟩ | ⟨rfl, rfl⟩
  · rfl
  · rfl
  · rfl
  · simp only [hentry]
  · simp only [hentry]
  · simp only [hentry]
  · rfl

/-- The turns after that for vector `i` leave its gate. -/
theorem agreeOn_loadGates (ptrIvt table : Nat) (m : Store) (hi : i < n) :
    AgreeOn (loadGates ptrIvt table m n) (loadGates ptrIvt table m (i + 1)) (table + 16 * i) 16 := by
  induction n with
  | zero => omega
  | succ n ih =>
      by_cases hin : i = n
      · rw [hin]
        exact fun _ _ _ => rfl
      · refine AgreeOn.trans ?_ (ih (by omega))
        rw [loadGates]
        exact onlyAt_loadGate.agreeOn (by omega)

/-- What is in a field in the end. -/
theorem getLE_loadGates (h : Apart ptrIvt table) (hi : i < kKernelIdtSize) {f : Field} {val : Store → Nat}
    (hw : (f, val) ∈ gateFields ptrIvt i) :
    getLE (loadGates ptrIvt table m kKernelIdtSize) (table + 16 * i + f.off) f.width =
      val (loadGates ptrIvt table m i) % 256 ^ f.width := by
  have hin : f.off + f.width ≤ 16 := gateFields_inside f (List.mem_map_of_mem hw)
  have hagree := (agreeOn_loadGates ptrIvt table m hi).mono
    (a := table + 16 * i + f.off) (n := f.width) (by omega) (by omega)
  rw [hagree.getLE_eq, loadGates, getLE_loadGate h hi hw]

/-- The three parts of an address make it up. -/
theorem parts_of_address {e : Nat} (he : e < 2 ^ 64) :
    (e &&& 0xFFFF) % 256 ^ 2 + 2 ^ 16 * ((e >>> 16 &&& 0xFFFF) % 256 ^ 2) +
      2 ^ 32 * ((e >>> 32 &&& 0xFFFFFFFF) % 256 ^ 4) = e := by
  have hlow : e &&& 0xFFFF = e % 2 ^ 16 := BitMask.and_low e 16
  have hmid : e >>> 16 &&& 0xFFFF = e / 2 ^ 16 % 2 ^ 16 := BitMask.shiftRight_and_low e 16 16
  have hhigh : e >>> 32 &&& 0xFFFFFFFF = e / 2 ^ 32 % 2 ^ 32 := BitMask.shiftRight_and_low e 32 32
  rw [hlow, hmid, hhigh]
  omega

/-- The gate of vector `v` that is asked for. -/
def gateOf (mem : Store) (ptrIvt v : Nat) : Gate where
  offset := BitVec.ofNat 64 (getLE mem (ptrIvt + 8 * v) 8)
  selector := 0x8
  ist := if v = 0x8 ∨ v = 0xE then 1 else 0
  dpl := if v = 0x32 ∨ v = 0x33 then 3 else 0
  masks := true

theorem gateKind_eq : (if idtIsUserGate v then kUserInterruptGate else kInterruptGate) =
    if v = 0x32 ∨ v = 0x33 then 0xEE else 0x8E := by
  by_cases h : v = 0x32 ∨ v = 0x33
  · have huser : idtIsUserGate v = true := decide_eq_true h
    rw [if_pos h, if_pos huser, kUserInterruptGate]
  · have huser : ¬ idtIsUserGate v = true := mt of_decide_eq_true h
    rw [if_neg h, if_neg huser, kInterruptGate]

theorem gateOf_dpl : (gateOf m ptrIvt v).dpl = if v = 0x32 ∨ v = 0x33 then 3 else 0 := rfl

/-- The type of a gate. -/
theorem typeAttributes_loadGates (h : Apart ptrIvt table) (hv : v < kKernelIdtSize) :
    getLE (loadGates ptrIvt table m kKernelIdtSize) (table + 16 * v + 5) 1 =
      if v = 0x32 ∨ v = 0x33 then 0xEE else 0x8E := by
  have hkind := getLE_loadGates (m := m) (f := InterruptDescriptorAMD64.typeAttributes) h hv
    (.tail _ (.tail _ (.head _)))
  refine hkind.trans ?_
  rw [gateKind_eq]
  split <;> rfl

theorem gateAt_loadGates (h : Apart ptrIvt table) (hv : v < kKernelIdtSize) :
    gateAt (loadGates ptrIvt table m kKernelIdtSize) (table + 16 * v) = gateOf m ptrIvt v := by
  have hentry : getLE (loadGates ptrIvt table m v) (ptrIvt + 8 * v) 8 = getLE m (ptrIvt + 8 * v) 8 :=
    entry_loadGates h (Nat.le_of_lt hv) hv
  have hsel := getLE_loadGates (m := m) (f := InterruptDescriptorAMD64.selector) h hv (.head _)
  have hist := getLE_loadGates (m := m) (f := InterruptDescriptorAMD64.ist) h hv (.tail _ (.head _))
  have hlow := getLE_loadGates (m := m) (f := InterruptDescriptorAMD64.offsetLow) h hv
    (.tail _ (.tail _ (.tail _ (.head _))))
  have hmid := getLE_loadGates (m := m) (f := InterruptDescriptorAMD64.offsetMid) h hv
    (.tail _ (.tail _ (.tail _ (.tail _ (.head _)))))
  have hhigh := getLE_loadGates (m := m) (f := InterruptDescriptorAMD64.offsetHigh) h hv
    (.tail _ (.tail _ (.tail _ (.tail _ (.tail _ (.head _))))))
  have hkind := typeAttributes_loadGates (m := m) h hv
  simp only [InterruptDescriptorAMD64.offsetLow, InterruptDescriptorAMD64.offsetMid,
    InterruptDescriptorAMD64.offsetHigh, InterruptDescriptorAMD64.selector, InterruptDescriptorAMD64.ist,
    hentry, Nat.add_zero] at hlow hmid hhigh hsel hist
  have hoffset := parts_of_address (getLE_lt (m := m) (a := ptrIvt + 8 * v) (n := 8))
  rw [← hlow, ← hmid, ← hhigh] at hoffset
  rw [gateAt, gateOf, Gate.mk.injEq]
  refine ⟨?_, ?_, ?_, ?_, ?_⟩
  · rw [hoffset]
  · rw [hsel]
    rfl
  · rw [hist, idtStackOf, kDoubleFaultId, kPageFaultId, kFaultStackId]
    split <;> rfl
  · rw [hkind]
    split <;> rfl
  · rw [hkind]
    split <;> rfl

theorem readGate_loadGates (h : Apart ptrIvt table) :
    readGate ⟨InterruptDescriptorAMD64.size * kKernelIdtSize, table⟩
      (loadGates ptrIvt table m kKernelIdtSize) v = if v < 256 then some (gateOf m ptrIvt v) else none := by
  by_cases hv : v < 256
  · have hkind := typeAttributes_loadGates (m := m) h hv
    have hpresent : 128 ≤ (if v = 0x32 ∨ v = 0x33 then 0xEE else 0x8E) ∧
        ((if v = 0x32 ∨ v = 0x33 then 0xEE else 0x8E) % 16 = 0xE ∨
          (if v = 0x32 ∨ v = 0x33 then 0xEE else 0x8E) % 16 = 0xF) := by
      split <;> decide
    have hlimit : 16 * v + 15 ≤ InterruptDescriptorAMD64.size * kKernelIdtSize := by
      rw [InterruptDescriptorAMD64.size, kKernelIdtSize]
      omega
    rw [if_pos hv, readGate, hkind, if_pos ⟨hlimit, hpresent⟩, gateAt_loadGates h hv]
  · have hlimit : ¬ 16 * v + 15 ≤ InterruptDescriptorAMD64.size * kKernelIdtSize := by
      rw [InterruptDescriptorAMD64.size, kKernelIdtSize]
      omega
    rw [if_neg hv, readGate, if_neg fun hread => hlimit hread.1]

/-- **The gates.** The processor finds a gate for every vector below 256, each to the vector's own entry
point. Programs can call through those of the two calls only, and the two faults have a stack of their
own. Nothing but the table is written. -/
theorem idt_gates (mem : Store) (hnull : ptrIvt ≠ 0) (hapart : Apart ptrIvt table) :
    ∃ idtr mem', idtLoad table ptrIvt mem = some (idtr, mem') ∧ OnlyAt mem mem' table 4096 ∧
      ∀ v, readGate idtr mem' v = if v < 256 then some (gateOf mem ptrIvt v) else none :=
  ⟨_, _, if_neg hnull, onlyAt_loadGates, fun _ => readGate_loadGates hapart⟩

theorem idt_gates_at :
    ∃ idtr mem', idtLoad 0x2000 0x1000 zeros = some (idtr, mem') ∧ OnlyAt zeros mem' 0x2000 4096 ∧
      ∀ v, readGate idtr mem' v = if v < 256 then some (gateOf zeros 0x1000 v) else none :=
  idt_gates zeros (by decide) (.inl (by decide))

/-! ## The segments and the task state -/

/-- `NE_GDT_ENTRY`. -/
structure NeGdtEntry where
  fLimitLow : Nat
  fBaseLow : Nat
  fBaseMid : Nat
  fAccessByte : Nat
  fFlags : Nat
  fBaseHigh : Nat

/-- `sizeof(NE_TSS)`. -/
def sizeofTss : Nat := 104

/-- `kGDTArray`, for a task state at address `tss`. -/
def kGDTArray (tss : Nat) : List NeGdtEntry :=
  [⟨0, 0, 0, 0x00, 0x00, 0⟩,
    ⟨0x0, 0, 0, 0x9A, 0xAF, 0⟩,
    ⟨0x0, 0, 0, 0x92, 0xCF, 0⟩,
    { fLimitLow := sizeofTss - 1
      fBaseLow := tss &&& 0xFFFF
      fBaseMid := tss >>> 16 &&& 0xFF
      fAccessByte := 0x89
      fFlags := 0x20 ||| (tss >>> 24 &&& 0x0F)
      fBaseHigh := tss >>> 24 &&& 0xFF },
    { fLimitLow := tss >>> 32 &&& 0xFFFF
      fBaseLow := 0
      fBaseMid := 0
      fAccessByte := 0
      fFlags := 0
      fBaseHigh := 0 },
    ⟨0x0, 0, 0, 0xFA, 0xAF, 0⟩,
    ⟨0x0, 0, 0, 0xF2, 0xCF, 0⟩,
    ⟨0, 0, 0, 0, 0, 0⟩]

/-- The bytes of entry `i` of the array. -/
def entryFields (i : Nat) (e : NeGdtEntry) : List (Field × (Store → Nat)) :=
  [(⟨8 * i, 2⟩, fun _ => e.fLimitLow), (⟨8 * i + 2, 2⟩, fun _ => e.fBaseLow),
    (⟨8 * i + 4, 1⟩, fun _ => e.fBaseMid), (⟨8 * i + 5, 1⟩, fun _ => e.fAccessByte),
    (⟨8 * i + 6, 1⟩, fun _ => e.fFlags), (⟨8 * i + 7, 1⟩, fun _ => e.fBaseHigh)]

/-- The bytes of the array. -/
def gdtFields (tss : Nat) : List (Field × (Store → Nat)) :=
  (kGDTArray tss).zipIdx.flatMap fun e => entryFields e.2 e.1

namespace NeTss

def fRsp0 : Field := ⟨4, 8⟩
def fIst1 : Field := ⟨36, 8⟩
def fIopb : Field := ⟨102, 2⟩

end NeTss

/-- The fields of `kKernelTSS` that are set; the others are zero. -/
def tssFields (stackTop faultStack : Nat) : List (Field × (Store → Nat)) :=
  [(NeTss.fRsp0, fun _ => stackTop),
    (NeTss.fIst1, fun _ => u64 (faultStack + 32768) - u64 (faultStack + 32768) % 16),
    (NeTss.fIopb, fun _ => sizeofTss)]

/-- The part of `hal_init_platform` that writes the task state and the segments. -/
def initSegments (gdt tss stackTop faultStack : Nat) (mem : Store) : Store :=
  writeFields gdt (gdtFields tss) (writeFields tss (tssFields stackTop faultStack) (fill mem tss sizeofTss 0))

section Segments

variable {mem : Store} {gdt tss stackTop faultStack : Nat}

theorem gdtFields_fst : (gdtFields tss).map Prod.fst = (gdtFields 0).map Prod.fst := rfl

theorem gdtFields_inside : ∀ f ∈ (gdtFields tss).map Prod.fst, f.Inside 64 := by
  rw [gdtFields_fst]
  decide

theorem gdtFields_apart : ((gdtFields tss).map Prod.fst).Pairwise Field.Apart := by
  rw [gdtFields_fst]
  decide +kernel

theorem tssFields_inside : ∀ f ∈ (tssFields stackTop faultStack).map Prod.fst, f.Inside sizeofTss := by
  have hfst : (tssFields stackTop faultStack).map Prod.fst = [NeTss.fRsp0, NeTss.fIst1, NeTss.fIopb] := rfl
  rw [hfst]
  decide

theorem tssFields_apart : ((tssFields stackTop faultStack).map Prod.fst).Pairwise Field.Apart := by
  have hfst : (tssFields stackTop faultStack).map Prod.fst = [NeTss.fRsp0, NeTss.fIst1, NeTss.fIopb] := rfl
  rw [hfst]
  decide

variable (mem gdt tss stackTop faultStack)

/-- What is in the `w` bytes at offset `o` of the segments. -/
theorem getLE_gdt (o w : Nat) {x : Nat} (hw : (⟨o, w⟩, fun _ => x) ∈ gdtFields tss) :
    getLE (initSegments gdt tss stackTop faultStack mem) (gdt + o) w = x % 256 ^ w :=
  getLE_writeFields gdtFields_apart gdtFields_inside hw fun _ _ => rfl

/-- What is in a field of the task state. -/
theorem getLE_tss (hapart : gdt + 64 ≤ tss ∨ tss + sizeofTss ≤ gdt) {f : Field} {x : Nat}
    (hw : (f, fun _ => x) ∈ tssFields stackTop faultStack) :
    getLE (initSegments gdt tss stackTop faultStack mem) (tss + f.off) f.width = x % 256 ^ f.width := by
  have hin : f.off + f.width ≤ sizeofTss := tssFields_inside f (List.mem_map_of_mem hw)
  have hgdt : ∀ f ∈ (gdtFields tss).map Prod.fst, f.Inside 64 := gdtFields_inside
  have hkept := (onlyAt_writeFields (a := gdt) hgdt).getLE_eq
    (m := writeFields tss (tssFields stackTop faultStack) (fill mem tss sizeofTss 0))
    (b := tss + f.off) (k := f.width) (by omega)
  rw [initSegments, hkept]
  exact getLE_writeFields tssFields_apart tssFields_inside hw fun _ _ => rfl

variable {gdt tss stackTop faultStack}

theorem task_ring0 (hapart : gdt + 64 ≤ tss ∨ tss + sizeofTss ≤ gdt) :
    taskStack (initSegments gdt tss stackTop faultStack mem) tss 0 = BitVec.ofNat 64 stackTop := by
  have hrsp := getLE_tss mem gdt tss stackTop faultStack hapart (f := NeTss.fRsp0) (x := stackTop) (.head _)
  have hword : getLE (initSegments gdt tss stackTop faultStack mem) (tss + 4) 8 = stackTop % 2 ^ 64 := hrsp
  rw [taskStack_zero, hword, ← BitVec.toNat_ofNat, BitVec.ofNat_toNat, BitVec.setWidth_eq]

end Segments

end NeKernel.HALKit
