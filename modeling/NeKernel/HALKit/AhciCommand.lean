import NeKernel.DmaKit.DmaPool
import NeKernel.HALKit.Storage
import NeKernel.Lib.Polls
import NeKernel.NeKit.AsciiUtils

/-!
# A command of the AHCI driver

`drv_init_command_structures_ahci` takes a command list and 32 command tables from the DMA pool, and
`drv_std_input_output_ahci` takes a buffer, describes it in the table of a free slot, issues the command
and waits. A pool that has no room for the buffer is not noticed: the command is issued for the address
zero, and the bytes that were never taken are given back. Nor is a table that is too short: the test for
it comes after a loop that has already written every entry.
-/

namespace NeKernel.Ahci

open ByteStore Polls DmaKit
open HALKit (FisRegH2D ahciFis)
open NeKit (rtCopyMemory)

def kSATAErrTaskFile : UInt32 := 0x40000000
def kSATASRBsy : UInt32 := 0x80
def kSATASRDrq : UInt32 := 0x08
def kSATAPortCnt : Nat := 0x20
def kFISTypeRegH2D : Nat := 0x27
def kTimeout : Nat := 0x8000

/-- The bytes a buffer is aligned to, `kib_cast(4)`, and the most an entry is for, `kib_cast(32)`. -/
def kPage : UInt64 := 4 * 1024
def kChunk : UInt64 := 32 * 1024

/-- `sizeof(FisRegH2D)`. -/
def sizeofFisRegH2D : Nat := 20

/-- Where the entries begin in an `HbaCmdTbl`, and `sizeof(HbaPrdtEntry)`. -/
def prdtOffset : UInt64 := 0x80
def sizeofHbaPrdtEntry : UInt64 := 16

/-- `sizeof(HbaCmdHeader)`. -/
def sizeofHbaCmdHeader : UInt64 := 32

/-- The width of `unsigned long`: 64 bits, or 32 where `long` is as wide as `int`. -/
inductive DataModel where
  | lp64
  | llp64

/-- `~0UL`, compared with a `UIntPtr`. -/
def DataModel.notZeroUL : DataModel → UInt64
  | .lp64 => 0xFFFFFFFFFFFFFFFF
  | .llp64 => 0xFFFFFFFF

/-- What the driver reads from the registers of a port, read after read, and what the device does to
memory when it is given a command. -/
structure AhciDevice where
  sact : Nat → UInt32
  ci : Nat → UInt32
  ciIssued : Nat → UInt32
  is : UInt32
  tfd : Nat → UInt32
  transfer : Store → Store

/-! ## The command tables -/

structure HbaPrdtEntry where
  dba : UInt32
  dbau : UInt32
  dbc : UInt32
  ie : Bool

structure HbaCmdHeader where
  cfl : Nat
  write : Bool
  prdtl : UInt16
  ctba : UInt32
  ctbau : UInt32

/-- A header of zeros. -/
def blankHeader : HbaCmdHeader := ⟨0, false, 0, 0, 0⟩

/-- The table a header names. -/
def HbaCmdHeader.table (header : HbaCmdHeader) : UInt64 :=
  (header.ctbau.toUInt64 <<< 32) ||| header.ctba.toUInt64

/-- What a command table holds. -/
structure HbaCmdTbl where
  fisType : Nat
  cmdOrCtrl : Bool
  fis : FisRegH2D
  prdt : List HbaPrdtEntry

/-- What the driver works on: the DMA pool and the error, the address of the command list in the port's
registers, the headers by their address, and memory. -/
structure Hba where
  pool : DmaPool
  clb : UInt32
  clbu : UInt32
  headers : UInt64 → HbaCmdHeader
  mem : Store

/-- The error is set. -/
def Hba.fail (h : Hba) (err : Int) : Hba := { h with pool := { h.pool with err := err } }

/-- The loop over the command tables, with `left` of them to go. -/
def initTables (mmGetPageAddr : UInt64 → UInt64) (clbMem : UInt64) : Nat → Nat → Hba → Bool × Hba
  | 0, _, h => (true, h)
  | left + 1, i, h =>
      let ctMem := rtlDmaAlloc 4096 128 h.pool
      if ctMem.1 = 0 then (false, { h with pool := ctMem.2 })
      else
        let ctPhys := mmGetPageAddr ctMem.1
        let header := clbMem + sizeofHbaCmdHeader * UInt64.ofNat i
        initTables mmGetPageAddr clbMem left (i + 1)
          { h with
            pool := ctMem.2
            headers := Function.update h.headers header
              { h.headers header with ctba := ctPhys.toUInt32, ctbau := (ctPhys >>> 32).toUInt32 } }

/-- `drv_init_command_structures_ahci`. The command list is cleared with the memory it is in. -/
def drvInitCommandStructuresAhci (mmGetPageAddr : UInt64 → UInt64) (h : Hba) : Bool × Hba :=
  let clbMem := rtlDmaAlloc 4096 1024 h.pool
  if clbMem.1 = 0 then (false, { h with pool := clbMem.2 })
  else
    let clbPhys := mmGetPageAddr clbMem.1
    initTables mmGetPageAddr clbMem.1 kSATAPortCnt 0
      { h with
        pool := clbMem.2
        clb := clbPhys.toUInt32
        clbu := (clbPhys >>> 32).toUInt32
        headers := fun a => if a - clbMem.1 < 4096 then blankHeader else h.headers a }

/-! ## One command -/

/-- `drv_find_cmd_slot_ahci`, converted to a `UIntPtr`. -/
def drvFindCmdSlotAhci (sact ci : UInt32) : UInt64 :=
  match (List.range kSATAPortCnt).find? fun i => (sact ||| ci) &&& (1 <<< UInt32.ofNat i) = 0 with
  | some i => UInt64.ofNat i
  | none => -1

/-- The slot that is found, read after read. -/
def AhciDevice.slot (dev : AhciDevice) (k : Nat) : UInt64 := drvFindCmdSlotAhci (dev.sact k) (dev.ci k)

/-- `while (slot == ~0UL)`: the first read, and the reads until `timeout > kTimeout`. -/
def waitSlot (dm : DataModel) (dev : AhciDevice) : Option UInt64 :=
  (poll (fun k => dev.slot k ≠ dm.notZeroUL) (kTimeout + 2) 0).map dev.slot

def chunkSize (bytesRemaining : UInt64) : UInt64 :=
  if bytesRemaining > kChunk then kChunk else bytesRemaining

theorem chunkSize_toNat (n : UInt64) : (chunkSize n).toNat = min n.toNat kChunk.toNat := by
  rw [chunkSize]
  split
  · next h => exact (Nat.min_eq_right (UInt64.lt_iff_toNat_lt.mp h).le).symm
  · next h =>
      exact (Nat.min_eq_left (Nat.not_lt.mp fun hlt => h (UInt64.lt_iff_toNat_lt.mpr hlt))).symm

theorem sub_chunkSize_toNat (n : UInt64) :
    (n - chunkSize n).toNat = n.toNat - min n.toNat kChunk.toNat := by
  rw [UInt64.toNat_sub_of_le, chunkSize_toNat]
  rw [UInt64.le_iff_toNat_le, chunkSize_toNat]
  exact Nat.min_le_left _ _

/-- The loop that builds the entries, and the bytes it leaves over. The byte count has 22 bits. -/
def prdLoop (bufferPhys bytesRemaining : UInt64) : List HbaPrdtEntry × UInt64 :=
  if bytesRemaining > 0 then
    let chunk := chunkSize bytesRemaining
    let rest := prdLoop (bufferPhys + chunk) (bytesRemaining - chunk)
    (⟨bufferPhys.toUInt32, (bufferPhys >>> 32).toUInt32, (chunk - 1).toUInt32 &&& 0x3FFFFF, false⟩ ::
      rest.1, rest.2)
  else ([], bytesRemaining)
termination_by bytesRemaining.toNat
decreasing_by
  next h =>
    have hpos : 0 < bytesRemaining.toNat := UInt64.lt_iff_toNat_lt.mp h
    have hchunk : 0 < kChunk.toNat := by decide
    rw [sub_chunkSize_toNat]
    omega

/-- The last entry interrupts. -/
def markLast : List HbaPrdtEntry → List HbaPrdtEntry
  | [] => []
  | [e] => [{ e with ie := true }]
  | e :: es => e :: markLast es

/-- What `drv_std_input_output_ahci` is asked for. The first three are the template's parameters. -/
structure IoRequest where
  write : Bool
  commandOrCTRL : Bool
  identify : Bool
  lba : UInt64
  buffer : UInt64
  sectorSz : UInt64
  sizeBuffer : UInt64

/-- A command as the device is given it. -/
structure IssuedCommand where
  slot : UInt64
  ci : UInt32
  header : HbaCmdHeader
  table : HbaCmdTbl

/-- A call: the state behind it, the command that was issued, and whether it has come back. -/
structure IoCall where
  hba : Hba
  issued : Option IssuedCommand
  returned : Bool

/-- The buffer is taken from the pool, and filled for a write. -/
def takeBuffer (rq : IoRequest) (h : Hba) : UInt64 × Hba :=
  let ptr := rtlDmaAlloc rq.sizeBuffer kPage h.pool
  let pool := rtlDmaFlush ptr.1 ptr.2
  let mem := if rq.write then (rtCopyMemory h.mem rq.buffer.toNat ptr.1.toNat rq.sizeBuffer.toNat).2
    else h.mem
  (ptr.1, { h with pool := rtlDmaFlush ptr.1 pool, mem := mem })

/-- The buffer is given back. -/
def giveBuffer (rq : IoRequest) (h : Hba) : Hba := { h with pool := rtlDmaFree rq.sizeBuffer h.pool }

/-- The command is put together, for the slot and the buffer at `ptr`. -/
def command (rq : IoRequest) (slot ptr : UInt64) (header : HbaCmdHeader) : IssuedCommand :=
  let prdt := markLast (prdLoop ptr rq.sizeBuffer).1
  { slot := slot
    ci := 1 <<< slot.toUInt32
    header :=
      { header with
        prdtl := UInt16.ofNat prdt.length
        cfl := sizeofFisRegH2D / 4
        write := rq.write }
    table :=
      { fisType := kFISTypeRegH2D
        cmdOrCtrl := rq.commandOrCTRL
        fis := ahciFis rq.write rq.identify (rq.lba / rq.sectorSz).toNat rq.sizeBuffer.toNat
        prdt := prdt } }

/-- What was read is copied to the caller's buffer. -/
def copyBack (rq : IoRequest) (ptr : UInt64) (h : Hba) : Hba :=
  if rq.write then h
  else
    let pool := rtlDmaFlush ptr h.pool
    { h with
      pool := rtlDmaFlush ptr pool
      mem := (rtCopyMemory h.mem ptr.toNat rq.buffer.toNat rq.sizeBuffer.toNat).2 }

/-- What follows the write to `Ci`. The device is idle after at most `fuel` reads, or the call has not
come back. -/
def complete (rq : IoRequest) (dev : AhciDevice) (fuel : Nat) (slot ptr : UInt64) (h : Hba) :
    Hba × Bool :=
  let h := { h with mem := dev.transfer h.mem }
  match poll (fun k => dev.ciIssued k &&& (1 <<< slot.toUInt32) = 0) (kTimeout + 1) 0 with
  | none => (giveBuffer rq (h.fail kErrorDiskIsCorrupted), true)
  | some _ =>
      let h := { h with pool := rtlDmaFlush ptr h.pool }
      if dev.is &&& kSATAErrTaskFile ≠ 0 then ((giveBuffer rq h).fail kErrorDiskIsCorrupted, true)
      else
        let h := copyBack rq ptr h
        match poll (fun k => dev.tfd k &&& (kSATASRBsy ||| kSATASRDrq) = 0) fuel 0 with
        | none => (h, false)
        | some _ => ((giveBuffer rq h).fail kErrorSuccess, true)

/-- `drv_std_input_output_ahci`. -/
def drvStdInputOutputAhci (dm : DataModel) (rq : IoRequest) (dev : AhciDevice) (fuel : Nat) (h : Hba) :
    IoCall :=
  if rq.sectorSz = 0 then ⟨h.fail kErrorDisk, none, true⟩
  else if rq.buffer = 0 ∨ rq.sizeBuffer = 0 then ⟨h.fail kErrorDisk, none, true⟩
  else
    match waitSlot dm dev with
    | none => ⟨h.fail kErrorDisk, none, true⟩
    | some slot =>
        let header := h.clb.toUInt64 + sizeofHbaCmdHeader * slot
        let ptr := takeBuffer rq h
        if (prdLoop ptr.1 rq.sizeBuffer).2 > 0 then
          ⟨giveBuffer rq (ptr.2.fail kErrorDisk), none, true⟩
        else
          let cmd := command rq slot ptr.1 (h.headers header)
          let h := { ptr.2 with
            headers := Function.update ptr.2.headers header cmd.header
            pool := rtlDmaFlush ptr.1 ptr.2.pool }
          let done := complete rq dev fuel slot ptr.1 h
          ⟨done.1, some cmd, done.2⟩

/-! ## What a call does -/

variable {dm : DataModel} {rq : IoRequest} {dev : AhciDevice} {fuel : Nat} {h : Hba} {slot ptr n : UInt64}

/-- The entries take up every byte. -/
theorem prdLoop_left (ptr n : UInt64) : (prdLoop ptr n).2 = 0 := by
  induction ptr, n using prdLoop.induct with
  | case1 ptr n hpos chunk ih =>
      rw [prdLoop, if_pos hpos]
      exact ih
  | case2 ptr n hzero =>
      rw [prdLoop, if_neg hzero]
      apply UInt64.toNat_inj.mp
      exact Nat.eq_zero_of_not_pos fun hpos => hzero (UInt64.lt_iff_toNat_lt.mpr hpos)

/-- The call comes back before it takes a buffer: the request is empty, or no slot is found. -/
def Skips (dm : DataModel) (rq : IoRequest) (dev : AhciDevice) : Prop :=
  rq.sectorSz = 0 ∨ rq.buffer = 0 ∨ rq.sizeBuffer = 0 ∨ waitSlot dm dev = none

theorem io_skips (hskip : Skips dm rq dev) :
    drvStdInputOutputAhci dm rq dev fuel h = ⟨h.fail kErrorDisk, none, true⟩ := by
  unfold drvStdInputOutputAhci
  split
  · rfl
  · next hsector =>
      split
      · rfl
      · next hbuffer =>
          have hslot := (hskip.resolve_left hsector)
          rw [← or_assoc] at hslot
          rw [hslot.resolve_left hbuffer]

/-- The state in which a command is issued. -/
def issuing (rq : IoRequest) (slot : UInt64) (h : Hba) : Hba :=
  let ptr := takeBuffer rq h
  let header := h.clb.toUInt64 + sizeofHbaCmdHeader * slot
  { ptr.2 with
    headers := Function.update ptr.2.headers header (command rq slot ptr.1 (h.headers header)).header
    pool := rtlDmaFlush ptr.1 ptr.2.pool }

/-- The pointer to the buffer. -/
def bufferPtr (rq : IoRequest) (h : Hba) : UInt64 := (rtlDmaAlloc rq.sizeBuffer kPage h.pool).1

/-- **Any other call issues a command.** -/
theorem io_issues (fuel : Nat) (h : Hba) (hskip : ¬ Skips dm rq dev) :
    ∃ slot, waitSlot dm dev = some slot ∧
    drvStdInputOutputAhci dm rq dev fuel h =
      ⟨(complete rq dev fuel slot (bufferPtr rq h) (issuing rq slot h)).1,
        some (command rq slot (bufferPtr rq h) (h.headers (h.clb.toUInt64 + sizeofHbaCmdHeader * slot))),
        (complete rq dev fuel slot (bufferPtr rq h) (issuing rq slot h)).2⟩ := by
  simp only [Skips, not_or] at hskip
  obtain ⟨hsector, hbuffer, hsize, hslot⟩ := hskip
  obtain ⟨slot, hslot⟩ := Option.ne_none_iff_exists'.mp hslot
  refine ⟨slot, hslot, ?_⟩
  rw [drvStdInputOutputAhci, if_neg hsector, if_neg (not_or.mpr ⟨hbuffer, hsize⟩), hslot]
  simp only [prdLoop_left, gt_iff_lt, UInt64.lt_irrefl, if_false]
  rfl

theorem issuing_kDmaPoolPtr : (issuing rq slot h).pool.kDmaPoolPtr =
    (rtlDmaAlloc rq.sizeBuffer kPage h.pool).2.kDmaPoolPtr := by
  simp only [issuing, takeBuffer, rtlDmaFlush_kDmaPoolPtr]

theorem copyBack_kDmaPoolPtr : (copyBack rq ptr h).pool.kDmaPoolPtr = h.pool.kDmaPoolPtr := by
  unfold copyBack
  split
  · rfl
  · simp only [rtlDmaFlush_kDmaPoolPtr]

/-- The device has done the command without an error, and stays busy. -/
def Hangs (dev : AhciDevice) (slot : UInt64) : Prop :=
  (poll (fun k => dev.ciIssued k &&& (1 <<< slot.toUInt32) = 0) (kTimeout + 1) 0).isSome ∧
    dev.is &&& kSATAErrTaskFile = 0 ∧ ∀ k, dev.tfd k &&& (kSATASRBsy ||| kSATASRDrq) ≠ 0

/-- **A call that comes back** has given the buffer back. -/
theorem complete_kDmaPoolPtr (hret : (complete rq dev fuel slot ptr h).2 = true) :
    (complete rq dev fuel slot ptr h).1.pool.kDmaPoolPtr =
      (rtlDmaFree rq.sizeBuffer h.pool).kDmaPoolPtr := by
  unfold complete at hret ⊢
  dsimp only at hret ⊢
  split
  · exact rtlDmaFree_congr rfl
  · next hdone =>
      simp only [hdone] at hret
      split
      · exact rtlDmaFree_congr (rtlDmaFlush_kDmaPoolPtr _ _)
      · next herr =>
          rw [if_neg herr] at hret
          split
          · next hbusy =>
              simp only [hbusy] at hret
              cases hret
          · apply rtlDmaFree_congr
            rw [copyBack_kDmaPoolPtr]
            exact rtlDmaFlush_kDmaPoolPtr _ _

/-- The call does not come back exactly when the device hangs. -/
theorem complete_returns_iff :
    (∃ fuel, (complete rq dev fuel slot ptr h).2 = true) ↔ ¬ Hangs dev slot := by
  unfold complete Hangs
  cases hdone : poll (fun k => dev.ciIssued k &&& (1 <<< slot.toUInt32) = 0) (kTimeout + 1) 0 with
  | none => simp
  | some k =>
      by_cases herr : dev.is &&& kSATAErrTaskFile = 0
      · simp only [herr, ne_eq, not_true_eq_false, if_false, Option.isSome_some, true_and, not_forall,
          not_not]
        constructor
        · rintro ⟨fuel, hret⟩
          split at hret
          · cases hret
          · next j hidle => exact ⟨j, of_decide_eq_true (ready_of_poll hidle)⟩
        · rintro ⟨j, hidle⟩
          obtain ⟨fuel, i, hpoll⟩ :=
            (exists_poll_iff (fun k => dev.tfd k &&& (kSATASRBsy ||| kSATASRDrq) = 0) 0).mpr
              ⟨j, by rw [Nat.zero_add]; exact decide_eq_true hidle⟩
          refine ⟨fuel, ?_⟩
          simp only [hpoll]
      · simp [herr]

/-! ## The DMA pool -/

/-- The pool grants the buffer, and not at the address zero. -/
def Granted (p : DmaPool) (n : UInt64) : Prop :=
  ¬ Refuses p n kPage ∧ alignedAddr p.kDmaPoolPtr kPage ≠ 0

instance {p : DmaPool} : Decidable (Granted p n) := inferInstanceAs (Decidable (_ ∧ _))

theorem granted_iff {p : DmaPool} : Granted p n ↔ (rtlDmaAlloc n kPage p).1 ≠ 0 := by
  by_cases href : Refuses p n kPage
  · simp only [Granted, href, not_true_eq_false, false_and, (rtlDmaAlloc_refused href).1, ne_eq]
  · rw [Granted, rtlDmaAlloc_granted href]
    exact ⟨fun hg => hg.2, fun hne => ⟨href, hne⟩⟩

/-- A call keeps to the DMA memory it was given: it comes back with the cursor not below where it was, and
when it is given none it issues no command, copies nothing and leaves an error. -/
structure DmaRight (rq : IoRequest) (h : Hba) (call : IoCall) : Prop where
  kept : call.returned = true → h.pool.kDmaPoolPtr ≤ call.hba.pool.kDmaPoolPtr
  failed : bufferPtr rq h = 0 →
    call.issued = none ∧ call.hba.mem = h.mem ∧ call.hba.pool.err ≠ kErrorSuccess

theorem io_skips_right (hskip : Skips dm rq dev) :
    DmaRight rq h (drvStdInputOutputAhci dm rq dev fuel h) := by
  rw [io_skips hskip]
  have herr : kErrorDisk ≠ kErrorSuccess := by decide
  exact ⟨fun _ => UInt64.le_refl _, fun _ => ⟨rfl, rfl, herr⟩⟩

/-- The cursor behind a call that was given a buffer. -/
theorem issued_kDmaPoolPtr (hg : Granted h.pool rq.sizeBuffer)
    (hret : (complete rq dev fuel slot ptr (issuing rq slot h)).2 = true) :
    (complete rq dev fuel slot ptr (issuing rq slot h)).1.pool.kDmaPoolPtr =
      if alignedAddr h.pool.kDmaPoolPtr kPage < kNeDMAPoolStart then
        alignedAddr h.pool.kDmaPoolPtr kPage + rq.sizeBuffer
      else alignedAddr h.pool.kDmaPoolPtr kPage := by
  rw [complete_kDmaPoolPtr hret, rtlDmaFree_congr issuing_kDmaPoolPtr, rtlDmaFree_granted hg.1]

/-- **A call keeps to its DMA memory** exactly when it takes none, or is granted some: in the pool, or with
an end that does not wrap to below the cursor (or it never comes back). -/
theorem ahci_dma_right_iff (dm : DataModel) (rq : IoRequest) (dev : AhciDevice) (h : Hba) :
    (∀ fuel, DmaRight rq h (drvStdInputOutputAhci dm rq dev fuel h)) ↔
      Skips dm rq dev ∨ Granted h.pool rq.sizeBuffer ∧
        (kNeDMAPoolStart ≤ alignedAddr h.pool.kDmaPoolPtr kPage ∨
          h.pool.kDmaPoolPtr ≤ alignedAddr h.pool.kDmaPoolPtr kPage + rq.sizeBuffer ∨
          ∃ slot, waitSlot dm dev = some slot ∧ Hangs dev slot) := by
  by_cases hskip : Skips dm rq dev
  · exact ⟨fun _ => .inl hskip, fun _ fuel => io_skips_right hskip⟩
  · obtain ⟨slot, hslot⟩ : ∃ slot, waitSlot dm dev = some slot :=
      Option.ne_none_iff_exists'.mp fun hnone => hskip (.inr (.inr (.inr hnone)))
    have hcall : ∀ fuel, drvStdInputOutputAhci dm rq dev fuel h = _ := fun fuel => by
      obtain ⟨slot', hslot', hcall⟩ := io_issues fuel h hskip
      cases hslot.symm.trans hslot'
      exact hcall
    constructor
    · intro hright
      have hg : Granted h.pool rq.sizeBuffer := granted_iff.mpr fun hnull => by
        have hissued := ((hright 0).failed hnull).1
        rw [hcall] at hissued
        cases hissued
      refine .inr ⟨hg, ?_⟩
      by_cases hlow : kNeDMAPoolStart ≤ alignedAddr h.pool.kDmaPoolPtr kPage
      · exact .inl hlow
      · refine .inr (Or.symm ?_)
        by_cases hhang : Hangs dev slot
        · exact .inl ⟨slot, hslot, hhang⟩
        · -- the call comes back, and the buffer stays taken
          obtain ⟨fuel, hret⟩ := complete_returns_iff.mpr hhang
          have hkept := (hright fuel).kept
          rw [hcall] at hkept
          rw [issued_kDmaPoolPtr hg hret, if_pos (UInt64.not_le.mp hlow)] at hkept
          exact .inr (hkept hret)
    · rintro (habs | ⟨hg, hroom⟩) fuel
      · exact absurd habs hskip
      · rw [hcall]
        refine ⟨fun hret => ?_, fun hnull => absurd hnull (granted_iff.mp hg)⟩
        rw [issued_kDmaPoolPtr hg hret]
        split
        · next hlow =>
            rcases hroom with hin | hend | ⟨slot', hslot', hhang⟩
            · exact absurd hlow (UInt64.not_lt.mpr hin)
            · exact hend
            · cases hslot.symm.trans hslot'
              exact absurd hhang (complete_returns_iff.mp ⟨fuel, hret⟩)
        · exact le_alignedAddr (n := 12) (by decide) (by decide) hg.2

/-- A device with nothing to do, that does every command at once. -/
def idleDevice : AhciDevice := ⟨fun _ => 0, fun _ => 0, fun _ => 0, 0, fun _ => 0, id⟩

/-- A read of two pages, and a pool with one page left, which begins with the command list. -/
def readTwoPages : IoRequest := ⟨false, true, false, 0, 0x5000, 512, 0x2000⟩
def onePageLeft : Hba := ⟨⟨0x1FFF000, kErrorSuccess⟩, 0x1000000, 0, fun _ => blankHeader, fun _ => 0⟩

/-- The command is issued all the same, and two pages go back to the pool. -/
theorem two_pages_lost : ∃ call, call = drvStdInputOutputAhci .llp64 readTwoPages idleDevice 1 onePageLeft ∧
    call.issued ≠ none ∧ call.hba.pool.kDmaPoolPtr + 0x2000 = onePageLeft.pool.kDmaPoolPtr ∧
    ¬ DmaRight readTwoPages onePageLeft call := by
  refine ⟨_, rfl, ?_⟩
  have hskip : ¬ Skips .llp64 readTwoPages idleDevice := by
    simp only [Skips, not_or]
    exact ⟨by decide, by decide, by decide, by decide⟩
  obtain ⟨slot, hslot, hcall⟩ := io_issues 1 onePageLeft hskip
  have hfirst : waitSlot .llp64 idleDevice = some 0 := by decide
  cases hfirst.symm.trans hslot
  have hnull : bufferPtr readTwoPages onePageLeft = 0 := by decide
  have hptr : (complete readTwoPages idleDevice 1 0 0
      (issuing readTwoPages 0 onePageLeft)).1.pool.kDmaPoolPtr =
        (rtlDmaFree readTwoPages.sizeBuffer (issuing readTwoPages 0 onePageLeft).pool).kDmaPoolPtr :=
    complete_kDmaPoolPtr rfl
  rw [hcall, hnull]
  refine ⟨Option.some_ne_none _, ?_, fun hright => ?_⟩
  · rw [hptr, rtlDmaFree_congr issuing_kDmaPoolPtr]
    decide
  · exact absurd (hright.failed hnull).1 (Option.some_ne_none _)

end NeKernel.Ahci
