import NeKernel.Lib.BitMask
import NeKernel.Lib.ByteStore
import NeKernel.NeKit.Config

/-!
# The disk drivers

Three drivers read and write a drive in sectors of 512 bytes: AHCI, PIO and DMA. A request is a
byte address and a size, and the device is told a sector number and a count. The three do not
agree on the count of a request:

* AHCI rounds the size down, so a size that is not a multiple of 512 loses its last sector;
* PIO adds a sector to every size, so a multiple of 512 gets one too many;
* DMA rounds up.

The reading loop of PIO stores whole words, one byte too many for an odd size. The devices answer:
a command slot is free, and no command fails. Of the DMA driver the task file and the copies are modelled:
the PRD it builds and the commands it gives to the bus master are left out.
-/

namespace NeKernel.HALKit

open ByteStore

def kSectorSize : Nat := 512

def kibCast (x : Nat) : Nat := x * 1024

/-- What a device is told: how many sectors, and from which one on. -/
structure Command where
  sectors : Nat
  sectorNumber : Nat

/-- The sectors a count of `bits` bits stands for: `0` stands for all it can name. -/
def countSectors (bits count : Nat) : Nat :=
  if count % 2 ^ bits = 0 then 2 ^ bits else count % 2 ^ bits

/-! ## AHCI -/

/-- What `drv_std_input_output_ahci` writes into a `FisRegH2D`. -/
structure FisRegH2D where
  command : Nat
  device : Nat
  lba0 : Nat
  lba1 : Nat
  lba2 : Nat
  lba3 : Nat
  lba4 : Nat
  lba5 : Nat
  countLow : Nat
  countHigh : Nat

/-- An `HbaPrdtEntry`: an address and a byte count less one. -/
structure HbaPrdtEntry where
  dba : Nat
  dbau : Nat
  dbc : Nat

def kSATALBAMode : Nat := 0x40
def kAHCICmdIdentify : Nat := 0xEC
def kAHCICmdReadDmaEx : Nat := 0x25
def kAHCICmdWriteDmaEx : Nat := 0x35

/-- The loop that builds the PRD table, in chunks of 32 KiB. -/
def prdTable : Nat → Nat → Nat → List HbaPrdtEntry
  | 0, _, _ => []
  | fuel + 1, bufferPhys, bytesRemaining =>
      if bytesRemaining > 0 then
        let chunkSize := if bytesRemaining > kibCast 32 then kibCast 32 else bytesRemaining
        ⟨bufferPhys &&& 0xFFFFFFFF, bufferPhys >>> 32, chunkSize - 1⟩ ::
          prdTable fuel (bufferPhys + chunkSize) (bytesRemaining - chunkSize)
      else []

/-- The command frame. `write` and `identify` are the template's parameters. -/
def ahciFis (write identify : Bool) (lba sizeBuffer : Nat) : FisRegH2D where
  command :=
    if identify then kAHCICmdIdentify else if write then kAHCICmdWriteDmaEx else kAHCICmdReadDmaEx
  device := if identify then 0 else kSATALBAMode
  lba0 := (lba >>> 0) &&& 0xFF
  lba1 := (lba >>> 8) &&& 0xFF
  lba2 := (lba >>> 16) &&& 0xFF
  lba3 := (lba >>> 24) &&& 0xFF
  lba4 := (lba >>> 32) &&& 0xFF
  lba5 := (lba >>> 40) &&& 0xFF
  countLow := if identify then 1 else (sizeBuffer / kSectorSize) &&& 0xFF
  countHigh := if identify then 0 else ((sizeBuffer / kSectorSize) >>> 8) &&& 0xFF

/-- The command a frame is for the device. -/
def FisRegH2D.told (fis : FisRegH2D) : Command where
  sectors := countSectors 16 (fis.countHigh * 2 ^ 8 + fis.countLow)
  sectorNumber := fis.lba5 * 2 ^ 40 + fis.lba4 * 2 ^ 32 + fis.lba3 * 2 ^ 24 + fis.lba2 * 2 ^ 16 +
    fis.lba1 * 2 ^ 8 + fis.lba0

def kNeDMAPoolEnd : Nat := 0x2000000

/-- `rtl_dma_alloc`, with the pool's pointer at `kDmaPoolPtr`. -/
def rtlDmaAlloc (kDmaPoolPtr size align : Nat) : Nat :=
  let addr := (kDmaPoolPtr + (align - 1)) / align * align
  if size = 0 then 0 else if addr + size > kNeDMAPoolEnd then 0 else addr

/-- `rt_copy_memory` to the memory `m`, from a buffer at `src` that holds `data`. -/
def rtCopyMemory (src : Nat) (data : Store) (dst len : Nat) (m : Store) : Store :=
  if src = 0 ∨ dst = 0 then m else blit m dst len data

/-- A request to AHCI: the frame, the PRD table, and the caller's memory after it. -/
structure AhciTransfer where
  fis : FisRegH2D
  prdt : List HbaPrdtEntry
  mem : Store

/-- `drv_std_input_output_ahci`. The device leaves `data` in the DMA buffer. -/
def drvStdInputOutputAhci (write identify : Bool) (kDmaPoolPtr lba buffer sectorSz sizeBuffer : Nat)
    (data mem : Store) : Option AhciTransfer :=
  if sectorSz = 0 then none
  else if buffer = 0 ∨ sizeBuffer = 0 then none
  else
    let ptr := rtlDmaAlloc kDmaPoolPtr sizeBuffer (kibCast 4)
    some
      { fis := ahciFis write identify (lba / sectorSz) sizeBuffer
        prdt := prdTable sizeBuffer ptr sizeBuffer
        mem := if write then mem else rtCopyMemory ptr data buffer sizeBuffer mem }

/-! ## The task file -/

def kAtaRegSecCount0 : Nat := 0x02
def kAtaRegLba0 : Nat := 0x03
def kAtaRegLba1 : Nat := 0x04
def kAtaRegLba2 : Nat := 0x05
def kAtaRegHddevsel : Nat := 0x06
def kAtaRegLba3 : Nat := 0x09
def kAtaPrimaryIo : Nat := 0x1F0
def kAtaPrimarySel : Nat := 0xA0
def kAtaSecondarySel : Nat := 0xB0

/-- The ports, with the byte last written to each. -/
abbrev Ports := Nat → Nat

/-- `rt_out8`. -/
def rtOut8 (ports : Ports) (port byte : Nat) : Ports := Function.update ports port (byte % 2 ^ 8)

/-- `drv_pio_std_select` and `drv_std_select`. -/
def drvStdSelect (ports : Ports) (bus : Nat) : Ports :=
  if bus = kAtaPrimaryIo then rtOut8 ports (bus + kAtaRegHddevsel) kAtaPrimarySel
  else rtOut8 ports (bus + kAtaRegHddevsel) kAtaSecondarySel

/-- The drive, the count and the address, as both ATA drivers write them. -/
def ataTaskFile (ports : Ports) (io master lba count : Nat) : Ports :=
  let command := if master = 0 then 0xE0 else 0xF0
  let ports := rtOut8 ports (io + kAtaRegHddevsel) (command ||| ((lba >>> 24) &&& 0x0F))
  let ports := rtOut8 ports (io + kAtaRegSecCount0) count
  let ports := rtOut8 ports (io + kAtaRegLba0) (lba &&& 0xFF)
  let ports := rtOut8 ports (io + kAtaRegLba1) (lba >>> 8)
  let ports := rtOut8 ports (io + kAtaRegLba2) (lba >>> 16)
  rtOut8 ports (io + kAtaRegLba3) (lba >>> 24)

/-- The command the task file is for the device. The sector number has 28 bits. -/
def ataTold (ports : Ports) (io : Nat) : Command where
  sectors := countSectors 8 (ports (io + kAtaRegSecCount0))
  sectorNumber := ports (io + kAtaRegHddevsel) % 2 ^ 4 * 2 ^ 24 + ports (io + kAtaRegLba2) * 2 ^ 16 +
    ports (io + kAtaRegLba1) * 2 ^ 8 + ports (io + kAtaRegLba0)

/-- A request to an ATA drive: the ports when the command is given, and the caller's memory after
it. -/
structure AtaTransfer where
  ports : Ports
  mem : Store

/-! ## PIO -/

/-- The reading loop: every word of the data port fills two bytes of the buffer. -/
def pioIn (data : Store) (buf size : Nat) : Nat → Nat → Store → Store
  | 0, _, m => m
  | fuel + 1, indexOff, m =>
      if indexOff < size then
        pioIn data buf size fuel (indexOff + 2) (putLE m (buf + indexOff) 2 (getLE data indexOff 2))
      else m

/-- `drv_pio_std_read`, of a drive that has `data` at the data port. -/
def drvPioStdRead (ports : Ports) (lba io master buf sectorSz size : Nat) (data mem : Store) :
    AtaTransfer where
  ports :=
    ataTaskFile (drvStdSelect ports io) io master (lba / sectorSz) (u64 (size + sectorSz) / sectorSz)
  mem := pioIn data buf size size 0 mem

/-- The words the writing loop puts on the data port. -/
def pioOut (mem : Store) (buf size : Nat) : Nat → Nat → List Nat
  | 0, _ => []
  | fuel + 1, indexOff =>
      if indexOff < size then
        let low := (mem (buf + indexOff)).toNat
        let high := if indexOff + 1 < size then (mem (buf + indexOff + 1)).toNat else 0
        (high * 2 ^ 8 + low) :: pioOut mem buf size fuel (indexOff + 2)
      else []

/-- `drv_pio_std_write`: the ports when the command is given, and the words that follow it. -/
def drvPioStdWrite (ports : Ports) (lba io master buf sectorSz size : Nat) (mem : Store) :
    Ports × List Nat :=
  (ataTaskFile (drvStdSelect ports io) io master (lba / sectorSz) (u64 (size + sectorSz) / sectorSz),
    pioOut mem buf size size 0)

/-! ## DMA -/

def kReadAddr : Nat := 2 * 1024 * 1024

/-- `drv_std_read`. The device leaves `data` at `kReadAddr`. -/
def drvStdRead (ports : Ports) (lba io master buf sectorSz size : Nat) (data mem : Store) :
    Option AtaTransfer :=
  if size > kibCast 64 then none
  else some
    { ports := ataTaskFile (drvStdSelect ports io) io master (lba / sectorSz)
        (u64 (size + sectorSz - 1) / sectorSz)
      mem := rtCopyMemory kReadAddr data buf size mem }

/-- `drv_std_write`: the ports when the command is given, and the bytes at `kWriteAddr`. -/
def drvStdWrite (ports : Ports) (lba io master buf sectorSz size : Nat) (mem : Store) :
    Option (Ports × List UInt8) :=
  if size > kibCast 64 then none
  else some
    (ataTaskFile ports io master (lba / sectorSz) (u64 (size + (sectorSz - 1)) / sectorSz),
      (List.range size).map fun i => mem (buf + i))

/-! ## What the devices are told -/

variable {ports : Ports} {io master lba count n buf fuel i phys : Nat} {mem data : Store}

theorem and_low_byte (x : Nat) : x &&& 0xFF = x % 2 ^ 8 := BitMask.and_low x 8

/-- Six bytes of an address. -/
theorem lba48_eq (lba : Nat) :
    (lba >>> 40 &&& 0xFF) * 2 ^ 40 + (lba >>> 32 &&& 0xFF) * 2 ^ 32 +
      (lba >>> 24 &&& 0xFF) * 2 ^ 24 + (lba >>> 16 &&& 0xFF) * 2 ^ 16 +
      (lba >>> 8 &&& 0xFF) * 2 ^ 8 + (lba >>> 0 &&& 0xFF) = lba % 2 ^ 48 := by
  simp only [and_low_byte, Nat.shiftRight_eq_div_pow]
  omega

/-- Two bytes of a count. -/
theorem count16_eq (count : Nat) :
    (count >>> 8 &&& 0xFF) * 2 ^ 8 + (count &&& 0xFF) = count % 2 ^ 16 := by
  simp only [and_low_byte, Nat.shiftRight_eq_div_pow]
  omega

theorem countSectors_mod (bits count : Nat) :
    countSectors bits (count % 2 ^ bits) = countSectors bits count := by
  rw [countSectors, Nat.mod_mod, countSectors]

theorem countSectors_pos (bits count : Nat) : 0 < countSectors bits count := by
  rw [countSectors]
  split
  · exact Nat.two_pow_pos bits
  · next hne => exact Nat.pos_of_ne_zero hne

/-- A count stands for `c` sectors if it is `c` cut to its bits. -/
theorem countSectors_eq_iff {bits c : Nat} (hpos : 0 < c) (hle : c ≤ 2 ^ bits) :
    countSectors bits count = c ↔ count % 2 ^ bits = c % 2 ^ bits := by
  have hlt : count % 2 ^ bits < 2 ^ bits := Nat.mod_lt _ (Nat.two_pow_pos bits)
  have hc : c % 2 ^ bits = if c = 2 ^ bits then 0 else c := by
    split
    · next h => rw [h, Nat.mod_self]
    · exact Nat.mod_eq_of_lt (by omega)
  rw [countSectors, hc]
  split <;> split <;> omega

/-- AHCI is told a count and a sector number cut to their fields. -/
theorem ahciFis_told {write : Bool} :
    (ahciFis write false lba n).told = ⟨countSectors 16 (n / kSectorSize), lba % 2 ^ 48⟩ := by
  rw [← countSectors_mod, ← count16_eq, ← lba48_eq]
  rfl

/-- The low half of the drive register is the top of the address. -/
theorem hddevsel_low (command lba : Nat) (hcommand : command = 0xE0 ∨ command = 0xF0) :
    (command ||| (lba / 2 ^ 24 &&& 0x0F)) % 2 ^ 8 % 2 ^ 4 = lba / 2 ^ 24 % 2 ^ 4 := by
  have hlow : lba / 2 ^ 24 &&& 0x0F = lba / 2 ^ 24 % 2 ^ 4 := BitMask.and_low _ 4
  have hor : command ||| (lba / 2 ^ 24 % 2 ^ 4) = command + lba / 2 ^ 24 % 2 ^ 4 := by
    apply BitMask.or_eq_add (n := 4)
    · omega
    · omega
  rw [hlow, hor]
  omega

/-- The task file holds a count and a sector number cut to its registers. -/
theorem ataTaskFile_told : ataTold (ataTaskFile ports io master lba count) io =
    ⟨countSectors 8 count, lba % 2 ^ 28⟩ := by
  have hhigh := hddevsel_low (if master = 0 then 0xE0 else 0xF0) lba (by split <;> simp)
  simp only [ataTold, ataTaskFile, rtOut8, Function.update_apply, kAtaRegHddevsel,
    kAtaRegSecCount0, kAtaRegLba0, kAtaRegLba1, kAtaRegLba2, kAtaRegLba3, Nat.add_left_cancel_iff,
    Nat.reduceEqDiff, if_true, if_false, and_low_byte, Nat.shiftRight_eq_div_pow, hhigh,
    countSectors_mod, Command.mk.injEq, true_and]
  omega

inductive Driver where
  | ahci
  | pio
  | dma

/-- Where a request finds the drivers: the ports, the drive on them, and the DMA pool. -/
structure DriverState where
  ports : Ports
  io : Nat
  master : Nat
  kDmaPoolPtr : Nat

/-- A read of `n` bytes: what the device is told, and the caller's memory after it. -/
def Driver.read (s : DriverState) (lba buf n : Nat) (data mem : Store) :
    Driver → Option (Command × Store)
  | ahci => (drvStdInputOutputAhci false false s.kDmaPoolPtr lba buf kSectorSize n data mem).map
      fun t => (t.fis.told, t.mem)
  | pio =>
      let t := drvPioStdRead s.ports lba s.io s.master buf kSectorSize n data mem
      some (ataTold t.ports s.io, t.mem)
  | dma => (drvStdRead s.ports lba s.io s.master buf kSectorSize n data mem).map
      fun t => (ataTold t.ports s.io, t.mem)

/-- A write of `n` bytes: what the device is told. -/
def Driver.write (s : DriverState) (lba buf n : Nat) (mem : Store) : Driver → Option Command
  | ahci => (drvStdInputOutputAhci true false s.kDmaPoolPtr lba buf kSectorSize n zeros mem).map
      fun t => t.fis.told
  | pio => some (ataTold (drvPioStdWrite s.ports lba s.io s.master buf kSectorSize n mem).1 s.io)
  | dma => (drvStdWrite s.ports lba s.io s.master buf kSectorSize n mem).map
      fun t => ataTold t.1 s.io

/-- The sectors of `n` bytes, the last one not always full. -/
def ceilSectors (n : Nat) : Nat := (n + (kSectorSize - 1)) / kSectorSize

/-- The sectors fit the count of the command, where `0` stands for all of them, and the bytes fit
the driver's buffer. -/
def Driver.Fits (s : DriverState) (n : Nat) : Driver → Prop
  | ahci => ceilSectors n ≤ 2 ^ 16 ∧ rtlDmaAlloc s.kDmaPoolPtr n (kibCast 4) ≠ 0
  | pio => ceilSectors n ≤ 2 ^ 8
  | dma => ceilSectors n ≤ 2 ^ 8 ∧ n ≤ kibCast 64

/-- Reads and writes tell the device the sectors of the request, and a read fills the caller's
buffer and nothing else. -/
def Driver.Right (s : DriverState) (lba n : Nat) (d : Driver) : Prop :=
  ∀ buf data mem, buf ≠ 0 →
    d.read s lba buf n data mem = some (⟨ceilSectors n, lba / kSectorSize⟩, blit mem buf n data) ∧
    d.write s lba buf n mem = some ⟨ceilSectors n, lba / kSectorSize⟩

variable {s : DriverState}

theorem u64_pio_count (hfits : Driver.pio.Fits s n) :
    u64 (n + kSectorSize) / kSectorSize = n / kSectorSize + 1 := by
  have hcount : ceilSectors n ≤ 2 ^ 8 := hfits
  simp only [ceilSectors, kSectorSize] at hcount ⊢
  rw [u64_of_lt (by omega)]
  omega

/-- The primary bus and an untouched DMA pool. -/
def primaryDrive : DriverState := ⟨fun _ => 0, kAtaPrimaryIo, 0, 0x1000000⟩

end NeKernel.HALKit
