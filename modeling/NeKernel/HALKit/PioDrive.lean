import NeKernel.HALKit.Storage
import NeKernel.Lib.AtaDevice

/-!
# PIO and the drive

The kernel and the boot loader move the bytes of an ATA drive through its data port, a word at a time. Each
word waits for the drive, and the first one for the drive to ask for it.

The count the drive is told has a sector more than the words fill, so the drive is left waiting for more
(`request_left`). What comes of it depends on the drive. One that begins anew at the next command does for
every run of requests what a disk of bytes would do (`requests_refine`), up to the last sector of a write,
which is only stored if its words fill it (`read_back_iff`). One that drops the next command takes the words of
the next write for the sector it waits for (`second_write_misplaced`).
-/

namespace NeKernel.HALKit.Pio

open ByteStore AtaDevice

/-! ## The driver -/

def kAtaSrBsy : Nat := 0x80
def kAtaSrDrdy : Nat := 0x40
def kAtaSrDrq : Nat := 0x08
def kAtaSrErr : Nat := 0x01
def kAtaRegCommand : Nat := 0x07
def kAtaCmdReadPio : Nat := 0x20
def kAtaCmdWritePio : Nat := 0x30

/-- The first loop of `drv_pio_std_wait_io`. -/
def waitBusy : Nat → Drive → Option Drive
  | 0, _ => none
  | fuel + 1, d =>
      let (stat, d) := d.status
      if stat &&& kAtaSrBsy ≠ 0 then waitBusy fuel d else some d

/-- Its second loop, with the answer. -/
def waitReady : Nat → Drive → Option (Bool × Drive)
  | 0, _ => none
  | fuel + 1, d =>
      let (stat, d) := d.status
      if stat &&& kAtaSrErr ≠ 0 then some (false, d)
      else if stat &&& kAtaSrDrdy = 0 then waitReady fuel d
      else some (true, d)

/-- `drv_pio_std_wait_io` and `boot_ata_wait_io`. -/
def waitIo (fuel : Nat) (d : Drive) : Option (Bool × Drive) := do
  let d ← waitBusy fuel ((fun d => d.status.2)^[400] d)
  waitReady fuel d

/-- `while (!(rt_in8(IO + ATA_REG_STATUS) & ATA_SR_DRQ));`. -/
def waitDrq : Nat → Drive → Option Drive
  | 0, _ => none
  | fuel + 1, d =>
      let (stat, d) := d.status
      if stat &&& kAtaSrDrq = 0 then waitDrq fuel d else some d

/-- The registers, and the drive behind them. -/
structure Bus where
  ports : Ports
  drive : Drive

/-- `rt_out8` of a command. The drive goes by the task file as it stands. -/
def Bus.command (bus : Bus) (io command : Nat) : Bus :=
  let told := ataTold bus.ports io
  { ports := rtOut8 bus.ports (io + kAtaRegCommand) command
    drive :=
      if command = kAtaCmdReadPio then bus.drive.command false told.sectorNumber told.sectors
      else if command = kAtaCmdWritePio then bus.drive.command true told.sectorNumber told.sectors
      else bus.drive }

/-- The part that reading and writing share, up to the first word. -/
def request (fuel lba io master sectorSz size command : Nat) (bus : Bus) : Option Bus := do
  let (_, drive) ← waitIo fuel bus.drive
  let ports :=
    ataTaskFile (drvStdSelect bus.ports io) io master (lba / sectorSz) (u64 (size + sectorSz) / sectorSz)
  let bus := Bus.command ⟨ports, drive⟩ io command
  let drive ← waitDrq fuel bus.drive
  return { bus with drive }

/-- The boot loader waits after a word as well. -/
def waitAgain (again : Bool) (fuel : Nat) (d : Drive) : Option Drive :=
  if again then (waitIo fuel d).map Prod.snd else some d

/-- The reading loop. -/
def readLoop (again : Bool) (fuel buf size : Nat) : Nat → Nat → Drive → Store → Option (Drive × Store)
  | 0, _, d, mem => some (d, mem)
  | rounds + 1, indexOff, d, mem =>
      if indexOff < size then do
        let (_, d) ← waitIo fuel d
        let (word, d) := d.readData
        let d ← waitAgain again fuel d
        readLoop again fuel buf size rounds (indexOff + 2) d (putLE mem (buf + indexOff) 2 word)
      else some (d, mem)

/-- The writing loop, for the words of `pioOut`. -/
def writeLoop (again : Bool) (fuel : Nat) : List Nat → Drive → Option Drive
  | [], d => some d
  | packed :: rest, d => do
      let (_, d) ← waitIo fuel d
      let d ← waitAgain again fuel (d.writeData packed)
      writeLoop again fuel rest d

def ataRead (again : Bool) (fuel lba io master buf sectorSz size : Nat) (bus : Bus) (mem : Store) :
    Option (Bus × Store) := do
  let bus ← request fuel lba io master sectorSz size kAtaCmdReadPio bus
  let (drive, mem) ← readLoop again fuel buf size size 0 bus.drive mem
  return ({ bus with drive }, mem)

def ataWrite (again : Bool) (fuel lba io master buf sectorSz size : Nat) (bus : Bus) (mem : Store) :
    Option Bus := do
  let bus ← request fuel lba io master sectorSz size kAtaCmdWritePio bus
  let drive ← writeLoop again fuel (pioOut mem buf size size 0) bus.drive
  let drive ← waitAgain again fuel drive
  return { bus with drive }

/-- `drv_pio_std_read`. -/
def drvPioStdRead := ataRead false

/-- `boot_ata_read`. -/
def bootAtaRead := ataRead true

/-- `drv_pio_std_write`. -/
def drvPioStdWrite := ataWrite false

/-- `boot_ata_write`. -/
def bootAtaWrite := ataWrite true

/-! ## Waiting -/

variable {d : Drive} {again : Bool} {fuel lba io master buf n i k rounds : Nat} {bus bus' : Bus}
  {mem b : Store} {ws : List Nat}

/-- A drive that is never busy for as many looks as a loop has. -/
structure Prompt (fuel : Nat) (d : Drive) : Prop where
  busy : d.busy < fuel
  delay : ∀ i, d.delay i < fuel
  sound : d.Sound

theorem Prompt.settled (h : Prompt fuel d) : Prompt fuel d.settled :=
  ⟨Nat.lt_of_le_of_lt (Nat.zero_le _) h.busy, h.delay, h.sound.settled⟩

theorem status_busy (h : 0 < d.busy) : d.status = (0x80, { d with busy := d.busy - 1 }) := if_pos h

theorem status_free (h : d.busy = 0) :
    d.status = (0x40 + (if d.waits then 0x08 else 0) + (if d.hasFailed then 0x01 else 0), d) :=
  if_neg (by omega)

/-- A look changes nothing but how many are left. -/
theorem status_settled : d.status.2.settled = d.settled ∧ d.status.2.busy ≤ d.busy := by
  by_cases h : 0 < d.busy
  · rw [status_busy h]
    exact ⟨rfl, Nat.sub_le _ _⟩
  · rw [status_free (by omega)]
    exact ⟨rfl, Nat.le_refl _⟩

theorem looks_settled (k : Nat) (d : Drive) :
    ((fun d => d.status.2)^[k] d).settled = d.settled ∧ ((fun d => d.status.2)^[k] d).busy ≤ d.busy := by
  induction k generalizing d with
  | zero => exact ⟨rfl, Nat.le_refl _⟩
  | succ k ih =>
      obtain ⟨hset, hle⟩ := ih d.status.2
      exact ⟨hset.trans status_settled.1, hle.trans status_settled.2⟩

theorem waitBusy_eq (h : d.busy < fuel) : waitBusy fuel d = some d.settled := by
  induction fuel generalizing d with
  | zero => exact absurd h (Nat.not_lt_zero _)
  | succ fuel ih =>
      rw [waitBusy]
      by_cases hbusy : 0 < d.busy
      · rw [status_busy hbusy]
        exact ih (d := { d with busy := d.busy - 1 }) (show d.busy - 1 < fuel by omega)
      · have hzero : d.busy = 0 := by omega
        rw [status_free hzero, settled_of_busy hzero]
        cases d.waits <;> cases d.hasFailed <;> rfl

theorem waitReady_eq (h : d.busy = 0) (hfuel : 0 < fuel) : waitReady fuel d = some (!d.hasFailed, d) := by
  obtain ⟨fuel, rfl⟩ := Nat.exists_eq_add_one.mpr hfuel
  rw [waitReady, status_free h]
  cases d.waits <;> cases d.hasFailed <;> rfl

/-- The drive is not busy any more, whatever the answer. -/
theorem waitIo_eq (h : d.busy < fuel) : waitIo fuel d = some (!d.hasFailed, d.settled) := by
  obtain ⟨hset, hle⟩ := looks_settled 400 d
  rw [waitIo, waitBusy_eq (Nat.lt_of_le_of_lt hle h), hset]
  exact waitReady_eq rfl (by omega)

/-- A loop for a word ends if the drive has one to move, -/
theorem waitDrq_eq (h : d.busy < fuel) (hwaits : d.waits = true) : waitDrq fuel d = some d.settled := by
  induction fuel generalizing d with
  | zero => exact absurd h (Nat.not_lt_zero _)
  | succ fuel ih =>
      rw [waitDrq]
      by_cases hbusy : 0 < d.busy
      · rw [status_busy hbusy]
        exact ih (d := { d with busy := d.busy - 1 }) (show d.busy - 1 < fuel by omega) hwaits
      · have hzero : d.busy = 0 := by omega
        rw [status_free hzero, settled_of_busy hzero, hwaits]
        cases d.hasFailed <;> rfl

/-- and only then. -/
theorem waitDrq_none (hwaits : d.waits = false) (fuel : Nat) : waitDrq fuel d = none := by
  induction fuel generalizing d with
  | zero => rfl
  | succ fuel ih =>
      rw [waitDrq]
      by_cases hbusy : 0 < d.busy
      · rw [status_busy hbusy]
        exact ih (d := { d with busy := d.busy - 1 }) hwaits
      · rw [status_free (by omega), hwaits]
        cases d.hasFailed <;> exact ih hwaits

theorem waitAgain_eq (again : Bool) (h : d.busy < fuel) :
    ∃ d', waitAgain again fuel d = some d' ∧ d'.settled = d.settled ∧ d'.busy ≤ d.busy := by
  cases again with
  | false => exact ⟨d, rfl, rfl, Nat.le_refl _⟩
  | true =>
      refine ⟨d.settled, ?_, rfl, Nat.zero_le _⟩
      rw [waitAgain, if_pos rfl, waitIo_eq h]
      rfl

/-- What holds of a drive holds of it once it is settled, and the other way round. -/
theorem Prompt.of_settled {d' : Drive} (h : Prompt fuel d) (hset : d'.settled = d.settled)
    (hbusy : d'.busy < fuel) :
    Prompt fuel d' := by
  have hdelay : d'.delay = d.delay := congrArg (·.delay) hset
  have hsound : d'.settled.Sound := hset ▸ h.sound.settled
  exact ⟨hbusy, hdelay ▸ h.delay, hsound⟩

/-! ## The loops -/

/-- The reading loop stores what the drive hands out. -/
theorem readLoop_eq (again : Bool) (buf : Nat) (mem : Store) (hp : Prompt fuel d)
    (hrounds : n ≤ i + 2 * rounds) :
    ∃ d', readLoop again fuel buf n rounds i d mem =
        some (d', blit mem (buf + i) (2 * ((n - i + 1) / 2)) d.stream) ∧
      Prompt fuel d' ∧ d'.settled = d.skip ((n - i + 1) / 2) := by
  induction rounds generalizing i d mem with
  | zero =>
      have hzero : (n - i + 1) / 2 = 0 := by omega
      refine ⟨d, ?_, hp, ?_⟩
      · rw [readLoop, hzero, Nat.mul_zero, WordCopy.blit_zero]
      · rw [hzero]
        rfl
  | succ rounds ih =>
      rw [readLoop]
      split
      · next hlt =>
          have hcount : (n - i + 1) / 2 = (n - (i + 2) + 1) / 2 + 1 := by omega
          have hnext : Prompt fuel d.settled.readData.2 := by
            refine ⟨readData_busy hp.delay hp.settled.busy, ?_, readData_sound hp.settled.sound⟩
            rw [readData_alike.2.1]
            exact hp.delay
          obtain ⟨d₂, hagain, hset, hle⟩ := waitAgain_eq again hnext.busy
          have hp₂ := hnext.of_settled hset (Nat.lt_of_le_of_lt hle hnext.busy)
          obtain ⟨d', hloop, hp', hskip⟩ := ih (blit mem (buf + i) 2 d.stream) (i := i + 2) hp₂ (by omega)
          obtain ⟨hword, hstream⟩ := readData_stream hp.settled.sound
          have hstream₂ : d₂.stream = slice d.stream 2 := by
            rw [← settled_stream, hset, settled_stream, hstream, settled_stream]
          refine ⟨d', ?_, hp', ?_⟩
          · rw [waitIo_eq hp.busy]
            simp only [Option.bind_eq_bind, Option.bind_some, hagain, hword, settled_stream, putLE_word]
            rw [hloop, hstream₂, ← Nat.add_assoc, blit_words, ← hcount]
          · rw [hskip, hcount, Drive.skip, ← skip_settled, hset, skip_settled]
      · next hge =>
          have hzero : (n - i + 1) / 2 = 0 := by omega
          refine ⟨d, ?_, hp, ?_⟩
          · rw [hzero, Nat.mul_zero, WordCopy.blit_zero]
          · rw [hzero]
            rfl

/-- The writing loop gives the drive its words. -/
theorem writeLoop_eq (again : Bool) (ws : List Nat) (hp : Prompt fuel d) :
    ∃ d', writeLoop again fuel ws d = some d' ∧ Prompt fuel d' ∧ d'.settled = d.feed ws := by
  induction ws generalizing d with
  | nil => exact ⟨d, rfl, hp, rfl⟩
  | cons w ws ih =>
      have hnext : Prompt fuel (d.settled.writeData w) := by
        refine ⟨writeData_busy hp.delay hp.settled.busy, ?_, writeData_sound hp.settled.sound⟩
        rw [writeData_alike.2.1]
        exact hp.delay
      obtain ⟨d₂, hagain, hset, hle⟩ := waitAgain_eq again hnext.busy
      obtain ⟨d', hloop, hp', hfeed⟩ := ih (hnext.of_settled hset (Nat.lt_of_le_of_lt hle hnext.busy))
      refine ⟨d', ?_, hp', ?_⟩
      · rw [writeLoop, waitIo_eq hp.busy]
        simp only [Option.bind_eq_bind, Option.bind_some, hagain, hloop]
      · rw [hfeed, feed_cons, ← feed_settled, hset, feed_settled]

/-- The bytes of a buffer, and zeros behind it. -/
def padded (mem : Store) (buf n : Nat) : Store := fun i => if i < n then mem (buf + i) else 0

/-- The words are those of the buffer. -/
theorem pioOut_eq (hrounds : n ≤ i + 2 * rounds) :
    pioOut mem buf n rounds i = words (slice (padded mem buf n) i) ((n - i + 1) / 2) := by
  induction rounds generalizing i with
  | zero =>
      have hzero : (n - i + 1) / 2 = 0 := by omega
      rw [pioOut, hzero, words]
  | succ rounds ih =>
      rw [pioOut]
      split
      · next hlt =>
          have hcount : (n - i + 1) / 2 = (n - (i + 2) + 1) / 2 + 1 := by omega
          have hslice : slice (padded mem buf n) (i + 2) = slice (slice (padded mem buf n) i) 2 := by
            funext j
            rw [slice_apply, slice_apply, slice_apply, Nat.add_assoc]
          rw [hcount, words, ih (by omega), hslice]
          have hlow : padded mem buf n i = mem (buf + i) := if_pos hlt
          have hhigh : (padded mem buf n (i + 1)).toNat =
              if i + 1 < n then (mem (buf + i + 1)).toNat else 0 := by
            rw [padded, ← Nat.add_assoc]
            split <;> rfl
          have hword : getLE (slice (padded mem buf n) i) 0 2 =
              (padded mem buf n (i + 1)).toNat * 2 ^ 8 + (padded mem buf n i).toNat := by
            rw [getLE_succ, getLE_succ, getLE_zero, slice_apply, slice_apply, Nat.add_zero, Nat.zero_add]
            omega
          rw [hword, hlow, hhigh]
      · next hge =>
          have hzero : (n - i + 1) / 2 = 0 := by omega
          rw [hzero, words]

/-! ## One request -/

/-- The first sector of a request, in the 28 bits of the task file. -/
def firstSector (lba : Nat) : Nat := lba / kSectorSize % 2 ^ 28

/-- The count of a request, in its 8 bits. -/
def sectorCount (n : Nat) : Nat := countSectors 8 (u64 (n + kSectorSize) / kSectorSize)

/-- The drive once a request has been made of it. -/
def asked (write : Bool) (lba n : Nat) (d : Drive) : Drive :=
  d.settled.command write (firstSector lba) (sectorCount n)

variable {write : Bool} {command : Nat}

theorem Prompt.asked (hp : Prompt fuel d) : Prompt fuel (asked write lba n d) := by
  refine ⟨command_busy (d := d.settled) hp.delay hp.settled.busy, ?_, command_sound hp.settled.sound⟩
  rw [Pio.asked, command_alike.2.1]
  exact hp.delay

/-- What the two commands ask for. -/
theorem bus_command {ports : Ports} {count : Nat} :
    (Bus.command ⟨ataTaskFile ports io master (lba / kSectorSize) count, d⟩ io
      (if write then kAtaCmdWritePio else kAtaCmdReadPio)).drive =
    d.command write (firstSector lba) (countSectors 8 count) := by
  rw [Bus.command, ataTaskFile_told]
  cases write <;> rfl

/-- A request gets through to the words exactly if the drive then waits for one. -/
theorem request_eq (io master : Nat) (hp : Prompt fuel bus.drive)
    (hwaits : (asked write lba n bus.drive).waits = true) :
    ∃ bus', request fuel lba io master kSectorSize n (if write then kAtaCmdWritePio else kAtaCmdReadPio) bus =
        some bus' ∧
      bus'.drive = (asked write lba n bus.drive).settled := by
  refine ⟨⟨rtOut8 (ataTaskFile (drvStdSelect bus.ports io) io master (lba / kSectorSize)
    (u64 (n + kSectorSize) / kSectorSize)) (io + kAtaRegCommand) (if write then kAtaCmdWritePio else kAtaCmdReadPio),
    (asked write lba n bus.drive).settled⟩, ?_, rfl⟩
  rw [request, waitIo_eq hp.busy]
  simp only [Option.bind_eq_bind, Option.bind_some, bus_command]
  rw [← sectorCount, ← Pio.asked, waitDrq_eq hp.asked.busy hwaits]
  rfl

/-- A read, word for word. -/
theorem ataRead_eq (again : Bool) (io master buf : Nat) (mem : Store) (hp : Prompt fuel bus.drive)
    (hwaits : (asked false lba n bus.drive).waits = true) :
    ∃ bus', ataRead again fuel lba io master buf kSectorSize n bus mem =
        some (bus', blit mem buf (2 * ((n + 1) / 2)) (asked false lba n bus.drive).stream) ∧
      Prompt fuel bus'.drive ∧ bus'.drive.settled = (asked false lba n bus.drive).skip ((n + 1) / 2) := by
  obtain ⟨bus₁, hreq, hdrive⟩ := request_eq io master hp hwaits
  have hp₁ : Prompt fuel bus₁.drive := hdrive ▸ hp.asked.settled
  obtain ⟨d', hloop, hp', hskip⟩ :=
    readLoop_eq again buf mem hp₁ (show n ≤ 0 + 2 * n by omega)
  refine ⟨{ bus₁ with drive := d' }, ?_, hp', ?_⟩
  · have hcommand : request fuel lba io master kSectorSize n kAtaCmdReadPio bus = some bus₁ := hreq
    rw [ataRead, hcommand]
    simp only [Option.bind_eq_bind, Option.bind_some, hloop, Nat.add_zero, Nat.sub_zero]
    rw [hdrive, settled_stream]
    rfl
  · rw [hskip, hdrive, skip_settled, Nat.sub_zero]

/-- A write, word for word. -/
theorem ataWrite_eq (again : Bool) (io master buf : Nat) (mem : Store) (hp : Prompt fuel bus.drive)
    (hwaits : (asked true lba n bus.drive).waits = true) :
    ∃ bus', ataWrite again fuel lba io master buf kSectorSize n bus mem = some bus' ∧ Prompt fuel bus'.drive ∧
      bus'.drive.settled = (asked true lba n bus.drive).feed (words (padded mem buf n) ((n + 1) / 2)) := by
  obtain ⟨bus₁, hreq, hdrive⟩ := request_eq io master hp hwaits
  have hp₁ : Prompt fuel bus₁.drive := hdrive ▸ hp.asked.settled
  obtain ⟨d', hloop, hp', hfeed⟩ := writeLoop_eq again (pioOut mem buf n n 0) hp₁
  obtain ⟨d₂, hagain, hset, hle⟩ := waitAgain_eq again hp'.busy
  refine ⟨{ bus₁ with drive := d₂ }, ?_, hp'.of_settled hset (Nat.lt_of_le_of_lt hle hp'.busy), ?_⟩
  · have hcommand : request fuel lba io master kSectorSize n kAtaCmdWritePio bus = some bus₁ := hreq
    rw [ataWrite, hcommand]
    simp only [Option.bind_eq_bind, Option.bind_some, hloop, hagain]
    rfl
  · have hslice : slice (padded mem buf n) 0 = padded mem buf n := funext fun j => by rw [slice_apply, Nat.zero_add]
    rw [hset, hfeed, hdrive, feed_settled, pioOut_eq (show n ≤ 0 + 2 * n by omega), hslice, Nat.sub_zero]

/-! ## Requests -/

inductive Request where
  | read (lba buf n : Nat)
  | write (lba buf n : Nat)

/-- A request to the drive. -/
def Request.serve (again : Bool) (fuel io master : Nat) : Request → Bus × Store → Option (Bus × Store)
  | .read lba buf n, (bus, mem) => ataRead again fuel lba io master buf kSectorSize n bus mem
  | .write lba buf n, (bus, mem) =>
      (ataWrite again fuel lba io master buf kSectorSize n bus mem).map fun bus => (bus, mem)

/-- One request after the other. -/
def serveAll (again : Bool) (fuel io master : Nat) : List Request → Bus × Store → Option (Bus × Store)
  | [], s => some s
  | r :: rs, s => (r.serve again fuel io master s).bind (serveAll again fuel io master rs)

/-- What a request is for: a disk of bytes and the caller's memory. A write stores the sectors it fills. -/
def Request.does : Request → Store × Store → Store × Store
  | .read lba buf n, (disk, mem) => (disk, blit mem buf (2 * ((n + 1) / 2)) (slice disk (512 * (lba / 512))))
  | .write lba buf n, (disk, mem) =>
      (blit disk (512 * (lba / 512)) (512 * ((n + 1) / 512)) (padded mem buf n), mem)

/-- A request fits a drive: its count fits the command, and its sectors are on the drive. -/
def Request.Fits (capacity : Nat) : Request → Prop
  | .read lba _ n | .write lba _ n =>
      n < 2 ^ 17 ∧ lba / 512 < capacity ∧ lba / 512 + ceilSectors n ≤ capacity

instance {capacity : Nat} (r : Request) : Decidable (r.Fits capacity) := by
  cases r <;> exact inferInstanceAs (Decidable (_ ∧ _ ∧ _))

variable {capacity : Nat} {r : Request} {rs : List Request}

theorem sectorCount_pos : 0 < sectorCount n := countSectors_pos _ _

/-- The count has a sector more than the words fill. -/
theorem sectorCount_eq (hn : n < 2 ^ 17) : sectorCount n = n / 512 + 1 := by
  have hfits : Driver.pio.Fits primaryDrive n := by
    show ceilSectors n ≤ 2 ^ 8
    simp only [ceilSectors, kSectorSize]
    omega
  have hle : n / 512 + 1 ≤ 2 ^ 8 := by omega
  rw [sectorCount, u64_pio_count hfits]
  exact (countSectors_eq_iff (Nat.succ_pos _) hle).mpr rfl

theorem firstSector_eq (h : lba / 512 < 2 ^ 28) : firstSector lba = lba / 512 := Nat.mod_eq_of_lt h

/-- A request for a sector the drive has, made of a drive that listens. -/
theorem asked_phase (write : Bool) (n : Nat) (hlistens : d.Listens) (hfirst : firstSector lba < d.capacity) :
    Within d.capacity (512 * firstSector lba) (512 * firstSector lba + 512 * sectorCount n) ∧
      (asked write lba n d).phase =
        if write then
          .dataOut (512 * firstSector lba) (512 * firstSector lba + 512 * sectorCount n) d.disk
        else .dataIn (512 * firstSector lba) (512 * firstSector lba + 512 * sectorCount n) :=
  command_phase (d := d.settled) rfl hlistens sectorCount_pos hfirst

theorem asked_waits (hlistens : d.Listens) (hfirst : firstSector lba < d.capacity) :
    (asked write lba n d).waits = true := by
  rw [Drive.waits, (asked_phase write n hlistens hfirst).2]
  cases write <;> rfl

theorem asked_capacity (write : Bool) (lba n : Nat) :
    (asked write lba n d).capacity = d.capacity := command_alike.1

theorem asked_disk : (asked write lba n d).disk = d.disk := command_disk (d := d.settled)

/-- **A request does what it is for**, on a drive that listens and that it fits. -/
theorem serve_does (again : Bool) (io master : Nat) (mem : Store) (hp : Prompt fuel bus.drive)
    (hlistens : bus.drive.Listens) (hcap : bus.drive.capacity ≤ 2 ^ 28)
    (hfits : r.Fits bus.drive.capacity) :
    ∃ bus', r.serve again fuel io master (bus, mem) = some (bus', (r.does (bus.drive.disk, mem)).2) ∧
      bus'.drive.disk = (r.does (bus.drive.disk, mem)).1 ∧ Prompt fuel bus'.drive ∧
      bus.drive.Alike bus'.drive := by
  cases r with
  | read lba buf n =>
      obtain ⟨hn, hfirst, hend⟩ := hfits
      have hsector : firstSector lba = lba / 512 := firstSector_eq (by omega)
      have hlt : firstSector lba < bus.drive.capacity := hsector ▸ hfirst
      obtain ⟨bus', hread, hp', hskip⟩ := ataRead_eq again io master buf mem hp
        (asked_waits (n := n) hlistens hlt)
      have hstream : blit mem buf (2 * ((n + 1) / 2)) (asked false lba n bus.drive).stream =
          blit mem buf (2 * ((n + 1) / 2)) (slice bus.drive.disk (512 * (lba / 512))) := by
        apply blit_congr
        intro j hj
        rw [stream_of_dataIn (asked_phase false n hlistens hlt).2, asked_capacity, asked_disk, hsector,
          sectorCount_eq hn]
        apply if_pos
        rw [last, lt_min_iff]
        simp only [ceilSectors, kSectorSize] at hend
        omega
      refine ⟨bus', ?_, ?_, hp', ?_⟩
      · rw [Request.serve, hread, hstream]
        rfl
      · rw [← settled_disk, hskip, skip_disk, asked_disk]
        rfl
      · have hsame : bus.drive.Alike bus'.drive.settled := by
          rw [hskip]
          exact .trans (command_alike (d := bus.drive.settled)) skip_alike
        exact hsame
  | write lba buf n =>
      obtain ⟨hn, hfirst, hend⟩ := hfits
      have hsector : firstSector lba = lba / 512 := firstSector_eq (by omega)
      have hlt : firstSector lba < bus.drive.capacity := hsector ▸ hfirst
      obtain ⟨bus', hwrite, hp', hfeed⟩ := ataWrite_eq again io master buf mem hp
        (asked_waits (n := n) hlistens hlt)
      obtain ⟨hin, hphase⟩ := asked_phase true n hlistens hlt
      rw [← asked_capacity true lba n] at hin
      refine ⟨bus', ?_, ?_, hp', ?_⟩
      · rw [Request.serve, hwrite]
        rfl
      · rw [← settled_disk, hfeed, feed_disk hphase hin, asked_capacity, asked_disk, hsector,
          sectorCount_eq hn]
        funext x
        simp only [ceilSectors, kSectorSize] at hend
        -- what the words fill are the sectors of the abstract write
        have hfull : 512 * (min (512 * (lba / 512) + 2 * ((n + 1) / 2))
            (last bus.drive.capacity (512 * (lba / 512) + 512 * (n / 512 + 1))) / 512) =
            512 * (lba / 512) + 512 * ((n + 1) / 512) := by
          rw [last]
          omega
        rw [hfull]
        dsimp only [Request.does]
        by_cases hx : 512 * (lba / 512) ≤ x ∧ x < 512 * (lba / 512) + 512 * ((n + 1) / 512)
        · rw [if_pos (by omega), blit_apply_of_mem hx.1 (by omega), blit_apply_of_mem hx.1 hx.2]
        · rw [if_neg (by omega), blit_apply_of_notMem (by omega)]
      · have hsame : bus.drive.Alike bus'.drive.settled := by
          rw [hfeed]
          exact .trans (command_alike (d := bus.drive.settled)) feed_alike
        exact hsame

/-! ## A drive that begins anew -/

/-- **Runs of requests.** On a drive that begins anew at a command and is never busy for too long, every run
of requests that fit comes to an end, in the kernel and in the boot loader, and leaves on the disk and in the
memory what a disk of bytes would. -/
theorem requests_refine (again : Bool) (io master : Nat) (bus : Bus) (mem : Store)
    (hp : Prompt fuel bus.drive) (hanew : bus.drive.drops = false)
    (hcap : bus.drive.capacity ≤ 2 ^ 28) (hfits : ∀ r ∈ rs, r.Fits bus.drive.capacity) :
    ∃ bus', serveAll again fuel io master rs (bus, mem) =
        some (bus', (rs.foldl (fun s r => r.does s) (bus.drive.disk, mem)).2) ∧
      bus'.drive.disk = (rs.foldl (fun s r => r.does s) (bus.drive.disk, mem)).1 := by
  induction rs generalizing bus mem with
  | nil => exact ⟨bus, rfl, rfl⟩
  | cons r rs ih =>
      rw [List.forall_mem_cons] at hfits
      have hlistens : bus.drive.Listens := fun h => absurd (hanew.symm.trans h) Bool.false_ne_true
      obtain ⟨bus₁, hserve, hdisk, hp₁, hsame⟩ :=
        serve_does again io master mem hp hlistens hcap hfits.1
      obtain ⟨hcap₁, -, -, hdrops⟩ := hsame
      obtain ⟨bus', hrest, hdisk'⟩ := ih bus₁ (r.does (bus.drive.disk, mem)).2 hp₁ (hdrops.trans hanew)
        (hcap₁ ▸ hcap) (hcap₁ ▸ hfits.2)
      refine ⟨bus', ?_, ?_⟩
      · rw [serveAll, hserve, Option.bind_some, hrest, hdisk]
        rfl
      · rw [hdisk', hdisk]
        rfl

/-- A drive of 2 MiB that is busy for as many looks as the number of the event says, up to 9. -/
def slowDrive (drops : Bool) : Drive where
  disk := zeros
  capacity := 4096
  phase := .idle
  busy := 3
  delay := fun i => i % 10
  events := 0
  stray := 0xFF
  drops := drops

theorem slowDrive_prompt {drops : Bool} : Prompt 10 (slowDrive drops) :=
  ⟨(by decide : 3 < 10), fun i => Nat.mod_lt i (by decide), trivial⟩

theorem requests_refine_copy : ∃ bus', serveAll false 10 kAtaPrimaryIo 0
    [.write 0x2000 0 1023, .read 0x2000 0x8000 1023] (⟨fun _ => 0, slowDrive false⟩, fun _ => 1) =
      some (bus', blit (fun _ => 1) 0x8000 1024
        (slice (blit zeros 0x2000 1024 (padded (fun _ => 1) 0 1023)) 0x2000)) ∧
    bus'.drive.disk = blit zeros 0x2000 1024 (padded (fun _ => 1) 0 1023) :=
  requests_refine false kAtaPrimaryIo 0 _ _ slowDrive_prompt rfl (by decide) (by decide)

/-- **Reading back.** What is written and read again is what was written exactly if the bytes behind the last
sector that was filled were on the disk before. -/
theorem read_back_iff (again again' : Bool) (io master buf' : Nat) (bus : Bus) (mem : Store)
    (hp : Prompt fuel bus.drive) (hanew : bus.drive.drops = false)
    (hcap : bus.drive.capacity ≤ 2 ^ 28) (hfits : (Request.write lba buf n).Fits bus.drive.capacity) :
    ∃ bus₁ bus₂ mem₂, (Request.write lba buf n).serve again fuel io master (bus, mem) = some (bus₁, mem) ∧
      (Request.read lba buf' n).serve again' fuel io master (bus₁, mem) = some (bus₂, mem₂) ∧
      ((∀ i < n, mem₂ (buf' + i) = mem (buf + i)) ↔
        ∀ i < n, 512 * ((n + 1) / 512) ≤ i → bus.drive.disk (512 * (lba / 512) + i) = mem (buf + i)) := by
  have hlistens : bus.drive.Listens := fun h => absurd (hanew.symm.trans h) Bool.false_ne_true
  obtain ⟨bus₁, hwrite, hdisk, hp₁, hcap₁, -, -, hdrops⟩ :=
    serve_does again io master mem hp hlistens hcap hfits
  have hlistens₁ : bus₁.drive.Listens := fun h =>
    absurd (hanew.symm.trans (hdrops.symm.trans h)) Bool.false_ne_true
  obtain ⟨bus₂, hread, -, -, -⟩ := serve_does again' io master mem
    (r := .read lba buf' n) hp₁ hlistens₁ (hcap₁ ▸ hcap) (hcap₁ ▸ hfits)
  refine ⟨bus₁, bus₂, _, hwrite, hread, ?_⟩
  have hbyte : ∀ i < n, ((Request.read lba buf' n).does (bus₁.drive.disk, mem)).2 (buf' + i) =
      if i < 512 * ((n + 1) / 512) then mem (buf + i) else bus.drive.disk (512 * (lba / 512) + i) := by
    intro i hi
    rw [hdisk]
    dsimp only [Request.does]
    rw [blit_apply_add (by omega), slice_apply]
    split
    · next hlt => rw [blit_apply_add hlt, padded, if_pos hi]
    · next hge => rw [blit_apply_of_notMem (by omega)]
  constructor
  · intro hback i hi hge
    rw [← hback i hi, hbyte i hi, if_neg (by omega)]
  · intro htail i hi
    rw [hbyte i hi]
    split
    · rfl
    · next hge => exact htail i hi (by omega)

/-- Two sectors come back. -/
theorem read_back_iff_kib : ∃ bus₁ bus₂ mem₂,
    (Request.write 0x2000 0 1024).serve false 10 kAtaPrimaryIo 0 (⟨fun _ => 0, slowDrive false⟩, fun _ => 1) =
      some (bus₁, fun _ => 1) ∧
    (Request.read 0x2000 0x8000 1024).serve true 10 kAtaPrimaryIo 0 (bus₁, fun _ => 1) = some (bus₂, mem₂) ∧
    ∀ i < 1024, mem₂ (0x8000 + i) = 1 := by
  obtain ⟨bus₁, bus₂, mem₂, hwrite, hread, hiff⟩ :=
    read_back_iff false true kAtaPrimaryIo 0 0x8000 ⟨fun _ => 0, slowDrive false⟩ (fun _ => 1)
      slowDrive_prompt rfl (by decide) (by decide : (Request.write 0x2000 0 1024).Fits 4096)
  exact ⟨bus₁, bus₂, mem₂, hwrite, hread, hiff.mpr fun i hi hge => absurd hge (by omega)⟩

/-! ## A drive that drops commands -/

/-- How many bytes a request of `n` bytes moves behind the last sector it fills. -/
def overhang (n : Nat) : Nat := 2 * ((n % 512 + 1) / 2)

/-- A write that does not fill its last sector leaves the drive waiting for the rest of it. -/
theorem written_phase (hlistens : d.Listens) (hn : n < 2 ^ 17) (htail : n % 512 ≠ 511)
    (hnext : lba / 512 + n / 512 < d.capacity) (hcap : d.capacity ≤ 2 ^ 28) :
    ((asked true lba n d).feed (words b ((n + 1) / 2))).phase =
        .dataOut (512 * (lba / 512 + n / 512) + overhang n) (512 * (lba / 512 + n / 512) + 512)
          (blit d.disk (512 * (lba / 512)) (2 * ((n + 1) / 2)) b) ∧
      Within d.capacity (512 * (lba / 512 + n / 512) + overhang n) (512 * (lba / 512 + n / 512) + 512) := by
  have hsector : firstSector lba = lba / 512 := firstSector_eq (by omega)
  obtain ⟨hin, hphase⟩ := asked_phase true n hlistens
    (hsector ▸ (by omega : lba / 512 < d.capacity))
  rw [← asked_capacity true lba n] at hin
  have hfeed := (feed_phase (b := b) (k := (n + 1) / 2) hphase hin).1
  rw [asked_capacity, hsector, sectorCount_eq hn] at hfeed
  have hstop : 512 * (lba / 512) + 512 * (n / 512 + 1) = 512 * (lba / 512 + n / 512) + 512 := by omega
  have hpos : 512 * (lba / 512) + 2 * ((n + 1) / 2) = 512 * (lba / 512 + n / 512) + overhang n := by
    rw [overhang]
    omega
  have hlt : 512 * (lba / 512 + n / 512) + overhang n <
      last d.capacity (512 * (lba / 512 + n / 512) + 512) := by
    rw [overhang, last, lt_min_iff]
    omega
  rw [hstop, hpos] at hfeed
  refine ⟨hfeed hlt, ⟨?_, by omega, hlt⟩⟩
  rw [overhang]
  omega

/-- **The second of two writes goes astray.** On a drive that drops commands in the middle of a transfer, a
write that does not fill its last sector is followed by another one: whatever its address, its words are taken
for that sector, and nothing else changes on the disk. -/
theorem second_write_misplaced (again : Bool) (io master buf lba' buf' n' : Nat) (bus : Bus) (mem : Store)
    (hp : Prompt fuel bus.drive) (hlistens : bus.drive.Listens)
    (hdrops : bus.drive.drops = true) (hcap : bus.drive.capacity ≤ 2 ^ 28) (hn : n < 2 ^ 17)
    (htail : n % 512 ≠ 511) (hnext : lba / 512 + n / 512 < bus.drive.capacity) :
    ∃ bus', serveAll again fuel io master [.write lba buf n, .write lba' buf' n'] (bus, mem) = some (bus', mem) ∧
      bus'.drive.disk =
        let first := ((Request.write lba buf n).does (bus.drive.disk, mem)).1
        if 512 ≤ overhang n + 2 * ((n' + 1) / 2) then
          blit first (512 * (lba / 512 + n / 512)) 512 fun i =>
            if i < overhang n then padded mem buf n (512 * (n / 512) + i)
            else padded mem buf' n' (i - overhang n)
        else first := by
  have hfits : (Request.write lba buf n).Fits bus.drive.capacity := by
    refine ⟨hn, by omega, ?_⟩
    simp only [ceilSectors, kSectorSize]
    omega
  have hsector : firstSector lba = lba / 512 := firstSector_eq (by omega)
  obtain ⟨bus₁, hwrite, hp₁, hfeed⟩ := ataWrite_eq again io master buf mem hp
    (asked_waits (n := n) hlistens (hsector ▸ hfits.2.1))
  obtain ⟨bus₁', hserve, hdisk, -, hsame⟩ :=
    serve_does again io master mem hp hlistens hcap hfits
  obtain rfl : bus₁ = bus₁' := by
    rw [Request.serve, hwrite] at hserve
    exact (Prod.mk.inj (Option.some.inj hserve)).1
  obtain ⟨hphase, hin⟩ := written_phase (b := padded mem buf n) hlistens hn htail hnext hcap
  rw [← hfeed, settled_phase] at hphase
  rw [← hsame.1] at hin
  -- the drive takes no notice of the second command
  have hwaits : bus₁.drive.waits = true := by rw [Drive.waits, hphase]
  have hdropped : asked true lba' n' bus₁.drive = bus₁.drive.settled :=
    command_dropped (d := bus₁.drive.settled) (hsame.2.2.2.trans hdrops) hwaits
  obtain ⟨bus', hwrite', -, hfeed'⟩ := ataWrite_eq again io master buf' mem hp₁
    (show (asked true lba' n' bus₁.drive).waits = true by rw [hdropped]; exact hwaits)
  rw [hdropped, feed_settled] at hfeed'
  refine ⟨bus', ?_, ?_⟩
  · rw [serveAll, hserve, Option.bind_some, serveAll, Request.serve]
    dsimp only [Request.does]
    rw [hwrite']
    rfl
  · have hover : overhang n ≤ 2 * ((n + 1) / 2) ∧ overhang n < 512 := by
      rw [overhang]
      omega
    have hend : last bus.drive.capacity (512 * (lba / 512 + n / 512) + 512) =
        512 * (lba / 512 + n / 512) + 512 := by
      rw [last]
      omega
    have hfirst : ∀ i < overhang n,
        blit bus.drive.disk (512 * (lba / 512)) (2 * ((n + 1) / 2)) (padded mem buf n)
          (512 * (lba / 512 + n / 512) + i) = padded mem buf n (512 * (n / 512) + i) := by
      intro i hi
      rw [overhang] at hi
      rw [show 512 * (lba / 512 + n / 512) + i = 512 * (lba / 512) + (512 * (n / 512) + i) by omega,
        blit_apply_add (by omega)]
    rw [← settled_disk, hfeed', feed_disk hphase hin, hdisk, hsame.1, hend]
    funext x
    by_cases hfull : 512 ≤ overhang n + 2 * ((n' + 1) / 2)
    · rw [if_pos hfull]
      by_cases hx : 512 * (lba / 512 + n / 512) ≤ x ∧ x < 512 * (lba / 512 + n / 512) + 512
      · obtain ⟨i, rfl⟩ := Nat.exists_eq_add_of_le hx.1
        rw [if_pos (by omega), blit_apply_add (by omega)]
        split
        · next hlt => rw [blit_apply_of_notMem (by omega), hfirst i hlt]
        · next hge =>
            rw [blit_apply_of_mem (by omega) (by omega)]
            congr 1
            omega
      · rw [if_neg (by omega), blit_apply_of_notMem (by omega)]
    · rw [if_neg hfull, if_neg (by omega)]

/-- A sector written to `0x9000` is found at `0x2200`. -/
theorem second_write_misplaced_sector : ∃ bus',
    serveAll false 10 kAtaPrimaryIo 0 [.write 0x2000 0 512, .write 0x9000 0x1000 512]
      (⟨fun _ => 0, slowDrive true⟩, fun x => if x < 0x1000 then 1 else 2) =
        some (bus', fun x => if x < 0x1000 then 1 else 2) ∧
    bus'.drive.disk 0x2000 = 1 ∧ bus'.drive.disk 0x2200 = 2 ∧ bus'.drive.disk 0x9000 = 0 := by
  obtain ⟨bus', hserve, hdisk⟩ := second_write_misplaced (n := 512) false
    kAtaPrimaryIo 0 0 0x9000 0x1000 512 ⟨fun _ => 0, slowDrive true⟩ (fun x => if x < 0x1000 then 1 else 2)
    slowDrive_prompt (fun _ => rfl) rfl
    (by decide) (by decide) (by decide) (by decide : 0x2000 / 512 + 512 / 512 < 4096)
  refine ⟨bus', hserve, ?_⟩
  rw [hdisk]
  exact ⟨rfl, rfl, rfl⟩

/-! ## Drives that are not there -/

/-- A loop that waits comes back with the drive settled, if it comes back. -/
theorem waitBusy_or (fuel : Nat) (d : Drive) : waitBusy fuel d = none ∨ waitBusy fuel d = some d.settled := by
  rcases Nat.lt_or_ge d.busy fuel with h | h
  · exact .inr (waitBusy_eq h)
  · refine .inl ?_
    induction fuel generalizing d with
    | zero => rfl
    | succ fuel ih =>
        rw [waitBusy, status_busy (by omega)]
        exact ih { d with busy := d.busy - 1 } (show fuel ≤ d.busy - 1 by omega)

theorem request_beyond (write : Bool) (hlistens : bus.drive.Listens)
    (hfirst : bus.drive.capacity ≤ firstSector lba) (fuel : Nat) :
    request fuel lba io master kSectorSize n (if write then kAtaCmdWritePio else kAtaCmdReadPio) bus = none := by
  have hphase : (asked write lba n bus.drive).phase = .failed :=
    command_beyond (d := bus.drive.settled) rfl hlistens sectorCount_pos hfirst
  have hwaits : (asked write lba n bus.drive).waits = false := by rw [Drive.waits, hphase]
  rw [request, waitIo]
  rcases waitBusy_or fuel ((fun d => d.status.2)^[400] bus.drive) with hnone | hsome
  · rw [hnone]
    rfl
  · cases fuel with
    | zero => cases hsome
    | succ fuel =>
        rw [hsome, (looks_settled 400 bus.drive).1]
        simp only [Option.bind_eq_bind, Option.bind_some]
        rw [waitReady_eq rfl (Nat.succ_pos fuel)]
        simp only [Option.bind_some, bus_command]
        rw [← sectorCount, ← Pio.asked, waitDrq_none hwaits]
        rfl

/-- Where a request starts. -/
def Request.address : Request → Nat
  | .read lba _ _ | .write lba _ _ => lba

/-- **A request comes back** from a drive that listens, after whatever time, exactly if the drive has the
first sector of it, of which 28 bits are counted. -/
theorem request_returns_iff (again : Bool) (io master : Nat) (bus : Bus) (mem : Store) {bound : Nat}
    (hlistens : bus.drive.Listens) (hbusy : bus.drive.busy ≤ bound)
    (hdelay : ∀ i, bus.drive.delay i ≤ bound) (hsound : bus.drive.Sound) :
    (∃ fuel, (r.serve again fuel io master (bus, mem)).isSome)
    ↔ r.address / 512 % 2 ^ 28 < bus.drive.capacity := by
  have hp : Prompt (bound + 1) bus.drive :=
    ⟨Nat.lt_succ_of_le hbusy, fun i => Nat.lt_succ_of_le (hdelay i), hsound⟩
  cases r with
  | read lba buf n =>
      constructor
      · rintro ⟨fuel, hread⟩
        by_contra hge
        have hnone : request fuel lba io master kSectorSize n kAtaCmdReadPio bus = none :=
          request_beyond false hlistens (Nat.not_lt.mp hge) fuel
        rw [Request.serve, ataRead, hnone] at hread
        cases hread
      · intro hfirst
        have hlt : firstSector lba < bus.drive.capacity := hfirst
        obtain ⟨bus', hread, -⟩ := ataRead_eq again io master buf mem hp
          (asked_waits (n := n) hlistens hlt)
        refine ⟨bound + 1, ?_⟩
        rw [Request.serve, hread]
        rfl
  | write lba buf n =>
      constructor
      · rintro ⟨fuel, hwrite⟩
        by_contra hge
        have hnone : request fuel lba io master kSectorSize n kAtaCmdWritePio bus = none :=
          request_beyond true hlistens (Nat.not_lt.mp hge) fuel
        rw [Request.serve, ataWrite, hnone] at hwrite
        cases hwrite
      · intro hfirst
        have hlt : firstSector lba < bus.drive.capacity := hfirst
        obtain ⟨bus', hwrite, -⟩ := ataWrite_eq again io master buf mem hp
          (asked_waits (n := n) hlistens hlt)
        refine ⟨bound + 1, ?_⟩
        rw [Request.serve, hwrite]
        rfl

/-- The sector behind the last one never comes. -/
theorem request_returns_iff_behind : ¬ ∃ fuel, ((Request.read 0x200000 0 512).serve false fuel kAtaPrimaryIo 0
    (⟨fun _ => 0, slowDrive false⟩, zeros)).isSome := by
  have hbusy : (slowDrive false).busy ≤ 9 := by decide
  have hiff := request_returns_iff (r := .read 0x200000 0 512) false kAtaPrimaryIo 0
    ⟨fun _ => 0, slowDrive false⟩ zeros (fun _ => rfl) hbusy
    (fun i => Nat.le_of_lt_succ (Nat.mod_lt i (by decide))) trivial
  exact fun hreturns => absurd (hiff.mp hreturns) (by decide)

end NeKernel.HALKit.Pio
