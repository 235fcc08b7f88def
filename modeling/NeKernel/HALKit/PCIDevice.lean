import NeKernel.Lib.ByteStore

/-!
# PCI devices

The configuration space of the devices of a machine is behind two ports: what is written to
`ConfigAddress` selects four bytes of one function, and `ConfigData` transfers them. `Device::Read`
takes its lane out of the four bytes (`read_toNat`). `Device::Write` selects the register and then
writes the new value to `ConfigAddress` as well: it changes what is selected, and no byte of any
function (`write_space`).
-/

namespace NeKernel.HALKit.PCI

open ByteStore

/-- `PciConfigKind`. -/
inductive PciConfigKind where
  | configAddress
  | configData
  | commandReg
  | invalid
deriving DecidableEq

def PciConfigKind.toUShort : PciConfigKind → BitVec 16
  | .configAddress => 0xCF8
  | .configData => 0xCFC
  | .commandReg => 0x0004
  | .invalid => 0xFFFF

/-- The function a value of `ConfigAddress` selects. -/
def functionOf (address : BitVec 32) : BitVec 32 := address &&& 0x7FFFFF00

/-- The first of the four bytes it selects. -/
def registerOf (address : BitVec 32) : Nat := (address &&& 0xFC).toNat

/-- What was last written to `ConfigAddress`, and the configuration space of each function. -/
structure ConfigPorts where
  address : BitVec 32
  space : BitVec 32 → Store

/-- `rt_out32`: a selector without the enable bit gives access to nothing. -/
def rtOut32 (port : BitVec 16) (value : BitVec 32) (p : ConfigPorts) : ConfigPorts :=
  if port = PciConfigKind.configAddress.toUShort then { p with address := value }
  else if port = PciConfigKind.configData.toUShort ∧ p.address.msb = true then
    let fn := functionOf p.address
    { p with space := Function.update p.space fn (putLE (p.space fn) (registerOf p.address) 4 value.toNat) }
  else p

/-- `rt_in32`. -/
def rtIn32 (port : BitVec 16) (p : ConfigPorts) : BitVec 32 :=
  if port = PciConfigKind.configAddress.toUShort then p.address
  else if port = PciConfigKind.configData.toUShort ∧ p.address.msb = true then
    BitVec.ofNat 32 (getLE (p.space (functionOf p.address)) (registerOf p.address) 4)
  else BitVec.allOnes 32

/-- `PCI::Device`. -/
structure Device where
  fBus : BitVec 16
  fDevice : BitVec 16
  fFunction : BitVec 16

/-- `NE_PCISetCfgTarget`. -/
def setCfgTarget (bar : BitVec 32) (bus dev fn : BitVec 16) (p : ConfigPorts) : ConfigPorts :=
  let target := 0x80000000#32 ||| bus.setWidth 32 <<< 16 ||| dev.setWidth 32 <<< 11 |||
    fn.setWidth 32 <<< 8 ||| (bar &&& 0xFC)
  rtOut32 PciConfigKind.configAddress.toUShort target p

/-- `NE_PCIReadRaw`. -/
def nePciReadRaw (bar : BitVec 32) (bus dev fn : BitVec 16) (p : ConfigPorts) : BitVec 32 × ConfigPorts :=
  let p := setCfgTarget bar bus dev fn p
  (rtIn32 PciConfigKind.configData.toUShort p, p)

namespace Device

/-- `Device::Class`, `Subclass`, `ProgIf` and `Bar`: one read or two, each of which selects its own
register. What is selected in the end is left out of what they return (`nePciReadRaw_of_space`). -/
def classCode (d : Device) (p : ConfigPorts) : BitVec 8 :=
  ((nePciReadRaw 0x08 d.fBus d.fDevice d.fFunction p).1 >>> 24).setWidth 8

def subclass (d : Device) (p : ConfigPorts) : BitVec 8 :=
  ((nePciReadRaw 0x08 d.fBus d.fDevice d.fFunction p).1 >>> 16).setWidth 8

def progIf (d : Device) (p : ConfigPorts) : BitVec 8 :=
  ((nePciReadRaw 0x08 d.fBus d.fDevice d.fFunction p).1 >>> 8).setWidth 8

def bar (d : Device) (barIn : BitVec 32) (p : ConfigPorts) : BitVec 64 :=
  let r := nePciReadRaw barIn d.fBus d.fDevice d.fFunction p
  if r.1 &&& 0x01 ≠ 0 then (r.1 &&& ~~~0x03#32).setWidth 64
  else if r.1 &&& 0x04 ≠ 0 then
    let high := (nePciReadRaw ((barIn + 4) &&& ~~~0x03#32) d.fBus d.fDevice d.fFunction r.2).1
    high.setWidth 64 <<< 32 ||| (r.1 &&& ~~~0x0F#32).setWidth 64
  else (r.1 &&& ~~~0x0F#32).setWidth 64

/-- `Device::Read`. -/
def read (d : Device) (bar : BitVec 32) (sz : Nat) (p : ConfigPorts) : BitVec 32 × ConfigPorts :=
  let p := setCfgTarget (bar &&& 0xFC) d.fBus d.fDevice d.fFunction p
  let data := rtIn32 PciConfigKind.configData.toUShort p
  if sz = 4 then (data, p)
  else if sz = 2 then ((data >>> ((bar &&& 2) * 8)) &&& 0xFFFF, p)
  else if sz = 1 then ((data >>> ((bar &&& 3) * 8)) &&& 0xFF, p)
  else (PciConfigKind.invalid.toUShort.setWidth 32, p)

/-- `Device::Write`. -/
def write (d : Device) (bar : BitVec 32) (data : BitVec 64) (sz : Nat) (p : ConfigPorts) : ConfigPorts :=
  let p := setCfgTarget (bar &&& 0xFC) d.fBus d.fDevice d.fFunction p
  if sz = 4 then rtOut32 PciConfigKind.configAddress.toUShort (data.setWidth 32) p
  else if sz = 2 then
    let temp := rtIn32 PciConfigKind.configData.toUShort p
    let temp := temp &&& ~~~(0xFFFF#32 <<< ((bar &&& 2) * 8))
    let temp := temp ||| ((data &&& 0xFFFF) <<< ((bar &&& 2) * 8)).setWidth 32
    rtOut32 PciConfigKind.configAddress.toUShort temp p
  else if sz = 1 then
    let temp := rtIn32 PciConfigKind.configData.toUShort p
    let temp := temp &&& ~~~(0xFF#32 <<< ((bar &&& 3) * 8))
    let temp := temp ||| ((data &&& 0xFF) <<< ((bar &&& 3) * 8)).setWidth 32
    rtOut32 PciConfigKind.configAddress.toUShort temp p
  else p

/-- `Device::EnableMmio`. -/
def enableMmio (d : Device) (p : ConfigPorts) : ConfigPorts :=
  let r := d.read 0x04 4 p
  d.write 0x04 ((r.1 ||| 1 <<< 1).setWidth 64) 4 r.2

/-- `Device::BecomeBusMaster`. -/
def becomeBusMaster (d : Device) (p : ConfigPorts) : ConfigPorts :=
  let r := d.read 0x04 4 p
  d.write 0x04 ((r.1 ||| 1 <<< 2).setWidth 64) 4 r.2

/-- What the ports call the function of the device. -/
def selector (d : Device) : BitVec 32 :=
  functionOf (0x80000000#32 ||| d.fBus.setWidth 32 <<< 16 ||| d.fDevice.setWidth 32 <<< 11 |||
    d.fFunction.setWidth 32 <<< 8)

/-- The configuration space of the device. -/
def bytes (d : Device) (p : ConfigPorts) : Store := p.space d.selector

end Device

variable {d : Device} {p : ConfigPorts} {bar : BitVec 32} {data : BitVec 64} {sz : Nat}

/-! ## What is selected -/

/-- The low byte of a word that is shifted to the left by a byte or more. -/
theorem shiftLeft_and_low (x : BitVec 32) {k : Nat} (hk : 8 ≤ k) : x <<< k &&& 0xFC = 0 := by
  apply BitVec.eq_of_getLsbD_eq
  intro i hi
  have hhigh : ∀ i : Fin 32, 8 ≤ i.val → (0xFC : BitVec 32).getLsbD i = false := by decide
  rw [BitVec.getLsbD_and, BitVec.getLsbD_shiftLeft]
  by_cases h : i < k
  · simp [h]
  · rw [hhigh ⟨i, hi⟩ (Nat.le_trans hk (Nat.le_of_not_lt h))]
    simp

/-- After the selection the four bytes at the register of the device are behind `ConfigData`. -/
theorem setCfgTarget_selects (d : Device) (bar : BitVec 32) (p : ConfigPorts) :
    (setCfgTarget (bar &&& 0xFC) d.fBus d.fDevice d.fFunction p).address.msb = true ∧
    functionOf (setCfgTarget (bar &&& 0xFC) d.fBus d.fDevice d.fFunction p).address = d.selector ∧
    registerOf (setCfgTarget (bar &&& 0xFC) d.fBus d.fDevice d.fFunction p).address =
      (bar &&& 0xFC).toNat := by
  rw [setCfgTarget, rtOut32, if_pos rfl]
  refine ⟨?_, ?_, ?_⟩
  · rw [BitVec.msb_or, BitVec.msb_or, BitVec.msb_or, BitVec.msb_or]
    rfl
  · have hregister : bar &&& 0xFC &&& 0xFC &&& 0x7FFFFF00 = 0#32 := by
      rw [BitVec.and_assoc, BitVec.and_assoc]
      exact BitVec.and_zero
    rw [functionOf, BitVec.and_or_distrib_right, hregister, BitVec.or_zero]
    rfl
  · have hbase : 0x80000000#32 &&& (0xFC : BitVec 32) = 0 := by decide
    rw [registerOf, BitVec.and_or_distrib_right, BitVec.and_or_distrib_right,
      BitVec.and_or_distrib_right, BitVec.and_or_distrib_right, hbase, shiftLeft_and_low _ (by decide),
      shiftLeft_and_low _ (by decide), shiftLeft_and_low _ (by decide), BitVec.and_assoc,
      BitVec.and_self, BitVec.and_assoc, BitVec.and_self]
    simp

theorem setCfgTarget_space (bar : BitVec 32) (bus dev fn : BitVec 16) :
    (setCfgTarget bar bus dev fn p).space = p.space := by
  rw [setCfgTarget, rtOut32, if_pos rfl]

/-! ## What is read -/

/-- Which register was selected before does not matter to a read. -/
theorem nePciReadRaw_of_space {q : ConfigPorts} (h : q.space = p.space) (bar : BitVec 32)
    (bus dev fn : BitVec 16) :
    (nePciReadRaw bar bus dev fn q).1 = (nePciReadRaw bar bus dev fn p).1 := by
  rw [nePciReadRaw, nePciReadRaw, setCfgTarget, setCfgTarget, rtOut32, rtOut32, if_pos rfl, if_pos rfl, h]

/-- The numbers `Read` makes of a register. -/
theorem register_lanes (hbar : bar.toNat < 256) :
    (bar &&& 0xFC).toNat = bar.toNat - bar.toNat % 4 ∧
    ((bar &&& 2) * 8).toNat = bar.toNat / 2 % 2 * 16 ∧
    ((bar &&& 3) * 8).toNat = bar.toNat % 4 * 8 := by
  have hall : ∀ n : Fin 256,
      (BitVec.ofNat 32 n.val &&& 0xFC).toNat = n.val - n.val % 4 ∧
      ((BitVec.ofNat 32 n.val &&& 2) * 8).toNat = n.val / 2 % 2 * 16 ∧
      ((BitVec.ofNat 32 n.val &&& 3) * 8).toNat = n.val % 4 * 8 := by decide +kernel
  have h := hall ⟨bar.toNat, hbar⟩
  rwa [BitVec.ofNat_toNat, BitVec.setWidth_eq] at h

/-- A lane of four bytes, shifted down and masked. -/
theorem lane_toNat (m : Store) (a k n : Nat) (hk : k + n ≤ 4) :
    ((BitVec.ofNat 32 (getLE m a 4) >>> (k * 8)) &&& BitVec.ofNat 32 (2 ^ (n * 8) - 1)).toNat =
      getLE m (a + k) n := by
  have hpart := getLE_part (m := m) (a := a) (k := k) (n := n) (j := 4 - (k + n))
  have hlt : getLE m a 4 < 2 ^ 32 := getLE_lt
  have hmask : 2 ^ (n * 8) - 1 < 2 ^ 32 := by
    have := Nat.pow_le_pow_right (n := 2) (by decide) (show n * 8 ≤ 32 by omega)
    omega
  rw [Nat.add_sub_cancel' hk, show (256 : Nat) = 2 ^ 8 from rfl, ← Nat.pow_mul, ← Nat.pow_mul,
    Nat.mul_comm 8 k, Nat.mul_comm 8 n] at hpart
  rw [BitVec.toNat_and, BitVec.toNat_ushiftRight, BitVec.toNat_ofNat, BitVec.toNat_ofNat,
    Nat.mod_eq_of_lt hlt, Nat.mod_eq_of_lt hmask, Nat.and_two_pow_sub_one_eq_mod,
    Nat.shiftRight_eq_div_pow, hpart]

/-- `Read` comes back with the bytes of the register. -/
theorem read_toNat (hbar : bar.toNat < 256) (hsz : sz = 1 ∨ sz = 2 ∨ sz = 4) (halign : bar.toNat % sz = 0) :
    (d.read bar sz p).1.toNat = getLE (d.bytes p) bar.toNat sz := by
  obtain ⟨hmsb, hfn, hreg⟩ := setCfgTarget_selects d bar p
  obtain ⟨hbase, hhalf, hbyte⟩ := register_lanes hbar
  have hdata : rtIn32 PciConfigKind.configData.toUShort
      (setCfgTarget (bar &&& 0xFC) d.fBus d.fDevice d.fFunction p) =
      BitVec.ofNat 32 (getLE (d.bytes p) (bar.toNat - bar.toNat % 4) 4) := by
    rw [rtIn32, if_neg (by decide), if_pos ⟨rfl, hmsb⟩, setCfgTarget_space, hfn, hreg, hbase]
    rfl
  rw [Device.read, hdata]
  rcases hsz with rfl | rfl | rfl
  · rw [if_neg (by decide), if_neg (by decide), if_pos rfl]
    have hlane := lane_toNat (d.bytes p) (bar.toNat - bar.toNat % 4) (bar.toNat % 4) 1 (by omega)
    rw [Nat.sub_add_cancel (Nat.mod_le _ _), ← hbyte] at hlane
    exact hlane
  · rw [if_neg (by decide), if_pos rfl]
    have hlane := lane_toNat (d.bytes p) (bar.toNat - bar.toNat % 4) (bar.toNat % 4) 2 (by omega)
    rw [Nat.sub_add_cancel (Nat.mod_le _ _), show bar.toNat % 4 * 8 = bar.toNat / 2 % 2 * 16 by omega,
      ← hhalf] at hlane
    exact hlane
  · rw [if_pos rfl]
    have hlane := lane_toNat (d.bytes p) (bar.toNat - bar.toNat % 4) 0 4 (by decide)
    rw [halign] at hlane ⊢
    have hlt : getLE (d.bytes p) bar.toNat 4 < 2 ^ 32 := getLE_lt
    rw [BitVec.toNat_ofNat, Nat.sub_zero, Nat.mod_eq_of_lt hlt]

/-! ## What is written -/

/-- **No byte of any function** is changed by `Write`. -/
theorem write_space (d : Device) (bar : BitVec 32) (data : BitVec 64) (sz : Nat) (p : ConfigPorts) :
    (d.write bar data sz p).space = p.space := by
  have hout : ∀ (value : BitVec 32) (q : ConfigPorts),
      (rtOut32 PciConfigKind.configAddress.toUShort value q).space = q.space := by
    intro value q
    rw [rtOut32, if_pos rfl]
  simp only [Device.write]
  split
  · rw [hout, setCfgTarget_space]
  · split
    · rw [hout, setCfgTarget_space]
    · split
      · rw [hout, setCfgTarget_space]
      · exact setCfgTarget_space _ _ _ _

theorem read_space (d : Device) (bar : BitVec 32) (sz : Nat) (p : ConfigPorts) :
    (d.read bar sz p).2.space = p.space := by
  simp only [Device.read]
  split
  · exact setCfgTarget_space _ _ _ _
  · split
    · exact setCfgTarget_space _ _ _ _
    · split <;> exact setCfgTarget_space _ _ _ _

/-- After a write the register reads as what was written, cut to the width, and the other bytes of the
device are what they were. -/
structure WriteRight (d : Device) (bar : BitVec 32) (data : BitVec 64) (sz : Nat) (p : ConfigPorts) :
    Prop where
  readBack : (d.read bar sz (d.write bar data sz p)).1.toNat = data.toNat % 256 ^ sz
  others : ∀ i < 256, i < bar.toNat ∨ bar.toNat + sz ≤ i →
    d.bytes (d.write bar data sz p) i = d.bytes p i

/-- The command bit `n` of the device. -/
def commandBit (d : Device) (p : ConfigPorts) (n : Nat) : Bool := (getLE (d.bytes p) 4 2).testBit n

/-- **A write is right** exactly when the register holds the data already, and so the two calls that set a
command bit do so exactly when it is set. -/
theorem pci_write_right_iff (d : Device) (p : ConfigPorts) :
    (∀ (bar : BitVec 32) (data : BitVec 64) (sz : Nat), bar.toNat < 256 → sz = 1 ∨ sz = 2 ∨ sz = 4 →
      bar.toNat % sz = 0 →
      (WriteRight d bar data sz p ↔ getLE (d.bytes p) bar.toNat sz = data.toNat % 256 ^ sz)) ∧
    (commandBit d (d.enableMmio p) 1 = true ↔ commandBit d p 1 = true) ∧
    (commandBit d (d.becomeBusMaster p) 2 = true ↔ commandBit d p 2 = true) := by
  refine ⟨fun bar data sz hbar hsz halign => ?_, ?_, ?_⟩
  · have hbytes : d.bytes (d.write bar data sz p) = d.bytes p := by
      rw [Device.bytes, write_space]
      rfl
    have hread : (d.read bar sz (d.write bar data sz p)).1.toNat = getLE (d.bytes p) bar.toNat sz := by
      rw [read_toNat hbar hsz halign, hbytes]
    constructor
    · intro h
      rw [← hread, h.readBack]
    · intro h
      exact ⟨hread.trans h, fun i _ _ => by rw [hbytes]⟩
  · rw [commandBit, Device.bytes, Device.enableMmio, write_space, read_space]
    rfl
  · rw [commandBit, Device.bytes, Device.becomeBusMaster, write_space, read_space]
    rfl

/-- A machine whose configuration space is all zeros. -/
def blankPorts : ConfigPorts := ⟨0, fun _ => zeros⟩

/-- The first device of the first bus. -/
def firstDevice : Device := ⟨0, 0, 0⟩

theorem pci_write_right_iff_zero : WriteRight firstDevice 0x10 0 4 blankPorts :=
  ((pci_write_right_iff firstDevice blankPorts).1 0x10 0 4 (by decide) (by decide) (by decide)).mpr
    (by decide +kernel)

/-- Nothing is written, and the command bits are not set. -/
theorem write_lost :
    (firstDevice.read 0x10 4 (firstDevice.write 0x10 0xFEBC0000 4 blankPorts)).1 = 0 ∧
      ¬ WriteRight firstDevice 0x10 0xFEBC0000 4 blankPorts ∧
      commandBit firstDevice (firstDevice.enableMmio blankPorts) 1 = false ∧
      commandBit firstDevice (firstDevice.becomeBusMaster blankPorts) 2 = false := by
  have hread : (firstDevice.read 0x10 4 (firstDevice.write 0x10 0xFEBC0000 4 blankPorts)).1 = 0 := by
    decide +kernel
  refine ⟨hread, fun h => ?_, by decide +kernel, by decide +kernel⟩
  have hback := h.readBack
  rw [hread] at hback
  exact absurd hback (by decide)

end NeKernel.HALKit.PCI
