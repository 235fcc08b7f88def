import NeKernel.Lib.Loops
import NeKernel.HALKit.PCIDevice

/-!
# The port scan of the AHCI driver

`drv_std_init_ahci` goes through the mass storage devices of the PCI buses, one a bus, and through the
ports of every AHCI controller among them, with a mask that it shifts. It looks at a port whether its bit
in the mask is set or not, and a port with no active link makes it look at the same port again: it goes on
with the loop before it has shifted the mask. A controller of which only the ports from 16 on are
implemented is passed over, since the mask is cut to 16 bits to be tested.

The registers do not change during the scan, and a read of the configuration space selects its register
itself, whatever was read or written before (`nePciReadRaw_of_space`, `write_space`).
-/

namespace NeKernel.Ahci

open StateTransition Loops
open ByteStore (putLE zeros)
open HALKit.PCI (ConfigPorts Device)

/-! ## PCI -/

def kMassStorageController : BitVec 8 := 0x01
def kSATAProgIfAHCI : BitVec 8 := 0x01
def kSATASubClass : BitVec 8 := 0x06
def kSATABar5 : BitVec 32 := 0x24
def neBusCount : Nat := 256
def neDeviceCount : Nat := 33
def neFunctionCount : Nat := 8

/-- The devices and functions of a bus, as `PCI::Iterator` goes through them. -/
def devicesOf (bus : Nat) : List Device :=
  (List.range neDeviceCount).flatMap fun device => (List.range neFunctionCount).map fun function =>
    ⟨BitVec.ofNat 16 bus, BitVec.ofNat 16 device, BitVec.ofNat 16 function⟩

/-- `PCI::Iterator`: the last device of the class on the bus, or what was in the array before. -/
def iterator (p : ConfigPorts) (stale : Nat → Device) (bus : Nat) : Device :=
  (devicesOf bus).foldl
    (fun cur dev => if dev.classCode p = kMassStorageController then dev else cur) (stale bus)

/-! ## The scan -/

def kSATASig : UInt32 := 0x00000101
def kSATAPISig : UInt32 := 0xEB140101
def kSATAPresent : UInt32 := 0x03
def kSATAIPMActive : UInt32 := 0x01

/-- The registers of a port that are read. -/
structure HbaPort where
  ssts : UInt32
  sig : UInt32

/-- The registers of a controller that are read. -/
structure HbaMem where
  pi : UInt32
  ports : Nat → HbaPort

/-- What the scan reads: the configuration ports, what the iterator's array held before, the controllers'
registers by their address, and whether an ATAPI drive will do. -/
structure Machine where
  ports : ConfigPorts
  stale : Nat → Device
  hbaMem : BitVec 64 → HbaMem
  atapi : Bool

/-- The device is an AHCI controller. -/
def IsAhci (m : Machine) (dev : Device) : Prop :=
  dev.subclass m.ports = kSATASubClass ∧ dev.progIf m.ports = kSATAProgIfAHCI

/-- A device's registers. -/
def Machine.memAhci (m : Machine) (dev : Device) : HbaMem := m.hbaMem (dev.bar kSATABar5 m.ports)

/-- The device of the `n`-th turn, and its registers. -/
def Machine.dev (m : Machine) (n : Nat) : Device := iterator m.ports m.stale n
def Machine.hba (m : Machine) (n : Nat) : HbaMem := m.memAhci (m.dev n)

/-- A drive is present and its link is active. -/
def HbaPort.Active (port : HbaPort) : Prop :=
  port.ssts &&& 0x0F = kSATAPresent ∧ (port.ssts >>> 8) &&& 0x0F = kSATAIPMActive

/-- The drive is of the kind that is looked for. -/
def HbaPort.Matches (port : HbaPort) (atapi : Bool) : Prop :=
  port.sig = kSATASig ∨ atapi = true ∧ kSATAPISig = port.sig

instance {m : Machine} {dev : Device} : Decidable (IsAhci m dev) :=
  inferInstanceAs (Decidable (_ ∧ _))
instance {port : HbaPort} : Decidable port.Active := inferInstanceAs (Decidable (_ ∧ _))
instance {port : HbaPort} {atapi : Bool} : Decidable (port.Matches atapi) :=
  inferInstanceAs (Decidable (_ ∨ _))

/-- Where the scan is: at a device, at a port of one, or at its end. -/
inductive Cursor where
  | device (deviceIndex : Nat)
  | port (deviceIndex portsImplemented ahciIndex : Nat)
  | found (deviceIndex ahciIndex : Nat)
  | missed
  deriving DecidableEq

/-- One turn of the loops of `drv_std_init_ahci`. -/
def turn (m : Machine) : Cursor → Option Cursor
  | .device n =>
      if n < neBusCount then
        if IsAhci m (m.dev n) then
          if (m.hba n).pi.toUInt16 < 1 then some (.device (n + 1))
          else some (.port n (m.hba n).pi.toNat 0)
        else some (.device (n + 1))
      else some .missed
  | .port n portsImplemented i =>
      if portsImplemented ≠ 0 then
        if ¬ ((m.hba n).ports i).Active then some (.port n portsImplemented i)
        else if ((m.hba n).ports i).Matches m.atapi then some (.found n i)
        else some (.port n (portsImplemented >>> 1) (i + 1))
      else some (.device (n + 1))
  | .found _ _ => none
  | .missed => none

/-! ## What the scan is for -/

/-- The port's bit is set. -/
def HbaMem.Implemented (hba : HbaMem) (i : Nat) : Prop := hba.pi.toNat.testBit i = true

instance {hba : HbaMem} {i : Nat} : Decidable (hba.Implemented i) := inferInstanceAs (Decidable (_ = _))

/-- A drive that the scan may find. -/
def HbaMem.Ready (hba : HbaMem) (atapi : Bool) (i : Nat) : Prop :=
  hba.Implemented i ∧ (hba.ports i).Active ∧ (hba.ports i).Matches atapi

/-- Some AHCI controller on the PCI buses has a ready drive. -/
def ReadyDisk (m : Machine) : Prop :=
  ∃ dev : Device, dev.fBus.toNat < 256 ∧ dev.fDevice.toNat < 32 ∧ dev.fFunction.toNat < 8 ∧
    dev.classCode m.ports = kMassStorageController ∧ IsAhci m dev ∧
      ∃ i, (m.memAhci dev).Ready m.atapi i

/-- The scan comes to an end, it looks at implemented ports only, and it finds a drive exactly when there
is one, and then one that is ready. -/
structure ScanRight (m : Machine) : Prop where
  ends : Halts (turn m) (.device 0)
  examined : ∀ n mask i, Reaches (turn m) (.device 0) (.port n mask i) → mask ≠ 0 →
    (m.hba n).Implemented i
  sound : ∀ n i, Cursor.found n i ∈ eval (turn m) (.device 0) → (m.hba n).Ready m.atapi i
  complete : (∃ n i, Cursor.found n i ∈ eval (turn m) (.device 0)) ↔ ReadyDisk m

/-- The controller's ports are looked at. -/
def Scanned (m : Machine) (n : Nat) : Prop := IsAhci m (m.dev n) ∧ ¬ (m.hba n).pi.toUInt16 < 1

/-- The scan passes the device: no ports are looked at, or all up to the last implemented one are
implemented, with an active link to a drive of another kind. -/
def Passes (m : Machine) (n : Nat) : Prop :=
  Scanned m n → ∀ i, (m.hba n).pi.toNat >>> i ≠ 0 →
    (m.hba n).Implemented i ∧ ((m.hba n).ports i).Active ∧ ¬ ((m.hba n).ports i).Matches m.atapi

/-- The scan stops at the port: it is the first one of the device with a drive of the kind, and all up to
it are implemented, with an active link. -/
structure StopsAt (m : Machine) (n i : Nat) : Prop where
  scanned : Scanned m n
  clean : ∀ k ≤ i, (m.hba n).Implemented k ∧ ((m.hba n).ports k).Active
  first : ∀ k < i, ¬ ((m.hba n).ports k).Matches m.atapi
  kind : ((m.hba n).ports i).Matches m.atapi

/-! ## Scans that end well -/

variable {m : Machine} {n i N J mask : Nat} {c c' : Cursor}

theorem HbaMem.Implemented.shiftRight_ne_zero {hba : HbaMem} (h : hba.Implemented i) :
    hba.pi.toNat >>> i ≠ 0 := by
  intro hzero
  have hbit : (hba.pi.toNat >>> i).testBit 0 = true := by
    rw [Nat.testBit_shiftRight]
    exact h
  rw [hzero, Nat.zero_testBit] at hbit
  cases hbit

theorem shiftRight_one_lt (hmask : mask ≠ 0) : mask >>> 1 < mask :=
  Nat.div_lt_self (Nat.pos_of_ne_zero hmask) (by decide)

/-- The devices before `N` are passed, and the scan stops at port `J` of device `N`, or no device is
left. -/
def Heads (m : Machine) (N J : Nat) : Prop :=
  (∀ k < N, Passes m k) ∧ (N = neBusCount ∨ N < neBusCount ∧ StopsAt m N J)

/-- Where such a scan is. -/
def OnTheWay (m : Machine) (N J : Nat) : Cursor → Prop
  | .device n => n ≤ N
  | .port n mask i => n < neBusCount ∧ n ≤ N ∧ Scanned m n ∧ mask = (m.hba n).pi.toNat >>> i ∧
      (n = N → i ≤ J)
  | .found n i => N < neBusCount ∧ n = N ∧ i = J
  | .missed => N = neBusCount

/-- What is left of a scan. -/
def rest : Cursor → Nat
  | .device n => (neBusCount + 1 - n) * 2 ^ 33
  | .port n mask _ => (neBusCount - n) * 2 ^ 33 + (mask + 1)
  | .found _ _ => 0
  | .missed => 0

/-- A port that is looked at on the way. -/
theorem OnTheWay.clean (hheads : Heads m N J) (hway : OnTheWay m N J (.port n mask i)) (hmask : mask ≠ 0) :
    (m.hba n).Implemented i ∧ ((m.hba n).ports i).Active ∧
      (((m.hba n).ports i).Matches m.atapi → n = N ∧ i = J) ∧
      (¬ ((m.hba n).ports i).Matches m.atapi → n = N → i + 1 ≤ J) := by
  obtain ⟨hbus, hle, hscanned, rfl, hJ⟩ := hway
  rcases Nat.lt_or_eq_of_le hle with hlt | rfl
  · obtain ⟨himpl, hactive, hno⟩ := hheads.1 n hlt hscanned i hmask
    exact ⟨himpl, hactive, fun hyes => absurd hyes hno, fun _ heq => absurd heq (Nat.ne_of_lt hlt)⟩
  · obtain ⟨-, hstop⟩ := hheads.2.resolve_left (Nat.ne_of_lt hbus)
    have hiJ := hJ rfl
    obtain ⟨himpl, hactive⟩ := hstop.clean i hiJ
    refine ⟨himpl, hactive, fun hyes => ⟨rfl, ?_⟩, fun hno _ => ?_⟩
    · exact (Nat.lt_or_eq_of_le hiJ).resolve_left fun hlt => hstop.first i hlt hyes
    · exact Nat.lt_of_le_of_ne hiJ fun heq => hno (heq ▸ hstop.kind)

/-- A device on the way that is not scanned is before the one the scan stops at. -/
theorem OnTheWay.skip (hheads : Heads m N J) (hway : OnTheWay m N J (.device n))
    (hnot : ¬ Scanned m n) (hlt : n < neBusCount) :
    OnTheWay m N J (.device (n + 1)) ∧ rest (.device (n + 1)) < rest (.device n) := by
  have hle : n ≤ N := hway
  refine ⟨Nat.lt_of_le_of_ne hle fun heq => ?_, ?_⟩
  · rcases hheads.2 with hend | ⟨-, hstop⟩
    · exact absurd hlt (heq ▸ hend ▸ Nat.lt_irrefl _)
    · exact hnot (heq ▸ hstop.scanned)
  · simp only [rest]
    omega

/-- A turn at a device. -/
theorem OnTheWay.turn_device (hheads : Heads m N J) (hway : OnTheWay m N J (.device n))
    (hturn : turn m (.device n) = some c') : OnTheWay m N J c' ∧ rest c' < rest (.device n) := by
  have hle : n ≤ N := hway
  rw [Ahci.turn] at hturn
  split at hturn
  · next hlt =>
      have hbusCount : neBusCount = 256 := rfl
      split at hturn
      · next hahci =>
          split at hturn
          · next hnone =>
              cases hturn
              exact hway.skip hheads (fun hs => hs.2 hnone) hlt
          · next hsome =>
              cases hturn
              refine ⟨⟨hlt, hle, ⟨hahci, hsome⟩, rfl, fun _ => Nat.zero_le J⟩, ?_⟩
              have hports := UInt32.toNat_lt (m.hba n).pi
              simp only [rest]
              omega
      · next hother =>
          cases hturn
          exact hway.skip hheads (fun hs => hother hs.1) hlt
  · next hge =>
      cases hturn
      have hend : N = neBusCount := by
        rcases hheads.2 with hend | ⟨hlt, -⟩
        · exact hend
        · exact absurd (Nat.lt_of_le_of_lt hle hlt) hge
      refine ⟨hend, ?_⟩
      simp only [rest]
      omega

/-- A turn at a port. -/
theorem OnTheWay.turn_port (hheads : Heads m N J) (hway : OnTheWay m N J (.port n mask i))
    (hturn : turn m (.port n mask i) = some c') : OnTheWay m N J c' ∧ rest c' < rest (.port n mask i) := by
  rw [Ahci.turn] at hturn
  split at hturn
  · next hmask =>
      obtain ⟨-, hactive, hyes, hno⟩ := hway.clean hheads hmask
      obtain ⟨hbus, hle, hscanned, rfl, -⟩ := hway
      rw [if_neg (not_not.mpr hactive)] at hturn
      split at hturn
      · next hmatch =>
          cases hturn
          obtain ⟨rfl, rfl⟩ := hyes hmatch
          exact ⟨⟨hbus, rfl, rfl⟩, Nat.lt_of_lt_of_le (Nat.succ_pos _) (Nat.le_add_left _ _)⟩
      · next hother =>
          cases hturn
          refine ⟨⟨hbus, hle, hscanned, (Nat.shiftRight_add _ i 1).symm, hno hother⟩, ?_⟩
          have hhalf := shiftRight_one_lt hmask
          simp only [rest]
          omega
  · next hmask =>
      cases hturn
      obtain ⟨hbus, hle, -, hmask', hJ⟩ := hway
      refine ⟨Nat.lt_of_le_of_ne hle fun heq => hmask ?_, ?_⟩
      · obtain ⟨-, hstop⟩ := hheads.2.resolve_left (heq ▸ Nat.ne_of_lt hbus)
        rw [hmask']
        exact (heq ▸ (hstop.clean i (hJ heq)).1).shiftRight_ne_zero
      · simp only [rest]
        omega

/-- **A turn stays on the way** and leaves less to do. -/
theorem OnTheWay.turn (hheads : Heads m N J) (hway : OnTheWay m N J c) (hturn : turn m c = some c') :
    OnTheWay m N J c' ∧ rest c' < rest c := by
  cases c with
  | device n => exact hway.turn_device hheads hturn
  | port n mask i => exact hway.turn_port hheads hturn
  | found n i => cases hturn
  | missed => cases hturn

theorem Heads.onTheWay (hheads : Heads m N J) (h : Reaches (turn m) (.device 0) c) : OnTheWay m N J c :=
  reaches_inv h (Nat.zero_le N) fun _ _ _ hway hturn => (hway.turn hheads hturn).1

/-- **Such a scan ends**, and it ends at the port, or with none when there is no device left. -/
theorem Heads.ends (hheads : Heads m N J) : Halts (turn m) (.device 0) :=
  halts_of_measure rest fun _ _ hreach hturn => ((hheads.onTheWay hreach).turn hheads hturn).2

theorem Heads.found (hheads : Heads m N J) (hN : N < neBusCount) :
    Cursor.found N J ∈ eval (turn m) (.device 0) := by
  obtain ⟨c, hc⟩ := hheads.ends
  obtain ⟨hreach, hnone⟩ := mem_eval.mp hc
  have hway := hheads.onTheWay hreach
  cases c with
  | device n =>
      rw [turn] at hnone
      split at hnone
      · split at hnone
        · split at hnone <;> cases hnone
        · cases hnone
      · cases hnone
  | port n mask i =>
      rw [turn] at hnone
      split at hnone
      · split at hnone
        · cases hnone
        · split at hnone <;> cases hnone
      · cases hnone
  | found n i =>
      obtain ⟨-, rfl, rfl⟩ := hway
      exact hc
  | missed => exact absurd hway (Nat.ne_of_lt hN)

/-! ## Scans that are right -/

/-- A port that such a scan looks at: the scan would stay for ever at one without an active link. -/
theorem ScanRight.looked (hright : ScanRight m) (hmask : mask ≠ 0)
    (hreach : Reaches (turn m) (.device 0) (.port n mask i)) :
    (m.hba n).Implemented i ∧ ((m.hba n).ports i).Active := by
  refine ⟨hright.examined n mask i hreach hmask, ?_⟩
  by_contra hno
  have hfixed : turn m (.port n mask i) = some (.port n mask i) := by
    rw [turn, if_pos hmask, if_pos hno]
  exact not_halts_of_fixed hfixed ((halts_iff_of_reaches hreach).mp hright.ends)

/-- From a port with a drive of another kind the scan goes on to the next one. -/
theorem reaches_next_port (hmask : mask ≠ 0) (hactive : ((m.hba n).ports i).Active)
    (hother : ¬ ((m.hba n).ports i).Matches m.atapi)
    (hreach : Reaches (turn m) (.device 0) (.port n mask i)) :
    Reaches (turn m) (.device 0) (.port n (mask >>> 1) (i + 1)) := by
  refine reaches_turn hreach ?_
  rw [turn, if_pos hmask, if_neg (not_not.mpr hactive), if_neg hother]

/-- The ports of a device from the `i`-th on: the scan stops at one of them, or passes them all. -/
theorem ScanRight.ports (hright : ScanRight m)
    (hreach : Reaches (turn m) (.device 0) (.port n ((m.hba n).pi.toNat >>> i) i)) :
    (∃ j, i ≤ j ∧ (∀ k, i ≤ k → k ≤ j → (m.hba n).Implemented k ∧ ((m.hba n).ports k).Active) ∧
      (∀ k, i ≤ k → k < j → ¬ ((m.hba n).ports k).Matches m.atapi) ∧
      ((m.hba n).ports j).Matches m.atapi) ∨
    (∀ k, i ≤ k → (m.hba n).pi.toNat >>> k ≠ 0 → (m.hba n).Implemented k ∧
      ((m.hba n).ports k).Active ∧ ¬ ((m.hba n).ports k).Matches m.atapi) ∧
      Reaches (turn m) (.device 0) (.device (n + 1)) := by
  induction hx : (m.hba n).pi.toNat >>> i using Nat.strong_induction_on generalizing i with
  | _ x ih =>
      subst hx
      by_cases hmask : (m.hba n).pi.toNat >>> i = 0
      · -- no port is left
        refine .inr ⟨fun k hk hne => absurd ?_ hne, reaches_turn hreach ?_⟩
        · rw [← Nat.add_sub_cancel' hk, Nat.shiftRight_add, hmask, Nat.zero_shiftRight]
        · rw [turn, if_neg (not_not.mpr hmask)]
      · obtain ⟨himpl, hactive⟩ := hright.looked hmask hreach
        by_cases hmatch : ((m.hba n).ports i).Matches m.atapi
        · refine .inl ⟨i, Nat.le_refl i, fun k hk hk' => ?_, fun k hk hk' => ?_, hmatch⟩
          · cases Nat.le_antisymm hk hk'
            exact ⟨himpl, hactive⟩
          · exact absurd hk' (Nat.not_lt.mpr hk)
        · have hnext := reaches_next_port hmask hactive hmatch hreach
          have hlt := shiftRight_one_lt hmask
          rw [← Nat.shiftRight_add] at hnext hlt
          rcases ih _ hlt hnext rfl with ⟨j, hj, hclean, hfirst, hkind⟩ | ⟨hpass, hreach'⟩
          · refine .inl ⟨j, Nat.le_of_succ_le hj, fun k hk hk' => ?_, fun k hk hk' => ?_, hkind⟩
            · rcases Nat.eq_or_lt_of_le hk with rfl | hk
              · exact ⟨himpl, hactive⟩
              · exact hclean k hk hk'
            · rcases Nat.eq_or_lt_of_le hk with rfl | hk
              · exact hmatch
              · exact hfirst k hk hk'
          · refine .inr ⟨fun k hk hne => ?_, hreach'⟩
            rcases Nat.eq_or_lt_of_le hk with rfl | hk
            · exact ⟨himpl, hactive, hmatch⟩
            · exact hpass k hk hne

/-- A device: the scan stops at one of its ports, or passes it. -/
theorem ScanRight.device (hright : ScanRight m) (hn : n < neBusCount)
    (hreach : Reaches (turn m) (.device 0) (.device n)) :
    (∃ j, StopsAt m n j) ∨ Passes m n ∧ Reaches (turn m) (.device 0) (.device (n + 1)) := by
  by_cases hscanned : Scanned m n
  · have hnext : Reaches (turn m) (.device 0) (.port n ((m.hba n).pi.toNat >>> 0) 0) := by
      refine reaches_turn hreach ?_
      rw [turn, if_pos hn, if_pos hscanned.1, if_neg hscanned.2, Nat.shiftRight_zero]
    rcases hright.ports hnext with ⟨j, -, hclean, hfirst, hkind⟩ | ⟨hpass, hreach'⟩
    · exact .inl ⟨j, hscanned, fun k => hclean k (Nat.zero_le k), fun k => hfirst k (Nat.zero_le k), hkind⟩
    · exact .inr ⟨fun _ k => hpass k (Nat.zero_le k), hreach'⟩
  · refine .inr ⟨fun habs => absurd habs hscanned, reaches_turn hreach ?_⟩
    rw [turn, if_pos hn]
    split
    · next hahci =>
        rw [if_pos]
        by_contra hsome
        exact hscanned ⟨hahci, hsome⟩
    · rfl

/-- **A scan that is right** passes all devices, or those before one that it stops at. -/
theorem ScanRight.heads (hright : ScanRight m) (hn : n ≤ neBusCount) :
    (∃ k < n, ∃ j, Heads m k j) ∨
      (∀ k < n, Passes m k) ∧ Reaches (turn m) (.device 0) (.device n) := by
  induction n with
  | zero => exact .inr ⟨fun k hk => absurd hk (Nat.not_lt_zero k), reaches_start⟩
  | succ n ih =>
      rcases ih (Nat.le_of_succ_le hn) with ⟨k, hk, hheads⟩ | ⟨hpass, hreach⟩
      · exact .inl ⟨k, Nat.lt_succ_of_lt hk, hheads⟩
      · rcases hright.device hn hreach with ⟨j, hstop⟩ | ⟨hthis, hreach'⟩
        · exact .inl ⟨n, Nat.lt_succ_self n, j, hpass, .inr ⟨hn, hstop⟩⟩
        · refine .inr ⟨fun k hk => ?_, hreach'⟩
          rcases Nat.lt_succ_iff_lt_or_eq.mp hk with hk | rfl
          · exact hpass k hk
          · exact hthis

theorem StopsAt.ready (h : StopsAt m n i) : (m.hba n).Ready m.atapi i :=
  ⟨(h.clean i (Nat.le_refl i)).1, (h.clean i (Nat.le_refl i)).2, h.kind⟩

theorem Heads.scanRight (hheads : Heads m N J) (hdisk : N < neBusCount ↔ ReadyDisk m) : ScanRight m where
  ends := hheads.ends
  examined := fun _ _ _ hreach hmask => ((hheads.onTheWay hreach).clean hheads hmask).1
  sound := fun n i hfound => by
    obtain ⟨hlt, rfl, rfl⟩ := hheads.onTheWay (mem_eval.mp hfound).1
    exact (hheads.2.resolve_left (Nat.ne_of_lt hlt)).2.ready
  complete := by
    rw [← hdisk]
    constructor
    · rintro ⟨n, i, hfound⟩
      exact (hheads.onTheWay (mem_eval.mp hfound).1).1
    · exact fun hlt => ⟨N, J, hheads.found hlt⟩

/-- **The port scan is right** exactly when it passes all devices and there is no ready drive, or passes
those before one that it stops at and there is one. -/
theorem scan_right_iff (m : Machine) : ScanRight m ↔
    (∃ n < neBusCount, ∃ i, (∀ k < n, Passes m k) ∧ StopsAt m n i ∧ ReadyDisk m) ∨
      (∀ n < neBusCount, Passes m n) ∧ ¬ ReadyDisk m := by
  constructor
  · intro hright
    rcases hright.heads (Nat.le_refl neBusCount) with ⟨n, hn, i, hheads⟩ | ⟨hpass, -⟩
    · have hstop := (hheads.2.resolve_left (Nat.ne_of_lt hn)).2
      exact .inl ⟨n, hn, i, hheads.1, hstop, hright.complete.mp ⟨n, i, hheads.found hn⟩⟩
    · refine .inr ⟨hpass, fun hdisk => ?_⟩
      have hheads : Heads m neBusCount 0 := ⟨hpass, .inl rfl⟩
      obtain ⟨n, i, hfound⟩ := hright.complete.mpr hdisk
      exact absurd (hheads.onTheWay (mem_eval.mp hfound).1).1 (Nat.lt_irrefl _)
  · rintro (⟨n, hn, i, hpass, hstop, hdisk⟩ | ⟨hpass, hnone⟩)
    · have hheads : Heads m n i := ⟨hpass, .inr ⟨hn, hstop⟩⟩
      exact hheads.scanRight ⟨fun _ => hdisk, fun _ => hn⟩
    · have hheads : Heads m neBusCount 0 := ⟨hpass, .inl rfl⟩
      exact hheads.scanRight ⟨fun habs => absurd habs (Nat.lt_irrefl _), fun habs => absurd habs hnone⟩

/-- One AHCI controller, at the registers of the first device, with the ports 0 and 1: only port 1 has a
drive. -/
def secondPort : Machine where
  ports := ⟨0, fun fn => if fn = 0 then putLE zeros 0x08 4 0x01060100 else zeros⟩
  stale := fun _ => ⟨0, 0, 1⟩
  hbaMem := fun _ => ⟨0b11, fun i => if i = 1 then ⟨0x113, kSATASig⟩ else ⟨0, 0⟩⟩
  atapi := false

/-- The scan stays at port 0 for ever. -/
theorem scan_stays : ¬ Halts (turn secondPort) (.device 0) ∧ ReadyDisk secondPort ∧
    ¬ ScanRight secondPort := by
  have hfirst : turn secondPort (.device 0) = some (.port 0 3 0) := by decide +kernel
  have hstays : turn secondPort (.port 0 3 0) = some (.port 0 3 0) := by decide +kernel
  have hloop : ¬ Halts (turn secondPort) (.device 0) := by
    rw [halts_iff_of_reaches (reaches_turn reaches_start hfirst)]
    exact not_halts_of_fixed hstays
  refine ⟨hloop, ⟨⟨0, 0, 0⟩, by decide, by decide, by decide, by decide, by decide, 1, ?_⟩,
    fun hright => hloop hright.ends⟩
  exact ⟨by decide, by decide, by decide⟩

end NeKernel.Ahci
