import NeKernel.Lib.Processor

/-!
# Interrupt entry points

`kInterruptVectorTable` holds one entry point for every vector:

    delivery ──frame──▶ __NE_INT_v ──call──▶ handler ──▶ iret

A handler written in C owns 32 bytes above its return address, and most entry points leave the saved
register and the frame itself there. The entry points made by `IntNormal` and `IntExp` take two words
off the stack before `iret`, which is one or two words too many.

* `interrupts_come_back`: the vectors whose entry point goes back to what was interrupted.
-/

namespace NeKernel.HALKit

open Amd64 ByteStore

/-! ## The entry points -/

/-- The handlers the entry points call. -/
inductive Handler where
  | idtHandleGeneric
  | idtHandleBreakpoint
  | idtHandleUd
  | idtHandleMath
  | idtHandleGpf
  | idtHandlePf
  | idtHandleScheduler
  | rtlRtl8139InterruptHandler
  | halSystemCallEnter
  | halKernelCallEnter
deriving DecidableEq

abbrev Code := List (Instr Handler)

/-- The macro for exceptions with an error code. -/
def IntExp : Code := [.cld, .std, .addRsp 16, .std, .iret]

/-- The macro for interrupts without one. -/
def IntNormal : Code := [.cld, .std, .addRsp 16, .iret]

/-- An entry point that saves `r` around its handler. -/
def faultStub (handler : Handler) : Code :=
  [.cld, .push .rcx, .call handler, .pop .rcx, .std, .iret]

/-- One that takes the error code off afterwards. -/
def errorStub (handler : Handler) : Code :=
  [.cld, .push .rcx, .call handler, .pop .rcx, .addRsp 8, .iret]

/-- One that hands the stack pointer to its handler. -/
def irqStub (handler : Handler) : Code :=
  [.cld, .push .rax, .mov .rcx .rsp, .call handler, .pop .rax, .std, .iret]

/-- The entry point of a call into the kernel. -/
def trapStub (handler : Handler) : Code :=
  [.cld, .push .rbp, .mov .rbp .rsp, .mov .rcx .r8, .mov .rdx .r9, .mov .r8 .r10, .mov .r9 .r11,
    .andRsp (-16), .subRsp 32, .call handler, .mov .rsp .rbp, .pop .rbp, .iret]

/-- The keyboard. -/
def keyboardStub : Code :=
  [.cld, .push .rax, .inAl 0x60, .movAl 0x20, .outAl 0x20, .pop .rax, .std, .iret]

/-- `__NE_INT_v`. -/
def neInt : Nat → Code
  | 0 | 1 | 2 | 4 | 7 => faultStub .idtHandleGeneric
  | 3 => faultStub .idtHandleBreakpoint
  | 5 => [.cld, .std, .iret]
  | 6 => faultStub .idtHandleUd
  | 8 => errorStub .idtHandleMath
  | 10 | 11 | 12 | 17 | 21 | 29 | 30 => IntExp
  | 13 => errorStub .idtHandleGpf
  | 14 => errorStub .idtHandlePf
  | 32 => irqStub .idtHandleScheduler
  | 33 => keyboardStub
  | 40 => irqStub .rtlRtl8139InterruptHandler
  | 50 => trapStub .halSystemCallEnter
  | 51 => trapStub .halKernelCallEnter
  | _ => IntNormal

/-- The exceptions for which the processor pushes an error code. -/
def pushesErrorCode (v : Nat) : Bool := v ∈ [8, 10, 11, 12, 13, 14, 17, 21, 29, 30]

/-- Vector `v` taken in `m`. -/
def interrupted (world : World Handler) (stackOf : Nat → BitVec 64) (gate : Gate) (err : BitVec 64)
    (v : Nat) (m : Machine) : Machine :=
  run world (deliver stackOf gate (if pushesErrorCode v then some err else none) m) (neInt v)

/-- Wherever vector `v` is taken, its entry point goes back there, if the handlers keep what is `home`
bytes above their return address. -/
def ComesBack (home v : Nat) : Prop :=
  ∀ (world : World Handler) (stackOf : Nat → BitVec 64) (gate : Gate) (err : BitVec 64) (m : Machine),
    256 ≤ (handlerStack stackOf gate m).toNat →
    (∀ h, Keeps home (frameTop (handlerStack stackOf gate m)).toNat (world.callee h)) →
    Resumed m (interrupted world stackOf gate err v m)

/-! ## Going back -/

variable {world : World Handler} {m m₀ : Machine} {top : Nat} {ws : List (BitVec 64)} {err x : BitVec 64}
  {handler : Handler} {stackOf : Nat → BitVec 64} {gate : Gate} {v : Nat}

theorem length_frame : (frameOf m₀).length = 5 := rfl

theorem faultStub_resumes (h : OnStack top m (frameOf m₀)) (htop : 64 ≤ top)
    (hk : Keeps 0 top (world.callee handler)) : Resumed m₀ (run world m (faultStub handler)) := by
  have hsaved := h.exec_cld world |>.exec_push world .rcx
    (by rw [length_frame]; omega)
  have hcalled := hsaved.exec_call_nil world (by rw [List.length_cons, length_frame]; omega) hk
  have hpopped := hcalled.exec_pop world .rcx (by decide)
  exact Resumed.of_iret (hpopped.exec_std world |>.of_eq rfl rfl)

theorem errorStub_resumes (h : OnStack top m (err :: frameOf m₀)) (htop : 64 ≤ top)
    (hk : Keeps 0 top (world.callee handler)) : Resumed m₀ (run world m (errorStub handler)) := by
  have hsaved := h.exec_cld world |>.exec_push world .rcx
    (by rw [List.length_cons, length_frame]; omega)
  have hcalled := hsaved.exec_call_nil world
    (by rw [List.length_cons, List.length_cons, length_frame]; omega) hk
  have hpopped := hcalled.exec_pop world .rcx (by decide)
  have hframe := hpopped.exec_add world [err] 8 rfl
  exact Resumed.of_iret (hframe.of_eq rfl rfl)

theorem irqStub_resumes (h : OnStack top m (frameOf m₀)) (htop : 64 ≤ top)
    (hk : Keeps 0 top (world.callee handler)) : Resumed m₀ (run world m (irqStub handler)) := by
  have hsaved := h.exec_cld world |>.exec_push world .rax
    (by rw [length_frame]; omega)
  have hmoved := hsaved.exec_mov world .rcx .rsp (by decide)
  have hcalled := hmoved.exec_call_nil world (by rw [List.length_cons, length_frame]; omega) hk
  have hpopped := hcalled.exec_pop world .rax (by decide)
  exact Resumed.of_iret (hpopped.exec_std world |>.of_eq rfl rfl)

/-- What `keyboardStub` does before it takes `rax` back. -/
def acknowledge : Code := [.cld, .push .rax, .inAl 0x60, .movAl 0x20, .outAl 0x20]

theorem acknowledge_stack (world : World Handler) (h : OnStack top m (frameOf m₀)) (htop : 64 ≤ top) :
    OnStack top (run world m acknowledge) (m.reg .rax :: frameOf m₀) :=
  h.exec_cld world
    |>.exec_push world .rax (by rw [length_frame]; omega)
    |>.exec_inAl world 0x60
    |>.exec_movAl world 0x20
    |>.exec_outAl world 0x20

theorem acknowledge_reg {r : Reg} (hr : r ≠ .rsp) (hrax : r ≠ .rax) :
    (run world m acknowledge).reg r = m.reg r := by
  cases r <;> first | rfl | contradiction

theorem keyboardStub_resumes (h : OnStack top m (frameOf m₀)) (htop : 64 ≤ top) :
    Resumed m₀ (run world m keyboardStub) := by
  have hpopped := (acknowledge_stack world h htop).exec_pop world .rax
    (by decide)
  exact Resumed.of_iret (hpopped.exec_std world |>.of_eq rfl rfl)

theorem keyboardStub_reg (h : OnStack top m (frameOf m₀)) (htop : 64 ≤ top) {r : Reg} (hr : r ≠ .rsp) :
    (run world m keyboardStub).reg r = m.reg r := by
  have hlast : (run world m keyboardStub).reg r =
      (exec world (run world m acknowledge) (.pop .rax)).reg r := iretTo_reg_of_ne hr
  rw [hlast]
  by_cases hrax : r = .rax
  · rw [hrax]
    exact exec_pop_reg world (acknowledge_stack world h htop)
  · rw [exec_pop_reg_of_ne world hr hrax]
    exact acknowledge_reg hr hrax

/-- What `trapStub` does before the call. -/
def trapPrologue : Code :=
  [.cld, .push .rbp, .mov .rbp .rsp, .mov .rcx .r8, .mov .rdx .r9, .mov .r8 .r10, .mov .r9 .r11,
    .andRsp (-16), .subRsp 32]

theorem trapPrologue_reg : (run world m trapPrologue).reg = fun r =>
    match r with
    | .rsp => (m.reg .rsp - 8 &&& -16) - 32
    | .rbp => m.reg .rsp - 8
    | .rcx => m.reg .r8
    | .rdx => m.reg .r9
    | .r8 => m.reg .r10
    | .r9 => m.reg .r11
    | r => m.reg r := by
  funext r
  cases r <;> rfl

/-- The machine at the call. -/
def trapCall (world : World Handler) (m : Machine) : Machine :=
  { run world m trapPrologue with rip := (run world m trapPrologue).rip + 1 }

/-- The machine the handler starts in. -/
def trapEntry (world : World Handler) (m : Machine) : Machine :=
  (trapCall world m).push (trapCall world m).rip

theorem trapEntry_reg_of_ne {r : Reg} (h : r ≠ .rsp) :
    (trapEntry world m).reg r = (run world m trapPrologue).reg r :=
  push_reg_of_ne (m := trapCall world m) h

theorem trapCall_mem (world : World Handler) (m : Machine) : (trapCall world m).mem = (m.push (m.reg .rbp)).mem := rfl

theorem neg_sixteen : (-16 : BitVec 64) = ~~~0xF#64 := by decide

/-- Where the home area ends. -/
theorem trapCall_rsp_eq (world : World Handler) (h : OnStack top m (frameOf m₀)) (htop : 128 ≤ top) :
    ((trapCall world m).reg .rsp).toNat =
      ((m.reg .rsp).toNat - 8) - ((m.reg .rsp).toNat - 8) % 16 - 32 := by
  have hrsp := h.rsp
  rw [length_frame] at hrsp
  have hsp : (trapCall world m).reg .rsp = frameTop (m.reg .rsp - 8#64) - 32#64 := by
    rw [trapCall, trapPrologue_reg, frameTop, ← neg_sixteen]
    rfl
  have hframe := toNat_frameTop (v := m.reg .rsp - 8#64)
  rw [toNat_sub_eight (by omega)] at hframe
  have hle : 32#64 ≤ frameTop (m.reg .rsp - 8#64) := by
    apply BitVec.le_def.mpr
    rw [hframe, BitVec.toNat_ofNat]
    omega
  rw [hsp, BitVec.toNat_sub_of_le hle, hframe, BitVec.toNat_ofNat]

/-- Below the saved register there is room for the home area. -/
theorem trapCall_rsp (world : World Handler) (h : OnStack top m (frameOf m₀)) (htop : 128 ≤ top) :
    ((trapCall world m).reg .rsp).toNat + 32 ≤ (m.reg .rsp).toNat - 8 ∧
      8 ≤ ((trapCall world m).reg .rsp).toNat := by
  have hrsp := h.rsp
  rw [length_frame] at hrsp
  rw [trapCall_rsp_eq world h htop]
  omega

/-- What is written up to the start of the handler. -/
theorem onlyAt_trapEntry (world : World Handler) (h : OnStack top m (frameOf m₀)) (htop : 128 ≤ top) :
    OnlyAt m.mem (trapEntry world m).mem (top - 128) 128 := by
  have hrsp := h.rsp
  rw [length_frame] at hrsp
  have hroom := trapCall_rsp world h htop
  have hlow := trapCall_rsp_eq world h htop
  intro x hx
  have hsp : (m.reg .rsp - 8#64).toNat = (m.reg .rsp).toNat - 8 := toNat_sub_eight (by omega)
  have hcall : ((trapCall world m).reg .rsp - 8#64).toNat = ((trapCall world m).reg .rsp).toNat - 8 :=
    toNat_sub_eight hroom.2
  rw [trapEntry, push_mem, hcall, putLE_apply_of_notMem (by omega), trapCall_mem, push_mem, hsp,
    putLE_apply_of_notMem (by omega)]

/-- The stack after the handler's return and `mov rsp, rbp`. -/
theorem trapStub_stack (h : OnStack top m (frameOf m₀)) (htop : 128 ≤ top)
    (hk : Keeps 32 top (world.callee handler)) :
    OnStack top ((world.callee handler (trapEntry world m)).set .rsp (m.reg .rsp - 8))
      (m.reg .rbp :: frameOf m₀) := by
  have hsaved := h.push (v := m.reg .rbp) (by rw [length_frame]; omega)
  have hroom := trapCall_rsp world h htop
  have hrsp := h.rsp
  rw [length_frame] at hrsp
  have hbelow : ((trapCall world m).reg .rsp).toNat + 32 ≤ ((m.push (m.reg .rbp)).reg .rsp).toNat := by
    rw [push_rsp, toNat_sub_eight (by omega)]
    exact hroom.1
  have hcalled := OnStack.call_below (v := (trapCall world m).rip) hsaved (trapCall_mem world m)
    hroom.2 hbelow hk
  rw [push_rsp] at hcalled
  exact hcalled

theorem trapStub_nonvolatile {r : Reg} (hk : Keeps 32 top (world.callee handler)) (hr : r ∈ nonvolatile)
    (hrbp : r ≠ .rbp) : (world.callee handler (trapEntry world m)).reg r = m.reg r := by
  rw [hk.saved _ r hr]
  have hrsp : r ≠ .rsp := by
    rintro rfl
    exact absurd hr (by decide)
  rw [trapEntry_reg_of_ne hrsp, trapPrologue_reg]
  cases r <;> first | rfl | contradiction

/-- What `trapStub` hands to its handler, and what is left of it at the end. -/
structure Trapped (world : World Handler) (handler : Handler) (m₀ m : Machine) : Prop where
  hash : (trapEntry world m).reg .rcx = m.reg .r8
  arg : (trapEntry world m).reg .rdx = m.reg .r9
  third : (trapEntry world m).reg .r8 = m.reg .r10
  fourth : (trapEntry world m).reg .r9 = m.reg .r11
  resumed : Resumed m₀ (run world m (trapStub handler))
  result : (run world m (trapStub handler)).reg .rax = (world.callee handler (trapEntry world m)).reg .rax
  mem : (run world m (trapStub handler)).mem = (world.callee handler (trapEntry world m)).mem
  saved : ∀ r ∈ nonvolatile, (run world m (trapStub handler)).reg r = m.reg r

/-- **An entry point into the kernel** goes back with the handler's result, whatever the handler leaves
in its home area. -/
theorem trapStub_spec (h : OnStack top m (frameOf m₀)) (htop : 128 ≤ top)
    (hk : Keeps 32 top (world.callee handler)) : Trapped world handler m₀ m := by
  have hstack := trapStub_stack h htop hk
  have hrbp : (world.callee handler (trapEntry world m)).reg .rbp = m.reg .rsp - 8 := by
    rw [hk.saved _ .rbp (by decide), trapEntry_reg_of_ne (by decide), trapPrologue_reg]
  -- the machine after `mov rsp, rbp`
  obtain ⟨back, hback⟩ : ∃ back, back = exec world (world.callee handler (trapEntry world m)) (.mov .rsp .rbp) :=
    ⟨_, rfl⟩
  have hrun : run world m (trapStub handler) = iretTo
      { exec world back (.pop .rbp) with rip := (exec world back (.pop .rbp)).rip + 1 } := by
    rw [hback]
    rfl
  have hframe : OnStack top back (m.reg .rbp :: frameOf m₀) := by
    apply hstack.of_eq
    · rw [hback, exec_mov_reg world, hrbp, set_reg_same]
    · rw [hback]
      rfl
  have hpopped := hframe.exec_pop world .rbp (by decide)
  have hkept : ∀ r, r ≠ .rsp → r ≠ .rbp → (run world m (trapStub handler)).reg r =
      (world.callee handler (trapEntry world m)).reg r := by
    intro r hr hr'
    rw [hrun, iretTo_reg_of_ne hr]
    show (exec world back (.pop .rbp)).reg r = _
    rw [exec_pop_reg_of_ne world hr hr', hback, exec_mov_reg_of_ne world hr]
  constructor
  · rw [trapEntry_reg_of_ne (by decide), trapPrologue_reg]
  · rw [trapEntry_reg_of_ne (by decide), trapPrologue_reg]
  · rw [trapEntry_reg_of_ne (by decide), trapPrologue_reg]
  · rw [trapEntry_reg_of_ne (by decide), trapPrologue_reg]
  · rw [hrun]
    exact Resumed.of_iret (hpopped.of_eq rfl rfl)
  · exact hkept .rax (by decide) (by decide)
  · rw [hrun, hback]
    rfl
  · intro r hr
    by_cases hr' : r = .rbp
    · rw [hr', hrun, iretTo_reg_of_ne (by decide)]
      show (exec world back (.pop .rbp)).reg .rbp = m.reg .rbp
      exact exec_pop_reg world hframe
    · rw [hkept r (by rintro rfl; exact absurd hr (by decide)) hr']
      exact trapStub_nonvolatile hk hr hr'

/-! ## Going elsewhere -/

theorem intNormal_rip (h : OnStack top m (frameOf m₀)) : (run world m IntNormal).rip = m₀.rflags := by
  have hskipped := h.exec_cld world |>.exec_std world
    |>.exec_add world [m₀.rip, m₀.cs.setWidth 64] 16 rfl
  exact hskipped.top_eq

theorem intExp_rip (h : OnStack top m (err :: frameOf m₀)) :
    (run world m IntExp).rip = m₀.cs.setWidth 64 := by
  have hskipped := h.exec_cld world |>.exec_std world
    |>.exec_add world [err, m₀.rip] 16 rfl
  exact hskipped.top_eq

/-- A function that only returns. -/
def returning (m : Machine) : Machine := { m.drop with rip := m.top }

theorem returning_reg : (returning m).reg = m.drop.reg := rfl

theorem keeps_returning (top : Nat) : Keeps 0 top returning where
  rip _ := rfl
  rsp m := drop_rsp (m := m)
  saved m r hr := by
    rw [returning_reg, drop_reg_of_ne]
    rintro rfl
    exact absurd hr (by decide)
  cs _ := rfl
  ss _ := rfl
  mem _ _ _ _ := rfl

/-- A function that keeps the value `x` in each word of its home area. -/
def homing (x : BitVec 64) (m : Machine) : Machine :=
  { returning m with mem := putWords m.mem ((m.reg .rsp).toNat + 8) 8 (fun _ => x.toNat) 4 }

theorem homing_rsp : (homing x m).reg .rsp = m.reg .rsp + 8#64 := drop_rsp (m := m)

theorem keeps_homing : Keeps 32 top (homing x) where
  rip _ := rfl
  rsp _ := homing_rsp
  saved m r hr := (keeps_returning top).saved m r hr
  cs _ := rfl
  ss _ := rfl
  mem m y h₁ h₂ := onlyAt_putWords y (.inr (by omega))

theorem wordsAt_putWords {mem : Store} {a : Nat} :
    WordsAt (putWords mem a 8 (fun _ => x.toNat) 4) a [x, x, x, x] := by
  have hword : ∀ i < 4, getLE (putWords mem a 8 (fun _ => x.toNat) 4) (a + 8 * i) 8 = x.toNat := by
    intro i hi
    rw [getLE_putWords hi]
    exact Nat.mod_eq_of_lt x.isLt
  exact ⟨hword 0 (by decide), hword 1 (by decide), hword 2 (by decide), hword 3 (by decide), trivial⟩

/-- Four words that are overwritten. -/
theorem exec_homing (home ws : List (BitVec 64)) (h : OnStack top m (home ++ ws)) (hlen : home.length = 4)
    (hroom : 8 * (home ++ ws).length + 8 ≤ top) (hf : world.callee handler = homing x) :
    OnStack top (exec world m (.call handler)) (x :: x :: x :: x :: ws) := by
  have hrsp := h.rsp
  rw [List.length_append, hlen] at hrsp hroom
  have hcall : exec world m (.call handler) =
      homing x ({ m with rip := m.rip + 1 : Machine }.push (m.rip + 1)) := by
    rw [← hf]
    rfl
  have hsp : (homing x ({ m with rip := m.rip + 1 : Machine }.push (m.rip + 1))).reg .rsp = m.reg .rsp := by
    rw [homing_rsp, push_rsp, BitVec.sub_add_cancel]
  have hmem : (homing x ({ m with rip := m.rip + 1 : Machine }.push (m.rip + 1))).mem =
      putWords (putLE m.mem (m.reg .rsp - 8#64).toNat 8 (m.rip + 1).toNat) (m.reg .rsp).toNat 8
        (fun _ => x.toNat) 4 := by
    have hhome : (m.reg .rsp - 8#64).toNat + 8 = (m.reg .rsp).toNat := by
      rw [toNat_sub_eight (by omega)]
      omega
    rw [← hhome, ← push_rsp (m := { m with rip := m.rip + 1 }) (v := m.rip + 1)]
    rfl
  rw [hcall]
  constructor
  · exact h.bound
  · rw [hsp, show (x :: x :: x :: x :: ws).length = ws.length + 4 from rfl]
    omega
  · rw [hsp, hmem]
    refine (wordsAt_append [x, x, x, x]).mpr ⟨wordsAt_putWords, ?_⟩
    have habove := ((wordsAt_append _).mp h.words).2
    rw [hlen] at habove
    apply habove.congr
    intro y h₁ h₂
    rw [onlyAt_putWords y (.inr (by omega)),
      putLE_apply_of_notMem (by rw [toNat_sub_eight (by omega)]; omega)]

theorem faultStub_rip (world : World Handler) (handler : Handler) (h : OnStack top m (frameOf m₀)) (htop : 64 ≤ top)
    (hf : world.callee handler = homing x) : (run world m (faultStub handler)).rip = x := by
  have hsaved := h.exec_cld world |>.exec_push world .rcx
    (by rw [length_frame]; omega)
  have hcalled := exec_homing [_, m₀.rip, m₀.cs.setWidth 64, m₀.rflags]
    [m₀.reg .rsp, m₀.ss.setWidth 64] hsaved rfl (Nat.le_trans (by decide : 8 * 6 + 8 ≤ 64) htop) hf
  have hpopped := hcalled.exec_pop world .rcx (by decide)
  exact hpopped.top_eq

theorem errorStub_rip (world : World Handler) (handler : Handler) (h : OnStack top m (err :: frameOf m₀)) (htop : 64 ≤ top)
    (hf : world.callee handler = homing x) : (run world m (errorStub handler)).rip = x := by
  have hsaved := h.exec_cld world |>.exec_push world .rcx
    (by rw [List.length_cons, length_frame]; omega)
  have hcalled := exec_homing [_, err, m₀.rip, m₀.cs.setWidth 64]
    [m₀.rflags, m₀.reg .rsp, m₀.ss.setWidth 64] hsaved rfl
    (Nat.le_trans (by decide : 8 * 7 + 8 ≤ 64) htop) hf
  have hpopped := hcalled.exec_pop world .rcx (by decide)
  have hskipped := hpopped.exec_add world [x] 8 rfl
  exact hskipped.top_eq

theorem irqStub_rip (world : World Handler) (handler : Handler) (h : OnStack top m (frameOf m₀)) (htop : 64 ≤ top)
    (hf : world.callee handler = homing x) : (run world m (irqStub handler)).rip = x := by
  have hsaved := h.exec_cld world |>.exec_push world .rax
    (by rw [length_frame]; omega)
  have hmoved := hsaved.exec_mov world .rcx .rsp (by decide)
  have hcalled := exec_homing [_, m₀.rip, m₀.cs.setWidth 64, m₀.rflags]
    [m₀.reg .rsp, m₀.ss.setWidth 64] hmoved rfl (Nat.le_trans (by decide : 8 * 6 + 8 ≤ 64) htop) hf
  have hpopped := hcalled.exec_pop world .rax (by decide)
  exact hpopped.top_eq

/-! ## Which vectors come back -/

/-- The vectors with an entry point of their own. -/
def ownEntry : List Nat := [0, 1, 2, 3, 4, 5, 6, 7, 8, 13, 14, 32, 33, 40, 50, 51]

theorem neInt_default (hown : v ∉ ownEntry) (hcode : pushesErrorCode v = false) : neInt v = IntNormal := by
  simp only [ownEntry, List.mem_cons, List.not_mem_nil, or_false, not_or] at hown
  simp only [pushesErrorCode, List.mem_cons, List.not_mem_nil, or_false, decide_eq_false_iff_not, not_or] at hcode
  unfold neInt
  split <;> first | rfl | omega

/-- The shapes of the entry points. -/
inductive EntryShape (v : Nat) : Prop where
  | bare : neInt v = [.cld, .std, .iret] → pushesErrorCode v = false → v = 5 → EntryShape v
  | keyboard : neInt v = keyboardStub → pushesErrorCode v = false → v = 33 → EntryShape v
  | trap (h : Handler) : neInt v = trapStub h → pushesErrorCode v = false → v ∈ [50, 51] → EntryShape v
  | fault (h : Handler) : neInt v = faultStub h → pushesErrorCode v = false →
      v ∈ [0, 1, 2, 3, 4, 6, 7] → EntryShape v
  | error (h : Handler) : neInt v = errorStub h → pushesErrorCode v = true → v ∈ [8, 13, 14] → EntryShape v
  | irq (h : Handler) : neInt v = irqStub h → pushesErrorCode v = false → v ∈ [32, 40] → EntryShape v
  | exp : neInt v = IntExp → pushesErrorCode v = true → v ∈ [10, 11, 12, 17, 21, 29, 30] → EntryShape v
  | normal : neInt v = IntNormal → pushesErrorCode v = false →
      v ∉ ownEntry → EntryShape v

theorem entryShape (v : Nat) : EntryShape v := by
  by_cases hown : v ∈ ownEntry
  · simp only [ownEntry, List.mem_cons, List.not_mem_nil, or_false] at hown
    rcases hown with rfl | rfl | rfl | rfl | rfl | rfl | rfl | rfl | rfl | rfl | rfl | rfl | rfl | rfl |
      rfl | rfl
    all_goals first
      | exact .bare rfl rfl rfl
      | exact .keyboard rfl rfl rfl
      | exact .trap _ rfl rfl (by decide)
      | exact .fault _ rfl rfl (by decide)
      | exact .error _ rfl rfl (by decide)
      | exact .irq _ rfl rfl (by decide)
  · by_cases hcode : pushesErrorCode v
    · have hexp : v ∈ [10, 11, 12, 17, 21, 29, 30] := by
        simp only [pushesErrorCode, ownEntry, List.mem_cons, List.not_mem_nil, or_false, decide_eq_true_eq] at *
        omega
      refine .exp ?_ hcode hexp
      simp only [List.mem_cons, List.not_mem_nil, or_false] at hexp
      rcases hexp with rfl | rfl | rfl | rfl | rfl | rfl | rfl <;> rfl
    · exact .normal (neInt_default hown (eq_false_of_ne_true hcode)) (eq_false_of_ne_true hcode) hown

theorem interrupted_plain (hcode : pushesErrorCode v = false) :
    interrupted world stackOf gate err v m = run world (deliver stackOf gate none m) (neInt v) := by
  rw [interrupted, hcode]
  rfl

theorem interrupted_error (hcode : pushesErrorCode v = true) :
    interrupted world stackOf gate err v m = run world (deliver stackOf gate (some err) m) (neInt v) := by
  rw [interrupted, hcode]
  rfl

theorem frameTop_room (hroom : 256 ≤ (handlerStack stackOf gate m).toNat) :
    128 ≤ (frameTop (handlerStack stackOf gate m)).toNat := by
  rw [toNat_frameTop]
  omega

/-- The frame of vector `v` without an error code. -/
theorem onStack_plain (hroom : 256 ≤ (handlerStack stackOf gate m).toNat) :
    OnStack (frameTop (handlerStack stackOf gate m)).toNat (deliver stackOf gate none m) (frameOf m) :=
  onStack_deliver (by omega)

theorem onStack_error (err : BitVec 64) (hroom : 256 ≤ (handlerStack stackOf gate m).toNat) :
    OnStack (frameTop (handlerStack stackOf gate m)).toNat (deliver stackOf gate (some err) m)
      (err :: frameOf m) :=
  onStack_deliver (by omega)

theorem comesBack_own (hv : v ∈ ownEntry) : ComesBack 0 v := by
  intro world stackOf gate err m hroom hk
  have htop := frameTop_room hroom
  cases entryShape v with
  | bare hcode hplain _ =>
      rw [interrupted_plain hplain, hcode]
      exact Resumed.of_iret ((onStack_plain hroom).of_eq rfl rfl)
  | keyboard hcode hplain _ =>
      rw [interrupted_plain hplain, hcode]
      exact keyboardStub_resumes (onStack_plain hroom) (by omega)
  | trap h hcode hplain _ =>
      rw [interrupted_plain hplain, hcode]
      exact (trapStub_spec (onStack_plain hroom) htop ((hk h).mono (Nat.zero_le _))).resumed
  | fault h hcode hplain _ =>
      rw [interrupted_plain hplain, hcode]
      exact faultStub_resumes (onStack_plain hroom) (by omega) (hk h)
  | error h hcode herr _ =>
      rw [interrupted_error herr, hcode]
      exact errorStub_resumes (onStack_error err hroom) (by omega) (hk h)
  | irq h hcode hplain _ =>
      rw [interrupted_plain hplain, hcode]
      exact irqStub_resumes (onStack_plain hroom) (by omega) (hk h)
  | exp _ _ hexp =>
      simp only [ownEntry, List.mem_cons, List.not_mem_nil, or_false] at hv hexp
      omega
  | normal _ _ hown => exact absurd hv hown

theorem comesBack_homed (hv : v ∈ [5, 33, 50, 51]) : ComesBack 32 v := by
  intro world stackOf gate err m hroom hk
  have htop := frameTop_room hroom
  simp only [List.mem_cons, List.not_mem_nil, or_false] at hv
  cases entryShape v with
  | bare hcode hplain _ =>
      rw [interrupted_plain hplain, hcode]
      exact Resumed.of_iret ((onStack_plain hroom).of_eq rfl rfl)
  | keyboard hcode hplain _ =>
      rw [interrupted_plain hplain, hcode]
      exact keyboardStub_resumes (onStack_plain hroom) (by omega)
  | trap h hcode hplain _ =>
      rw [interrupted_plain hplain, hcode]
      exact (trapStub_spec (onStack_plain hroom) htop (hk h)).resumed
  | fault _ _ _ hmem | error _ _ _ hmem | irq _ _ _ hmem | exp _ _ hmem =>
      simp only [List.mem_cons, List.not_mem_nil, or_false] at hmem
      omega
  | normal _ _ hown =>
      simp only [ownEntry, List.mem_cons, List.not_mem_nil, or_false] at hown
      omega

/-- A machine in ring 0 that is interrupted at address 1. -/
def idling : Machine := ⟨fun _ => 0x1000, zeros, 1, 0x8, 0x10, 0x2⟩

/-- A gate without a stack of its own. -/
def kernelGate : Gate := ⟨0, 0x8, 0, 0, true⟩

/-- A world in which every function is `f`. -/
def worldOf (f : Machine → Machine) : World Handler := ⟨fun _ => f, fun _ => 0, fun _ m => m⟩

theorem idling_room : 256 ≤ (handlerStack (fun _ => 0) kernelGate idling).toNat := by decide

theorem own_of_comesBack (h : ComesBack 0 v) : v ∈ ownEntry := by
  have hback := h (worldOf returning) (fun _ => 0) kernelGate 0 idling idling_room fun _ => keeps_returning _
  cases entryShape v with
  | bare _ _ hmem | keyboard _ _ hmem =>
      rw [hmem]
      decide
  | trap _ _ _ hmem | fault _ _ _ hmem | error _ _ _ hmem | irq _ _ _ hmem =>
      simp only [ownEntry, List.mem_cons, List.not_mem_nil, or_false] at hmem ⊢
      omega
  | exp hcode herr _ =>
      rw [interrupted_error herr, hcode] at hback
      have hrip := hback.rip.symm.trans (intExp_rip (onStack_error 0 idling_room))
      exact absurd hrip (by decide)
  | normal hcode hplain _ =>
      rw [interrupted_plain hplain, hcode] at hback
      have hrip := hback.rip.symm.trans (intNormal_rip (onStack_plain idling_room))
      exact absurd hrip (by decide)

/-- With a function that uses its home area the return is to the value it keeps there. -/
theorem homed_of_comesBack (h : ComesBack 32 v) : v ∈ [5, 33, 50, 51] := by
  have hown : v ∈ ownEntry := own_of_comesBack fun world stackOf gate err m hroom hk =>
    h world stackOf gate err m hroom fun handler => (hk handler).mono (Nat.zero_le _)
  have hback := h (worldOf (homing 2)) (fun _ => 0) kernelGate 0 idling idling_room fun _ => keeps_homing
  have htop := frameTop_room idling_room
  have hne : (2 : BitVec 64) ≠ idling.rip := by decide
  cases entryShape v with
  | bare _ _ hmem | keyboard _ _ hmem =>
      rw [hmem]
      decide
  | trap _ _ _ hmem =>
      simp only [List.mem_cons, List.not_mem_nil, or_false] at hmem ⊢
      omega
  | fault handler hcode hplain _ =>
      rw [interrupted_plain hplain, hcode] at hback
      have hrip := faultStub_rip (worldOf (homing 2)) handler (onStack_plain idling_room) (by omega) rfl
      exact absurd (hrip.symm.trans hback.rip) hne
  | error handler hcode herr _ =>
      rw [interrupted_error herr, hcode] at hback
      have hrip := errorStub_rip (worldOf (homing 2)) handler (onStack_error 0 idling_room) (by omega) rfl
      exact absurd (hrip.symm.trans hback.rip) hne
  | irq handler hcode hplain _ =>
      rw [interrupted_plain hplain, hcode] at hback
      have hrip := irqStub_rip (worldOf (homing 2)) handler (onStack_plain idling_room) (by omega) rfl
      exact absurd (hrip.symm.trans hback.rip) hne
  | exp _ _ hmem =>
      simp only [ownEntry, List.mem_cons, List.not_mem_nil, or_false] at hown hmem
      omega
  | normal _ _ hnot => exact absurd hown hnot

/-- **Which interrupts come back.** With handlers that use their home area, as the calling convention
lets them, only four vectors go back to what was interrupted. With handlers that leave it alone, the
vectors with an entry point of their own do, and those of the two macros still do not. -/
theorem interrupts_come_back (v : Fin 256) :
    (ComesBack 32 v ↔ v.val ∈ [5, 33, 50, 51]) ∧ (ComesBack 0 v ↔ v.val ∈ ownEntry) :=
  ⟨⟨homed_of_comesBack, comesBack_homed⟩, ⟨own_of_comesBack, comesBack_own⟩⟩

end NeKernel.HALKit
