import NeKernel.Lib.BitMask
import NeKernel.Lib.ByteStore
import Mathlib.Logic.Function.Basic

/-!
# A 64-bit processor

What entry code does to a processor: registers, a stack in byte-addressed memory, the delivery of an
interrupt and the return from one. Code is straight-line. The functions it calls are parameters, and
what a caller may rely on is their calling convention (`Keeps`).

Proofs look at the stack as the list of its words (`OnStack`): a push conses, a pop takes the head off,
and a call leaves what lies above its home area.
-/

namespace Amd64

open ByteStore

inductive Reg where
  | rax | rcx | rdx | rbx | rsp | rbp | rsi | rdi | r8 | r9 | r10 | r11 | r12 | r13 | r14 | r15
deriving DecidableEq

structure Machine where
  reg : Reg → BitVec 64
  mem : Store
  rip : BitVec 64
  cs : BitVec 16
  ss : BitVec 16
  rflags : BitVec 64

namespace Machine

def set (m : Machine) (r : Reg) (v : BitVec 64) : Machine :=
  { m with reg := Function.update m.reg r v }

/-- The word at an address. -/
def load (m : Machine) (a : BitVec 64) : BitVec 64 := BitVec.ofNat 64 (getLE m.mem a.toNat 8)

def push (m : Machine) (v : BitVec 64) : Machine :=
  { m.set .rsp (m.reg .rsp - 8#64) with mem := putLE m.mem (m.reg .rsp - 8#64).toNat 8 v.toNat }

/-- Push the words so that the first of them is on top. -/
def pushAll (m : Machine) : List (BitVec 64) → Machine
  | [] => m
  | w :: ws => (m.pushAll ws).push w

/-- The word on top of the stack. -/
def top (m : Machine) : BitVec 64 := m.load (m.reg .rsp)

/-- Without the word on top of the stack. -/
def drop (m : Machine) : Machine := m.set .rsp (m.reg .rsp + 8#64)

/-- The privilege level. -/
def cpl (m : Machine) : Nat := m.cs.toNat % 4

end Machine

/-! ## Code -/

/-- What the code may use besides the processor: the functions it calls, the ports, and what a software
interrupt does before the next instruction. -/
structure World (F : Type*) where
  callee : F → Machine → Machine
  port : BitVec 16 → BitVec 8
  trap : BitVec 8 → Machine → Machine

inductive Instr (F : Type*) where
  | push (r : Reg)
  | pushImm (v : BitVec 64)
  | pushf
  | pop (r : Reg)
  | mov (d s : Reg)
  | movLoad (d base : Reg) (offset : BitVec 64)
  | movAl (v : BitVec 8)
  | inAl (p : BitVec 16)
  | outAl (p : BitVec 16)
  | addRsp (n : BitVec 64)
  | subRsp (n : BitVec 64)
  | andRsp (mask : BitVec 64)
  | cld
  | std
  | call (f : F)
  | int (v : BitVec 8)
  | ret
  | iret

/-- The direction flag. -/
def flagDF : BitVec 64 := 0x400

variable {F : Type*}

/-- `iret`: the five words of the frame. The checks of the two selectors are left out. -/
def iretTo (m : Machine) : Machine :=
  { m.set .rsp (m.load (m.reg .rsp + 24#64)) with
    rip := m.load (m.reg .rsp)
    cs := (m.load (m.reg .rsp + 8#64)).setWidth 16
    rflags := m.load (m.reg .rsp + 16#64)
    ss := (m.load (m.reg .rsp + 32#64)).setWidth 16 }

/-- One instruction. Its length counts as one. -/
def exec (world : World F) (m₀ : Machine) : Instr F → Machine :=
  let m := { m₀ with rip := m₀.rip + 1 }
  fun
  | .push r => m.push (m.reg r)
  | .pushImm v => m.push v
  | .pushf => m.push m.rflags
  | .pop r => m.drop.set r m.top
  | .mov d s => m.set d (m.reg s)
  | .movLoad d base offset => m.set d (m.load (m.reg base + offset))
  | .movAl v => m.set .rax (m.reg .rax &&& ~~~0xFF#64 ||| v.setWidth 64)
  | .inAl p => m.set .rax (m.reg .rax &&& ~~~0xFF#64 ||| (world.port p).setWidth 64)
  | .outAl _ => m
  | .addRsp n => m.set .rsp (m.reg .rsp + n)
  | .subRsp n => m.set .rsp (m.reg .rsp - n)
  | .andRsp mask => m.set .rsp (m.reg .rsp &&& mask)
  | .cld => { m with rflags := m.rflags &&& ~~~flagDF }
  | .std => { m with rflags := m.rflags ||| flagDF }
  | .call f => world.callee f (m.push m.rip)
  | .int v => world.trap v m
  | .ret => { m.drop with rip := m.top }
  | .iret => iretTo m

/-- Straight-line code. -/
def run (world : World F) (m : Machine) (code : List (Instr F)) : Machine :=
  code.foldl (exec world) m

theorem run_cons (world : World F) (m : Machine) (i : Instr F) (code : List (Instr F)) :
    run world m (i :: code) = run world (exec world m i) code := rfl

@[simp] theorem run_nil (world : World F) (m : Machine) : run world m [] = m := rfl

/-! ## Interrupts -/

/-- A gate as the processor reads it. -/
structure Gate where
  offset : BitVec 64
  selector : BitVec 16
  ist : Nat
  dpl : Nat
  /-- The gate disables interrupts. -/
  masks : Bool

/-- The flags an interrupt clears besides the interrupt flag: TF, NT, RF and VM. -/
def flagsCleared : BitVec 64 := 0x34100

/-- The interrupt flag. -/
def flagIF : BitVec 64 := 0x200

/-- The stack of a handler: one of the gate's own, that of ring 0 if the privilege changes, and the
current one otherwise. -/
def handlerStack (stackOf : Nat → BitVec 64) (gate : Gate) (m : Machine) : BitVec 64 :=
  if gate.ist ≠ 0 then stackOf gate.ist else if m.cpl ≠ 0 then stackOf 0 else m.reg .rsp

/-- The frame is pushed from a multiple of 16 on. -/
def frameTop (sp : BitVec 64) : BitVec 64 := sp &&& ~~~0xF#64

/-- The words of the frame of an interrupt. -/
def frameOf (m : Machine) : List (BitVec 64) :=
  [m.rip, m.cs.setWidth 64, m.rflags, m.reg .rsp, m.ss.setWidth 64]

/-- An interrupt through a gate to ring 0, with or without an error code. -/
def deliver (stackOf : Nat → BitVec 64) (gate : Gate) (err : Option (BitVec 64)) (m : Machine) :
    Machine :=
  { (m.set .rsp (frameTop (handlerStack stackOf gate m))).pushAll (err.toList ++ frameOf m) with
    rip := gate.offset
    cs := gate.selector
    ss := if m.cpl ≠ 0 then 0 else m.ss
    rflags := (if gate.masks then m.rflags &&& ~~~flagIF else m.rflags) &&& ~~~flagsCleared }

/-- The machine has gone back to where `m` was interrupted. -/
structure Resumed (m m' : Machine) : Prop where
  rip : m'.rip = m.rip
  cs : m'.cs = m.cs
  rflags : m'.rflags = m.rflags
  rsp : m'.reg .rsp = m.reg .rsp
  ss : m'.ss = m.ss

/-! ## The calling convention -/

/-- The registers a function gives back as it got them, the stack pointer apart. -/
def nonvolatile : List Reg := [.rbx, .rbp, .rsi, .rdi, .r12, .r13, .r14, .r15]

/-- What a function leaves of its caller: the stack from the `home` bytes above its return address up
to `top`. -/
structure Keeps (home top : Nat) (f : Machine → Machine) : Prop where
  rip (m : Machine) : (f m).rip = m.top
  rsp (m : Machine) : (f m).reg .rsp = m.reg .rsp + 8#64
  saved (m : Machine) (r : Reg) (h : r ∈ nonvolatile) : (f m).reg r = m.reg r
  cs (m : Machine) : (f m).cs = m.cs
  ss (m : Machine) : (f m).ss = m.ss
  mem (m : Machine) (x : Nat) (h₁ : (m.reg .rsp).toNat + 8 + home ≤ x) (h₂ : x < top) :
    (f m).mem x = m.mem x

/-! ## The stack as a list -/

/-- The words from address `a` on. -/
def WordsAt (mem : Store) (a : Nat) : List (BitVec 64) → Prop
  | [] => True
  | w :: ws => getLE mem a 8 = w.toNat ∧ WordsAt mem (a + 8) ws

/-- The words on the stack below address `top`, the one pushed last first. -/
structure OnStack (top : Nat) (m : Machine) (ws : List (BitVec 64)) : Prop where
  bound : top < 2 ^ 64
  rsp : (m.reg .rsp).toNat + 8 * ws.length = top
  words : WordsAt m.mem (m.reg .rsp).toNat ws

variable {m m' : Machine} {mem mem' : Store} {w v : BitVec 64} {us ws : List (BitVec 64)}
  {a n top size : Nat}
  {r : Reg} {f : Machine → Machine}

@[simp] theorem set_reg_same : (m.set r v).reg r = v := Function.update_self ..

@[simp] theorem set_reg_of_ne {r' : Reg} (h : r' ≠ r) : (m.set r v).reg r' = m.reg r' :=
  Function.update_of_ne h ..

@[simp] theorem set_mem : (m.set r v).mem = m.mem := rfl
@[simp] theorem set_rip : (m.set r v).rip = m.rip := rfl
@[simp] theorem set_cs : (m.set r v).cs = m.cs := rfl
@[simp] theorem set_ss : (m.set r v).ss = m.ss := rfl
@[simp] theorem set_rflags : (m.set r v).rflags = m.rflags := rfl

theorem push_reg : (m.push v).reg = Function.update m.reg .rsp (m.reg .rsp - 8#64) := rfl

@[simp] theorem push_rsp : (m.push v).reg .rsp = m.reg .rsp - 8#64 := by
  rw [push_reg, Function.update_self]

@[simp] theorem push_reg_of_ne (h : r ≠ .rsp) : (m.push v).reg r = m.reg r := by
  rw [push_reg, Function.update_of_ne h]

@[simp] theorem push_mem :
    (m.push v).mem = putLE m.mem (m.reg .rsp - 8#64).toNat 8 v.toNat := rfl

@[simp] theorem push_rip : (m.push v).rip = m.rip := rfl
@[simp] theorem push_cs : (m.push v).cs = m.cs := rfl
@[simp] theorem push_ss : (m.push v).ss = m.ss := rfl
@[simp] theorem push_rflags : (m.push v).rflags = m.rflags := rfl

theorem drop_reg : m.drop.reg = Function.update m.reg .rsp (m.reg .rsp + 8#64) := rfl

@[simp] theorem drop_rsp : m.drop.reg .rsp = m.reg .rsp + 8#64 := by
  rw [drop_reg, Function.update_self]

@[simp] theorem drop_reg_of_ne (h : r ≠ .rsp) : m.drop.reg r = m.reg r := by
  rw [drop_reg, Function.update_of_ne h]

theorem toNat_sub_eight (h : 8 ≤ v.toNat) : (v - 8#64).toNat = v.toNat - 8 := by
  have hle : 8#64 ≤ v := BitVec.le_def.mpr h
  rw [BitVec.toNat_sub_of_le hle]
  rfl

theorem WordsAt.congr (h : AgreeOn mem mem' a (8 * ws.length)) (hw : WordsAt mem a ws) :
    WordsAt mem' a ws := by
  induction ws generalizing a with
  | nil => trivial
  | cons w ws ih =>
      obtain ⟨hhead, htail⟩ := hw
      rw [List.length_cons] at h
      constructor
      · rw [← (h.mono (Nat.le_refl a) (by omega)).getLE_eq]
        exact hhead
      · exact ih (h.mono (by omega) (by omega)) htail

theorem wordsAt_append (us : List (BitVec 64)) :
    WordsAt mem a (us ++ ws) ↔ WordsAt mem a us ∧ WordsAt mem (a + 8 * us.length) ws := by
  induction us generalizing a with
  | nil => simp [WordsAt]
  | cons u us ih =>
      rw [List.cons_append, WordsAt, WordsAt, ih, and_assoc, List.length_cons,
        show a + 8 + 8 * us.length = a + 8 * (us.length + 1) by omega]

/-- The words a stretch of memory holds. -/
def wordsOf (mem : Store) (a : Nat) : Nat → List (BitVec 64)
  | 0 => []
  | n + 1 => BitVec.ofNat 64 (getLE mem a 8) :: wordsOf mem (a + 8) n

@[simp] theorem length_wordsOf : (wordsOf mem a n).length = n := by
  induction n generalizing a with
  | zero => rfl
  | succ n ih => rw [wordsOf, List.length_cons, ih]

theorem wordsAt_wordsOf : WordsAt mem a (wordsOf mem a n) := by
  induction n generalizing a with
  | zero => trivial
  | succ n ih =>
      refine ⟨?_, ih⟩
      rw [BitVec.toNat_ofNat, Nat.mod_eq_of_lt]
      exact getLE_lt

theorem onStack_nil : OnStack (m.reg .rsp).toNat m [] := ⟨(m.reg .rsp).isLt, rfl, trivial⟩

/-- Only the stack pointer and the memory matter. -/
theorem OnStack.of_eq (h : OnStack top m ws) (hr : m'.reg .rsp = m.reg .rsp) (hm : m'.mem = m.mem) :
    OnStack top m' ws := by
  constructor
  · exact h.bound
  · rw [hr]
    exact h.rsp
  · rw [hr, hm]
    exact h.words

theorem OnStack.push (h : OnStack top m ws) (hroom : 8 * ws.length + 8 ≤ top) :
    OnStack top (m.push v) (v :: ws) := by
  have hrsp := h.rsp
  have hbound := h.bound
  have hroom' : 8 ≤ (m.reg .rsp).toNat := by omega
  have hsp : ((m.push v).reg .rsp).toNat = (m.reg .rsp).toNat - 8 := by
    rw [push_rsp, toNat_sub_eight hroom']
  constructor
  · exact h.bound
  · rw [hsp, List.length_cons]
    omega
  · rw [hsp, push_mem, toNat_sub_eight hroom']
    constructor
    · rw [getLE_putLE_same]
      exact Nat.mod_eq_of_lt v.isLt
    · rw [Nat.sub_add_cancel hroom']
      have hagree : AgreeOn m.mem (putLE m.mem ((m.reg .rsp).toNat - 8) 8 v.toNat) (m.reg .rsp).toNat
          (8 * ws.length) := by
        intro x h₁ h₂
        rw [putLE_apply_of_notMem (by omega)]
      exact h.words.congr hagree

theorem OnStack.top_eq (h : OnStack top m (w :: ws)) : m.top = w := by
  apply BitVec.eq_of_toNat_eq
  rw [Machine.top, Machine.load, h.words.1, BitVec.ofNat_toNat, BitVec.setWidth_eq]

/-- Without the words above. -/
theorem OnStack.skip (us : List (BitVec 64)) (h : OnStack top m (us ++ ws)) (hv : v.toNat = 8 * us.length) :
    OnStack top (m.set .rsp (m.reg .rsp + v)) ws := by
  have hrsp := h.rsp
  have hbound := h.bound
  rw [List.length_append] at hrsp
  have hsp : ((m.set .rsp (m.reg .rsp + v)).reg .rsp).toNat = (m.reg .rsp).toNat + 8 * us.length := by
    rw [set_reg_same, BitVec.toNat_add, hv, Nat.mod_eq_of_lt (by omega)]
  constructor
  · exact h.bound
  · rw [hsp]
    omega
  · rw [hsp]
    exact ((wordsAt_append _).mp h.words).2

theorem OnStack.drop (h : OnStack top m (w :: ws)) : OnStack top m.drop ws :=
  OnStack.skip [w] h rfl

/-- The word under the first ones. -/
theorem OnStack.load (us : List (BitVec 64)) (h : OnStack top m (us ++ w :: ws)) (hv : v.toNat = 8 * us.length) :
    m.load (m.reg .rsp + v) = w := by
  have := (h.skip us hv).top_eq
  rwa [Machine.top, set_reg_same] at this

/-- A call leaves what lies above its home area. -/
theorem OnStack.call (home : List (BitVec 64)) (h : OnStack top m (home ++ ws)) (hroom : 8 * (home ++ ws).length + 8 ≤ top)
    (hk : Keeps (8 * home.length) top f) :
    ∃ home', home'.length = home.length ∧ OnStack top (f (m.push v)) (home' ++ ws) := by
  have hrsp := h.rsp
  have hsp : (f (m.push v)).reg .rsp = m.reg .rsp := by
    rw [hk.rsp, push_rsp, BitVec.sub_add_cancel]
  refine ⟨wordsOf (f (m.push v)).mem (m.reg .rsp).toNat home.length, length_wordsOf, ?_⟩
  constructor
  · exact h.bound
  · rw [hsp, List.length_append, length_wordsOf, ← List.length_append]
    exact h.rsp
  · rw [hsp]
    refine (wordsAt_append _).mpr ⟨wordsAt_wordsOf, ?_⟩
    rw [length_wordsOf]
    apply ((wordsAt_append _).mp h.words).2.congr
    intro x h₁ h₂
    rw [List.length_append] at hrsp
    have hroom' : 8 ≤ (m.reg .rsp).toNat := by
      rw [List.length_append] at hroom
      omega
    have hmem := hk.mem (m.push v) x (by rw [push_rsp, toNat_sub_eight hroom']; omega) (by omega)
    rw [hmem, push_mem, toNat_sub_eight hroom', putLE_apply_of_notMem (by omega)]

theorem iretTo_rip : (iretTo m).rip = m.load (m.reg .rsp) := rfl

theorem iretTo_cs : (iretTo m).cs = (m.load (m.reg .rsp + 8#64)).setWidth 16 := rfl

theorem iretTo_rflags : (iretTo m).rflags = m.load (m.reg .rsp + 16#64) := rfl

theorem iretTo_ss : (iretTo m).ss = (m.load (m.reg .rsp + 32#64)).setWidth 16 := rfl

theorem iretTo_reg :
    (iretTo m).reg = Function.update m.reg .rsp (m.load (m.reg .rsp + 24#64)) := rfl

theorem iretTo_rsp : (iretTo m).reg .rsp = m.load (m.reg .rsp + 24#64) := by
  rw [iretTo_reg, Function.update_self]

theorem iretTo_reg_of_ne (h : r ≠ .rsp) : (iretTo m).reg r = m.reg r := by
  rw [iretTo_reg, Function.update_of_ne h]

/-- `iret` on a frame. -/
theorem OnStack.iret {rip cs rflags rsp ss : BitVec 64}
    (h : OnStack top m (rip :: cs :: rflags :: rsp :: ss :: ws)) :
    (iretTo m).rip = rip ∧ (iretTo m).cs = cs.setWidth 16 ∧ (iretTo m).rflags = rflags ∧
      (iretTo m).reg .rsp = rsp ∧ (iretTo m).ss = ss.setWidth 16 := by
  have hcs : m.load (m.reg .rsp + 8#64) = cs := OnStack.load [rip] h rfl
  have hfl : m.load (m.reg .rsp + 16#64) = rflags := OnStack.load [rip, cs] h rfl
  have hsp : m.load (m.reg .rsp + 24#64) = rsp := OnStack.load [rip, cs, rflags] h rfl
  have hss : m.load (m.reg .rsp + 32#64) = ss := OnStack.load [rip, cs, rflags, rsp] h rfl
  refine ⟨?_, ?_, ?_, ?_, ?_⟩
  · rw [iretTo_rip]
    exact h.top_eq
  · rw [iretTo_cs, hcs]
  · rw [iretTo_rflags, hfl]
  · rw [iretTo_rsp, hsp]
  · rw [iretTo_ss, hss]

/-- A call from further down the stack leaves the words above, whatever the home area is. -/
theorem OnStack.call_below {m₁ : Machine} (h : OnStack top m ws) (hmem : m₁.mem = m.mem)
    (hroom : 8 ≤ (m₁.reg .rsp).toNat) (hbelow : (m₁.reg .rsp).toNat + size ≤ (m.reg .rsp).toNat)
    (hk : Keeps size top f) : OnStack top ((f (m₁.push v)).set .rsp (m.reg .rsp)) ws := by
  have hrsp := h.rsp
  constructor
  · exact h.bound
  · rw [set_reg_same]
    exact h.rsp
  · rw [set_reg_same, set_mem]
    apply h.words.congr
    intro x h₁ h₂
    have hkept := hk.mem (m₁.push v) x (by rw [push_rsp, toNat_sub_eight hroom]; omega) (by omega)
    rw [hkept, push_mem, toNat_sub_eight hroom, putLE_apply_of_notMem (by omega), hmem]

/-- Less is kept with a larger home area. -/
theorem Keeps.mono {size' : Nat} (hk : Keeps size top f) (h : size ≤ size') :
    Keeps size' top f :=
  { hk with mem := fun m x h₁ h₂ => hk.mem m x (by omega) h₂ }

theorem Resumed.of_iret {m₀ : Machine} (h : OnStack top m (frameOf m₀)) : Resumed m₀ (iretTo m) := by
  obtain ⟨hrip, hcs, hfl, hsp, hss⟩ := OnStack.iret h
  refine ⟨hrip, ?_, hfl, hsp, ?_⟩
  · rw [hcs]
    exact BitVec.setWidth_setWidth_of_le _ (by omega)
  · rw [hss]
    exact BitVec.setWidth_setWidth_of_le _ (by omega)

/-! ## Single instructions -/

section Exec

variable (world : World F)

theorem OnStack.exec_push (r : Reg) (h : OnStack top m ws) (hroom : 8 * ws.length + 8 ≤ top) :
    OnStack top (exec world m (.push r)) (m.reg r :: ws) :=
  OnStack.push (m := { m with rip := m.rip + 1 }) (h.of_eq rfl rfl) hroom

theorem exec_push_rsp : (exec world m (.push r)).reg .rsp = m.reg .rsp - 8#64 :=
  push_rsp (m := { m with rip := m.rip + 1 })

theorem exec_push_reg_of_ne {r r' : Reg} (h : r' ≠ .rsp) :
    (exec world m (.push r)).reg r' = m.reg r' :=
  push_reg_of_ne (m := { m with rip := m.rip + 1 }) h

theorem OnStack.exec_pop (r : Reg) (h : OnStack top m (w :: ws)) (hr : r ≠ .rsp) :
    OnStack top (exec world m (.pop r)) ws := by
  have hdrop := OnStack.drop (m := { m with rip := m.rip + 1 }) (h.of_eq rfl rfl)
  exact hdrop.of_eq (set_reg_of_ne hr.symm) rfl

theorem exec_pop_reg (h : OnStack top m (w :: ws)) : (exec world m (.pop r)).reg r = w := by
  have htop := OnStack.top_eq (m := { m with rip := m.rip + 1 }) (h.of_eq rfl rfl)
  have hset : (exec world m (.pop r)).reg r = ({ m with rip := m.rip + 1 } : Machine).top := set_reg_same
  rw [hset, htop]

theorem exec_pop_reg_of_ne {r' : Reg} (h : r' ≠ .rsp) (hr : r' ≠ r) :
    (exec world m (.pop r)).reg r' = m.reg r' := by
  have hset : (exec world m (.pop r)).reg r' = ({ m with rip := m.rip + 1 } : Machine).drop.reg r' :=
    set_reg_of_ne hr
  rw [hset]
  exact set_reg_of_ne h

theorem OnStack.exec_add (us : List (BitVec 64)) (v : BitVec 64)
    (h : OnStack top m (us ++ ws)) (hv : v.toNat = 8 * us.length) :
    OnStack top (exec world m (.addRsp v)) ws :=
  OnStack.skip (m := { m with rip := m.rip + 1 }) us (h.of_eq rfl rfl) hv

theorem OnStack.exec_cld (h : OnStack top m ws) : OnStack top (exec world m .cld) ws := h.of_eq rfl rfl

theorem OnStack.exec_std (h : OnStack top m ws) : OnStack top (exec world m .std) ws := h.of_eq rfl rfl

theorem OnStack.exec_mov (d s : Reg) (h : OnStack top m ws) (hd : d ≠ .rsp) :
    OnStack top (exec world m (.mov d s)) ws :=
  h.of_eq (set_reg_of_ne hd.symm) rfl

theorem OnStack.exec_inAl (p : BitVec 16) (h : OnStack top m ws) :
    OnStack top (exec world m (.inAl p)) ws := h.of_eq (set_reg_of_ne (by decide)) rfl

theorem OnStack.exec_movAl (b : BitVec 8) (h : OnStack top m ws) :
    OnStack top (exec world m (.movAl b)) ws := h.of_eq (set_reg_of_ne (by decide)) rfl

theorem OnStack.exec_outAl (p : BitVec 16) (h : OnStack top m ws) :
    OnStack top (exec world m (.outAl p)) ws := h.of_eq rfl rfl

theorem exec_mov_reg_of_ne {d s r' : Reg} (h : r' ≠ d) :
    (exec world m (.mov d s)).reg r' = m.reg r' := set_reg_of_ne h

/-- A call leaves what lies above its home area. -/
theorem OnStack.exec_call {g : F} (home : List (BitVec 64)) (h : OnStack top m (home ++ ws))
    (hroom : 8 * (home ++ ws).length + 8 ≤ top) (hk : Keeps (8 * home.length) top (world.callee g)) :
    ∃ home', home'.length = home.length ∧ OnStack top (exec world m (.call g)) (home' ++ ws) :=
  OnStack.call (m := { m with rip := m.rip + 1 }) home (h.of_eq rfl rfl) hroom hk

/-- A call with nothing in its home area. -/
theorem OnStack.exec_call_nil {g : F} (h : OnStack top m ws) (hroom : 8 * ws.length + 8 ≤ top)
    (hk : Keeps 0 top (world.callee g)) : OnStack top (exec world m (.call g)) ws := by
  obtain ⟨home', hlen, hstack⟩ := OnStack.exec_call world [] h hroom hk
  rw [List.length_nil] at hlen
  rwa [List.eq_nil_of_length_eq_zero hlen] at hstack

theorem exec_ret_rip (h : OnStack top m (w :: ws)) : (exec world m .ret).rip = w :=
  OnStack.top_eq (m := { m with rip := m.rip + 1 }) (h.of_eq rfl rfl)

theorem exec_ret_reg :
    (exec world m .ret).reg = Function.update m.reg .rsp (m.reg .rsp + 8#64) := rfl

theorem exec_ret_rsp : (exec world m .ret).reg .rsp = m.reg .rsp + 8#64 := by
  rw [exec_ret_reg, Function.update_self]

theorem exec_ret_reg_of_ne (h : r ≠ .rsp) : (exec world m .ret).reg r = m.reg r := by
  rw [exec_ret_reg, Function.update_of_ne h]

theorem exec_pop_rsp (hr : r ≠ .rsp) : (exec world m (.pop r)).reg .rsp = m.reg .rsp + 8#64 := by
  have hset : (exec world m (.pop r)).reg .rsp = ({ m with rip := m.rip + 1 } : Machine).drop.reg .rsp :=
    set_reg_of_ne hr.symm
  rw [hset, drop_rsp]

theorem exec_mov_reg {d s : Reg} : (exec world m (.mov d s)).reg d = m.reg s := set_reg_same

end Exec

/-! ## What a handler starts with -/

section Delivery

variable {stackOf : Nat → BitVec 64} {gate : Gate} {e : Option (BitVec 64)}

theorem toNat_frameTop : (frameTop v).toNat = v.toNat - v.toNat % 16 := by
  rw [frameTop, BitVec.toNat_and]
  exact BitMask.and_high (n := 4) (k := 60) v.isLt

theorem pushAll_reg_of_ne (h : r ≠ .rsp) : (m.pushAll ws).reg r = m.reg r := by
  induction ws with
  | nil => rfl
  | cons w ws ih => rw [Machine.pushAll, push_reg_of_ne h, ih]

theorem toNat_pushAll_rsp (hroom : 8 * us.length ≤ (m.reg .rsp).toNat) :
    ((m.pushAll us).reg .rsp).toNat = (m.reg .rsp).toNat - 8 * us.length := by
  induction us with
  | nil => rfl
  | cons u us ih =>
      rw [List.length_cons] at hroom
      have hus := ih (by omega)
      rw [Machine.pushAll, push_rsp, toNat_sub_eight (by omega), hus, List.length_cons]
      omega

theorem OnStack.pushAll (us : List (BitVec 64)) (h : OnStack top m ws) (hroom : 8 * (us ++ ws).length ≤ top) :
    OnStack top (m.pushAll us) (us ++ ws) := by
  induction us with
  | nil => exact h
  | cons u us ih =>
      rw [List.cons_append, List.length_cons] at hroom
      exact (ih (by omega)).push (by omega)

/-- Memory outside the pushed words is as it was. -/
theorem onlyAt_pushAll (hroom : 8 * us.length ≤ (m.reg .rsp).toNat) :
    OnlyAt m.mem (m.pushAll us).mem ((m.reg .rsp).toNat - 8 * us.length) (8 * us.length) := by
  induction us with
  | nil => exact .refl
  | cons u us ih =>
      rw [List.length_cons] at hroom ⊢
      intro x hx
      rw [Machine.pushAll, push_mem, toNat_sub_eight (by rw [toNat_pushAll_rsp] <;> omega),
        toNat_pushAll_rsp (by omega), putLE_apply_of_notMem (by omega)]
      exact ih (by omega) x (by omega)

theorem length_frameOf (e : Option (BitVec 64)) (m : Machine) : (e.toList ++ frameOf m).length ≤ 6 := by
  cases e <;> simp [frameOf]

/-- The frame is on the stack of the handler. -/
theorem onStack_deliver (hroom : 64 ≤ (handlerStack stackOf gate m).toNat) :
    OnStack (frameTop (handlerStack stackOf gate m)).toNat (deliver stackOf gate e m)
      (e.toList ++ frameOf m) := by
  have hlen := length_frameOf e m
  have hnil := onStack_nil (m := m.set .rsp (frameTop (handlerStack stackOf gate m)))
  have hpushed := OnStack.pushAll (e.toList ++ frameOf m) hnil (by
    rw [set_reg_same, toNat_frameTop, List.append_nil]
    omega)
  rw [List.append_nil, set_reg_same] at hpushed
  exact hpushed.of_eq rfl rfl

theorem deliver_reg_of_ne (h : r ≠ .rsp) : (deliver stackOf gate e m).reg r = m.reg r := by
  have hrfl : (deliver stackOf gate e m).reg r =
      ((m.set .rsp (frameTop (handlerStack stackOf gate m))).pushAll (e.toList ++ frameOf m)).reg r := rfl
  rw [hrfl, pushAll_reg_of_ne h, set_reg_of_ne h]

/-- Delivery writes the frame only. -/
theorem onlyAt_deliver (hroom : 64 ≤ (handlerStack stackOf gate m).toNat) :
    OnlyAt m.mem (deliver stackOf gate e m).mem
      ((frameTop (handlerStack stackOf gate m)).toNat - 48) 48 := by
  have hlen := length_frameOf e m
  intro x hx
  have hroom' : 8 * (e.toList ++ frameOf m).length ≤
      ((m.set .rsp (frameTop (handlerStack stackOf gate m))).reg .rsp).toNat := by
    rw [set_reg_same, toNat_frameTop]
    omega
  have honly := onlyAt_pushAll hroom'
  rw [set_reg_same] at honly hroom'
  exact honly x (by omega)

end Delivery

/-! ## Descriptor tables in memory -/

/-- The register of a descriptor table. -/
structure TableRegister where
  limit : Nat
  base : Nat

/-- The gate in the 16 bytes at `a`. -/
def gateAt (mem : Store) (a : Nat) : Gate where
  offset := BitVec.ofNat 64 (getLE mem a 2 + 2 ^ 16 * getLE mem (a + 6) 2 + 2 ^ 32 * getLE mem (a + 8) 4)
  selector := BitVec.ofNat 16 (getLE mem (a + 2) 2)
  ist := getLE mem (a + 4) 1 % 8
  dpl := getLE mem (a + 5) 1 / 32 % 4
  masks := getLE mem (a + 5) 1 % 16 = 0xE

/-- The gate of a vector, if there is one: it is present, and for interrupts or for traps. -/
def readGate (idtr : TableRegister) (mem : Store) (v : Nat) : Option Gate :=
  let kind := getLE mem (idtr.base + 16 * v + 5) 1
  if 16 * v + 15 ≤ idtr.limit ∧ 128 ≤ kind ∧ (kind % 16 = 0xE ∨ kind % 16 = 0xF) then
    some (gateAt mem (idtr.base + 16 * v))
  else none

/-- The stacks of a task state segment: that of ring 0, and those a gate can choose. -/
def taskStack (mem : Store) (tss n : Nat) : BitVec 64 :=
  BitVec.ofNat 64 (if n = 0 then getLE mem (tss + 4) 8 else getLE mem (tss + 28 + 8 * n) 8)

theorem taskStack_zero {mem : Store} {tss : Nat} :
    taskStack mem tss 0 = BitVec.ofNat 64 (getLE mem (tss + 4) 8) := rfl

end Amd64
