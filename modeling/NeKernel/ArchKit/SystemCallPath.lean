import NeKernel.ArchKit.SystemCalls
import NeKernel.HALKit.DescriptorTables

/-!
# The way of a system call

A program calls `nesys_syscall_arg_n`, and the call goes through every part of the kernel that an
interrupt does:

    nesys_syscall_arg_n ──int 0x32──▶ gate ──▶ __NE_INT_50 ──▶ hal_system_call_enter ──▶ procedure
            ▲                                                                              │
            └──────────────────────────────── iret, with the result in rax ◀───────────────┘

The gate is the one `IDTLoader::Load` has written, the stack is the one `hal_init_platform` has put into
the task state, and the table of calls is what the `ke_install_syscall`s have made of it
(`syscall_returns`).
-/

namespace NeKernel.ArchKit

open Amd64 ByteStore HALKit
open NeFS (CString)

/-! ## The program's side -/

/-- `nesys_syscall_arg_1`. -/
def nesysSyscallArg1 : Code :=
  [.push .rbp, .mov .rbp .rsp, .mov .r8 .rcx, .int 0x32, .pop .rbp, .ret]

/-- `nesys_syscall_arg_2`. -/
def nesysSyscallArg2 : Code :=
  [.push .rbp, .mov .rbp .rsp, .mov .r9 .rdx, .mov .r8 .rcx, .int 0x32, .pop .rbp, .ret]

/-- `nesys_syscall_arg_3`. -/
def nesysSyscallArg3 : Code :=
  [.push .rbp, .mov .rbp .rsp, .mov .r10 .r8, .mov .r9 .rdx, .mov .r8 .rcx, .int 0x32, .pop .rbp, .ret]

/-- `nesys_syscall_arg_4`. -/
def nesysSyscallArg4 : Code :=
  [.push .rbp, .mov .rbp .rsp, .mov .r11 .r9, .mov .r10 .r8, .mov .r9 .rdx, .mov .r8 .rcx, .int 0x32,
    .pop .rbp, .ret]

/-! ## The trap -/

/-- What the processor is set up with: the gates, the stacks of the task state, and the code that is at
an address. -/
structure Traps where
  gates : Nat → Option Gate
  stackOf : Nat → BitVec 64
  codeAt : BitVec 64 → Code

/-- A general protection fault at the instruction before. -/
def Traps.protectionFault (traps : Traps) (world : World Handler) (err : Nat) (m : Machine) : Machine :=
  match traps.gates 13 with
  | some gate => run world (deliver traps.stackOf gate (some (BitVec.ofNat 64 err))
      { m with rip := m.rip - 1 }) (traps.codeAt gate.offset)
  | none => m

/-- `int v`. A program may only use a gate of its own privilege level. -/
def Traps.softwareInterrupt (traps : Traps) (world : World Handler) (v : Nat) (m : Machine) : Machine :=
  match traps.gates v with
  | some gate =>
      if gate.dpl < m.cpl then traps.protectionFault world (8 * v + 2) m
      else run world (deliver traps.stackOf gate none m) (traps.codeAt gate.offset)
  | none => traps.protectionFault world (8 * v + 2) m

/-- The program's world: its software interrupts go to the kernel. -/
def Traps.program (traps : Traps) (kernel : World Handler) : World Handler :=
  { kernel with trap := fun v m => traps.softwareInterrupt kernel v.toNat m }

/-- Where the kernel's tables are, and a memory in which the vector table holds the entry points once the
segments have been written. The tables are different objects. -/
structure Platform where
  mem : Store
  ptrIvt : Nat
  table : Nat
  gdt : Nat
  tss : Nat
  stackTop : Nat
  faultStack : Nat
  codeAt : BitVec 64 → Code
  notNull : ptrIvt ≠ 0
  gatesApart : Apart ptrIvt table
  segmentsApart : gdt + 64 ≤ tss ∨ tss + sizeofTss ≤ gdt
  taskApart : table + 4096 ≤ tss ∨ tss + sizeofTss ≤ table
  entries : ∀ v < 256, codeAt (BitVec.ofNat 64
    (getLE (initSegments gdt tss stackTop faultStack mem) (ptrIvt + 8 * v) 8)) = neInt v

/-- The memory when `IDTLoader::Load` starts. -/
def Platform.segments (p : Platform) : Store := initSegments p.gdt p.tss p.stackTop p.faultStack p.mem

/-- The processor after `IDTLoader::Load`. -/
def Platform.traps (p : Platform) : Traps :=
  match idtLoad p.table p.ptrIvt p.segments with
  | some (idtr, mem) => ⟨readGate idtr mem, taskStack mem p.tss, p.codeAt⟩
  | none => ⟨fun _ => none, taskStack p.segments p.tss, p.codeAt⟩

variable {p : Platform} {m : Machine} {kernel : World Handler} {code : Code} {v : Nat}

theorem Platform.traps_eq : p.traps =
    ⟨readGate ⟨InterruptDescriptorAMD64.size * kKernelIdtSize, p.table⟩
        (loadGates p.ptrIvt p.table p.segments kKernelIdtSize),
      taskStack (loadGates p.ptrIvt p.table p.segments kKernelIdtSize) p.tss, p.codeAt⟩ := by
  rw [Platform.traps, idtLoad, if_neg p.notNull]

theorem Platform.gate (hv : v < 256) : p.traps.gates v = some (gateOf p.segments p.ptrIvt v) := by
  rw [traps_eq]
  exact (readGate_loadGates p.gatesApart).trans (if_pos hv)

/-- The gates are not in the way of the task state. -/
theorem Platform.stack : p.traps.stackOf 0 = BitVec.ofNat 64 p.stackTop := by
  have hword : getLE (loadGates p.ptrIvt p.table p.segments kKernelIdtSize) (p.tss + 4) 8 =
      getLE p.segments (p.tss + 4) 8 := by
    have hapart := p.taskApart
    rw [sizeofTss] at hapart
    apply onlyAt_loadGates.getLE_eq
    rw [kKernelIdtSize]
    omega
  have hring0 : taskStack p.segments p.tss 0 = BitVec.ofNat 64 p.stackTop :=
    task_ring0 p.mem p.segmentsApart
  rw [traps_eq]
  refine Eq.trans ?_ hring0
  show taskStack _ _ 0 = taskStack _ _ 0
  rw [taskStack_zero, taskStack_zero, hword]

/-- A program's `int` through an open gate starts the entry point of the vector. -/
theorem Platform.softwareInterrupt_eq (hv : v < 256) (hopen : v = 0x32 ∨ v = 0x33 ∨ m.cpl = 0) :
    p.traps.softwareInterrupt kernel v m =
      run kernel (deliver p.traps.stackOf (gateOf p.segments p.ptrIvt v) none m) (neInt v) := by
  have hdpl : ¬ (gateOf p.segments p.ptrIvt v).dpl < m.cpl := by
    have hcpl : m.cpl < 4 := Nat.mod_lt _ (by decide)
    rw [gateOf_dpl]
    split <;> omega
  have hcode : p.traps.codeAt (gateOf p.segments p.ptrIvt v).offset = neInt v := by
    rw [traps_eq]
    exact p.entries v hv
  rw [Traps.softwareInterrupt, gate hv]
  simp only [if_neg hdpl, hcode]

/-- What the moves of a stub do: the number of the call and its argument go where the kernel expects
them, and only the registers of arguments change. -/
structure Passes (moves : Code) : Prop where
  hash (world : World Handler) (m : Machine) : (run world m moves).reg .r8 = m.reg .rcx
  arg (world : World Handler) (m : Machine) : (run world m moves).reg .r9 = m.reg .rdx
  others (world : World Handler) (m : Machine) (r : Reg) (h : r ∉ [.r8, .r9, .r10, .r11]) :
    (run world m moves).reg r = m.reg r
  mem (world : World Handler) (m : Machine) : (run world m moves).mem = m.mem
  cs (world : World Handler) (m : Machine) : (run world m moves).cs = m.cs
  ss (world : World Handler) (m : Machine) : (run world m moves).ss = m.ss
  rflags (world : World Handler) (m : Machine) : (run world m moves).rflags = m.rflags

/-- A stub with some moves. -/
def stubOf (moves : Code) : Code :=
  [.push .rbp, .mov .rbp .rsp] ++ (moves ++ [.int 0x32, .pop .rbp, .ret])

/-- The moves from the last argument down overwrite nothing that is still needed. -/
theorem passes_moves : Passes [.mov .r9 .rdx, .mov .r8 .rcx] ∧
    Passes [.mov .r10 .r8, .mov .r9 .rdx, .mov .r8 .rcx] ∧
    Passes [.mov .r11 .r9, .mov .r10 .r8, .mov .r9 .rdx, .mov .r8 .rcx] := by
  refine ⟨?_, ?_, ?_⟩
  all_goals
    constructor
    · intro _ _; rfl
    · intro _ _; rfl
    · intro world m r h
      simp only [List.mem_cons, List.not_mem_nil, or_false, not_or] at h
      cases r <;> first | rfl | simp at h
    · intro _ _; rfl
    · intro _ _; rfl
    · intro _ _; rfl
    · intro _ _; rfl

/-! ## There and back -/

/-- The machine of a program at `int 0x32`, and at the instruction behind it. -/
def atTrap (world : World Handler) (moves : Code) (m : Machine) : Machine :=
  let m' := run world m ([.push .rbp, .mov .rbp .rsp] ++ moves)
  { m' with rip := m'.rip + 1 }

section Return

variable {moves : Code} {world : World Handler}

theorem run_append (code code' : Code) : run world m (code ++ code') = run world (run world m code) code' :=
  List.foldl_append ..

/-- What the stub has done up to the trap. -/
theorem atTrap_reg (hp : Passes moves) {r : Reg} (h : r ∉ [.rsp, .rbp, .r8, .r9, .r10, .r11]) :
    (atTrap world moves m).reg r = m.reg r := by
  simp only [List.mem_cons, List.not_mem_nil, or_false, not_or] at h
  show (run world m ([.push .rbp, .mov .rbp .rsp] ++ moves)).reg r = m.reg r
  rw [run_append, hp.others _ _ _ (by simp [h.2.2])]
  exact (exec_mov_reg_of_ne world h.2.1).trans (exec_push_reg_of_ne world h.1)

theorem atTrap_rsp (hp : Passes moves) : (atTrap world moves m).reg .rsp = m.reg .rsp - 8#64 := by
  show (run world m ([.push .rbp, .mov .rbp .rsp] ++ moves)).reg .rsp = _
  rw [run_append, hp.others _ _ _ (by decide)]
  exact (exec_mov_reg_of_ne world (by decide)).trans (exec_push_rsp world)

theorem atTrap_mem (hp : Passes moves) :
    (atTrap world moves m).mem = putLE m.mem (m.reg .rsp - 8#64).toNat 8 (m.reg .rbp).toNat := by
  show (run world m ([.push .rbp, .mov .rbp .rsp] ++ moves)).mem = _
  rw [run_append, hp.mem]
  rfl

theorem atTrap_hash (hp : Passes moves) : (atTrap world moves m).reg .r8 = m.reg .rcx := by
  show (run world m ([.push .rbp, .mov .rbp .rsp] ++ moves)).reg .r8 = _
  rw [run_append, hp.hash]
  rfl

theorem atTrap_arg (hp : Passes moves) : (atTrap world moves m).reg .r9 = m.reg .rdx := by
  show (run world m ([.push .rbp, .mov .rbp .rsp] ++ moves)).reg .r9 = _
  rw [run_append, hp.arg]
  rfl

/-- The saved register and the return address are on the program's stack. -/
theorem atTrap_stack (hp : Passes moves) {ret : BitVec 64} {top : Nat} (h : OnStack top m [ret])
    (hroom : 16 ≤ top) : OnStack top (atTrap world moves m) [m.reg .rbp, ret] := by
  have hpushed := h.push (v := m.reg .rbp) (by rw [List.length_singleton]; omega)
  apply hpushed.of_eq
  · rw [atTrap_rsp hp, push_rsp]
  · rw [atTrap_mem hp, push_mem]

theorem atTrap_cs (hp : Passes moves) : (atTrap world moves m).cs = m.cs := by
  show (run world m ([.push .rbp, .mov .rbp .rsp] ++ moves)).cs = _
  rw [run_append, hp.cs]
  rfl

theorem atTrap_ss (hp : Passes moves) : (atTrap world moves m).ss = m.ss := by
  show (run world m ([.push .rbp, .mov .rbp .rsp] ++ moves)).ss = _
  rw [run_append, hp.ss]
  rfl

theorem atTrap_rflags (hp : Passes moves) : (atTrap world moves m).rflags = m.rflags := by
  show (run world m ([.push .rbp, .mov .rbp .rsp] ++ moves)).rflags = _
  rw [run_append, hp.rflags]
  rfl

/-- What the kernel's C code does for a system call: it keeps the calling convention and the program's
stack, and returns the result of the procedure it finds, or null. -/
structure Serves {Proc : Type*} (result : Proc → BitVec 64 → BitVec 64) (kCurrentUser : Option Nat)
    (table : SysCalls Proc) (top stack : Nat) (f : Machine → Machine) : Prop where
  keeps : Keeps 32 top f
  result (m : Machine) : (f m).reg .rax =
    (halSystemCallEnter kCurrentUser table (m.reg .rcx) (m.reg .rdx)).elim 0 fun call =>
      result call.proc call.arg
  program (m : Machine) : AgreeOn m.mem (f m).mem stack 16

/-- The program's machine behind the trap. -/
structure Returned (m m' : Machine) (rax : BitVec 64) : Prop where
  resumed : Resumed m m'
  rax : m'.reg .rax = rax
  saved : ∀ r ∈ nonvolatile, m'.reg r = m.reg r

variable {Proc : Type*} {result : Proc → BitVec 64 → BitVec 64} {kCurrentUser : Option Nat}
  {table : SysCalls Proc} {stack : Nat}

/-- A trap from a program is taken on the stack of ring 0. -/
theorem trap_stack (hcpl : m.cpl = 3) :
    handlerStack p.traps.stackOf (gateOf p.segments p.ptrIvt 0x32) m = BitVec.ofNat 64 p.stackTop := by
  have hist : ¬ (gateOf p.segments p.ptrIvt 0x32).ist ≠ 0 := fun h => h rfl
  rw [handlerStack, if_neg hist, if_pos (by omega), Platform.stack]

/-- The kernel's side of the call. -/
theorem trap_returns (hcpl : m.cpl = 3) (htop : 256 ≤ p.stackTop) (hbound : p.stackTop < 2 ^ 64)
    (hserves : Serves result kCurrentUser table (frameTop (BitVec.ofNat 64 p.stackTop)).toNat stack
      (kernel.callee .halSystemCallEnter))
    (hapart : stack + 16 ≤ p.stackTop - 256 ∨ p.stackTop ≤ stack) :
    Returned m (p.traps.softwareInterrupt kernel 0x32 m)
        ((halSystemCallEnter kCurrentUser table (m.reg .r8) (m.reg .r9)).elim 0 fun call =>
          result call.proc call.arg) ∧
      AgreeOn m.mem (p.traps.softwareInterrupt kernel 0x32 m).mem stack 16 := by
  have hword : (BitVec.ofNat 64 p.stackTop).toNat = p.stackTop := by
    rw [BitVec.toNat_ofNat, Nat.mod_eq_of_lt hbound]
  have hframe := toNat_frameTop (v := BitVec.ofNat 64 p.stackTop)
  rw [hword] at hframe
  have hroom : 256 ≤ (handlerStack p.traps.stackOf (gateOf p.segments p.ptrIvt 0x32) m).toNat := by
    rw [trap_stack hcpl, hword]
    exact htop
  have hdeliver := onStack_plain hroom
  have honly := onlyAt_deliver (e := none) (Nat.le_trans (by decide : 64 ≤ 256) hroom)
  rw [trap_stack hcpl] at hdeliver honly
  have htrapped := trapStub_spec hdeliver (by omega) hserves.keeps
  have hentry := onlyAt_trapEntry kernel hdeliver (by omega)
  rw [Platform.softwareInterrupt_eq (by decide) (.inl rfl)]
  refine ⟨⟨htrapped.resumed, ?_, fun r hr => ?_⟩, ?_⟩
  · refine htrapped.result.trans ?_
    rw [hserves.result, htrapped.hash, htrapped.arg, deliver_reg_of_ne (by decide), deliver_reg_of_ne (by decide)]
  · refine (htrapped.saved r hr).trans (deliver_reg_of_ne ?_)
    rintro rfl
    exact absurd hr (by decide)
  · refine ((honly.agreeOn (by omega)).symm.trans ((hentry.agreeOn (by omega)).symm.trans ?_)).trans
      (fun x _ _ => (congrFun htrapped.mem x).symm)
    exact hserves.program _

theorem run_stub : run (p.traps.program kernel) m (stubOf moves) =
    run (p.traps.program kernel)
      (p.traps.softwareInterrupt kernel 0x32 (atTrap (p.traps.program kernel) moves m)) [.pop .rbp, .ret] := by
  rw [stubOf, ← List.append_assoc, run_append]
  rfl

/-- The two instructions behind the trap. -/
theorem run_epilogue (world : World Handler) {m₀ m₁ : Machine} {ret : BitVec 64} {top : Nat}
    (h : OnStack top m₁ [m₀.reg .rbp, ret]) (hsaved : ∀ r ∈ nonvolatile, r ≠ .rbp → m₁.reg r = m₀.reg r) :
    let m' := run world m₁ [.pop .rbp, .ret]
    m'.rip = ret ∧ m'.reg .rsp = m₁.reg .rsp + 16#64 ∧ (∀ r ∈ nonvolatile, m'.reg r = m₀.reg r) ∧
      m'.reg .rax = m₁.reg .rax := by
  have hpopped := h.exec_pop world .rbp (by decide)
  rw [run_cons, run_cons, run_nil]
  refine ⟨exec_ret_rip world hpopped, ?_, fun r hr => ?_, ?_⟩
  · rw [exec_ret_rsp, exec_pop_rsp world (by decide), BitVec.add_assoc]
    rfl
  · have hrsp : r ≠ .rsp := by
      rintro rfl
      exact absurd hr (by decide)
    rw [exec_ret_reg_of_ne world hrsp]
    by_cases hrbp : r = .rbp
    · rw [hrbp]
      exact exec_pop_reg world h
    · rw [exec_pop_reg_of_ne world hrsp hrbp, hsaved r hr hrbp]
  · rw [exec_ret_reg_of_ne world (by decide), exec_pop_reg_of_ne world (by decide) (by decide)]

theorem onStack_ret (hend : (m.reg .rsp).toNat + 8 < 2 ^ 64) :
    OnStack ((m.reg .rsp).toNat + 8) m [m.top] := by
  constructor
  · exact hend
  · rfl
  · refine ⟨?_, trivial⟩
    rw [Machine.top, Machine.load, BitVec.toNat_ofNat, Nat.mod_eq_of_lt]
    exact getLE_lt

theorem sub_eight_add (w : BitVec 64) : w - 8#64 + 16#64 = w + 8#64 := by
  bv_omega

/-- The whole stub. -/
theorem stub_returns (hp : Passes moves) (hcpl : m.cpl = 3) (htop : 256 ≤ p.stackTop)
    (hbound : p.stackTop < 2 ^ 64) (hroom : 8 ≤ (m.reg .rsp).toNat) (hend : (m.reg .rsp).toNat + 8 < 2 ^ 64)
    (hserves : Serves result kCurrentUser table (frameTop (BitVec.ofNat 64 p.stackTop)).toNat
      ((m.reg .rsp).toNat - 8) (kernel.callee .halSystemCallEnter))
    (hapart : (m.reg .rsp).toNat + 8 ≤ p.stackTop - 256 ∨ p.stackTop + 8 ≤ (m.reg .rsp).toNat) :
    let m' := run (p.traps.program kernel) m (stubOf moves)
    m'.rip = m.top ∧ m'.reg .rsp = m.reg .rsp + 8#64 ∧ m'.cs = m.cs ∧ m'.ss = m.ss ∧
      m'.rflags = m.rflags ∧ (∀ r ∈ nonvolatile, m'.reg r = m.reg r) ∧
      m'.reg .rax = (halSystemCallEnter kCurrentUser table (m.reg .rcx) (m.reg .rdx)).elim 0 fun call =>
        result call.proc call.arg := by
  obtain ⟨m₁, hm₁⟩ : ∃ m₁, m₁ = atTrap (p.traps.program kernel) moves m := ⟨_, rfl⟩
  have hcpl₁ : m₁.cpl = 3 := by
    rw [hm₁, Machine.cpl, atTrap_cs hp]
    exact hcpl
  have hsp₁ : m₁.reg .rsp = m.reg .rsp - 8#64 := by rw [hm₁, atTrap_rsp hp]
  have hstack₁ : OnStack ((m.reg .rsp).toNat + 8) m₁ [m.reg .rbp, m.top] := by
    rw [hm₁]
    exact atTrap_stack hp (onStack_ret hend) (by omega)
  obtain ⟨hback, hmem⟩ := trap_returns hcpl₁ htop hbound hserves (by omega)
  have hstack₂ : OnStack ((m.reg .rsp).toNat + 8) (p.traps.softwareInterrupt kernel 0x32 m₁)
      [m.reg .rbp, m.top] := by
    constructor
    · exact hend
    · rw [hback.resumed.rsp]
      exact hstack₁.rsp
    · rw [hback.resumed.rsp]
      apply hstack₁.words.congr
      rw [hsp₁, toNat_sub_eight hroom]
      exact hmem
  have hsaved : ∀ r ∈ nonvolatile, r ≠ .rbp →
      (p.traps.softwareInterrupt kernel 0x32 m₁).reg r = m.reg r := by
    intro r hr hrbp
    rw [hback.saved r hr, hm₁]
    apply atTrap_reg hp
    simp only [nonvolatile, List.mem_cons, List.not_mem_nil, or_false] at hr ⊢
    rcases hr with rfl | rfl | rfl | rfl | rfl | rfl | rfl | rfl <;> simp at hrbp ⊢
  obtain ⟨hrip, hrsp, hsaved', hrax⟩ := run_epilogue (p.traps.program kernel) hstack₂ hsaved
  rw [run_stub, ← hm₁]
  refine ⟨hrip, ?_, ?_, ?_, ?_, hsaved', ?_⟩
  · rw [hrsp, hback.resumed.rsp, hsp₁, sub_eight_add]
  · exact hback.resumed.cs.trans (by rw [hm₁, atTrap_cs hp])
  · exact hback.resumed.ss.trans (by rw [hm₁, atTrap_ss hp])
  · exact hback.resumed.rflags.trans (by rw [hm₁, atTrap_rflags hp])
  · rw [hrax, hback.rax, hm₁, atTrap_hash hp, atTrap_arg hp]

end Return

/-- **A system call comes back with its result.** Calls with distinct hashes are installed, and a program
calls one of those that have a slot through a stub that passes its hash and an argument. The procedure
of that name is run on the argument, and the program goes on behind its call with the result, with its
stack, its flags and the registers it may rely on as they were. -/
theorem syscall_returns {Proc : Type*} (calls : List (CString × Proc)) (user : Nat)
    (result : Proc → BitVec 64 → BitVec 64) (p : Platform) (kernel : World Handler) (m : Machine)
    (code : Code) (call : CString × Proc)
    (hhash : ∀ c ∈ calls, keHash64 (some c.1) ≠ 0)
    (hdistinct : calls.Pairwise fun a b => keHash64 (some a.1) ≠ keHash64 (some b.1))
    (hcall : call ∈ calls.take kMaxDispatchCallCount)
    (hcode : code ∈ [nesysSyscallArg2, nesysSyscallArg3, nesysSyscallArg4])
    (hname : m.reg .rcx = nesysHash64 (some call.1)) (hcpl : m.cpl = 3)
    (htop : 256 ≤ p.stackTop) (hbound : p.stackTop < 2 ^ 64)
    (hroom : 8 ≤ (m.reg .rsp).toNat) (hend : (m.reg .rsp).toNat + 8 < 2 ^ 64)
    (hapart : (m.reg .rsp).toNat + 8 ≤ p.stackTop - 256 ∨ p.stackTop + 8 ≤ (m.reg .rsp).toNat)
    (hserves : Serves result (some user) (installSyscalls calls .free).2
      (frameTop (BitVec.ofNat 64 p.stackTop)).toNat ((m.reg .rsp).toNat - 8)
      (kernel.callee .halSystemCallEnter)) :
    let m' := run (p.traps.program kernel) m code
    m'.rip = m.top ∧ m'.reg .rsp = m.reg .rsp + 8#64 ∧ m'.cs = m.cs ∧ m'.ss = m.ss ∧
      m'.rflags = m.rflags ∧ (∀ r ∈ nonvolatile, m'.reg r = m.reg r) ∧
      m'.reg .rax = result call.2 (m.reg .rdx) := by
  obtain ⟨-, hholds⟩ := holds_free.installAll hhash
  rw [List.length_nil, Nat.sub_zero, List.nil_append] at hholds
  have hfound : halSystemCallEnter (some user) (installSyscalls calls .free).2 (m.reg .rcx) (m.reg .rdx) =
      some ⟨call.2, m.reg .rdx⟩ := by
    rw [hholds.enter, hname, nesysHash64_eq, find_hash hcall (hdistinct.sublist (List.take_sublist _ _)),
      Option.map_some]
  obtain ⟨h₂, h₃, h₄⟩ := passes_moves
  have hstub : ∃ moves, Passes moves ∧ code = stubOf moves := by
    simp only [List.mem_cons, List.not_mem_nil, or_false] at hcode
    rcases hcode with rfl | rfl | rfl
    · exact ⟨_, h₂, rfl⟩
    · exact ⟨_, h₃, rfl⟩
    · exact ⟨_, h₄, rfl⟩
  obtain ⟨moves, hp, rfl⟩ := hstub
  have hreturned := stub_returns hp hcpl htop hbound hroom hend hserves hapart
  rw [hfound] at hreturned
  exact hreturned

/-! ## One call -/

/-- A memory in which the entry point of vector `v` is at `0x400000 + v`. -/
def vectorTable : Store := putWords zeros 0x1000 8 (fun v => 0x400000 + v) 256

/-- Where the vectors are, where the gates go, and where the processor's own tables are. -/
theorem vectorTable_apart : Apart 0x1000 0x3000 ∧ 0x5000 + 64 ≤ 0x6000 ∧ 0x3000 + 4096 ≤ 0x6000 :=
  ⟨.inl (by decide), by decide, by decide⟩

theorem vectorTable_entries : ∀ v < 256, neInt ((BitVec.ofNat 64
    (getLE (initSegments 0x5000 0x6000 0x90000 0x70000 vectorTable) (0x1000 + 8 * v) 8)).toNat - 0x400000) =
      neInt v := by
  intro v hv
  have hsegments : OnlyAt vectorTable (initSegments 0x5000 0x6000 0x90000 0x70000 vectorTable) 0x5000
      0x2000 := by
    intro x hx
    rw [initSegments, onlyAt_writeFields gdtFields_inside x (by omega),
      onlyAt_writeFields tssFields_inside x (by rw [sizeofTss]; omega), fill,
      blit_apply_of_notMem (by rw [sizeofTss]; omega)]
  have hentry : (0x400000 + v) % 256 ^ 8 % 2 ^ 64 - 0x400000 = v := by omega
  rw [hsegments.getLE_eq (by omega), vectorTable, getLE_putWords hv, BitVec.toNat_ofNat, hentry]

def onePlatform : Platform where
  mem := vectorTable
  ptrIvt := 0x1000
  table := 0x3000
  gdt := 0x5000
  tss := 0x6000
  stackTop := 0x90000
  faultStack := 0x70000
  codeAt a := neInt (a.toNat - 0x400000)
  notNull := Nat.succ_ne_zero _
  gatesApart := vectorTable_apart.1
  segmentsApart := .inl vectorTable_apart.2.1
  taskApart := .inl vectorTable_apart.2.2
  entries := vectorTable_entries

/-- `ke_ping`. -/
def kePing : CString := ⟨[107, 101, 95, 112, 105, 110, 103], by simp⟩

/-- The only call, with a procedure that adds one. -/
def pingTable : SysCalls Unit := (installSyscalls [(kePing, ())] .free).2

/-- The kernel's C code for it. -/
def servePing (m : Machine) : Machine :=
  (returning m).set .rax ((halSystemCallEnter (some 0) pingTable (m.reg .rcx) (m.reg .rdx)).elim 0
    fun call => call.arg + 1)

theorem serves_ping (top stack : Nat) :
    Serves (fun (_ : Unit) arg => arg + 1) (some 0) pingTable top stack servePing where
  keeps := {
    rip := fun _ => rfl
    rsp := fun m => (set_reg_of_ne (by decide)).trans ((keeps_returning top).rsp m)
    saved := fun m r hr => by
      refine (set_reg_of_ne ?_).trans ((keeps_returning top).saved m r hr)
      rintro rfl
      exact absurd hr (by decide)
    cs := fun _ => rfl
    ss := fun _ => rfl
    mem := fun _ _ _ _ => rfl }
  result _ := set_reg_same
  program _ _ _ _ := rfl

/-- A program about to call `nesys_syscall_arg_2`. -/
def calling : Machine where
  reg
    | .rsp => 0x7000000
    | .rcx => nesysHash64 (some kePing)
    | .rdx => 7
    | _ => 0
  mem := zeros
  rip := 0
  cs := 0x2B
  ss := 0x33
  rflags := 0x202

theorem syscall_returns_ping :
    (run (onePlatform.traps.program (worldOf servePing)) calling nesysSyscallArg2).reg .rax = 8 := by
  have h := syscall_returns [(kePing, ())] 0 (fun (_ : Unit) arg => arg + 1) onePlatform (worldOf servePing)
    calling nesysSyscallArg2 (kePing, ()) (by decide) (by simp) (by simp [kMaxDispatchCallCount])
    (by simp) rfl rfl (by decide) (by decide) (by decide) (by decide) (.inr (by decide)) (serves_ping _ _)
  exact h.2.2.2.2.2.2

end NeKernel.ArchKit
