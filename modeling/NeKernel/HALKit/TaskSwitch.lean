import NeKernel.HALKit.DescriptorTables

/-!
# Switching to a task

A task that does not run is a frame of ten words in memory: where it goes on, its stack, and eight
registers. `sched_jump_to_task` loads the task register, lays a frame for `iret` on the stack, takes the
registers back and leaves the kernel by `iret`:

    frame ──sched_jump_to_task──▶ ltr ──▶ ring 3 at IP, with SP and R8 to R15

Loading the task register marks the task state busy, and a busy one cannot be loaded. Nothing makes it
available again, so there is one switch (`first_switch_only`). A task that is hung keeps its IP in R15 and has
an IP of zero, and with an IP of zero it counts as no task any more (`hung_for_good`).
-/

namespace NeKernel.HALKit

open Amd64 ByteStore

/-! ## Frames -/

namespace StackFrame

def IP : Field := ⟨0x00, 8⟩
def SP : Field := ⟨0x08, 8⟩
def R15 : Field := ⟨0x48, 8⟩

end StackFrame

/-- Set a field of the frame at `a`. -/
def setFrame (mem : Store) (a : Nat) (f : Field) (v : Nat) : Store := putLE mem (a + f.off) f.width v

/-- A field of the frame at `a`. -/
def frameField (mem : Store) (a : Nat) (f : Field) : Nat := getLE mem (a + f.off) f.width

/-- `hal_check_task` of the frame at `stackPtr`. -/
def halCheckTask (mem : Store) (stackPtr : Nat) : Bool :=
  stackPtr ≠ 0 ∧ frameField mem stackPtr StackFrame.SP > 0 ∧ frameField mem stackPtr StackFrame.IP > 0

/-- `mp_wakeup_thread`, up to `StartScheduling`. -/
def mpWakeupThread (stack : Nat) (mem : Store) : Store :=
  if halCheckTask mem stack then setFrame mem stack StackFrame.IP (frameField mem stack StackFrame.R15) else mem

/-- `mp_hang_thread`. -/
def mpHangThread (stack : Nat) (mem : Store) : Store :=
  if halCheckTask mem stack then
    setFrame (setFrame mem stack StackFrame.R15 (frameField mem stack StackFrame.IP)) stack StackFrame.IP 0
  else mem

/-! ## `sched_jump_to_task` -/

/-- Up to the load of the task register. -/
def jumpPrologue : Code := [.push .rbp, .mov .rbp .rsp]

/-- `sched_recover_registers`. -/
def schedRecoverRegisters : Code :=
  [.movLoad .r8 .rcx 0x10, .movLoad .r9 .rcx 0x18, .movLoad .r10 .rcx 0x20, .movLoad .r11 .rcx 0x28,
    .movLoad .r12 .rcx 0x30, .movLoad .r13 .rcx 0x38, .movLoad .r14 .rcx 0x40, .movLoad .r15 .rcx 0x48, .ret]

/-- From there to the call. -/
def layFrame : Code :=
  [.pushImm 0x33, .movLoad .rdx .rcx 0x08, .push .rdx, .pushf, .pushImm 0x2B, .movLoad .rdx .rcx 0x00,
    .push .rdx]

/-- `call sched_recover_registers`. -/
def callRecover (world : World Handler) (m : Machine) : Machine :=
  run world ({ m with rip := m.rip + 1 : Machine }.push (m.rip + 1)) schedRecoverRegisters

/-- `ltr` of the task state at `gdt + 0x18`: it has to be available, and is busy afterwards. -/
def ltr (gdt : Nat) (m : Machine) : Option Machine :=
  if getLE m.mem (gdt + 0x18 + 5) 1 % 32 = 0x09 then
    some { m with rip := m.rip + 1, mem := putLE m.mem (gdt + 0x18 + 5) 1 (getLE m.mem (gdt + 0x18 + 5) 1 + 2) }
  else none

/-- `sched_jump_to_task`. There is none if the task register cannot be loaded. The data segments are left
out. -/
def schedJumpToTask (world : World Handler) (gdt : Nat) (m : Machine) : Option Machine :=
  (ltr gdt (run world m jumpPrologue)).map fun m => iretTo (callRecover world (run world m layFrame))

/-! ## What a switch enters -/

/-- The registers of a frame and where they are in it. -/
def frameRegs : List (Reg × Nat) :=
  [(.r8, 0x10), (.r9, 0x18), (.r10, 0x20), (.r11, 0x28), (.r12, 0x30), (.r13, 0x38), (.r14, 0x40), (.r15, 0x48)]

/-- The word at offset `o` of the frame at `a`. -/
def frameWord (mem : Store) (a o : Nat) : BitVec 64 := BitVec.ofNat 64 (getLE mem (a + o) 8)

/-- The processor runs the task whose frame is at `a`. -/
structure Entered (mem : Store) (a : Nat) (rflags : BitVec 64) (m : Machine) : Prop where
  rip : m.rip = frameWord mem a 0x00
  rsp : m.reg .rsp = frameWord mem a 0x08
  regs : ∀ r o, (r, o) ∈ frameRegs → m.reg r = frameWord mem a o
  cs : m.cs = 0x2B
  ss : m.ss = 0x33
  rflags : m.rflags = rflags

/-- With `k` words on the stack below `top`, the `n` bytes at `b` are as in `mem`. -/
structure Keeping (mem : Store) (b n top : Nat) (m : Machine) (k : Nat) : Prop where
  rsp : (m.reg .rsp).toNat + 8 * k = top
  agree : AgreeOn mem m.mem b n

/-- On the way the frame is not in the way of the stack, and `rcx` points to it. -/
structure Laying (mem : Store) (a top : Nat) (rflags : BitVec 64) (m : Machine) (ws : List (BitVec 64)) :
    Prop where
  stack : OnStack top m ws
  agree : AgreeOn mem m.mem a 80
  rcx : (m.reg .rcx).toNat = a
  rflags : m.rflags = rflags

variable {mem : Store} {a top o : Nat} {rflags v : BitVec 64} {m : Machine} {ws : List (BitVec 64)}
  {world : World Handler} {gdt : Nat}

theorem Keeping.push {b n k : Nat} {v : BitVec 64} (h : Keeping mem b n top m k) (hk : k ≤ 6) (htop : 64 ≤ top)
    (hapart : b + n ≤ top - 64 ∨ top ≤ b) : Keeping mem b n top (m.push v) (k + 1) := by
  have hrsp := h.rsp
  have hsp : (m.reg .rsp - 8#64).toNat = (m.reg .rsp).toNat - 8 := toNat_sub_eight (by omega)
  constructor
  · rw [push_rsp, hsp]
    omega
  · refine h.agree.trans fun x h₁ h₂ => ?_
    rw [push_mem, hsp, putLE_apply_of_notMem (by omega)]

theorem Keeping.of_eq {b n k : Nat} {m' : Machine} (h : Keeping mem b n top m k)
    (hsp : m'.reg .rsp = m.reg .rsp) (hmem : m'.mem = m.mem) : Keeping mem b n top m' k := by
  constructor
  · rw [hsp]
    exact h.rsp
  · rw [hmem]
    exact h.agree

theorem Laying.load (h : Laying mem a top rflags m ws) (ha : a + 80 < 2 ^ 64) (ho : o + 8 ≤ 80) :
    m.load (m.reg .rcx + BitVec.ofNat 64 o) = frameWord mem a o := by
  have haddr : (m.reg .rcx + BitVec.ofNat 64 o).toNat = a + o := by
    rw [BitVec.toNat_add, h.rcx, BitVec.toNat_ofNat, Nat.mod_eq_of_lt (by omega : o < 2 ^ 64),
      Nat.mod_eq_of_lt (by omega)]
  rw [Machine.load, haddr, frameWord, (h.agree.mono (by omega) (by omega)).getLE_eq]

theorem Laying.push (h : Laying mem a top rflags m ws) (hlen : ws.length ≤ 6) (htop : 64 ≤ top)
    (hapart : a + 80 ≤ top - 64 ∨ top ≤ a) : Laying mem a top rflags (m.push v) (v :: ws) where
  stack := h.stack.push (by omega)
  agree := (Keeping.push ⟨h.stack.rsp, h.agree⟩ hlen htop hapart).agree
  rcx := by
    rw [push_reg_of_ne (by decide)]
    exact h.rcx
  rflags := h.rflags

theorem Laying.of_eq {m' : Machine} (h : Laying mem a top rflags m ws) (hsp : m'.reg .rsp = m.reg .rsp)
    (hrcx : m'.reg .rcx = m.reg .rcx) (hmem : m'.mem = m.mem) (hfl : m'.rflags = m.rflags) :
    Laying mem a top rflags m' ws where
  stack := h.stack.of_eq hsp hmem
  agree := by
    rw [hmem]
    exact h.agree
  rcx := by
    rw [hrcx]
    exact h.rcx
  rflags := hfl.trans h.rflags

/-- The instruction pointer does not matter. -/
theorem Laying.next (h : Laying mem a top rflags m ws) :
    Laying mem a top rflags { m with rip := m.rip + 1 } ws := h.of_eq rfl rfl rfl rfl

/-- A word of the frame goes onto the stack by way of `rdx`. -/
theorem Laying.push_word (world : World Handler) (h : Laying mem a top rflags m ws) (ha : a + 80 < 2 ^ 64) (ho : o + 8 ≤ 80)
    (hlen : ws.length ≤ 6) (htop : 64 ≤ top) (hapart : a + 80 ≤ top - 64 ∨ top ≤ a) :
    Laying mem a top rflags (run world m [.movLoad .rdx .rcx (BitVec.ofNat 64 o), .push .rdx])
      (frameWord mem a o :: ws) := by
  have hloaded : Laying mem a top rflags (exec world m (.movLoad .rdx .rcx (BitVec.ofNat 64 o))) ws :=
    h.of_eq (set_reg_of_ne (by decide)) (set_reg_of_ne (by decide)) rfl rfl
  have hrdx : (exec world m (.movLoad .rdx .rcx (BitVec.ofNat 64 o))).reg .rdx = frameWord mem a o :=
    set_reg_same.trans (h.load ha ho)
  rw [← hrdx]
  exact hloaded.next.push (v := (exec world m (.movLoad .rdx .rcx (BitVec.ofNat 64 o))).reg .rdx) hlen htop hapart

theorem Laying.exec_pushImm (world : World Handler) (h : Laying mem a top rflags m ws) (v : BitVec 64) (hlen : ws.length ≤ 6)
    (htop : 64 ≤ top) (hapart : a + 80 ≤ top - 64 ∨ top ≤ a) :
    Laying mem a top rflags (exec world m (.pushImm v)) (v :: ws) :=
  h.next.push hlen htop hapart

theorem Laying.exec_pushf (world : World Handler) (h : Laying mem a top rflags m ws) (hlen : ws.length ≤ 6) (htop : 64 ≤ top)
    (hapart : a + 80 ≤ top - 64 ∨ top ≤ a) : Laying mem a top rflags (exec world m .pushf) (rflags :: ws) := by
  have hpushed := h.next.push (v := m.rflags) hlen htop hapart
  rw [h.rflags] at hpushed
  have hexec : exec world m .pushf = { m with rip := m.rip + 1 : Machine }.push m.rflags := rfl
  rw [hexec, h.rflags]
  exact hpushed

/-- The frame for `iret` holds the task's IP and SP, and the selectors of programs. -/
theorem laying_frame (world : World Handler) (h : Laying mem a top rflags m []) (ha : a + 80 < 2 ^ 64) (htop : 64 ≤ top)
    (hapart : a + 80 ≤ top - 64 ∨ top ≤ a) :
    Laying mem a top rflags (run world m layFrame)
      [frameWord mem a 0x00, 0x2B, rflags, frameWord mem a 0x08, 0x33] := by
  have hss : Laying mem a top rflags _ [0x33] := h.exec_pushImm world 0x33 (by decide) htop hapart
  have hsp := hss.push_word world ha (o := 0x08) (by decide) (by decide) htop hapart
  have hfl := hsp.exec_pushf world (by simp) htop hapart
  have hcs := hfl.exec_pushImm world 0x2B (by simp) htop hapart
  exact hcs.push_word world ha (o := 0x00) (by decide) (by simp) htop hapart

/-- `sched_recover_registers` takes the registers back and leaves the stack. -/
theorem callRecover_spec (world : World Handler) (h : Laying mem a top rflags m ws) (ha : a + 80 < 2 ^ 64) (hlen : ws.length ≤ 6)
    (htop : 64 ≤ top) (hapart : a + 80 ≤ top - 64 ∨ top ≤ a) :
    OnStack top (callRecover world m) ws ∧
      ∀ r o, (r, o) ∈ frameRegs → (callRecover world m).reg r = frameWord mem a o := by
  have hcalled := h.next.push (v := m.rip + 1) hlen htop hapart
  constructor
  · have hdropped := hcalled.stack.drop
    exact hdropped.of_eq rfl rfl
  · intro r o hr
    have hload := hcalled.load (o := o) ha
    simp only [frameRegs, List.mem_cons, List.not_mem_nil, or_false, Prod.mk.injEq] at hr
    rcases hr with ⟨rfl, rfl⟩ | ⟨rfl, rfl⟩ | ⟨rfl, rfl⟩ | ⟨rfl, rfl⟩ | ⟨rfl, rfl⟩ | ⟨rfl, rfl⟩ | ⟨rfl, rfl⟩ | ⟨rfl, rfl⟩
    all_goals exact hload (by decide)

/-- The byte of the task state's descriptor that says whether it is busy. -/
def taskAccess (gdt : Nat) (m : Machine) : Nat := getLE m.mem (gdt + 0x18 + 5) 1

/-- There is room on the stack, and the segments are not in it. -/
structure StackApart (gdt : Nat) (m : Machine) : Prop where
  room : 128 ≤ (m.reg .rsp).toNat
  apart : gdt + 64 ≤ (m.reg .rsp).toNat - 128 ∨ (m.reg .rsp).toNat ≤ gdt

/-- The frame is neither in the stack nor among the segments. -/
structure FrameApart (gdt a : Nat) (m : Machine) : Prop where
  bound : a + 80 < 2 ^ 64
  stack : a + 80 ≤ (m.reg .rsp).toNat - 128 ∨ (m.reg .rsp).toNat ≤ a
  segments : a + 80 ≤ gdt ∨ gdt + 64 ≤ a

theorem jumpPrologue_mem : (run world m jumpPrologue).mem = (m.push (m.reg .rbp)).mem := rfl

theorem jumpPrologue_rsp (world : World Handler) : (run world m jumpPrologue).reg .rsp = m.reg .rsp - 8#64 :=
  (exec_mov_reg_of_ne world (by decide)).trans (exec_push_rsp world)

theorem onlyAt_jumpPrologue (world : World Handler) (hs : 128 ≤ (m.reg .rsp).toNat) :
    OnlyAt m.mem (run world m jumpPrologue).mem ((m.reg .rsp).toNat - 8) 8 := by
  rw [jumpPrologue_mem, push_mem, toNat_sub_eight (by omega)]
  exact .putLE (Nat.le_refl _) (Nat.le_refl _)

theorem taskAccess_jumpPrologue (hs : StackApart gdt m) :
    getLE (run world m jumpPrologue).mem (gdt + 0x18 + 5) 1 = taskAccess gdt m := by
  have hroom := hs.room
  have hapart := hs.apart
  exact (onlyAt_jumpPrologue world hroom).getLE_eq (by omega)

/-- The machine after `ltr`. -/
def loadedTask (world : World Handler) (gdt : Nat) (m : Machine) : Machine :=
  { run world m jumpPrologue with
    rip := (run world m jumpPrologue).rip + 1
    mem := putLE (run world m jumpPrologue).mem (gdt + 0x18 + 5) 1
      (getLE (run world m jumpPrologue).mem (gdt + 0x18 + 5) 1 + 2) }

theorem schedJumpToTask_eq (hs : StackApart gdt m) : schedJumpToTask world gdt m =
    if taskAccess gdt m % 32 = 0x09 then
      some (iretTo (callRecover world (run world (loadedTask world gdt m) layFrame)))
    else none := by
  rw [schedJumpToTask, ltr, taskAccess_jumpPrologue hs]
  split
  · rw [Option.map_some, loadedTask, taskAccess_jumpPrologue hs]
  · rfl

/-- With the task state available a switch runs the task. -/
theorem iretTo_enters (hs : StackApart gdt m) (hf : FrameApart gdt (m.reg .rcx).toNat m) :
    Entered m.mem (m.reg .rcx).toNat m.rflags
      (iretTo (callRecover world (run world (loadedTask world gdt m) layFrame))) := by
  have hroom := hs.room
  have hstack := hf.stack
  have hsegments := hf.segments
  have hsp : ((run world m jumpPrologue).reg .rsp).toNat = (m.reg .rsp).toNat - 8 := by
    rw [jumpPrologue_rsp, toNat_sub_eight (by omega)]
  have hstart : Laying m.mem (m.reg .rcx).toNat ((m.reg .rsp).toNat - 8) m.rflags (loadedTask world gdt m) [] := by
    constructor
    · rw [← hsp]
      exact onStack_nil (m := loadedTask world gdt m)
    · refine AgreeOn.symm (AgreeOn.trans ?_ ((onlyAt_jumpPrologue world hroom).agreeOn (by omega)))
      intro x h₁ h₂
      exact putLE_apply_of_notMem (by omega)
    · rfl
    · rfl
  have hlaid := laying_frame world hstart hf.bound (by omega) (by omega)
  obtain ⟨hframe, hregs⟩ := callRecover_spec world hlaid hf.bound (by simp) (by omega) (by omega)
  obtain ⟨hrip, hcs, hfl, hrsp, hss⟩ := hframe.iret
  constructor
  · exact hrip
  · exact hrsp
  · intro r o hr
    rw [iretTo_reg_of_ne, hregs r o hr]
    rintro rfl
    simp [frameRegs] at hr
  · exact hcs
  · exact hss
  · exact hfl

/-! ## One switch -/

section Keeping

variable {b n k : Nat}

theorem Keeping.next (h : Keeping mem b n top m k) :
    Keeping mem b n top { m with rip := m.rip + 1 } k := h.of_eq rfl rfl

theorem Keeping.exec_pushImm (world : World Handler) (h : Keeping mem b n top m k) (v : BitVec 64)
    (hk : k ≤ 6) (htop : 64 ≤ top) (hapart : b + n ≤ top - 64 ∨ top ≤ b) :
    Keeping mem b n top (exec world m (.pushImm v)) (k + 1) :=
  h.next.push hk htop hapart

theorem Keeping.exec_pushf (world : World Handler) (h : Keeping mem b n top m k) (hk : k ≤ 6)
    (htop : 64 ≤ top) (hapart : b + n ≤ top - 64 ∨ top ≤ b) :
    Keeping mem b n top (exec world m .pushf) (k + 1) :=
  h.next.push (v := m.rflags) hk htop hapart

theorem Keeping.push_word (world : World Handler) (h : Keeping mem b n top m k) (o : BitVec 64)
    (hk : k ≤ 6) (htop : 64 ≤ top) (hapart : b + n ≤ top - 64 ∨ top ≤ b) :
    Keeping mem b n top (run world m [.movLoad .rdx .rcx o, .push .rdx]) (k + 1) := by
  have hloaded : Keeping mem b n top (exec world m (.movLoad .rdx .rcx o)) k :=
    h.of_eq (set_reg_of_ne (by decide)) rfl
  exact hloaded.next.push (v := (exec world m (.movLoad .rdx .rcx o)).reg .rdx) hk htop hapart

theorem callRecover_mem (world : World Handler) (m : Machine) : (iretTo (callRecover world m)).mem =
    ({ m with rip := m.rip + 1 : Machine }.push (m.rip + 1)).mem := rfl

/-- The rest of the switch writes the stack only. -/
theorem Keeping.switch (world : World Handler) (h : Keeping mem b n top m 0) (htop : 64 ≤ top)
    (hapart : b + n ≤ top - 64 ∨ top ≤ b) :
    AgreeOn mem (iretTo (callRecover world (run world m layFrame))).mem b n := by
  have hss := h.exec_pushImm world 0x33 (by decide) htop hapart
  have hsp := hss.push_word world 0x08 (by decide) htop hapart
  have hfl := hsp.exec_pushf world (by decide) htop hapart
  have hcs := hfl.exec_pushImm world 0x2B (by decide) htop hapart
  have hrip : Keeping mem b n top (run world m layFrame) 5 :=
    hcs.push_word world 0x00 (by decide) htop hapart
  rw [callRecover_mem]
  exact (hrip.next.push (by decide) htop hapart).agree

end Keeping

/-- What a switch leaves of the segments: the task state is busy. -/
theorem taskAccess_switch (hs : StackApart gdt m) (havail : taskAccess gdt m = 0x89) :
    taskAccess gdt (iretTo (callRecover world (run world (loadedTask world gdt m) layFrame))) = 0x8B := by
  have hroom := hs.room
  have hapart := hs.apart
  have hloaded : getLE (loadedTask world gdt m).mem (gdt + 0x18 + 5) 1 = 0x8B := by
    rw [loadedTask, getLE_putLE_same, taskAccess_jumpPrologue hs, havail]
    rfl
  have hsp : ((loadedTask world gdt m).reg .rsp).toNat + 8 * 0 = (m.reg .rsp).toNat - 8 := by
    have hrsp : (loadedTask world gdt m).reg .rsp = m.reg .rsp - 8#64 := jumpPrologue_rsp world
    rw [hrsp, toNat_sub_eight (by omega), Nat.mul_zero, Nat.add_zero]
  have hkeeping : Keeping (loadedTask world gdt m).mem (gdt + 0x18 + 5) 1 ((m.reg .rsp).toNat - 8)
      (loadedTask world gdt m) 0 := ⟨hsp, fun _ _ _ => rfl⟩
  rw [taskAccess, ← (hkeeping.switch world (by omega) (by omega)).getLE_eq, hloaded]

/-- A run of a core: it switches to tasks, and between switches anything happens that leaves the task
state's descriptor alone. -/
inductive Switches (world : World Handler) (gdt : Nat) (m₀ : Machine) : Nat → Machine → Prop where
  | start : Switches world gdt m₀ 0 m₀
  | other {n : Nat} {m m' : Machine} : Switches world gdt m₀ n m → taskAccess gdt m' = taskAccess gdt m →
      Switches world gdt m₀ n m'
  | switch {n : Nat} {m m' : Machine} : Switches world gdt m₀ n m → StackApart gdt m →
      schedJumpToTask world gdt m = some m' → Switches world gdt m₀ (n + 1) m'

/-- After no switch the task state is available, and after one it is busy. -/
theorem Switches.busy {m₀ : Machine} {n : Nat} (hrun : Switches world gdt m₀ n m)
    (havail : taskAccess gdt m₀ = 0x89) :
    n = 0 ∧ taskAccess gdt m = 0x89 ∨ n = 1 ∧ taskAccess gdt m = 0x8B := by
  induction hrun with
  | start => exact .inl ⟨rfl, havail⟩
  | other _ hkept ih => rw [hkept]; exact ih
  | switch _ hs hjump ih =>
      rw [schedJumpToTask_eq hs] at hjump
      rcases ih with ⟨hn, haccess⟩ | ⟨hn, haccess⟩
      · rw [haccess, if_pos (by decide)] at hjump
        cases hjump
        exact .inr ⟨by rw [hn], taskAccess_switch hs haccess⟩
      · rw [haccess, if_neg (by decide)] at hjump
        cases hjump

/-- The descriptor `hal_init_platform` writes is that of an available task state. -/
theorem taskAccess_initSegments {tss stackTop faultStack : Nat}
    (hmem : m.mem = initSegments gdt tss stackTop faultStack mem) : taskAccess gdt m = 0x89 := by
  have haccess := getLE_gdt mem gdt tss stackTop faultStack 29 1 (x := 0x89)
    (by simp [gdtFields, kGDTArray, entryFields])
  rw [taskAccess, hmem]
  exact haccess

/-- **One switch.** On the segments `hal_init_platform` writes, a core can switch once: the first switch
runs the task of the frame in ring 3, and after it `ltr` fails for good. -/
theorem first_switch_only {tss stackTop faultStack n : Nat} (world : World Handler) (m₀ m : Machine)
    (hmem : m₀.mem = initSegments gdt tss stackTop faultStack mem) (hrun : Switches world gdt m₀ n m)
    (hs : StackApart gdt m) (hf : FrameApart gdt (m.reg .rcx).toNat m) :
    n = 0 ∧ (∃ m', schedJumpToTask world gdt m = some m' ∧ m'.cpl = 3 ∧
        Entered m.mem (m.reg .rcx).toNat m.rflags m') ∨
      n = 1 ∧ schedJumpToTask world gdt m = none := by
  rw [schedJumpToTask_eq hs]
  rcases hrun.busy (taskAccess_initSegments hmem) with ⟨hn, haccess⟩ | ⟨hn, haccess⟩
  · have hentered : Entered m.mem (m.reg .rcx).toNat m.rflags
        (iretTo (callRecover world (run world (loadedTask world gdt m) layFrame))) := iretTo_enters hs hf
    rw [haccess, if_pos (by decide)]
    refine .inl ⟨hn, _, rfl, ?_, hentered⟩
    rw [Machine.cpl, hentered.cs]
    rfl
  · rw [haccess, if_neg (by decide)]
    exact .inr ⟨hn, rfl⟩

/-- A core after the boot, with a frame at 0x4000. -/
def booted : Machine where
  reg
    | .rsp => 0x90000
    | .rcx => 0x4000
    | _ => 0
  mem := initSegments 0x5000 0x6000 0x90000 0x70000 zeros
  rip := 0
  cs := 0x8
  ss := 0x10
  rflags := 0x202

theorem first_switch_only_booted : ∃ m', schedJumpToTask (worldOf returning) 0x5000 booted = some m' ∧
    m'.cpl = 3 ∧ Entered booted.mem 0x4000 0x202 m' := by
  have h := first_switch_only (worldOf returning) booted booted rfl .start ⟨by decide, .inl (by decide)⟩
    ⟨by decide, .inl (by decide), .inl (by decide)⟩
  rcases h with ⟨-, h⟩ | ⟨h, -⟩
  · exact h
  · cases h

/-! ## Hanging and waking -/

/-- The two calls on a task. -/
inductive TaskCall where
  | hang
  | wakeup
deriving DecidableEq

/-- What a call does to the memory. -/
def TaskCall.apply (stack : Nat) (mem : Store) : TaskCall → Store
  | .hang => mpHangThread stack mem
  | .wakeup => mpWakeupThread stack mem

section Frames

variable {stack : Nat} {calls : List TaskCall}

theorem halCheckTask_iff : halCheckTask mem stack = true ↔
    stack ≠ 0 ∧ 0 < frameField mem stack StackFrame.SP ∧ 0 < frameField mem stack StackFrame.IP :=
  decide_eq_true_iff

/-- A hung task does not count as a task. -/
theorem halCheckTask_hang : halCheckTask (mpHangThread stack mem) stack = false := by
  rw [mpHangThread]
  split
  · apply decide_eq_false
    rintro ⟨-, -, hip⟩
    rw [frameField, setFrame, getLE_putLE_same] at hip
    exact absurd hip (by decide)
  · next hcheck => exact eq_false_of_ne_true hcheck

/-- A wakeup takes the IP from R15. -/
theorem halCheckTask_wakeup (hcheck : halCheckTask mem stack = true) :
    (halCheckTask (mpWakeupThread stack mem) stack = true ↔ frameField mem stack StackFrame.R15 ≠ 0) ∧
      frameField (mpWakeupThread stack mem) stack StackFrame.R15 = frameField mem stack StackFrame.R15 := by
  have hlt : frameField mem stack StackFrame.R15 < 256 ^ 8 := getLE_lt
  obtain ⟨hnull, hsp, -⟩ := halCheckTask_iff.mp hcheck
  have hsp' : frameField (mpWakeupThread stack mem) stack StackFrame.SP =
      frameField mem stack StackFrame.SP := by
    rw [mpWakeupThread, if_pos hcheck]
    exact getLE_putLE_of_disjoint (.inr (by simp [StackFrame.SP, StackFrame.IP]))
  have hip : frameField (mpWakeupThread stack mem) stack StackFrame.IP =
      frameField mem stack StackFrame.R15 := by
    rw [mpWakeupThread, if_pos hcheck, frameField, setFrame, getLE_putLE_same]
    exact Nat.mod_eq_of_lt hlt
  constructor
  · rw [halCheckTask_iff, hsp', hip]
    omega
  · rw [mpWakeupThread, if_pos hcheck]
    exact getLE_putLE_of_disjoint (.inr (by simp [StackFrame.R15, StackFrame.IP]))

/-- On what is no task the two calls do nothing. -/
theorem applies_of_not_task (hcheck : halCheckTask mem stack = false) :
    calls.foldl (TaskCall.apply stack) mem = mem := by
  induction calls with
  | nil => rfl
  | cons call calls ih =>
      have hcall : TaskCall.apply stack mem call = mem := by
        cases call with
        | hang => exact if_neg (Bool.eq_false_iff.mp hcheck)
        | wakeup => exact if_neg (Bool.eq_false_iff.mp hcheck)
      rw [List.foldl_cons, hcall, ih]

/-- **Hung for good.** After any sequence of the two calls a frame counts as a task exactly if it did
before, was not hung, and, if it was woken, had something in R15. So a task that is hung is never woken. -/
theorem hung_for_good (mem : Store) (stack : Nat) (calls : List TaskCall) :
    halCheckTask (calls.foldl (TaskCall.apply stack) mem) stack = true ↔
      halCheckTask mem stack = true ∧ .hang ∉ calls ∧
        (.wakeup ∈ calls → frameField mem stack StackFrame.R15 ≠ 0) := by
  induction calls generalizing mem with
  | nil => simp
  | cons call calls ih =>
      rw [List.foldl_cons]
      cases call with
      | hang =>
          have hdead : halCheckTask (TaskCall.hang.apply stack mem) stack = false := halCheckTask_hang
          rw [applies_of_not_task hdead, hdead]
          simp
      | wakeup =>
          by_cases hcheck : halCheckTask mem stack = true
          · obtain ⟨halive, hr15⟩ := halCheckTask_wakeup hcheck
            rw [ih, show TaskCall.wakeup.apply stack mem = mpWakeupThread stack mem from rfl, halive, hr15]
            generalize frameField mem stack StackFrame.R15 = r15
            simp only [hcheck, List.mem_cons, true_and, reduceCtorEq, false_or, true_or, forall_true_left]
            exact ⟨fun ⟨h₁, h₂, _⟩ => ⟨h₂, h₁⟩, fun ⟨h₂, h₁⟩ => ⟨h₁, h₂, fun _ => h₁⟩⟩
          · have hdead := eq_false_of_ne_true hcheck
            rw [show TaskCall.wakeup.apply stack mem = mem from if_neg hcheck, applies_of_not_task hdead, hdead]
            simp

end Frames

end NeKernel.HALKit
