import NeKernel.Lib.ByteStore
import NeKernel.NeKit.Config
import Mathlib.Data.Finset.Basic
import Mathlib.Logic.Function.Basic

/-!
# User processes and their team

The process records of a team and the three operations that fill and empty them:
`UserProcessScheduler::Spawn`, `UserProcessScheduler::Remove` and `UserProcess::Exit`.

Pointers are addresses, `0` being `nullptr`. What the operations ask of the rest of the kernel
(whether an allocation succeeds, whether a library shuts down) is an argument of the call. An
operation answers `none` where the source has no behaviour to model: an index outside
`mProcessList`, a `Parent` that was never set, or a kernel stop.
-/

namespace NeKernel.Scheduler

open ByteStore

def kCPSProcessLimitPerTeam : Nat := 32
def kCPSNameLen : Nat := 128
def kCPSMaxStackSz : Nat := 8 * 1024

instance : NeZero kCPSProcessLimitPerTeam := ⟨by decide⟩

/-- An index into `mProcessList`. -/
abbrev Slot := Fin kCPSProcessLimitPerTeam

inductive ProcessStatusKind where
  | kInvalid | kStarting | kRunning | kKilled | kFrozen | kFinished
  deriving DecidableEq, Repr

inductive AffinityKind where
  | kInvalid | kUltraHigh | kVeryHigh | kHigh | kStandard | kLowUsage | kVeryLowUsage
  deriving DecidableEq, Repr

inductive ExecutableKind where
  | kInvalidExecutableKind | kExecutableKind | kExecutableDylibKind
  deriving DecidableEq, Repr

structure ProcessImage where
  fCode : Nat
  fBlob : Nat
  fBlobSz : Nat
  deriving DecidableEq, Repr

/-- The registers `Spawn` sets; `sp` counts from the first byte of the process's own
`StackReserve`. -/
structure StackFrame where
  ip : Nat
  sp : Nat
  deriving DecidableEq, Repr

structure UserProcessSignal where
  signalArg : Nat
  status : ProcessStatusKind
  signalId : Nat
  deriving DecidableEq, Repr

/-- One slot of the team. `hasParent` tells whether `Parent` points at the team: it is set by
`Spawn` and by nothing else. -/
structure UserProcess where
  name : Store
  stackFrame : Option StackFrame
  affinity : AffinityKind
  status : ProcessStatusKind
  stackReserve : Store
  stackSize : Nat
  dylibDelegate : Nat
  signal : UserProcessSignal
  image : ProcessImage
  fileTree : Nat
  heapTree : Nat
  hasParent : Bool
  vmRegister : Nat
  pTime : Nat
  rTime : Nat
  uTime : Nat
  sTime : Nat
  processId : Int
  kind : ExecutableKind
  lastExitCode : Int

structure UserProcessTeam where
  mProcessList : Slot → UserProcess
  mProcessCur : Int

/-- The process a `ProcessID` indexes, when the index lies in the array. -/
def slot? (pid : Int) : Option (Slot) :=
  if h : 0 ≤ pid ∧ pid < kCPSProcessLimitPerTeam then
    some ⟨pid.toNat, by have := h.1; have := h.2; omega⟩
  else none

theorem slot?_eq_some {pid : Int} {i : Slot} (h : slot? pid = some i) :
    pid = (i : Nat) := by
  unfold slot? at h
  split at h
  · next hp =>
      cases h
      exact (Int.toNat_of_nonneg hp.1).symm
  · cases h

/-- What `Spawn` gets from the kernel around it: the current page tables and the addresses its
two `new` expressions return (`0` when the heap is exhausted). -/
structure SpawnEnv where
  kKernelVM : Nat
  newStackFrame : Nat
  newFileTree : Nat

/-- `UserProcess::Crash`. -/
def UserProcess.crash (p : UserProcess) : UserProcess :=
  if p.status ≠ .kRunning then p else { p with status := .kKilled }

/-- The tail of `UserProcessScheduler::Spawn`, on the slot it chose. The result is `YES` when the
process was started, otherwise the error code. -/
def fillSlot (p : UserProcess) (name : List UInt8) (code image imageSz : Nat) (pid : Int)
    (env : SpawnEnv) : Int × UserProcess :=
  let p := { p with image := { fCode := code, fBlob := image, fBlobSz := imageSz } }
  let len := name.length
  if len > kCPSNameLen then (-kErrorProcessFault, p)
  else
    let p := { p with
      name := blit p.name 0 len (fun i => name.getD i 0)
      vmRegister := env.kKernelVM }
    if env.newStackFrame = 0 then
      (-kErrorProcessFault, { p with stackFrame := none }.crash)
    else
      let p := { p with
        -- the stack top is taken before `StackSize` gets its value
        stackFrame := some { ip := code, sp := p.stackSize }
        stackSize := kCPSMaxStackSz
        stackReserve := fill p.stackReserve 0 kCPSMaxStackSz 0
        hasParent := true
        processId := pid
        status := .kRunning
        pTime := 0
        affinity := .kStandard
        rTime := 0
        uTime := 0
        sTime := 0 }
      if p.fileTree = 0 then
        if env.newFileTree = 0 then (-kErrorHeapOutOfMemory, p.crash)
        else (pid, { p with fileTree := env.newFileTree })
      else (pid, p)

/-- `UserProcessScheduler::Spawn`. A null `name` is `none`. -/
def spawn (t : UserProcessTeam) (name : Option (List UInt8)) (code image imageSz : Nat)
    (env : SpawnEnv) : Option (Int × UserProcessTeam) :=
  match name with
  | none => some (-kErrorProcessFault, t)
  | some name =>
    if code = 0 ∨ name = [] then some (-kErrorProcessFault, t)
    else
      let pid := t.mProcessCur
      if pid > kCPSProcessLimitPerTeam then some (-kErrorProcessFault, t)
      else
        match slot? pid with
        | none => none
        | some i =>
          let r := fillSlot (t.mProcessList i) name code image imageSz pid env
          some (r.1, {
            mProcessList := Function.update t.mProcessList i r.2
            mProcessCur := int64 (t.mProcessCur + 1) })

/-- `UserProcess::Exit` on the process itself. The heap blocks it gives back are not part of the
team; `finiDylib` is what `rtl_fini_dylib_pef` reports. -/
def UserProcess.exit (p : UserProcess) (exitCode : Int) (finiDylib : Bool) : Option UserProcess :=
  let p := { p with
    status := if exitCode > 0 then .kKilled else .kFrozen
    lastExitCode := exitCode
    heapTree := 0
    fileTree := 0
    image := { p.image with fBlob := 0, fCode := 0 }
    stackFrame := none }
  if p.kind = .kExecutableDylibKind ∧ finiDylib = false then none
  else
    some { p with
      dylibDelegate := if p.kind = .kExecutableDylibKind then 0 else p.dylibDelegate
      processId := 0
      status := .kFinished }

/-- `UserProcess::Exit` on slot `i`, with the counter of the parent team it lowers. -/
def exitSlot (t : UserProcessTeam) (i : Slot) (exitCode : Int)
    (finiDylib : Bool) : Option UserProcessTeam :=
  if (t.mProcessList i).hasParent then
    ((t.mProcessList i).exit exitCode finiDylib).map fun p =>
      { mProcessList := Function.update t.mProcessList i p
        mProcessCur := int64 (t.mProcessCur - 1) }
  else none

/-- `UserProcessScheduler::Remove`. -/
def remove (t : UserProcessTeam) (processId : Int) (finiDylib : Bool) : Option UserProcessTeam :=
  if processId < 0 ∨ processId > kCPSProcessLimitPerTeam then some t
  else
    match slot? processId with
    | none => none
    | some i =>
      if (t.mProcessList i).status = .kInvalid then some t
      else exitSlot t i kErrorSuccess finiDylib

/-! ## What one operation does -/

theorem fault_neg : -kErrorProcessFault < 0 := by decide

theorem outOfMemory_neg : -kErrorHeapOutOfMemory < 0 := by decide

/-- `Spawn` either reports an error on its slot or stamps the slot with the id it returns. -/
theorem fillSlot_cases (p : UserProcess) (name : List UInt8) (code image imageSz : Nat) (pid : Int)
    (env : SpawnEnv) :
    (fillSlot p name code image imageSz pid env).1 < 0 ∨
    ((fillSlot p name code image imageSz pid env).1 = pid ∧
      (fillSlot p name code image imageSz pid env).2.processId = pid) := by
  unfold fillSlot
  simp only
  split
  · exact .inl fault_neg
  · split
    · exact .inl fault_neg
    · split
      · split
        · exact .inl outOfMemory_neg
        · exact .inr ⟨rfl, rfl⟩
      · exact .inr ⟨rfl, rfl⟩

/-- Everything `Spawn` can do to a team: refuse at the door, or take the slot the counter names and
leave every other slot as it is. A returned id is that slot's. -/
theorem spawn_cases {t t' : UserProcessTeam} {name : Option (List UInt8)}
    {code image imageSz : Nat} {env : SpawnEnv} {r : Int}
    (h : spawn t name code image imageSz env = some (r, t')) :
    (r < 0 ∧ t' = t) ∨
    ∃ i : Slot, t.mProcessCur = (i : Nat) ∧
      t'.mProcessCur = t.mProcessCur + 1 ∧
      (∀ j, j ≠ i → t'.mProcessList j = t.mProcessList j) ∧
      (r < 0 ∨ (r = (i : Nat) ∧ (t'.mProcessList i).processId = (i : Nat))) := by
  unfold spawn at h
  cases name with
  | none =>
      cases h
      exact .inl ⟨fault_neg, rfl⟩
  | some name =>
      simp only at h
      split at h
      · cases h
        exact .inl ⟨fault_neg, rfl⟩
      · split at h
        · cases h
          exact .inl ⟨fault_neg, rfl⟩
        · next hlim =>
            split at h
            · cases h
            · next i hi =>
                have hpid : t.mProcessCur = (i : Nat) := slot?_eq_some hi
                have hlt : (i : Nat) < 32 := i.isLt
                simp only [Option.some.injEq, Prod.mk.injEq] at h
                obtain ⟨rfl, rfl⟩ := h
                refine .inr ⟨i, hpid, int64_of_small (by omega) (by omega), ?_, ?_⟩
                · intro j hj
                  exact Function.update_of_ne hj _ _
                · simp only [Function.update_self, ← hpid]
                  exact fillSlot_cases _ name code image imageSz _ env

/-- `Exit` lowers the counter and touches no other slot. -/
theorem exitSlot_cases {t t' : UserProcessTeam} {i : Slot} {c : Int}
    {fini : Bool} (h : exitSlot t i c fini = some t') :
    t'.mProcessCur = int64 (t.mProcessCur - 1) ∧
      ∀ j, j ≠ i → t'.mProcessList j = t.mProcessList j := by
  unfold exitSlot at h
  split at h
  · rw [Option.map_eq_some_iff] at h
    obtain ⟨p, -, rfl⟩ := h
    exact ⟨rfl, fun j hj => Function.update_of_ne hj _ _⟩
  · cases h

end NeKernel.Scheduler
