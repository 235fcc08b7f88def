import NeKernel.Scheduler.UserProcess

/-!
# Running a team

`UserProcessScheduler::Run` steps an index through the processes of the team, copies the process it
comes to into `mCurrentProcess` and hands its stack frame to `UserProcessHelper::Switch`. The
handlers of faults look at `mCurrentProcess`.

The index goes from 0 to 33 and the array has 32 processes. `AsArray()` does not check an index:
what stands behind `mProcessList` in the team is `mCurrentProcess`, a process record too, and
behind that is what lies behind the team.
-/

namespace NeKernel.Scheduler

/-- The number of an affinity. -/
def AffinityKind.toNat : AffinityKind → Nat
  | kInvalid => 0
  | kUltraHigh => 100
  | kVeryHigh => 150
  | kHigh => 200
  | kStandard => 1000
  | kLowUsage => 1500
  | kVeryLowUsage => 2000

def SIGKILL : Nat := 1
def SIGTRAP : Nat := 4
def SIGSEG : Nat := 7
def kUserSignalSeed : Nat := 0x0895034F

/-- `sig_generate_unique`. -/
def sigGenerateUnique (sig : Nat) : Nat := sig ^^^ kUserSignalSeed

/-- `UserProcess::operator bool`. -/
def UserProcess.isRunning (p : UserProcess) : Bool := p.status = .kRunning

/-- `UserProcessHelper::CanBeScheduled`. -/
def canBeScheduled (process : UserProcess) : Bool :=
  if process.affinity = .kUltraHigh then true
  else if process.status ≠ .kRunning then false
  else if process.affinity = .kInvalid then false
  else if kCPSMaxStackSz < process.stackSize then false
  else if process.name 0 = 0 then false
  else if process.signal.signalId = sigGenerateUnique SIGTRAP then false
  else process.pTime < 1

/-! ## `Run` -/

/-- The scheduler, with the `process_index` of `Run`. `mCurrentProcess` is a member of the team;
`behind` is the memory behind the team, seen as a process. -/
structure UserProcessScheduler where
  mTeam : UserProcessTeam
  mCurrentProcess : UserProcess
  behind : UserProcess
  processIndex : Nat

namespace UserProcessScheduler

/-- `AsArray()[i]`. -/
def asArray (s : UserProcessScheduler) (i : Nat) : UserProcess :=
  if h : i < kCPSProcessLimitPerTeam then s.mTeam.mProcessList ⟨i, h⟩
  else if i = kCPSProcessLimitPerTeam then s.mCurrentProcess
  else s.behind

/-- `AsArray()[i] = p`. -/
def setArray (s : UserProcessScheduler) (i : Nat) (p : UserProcess) : UserProcessScheduler :=
  if h : i < kCPSProcessLimitPerTeam then
    { s with mTeam := { s.mTeam with
        mProcessList := Function.update s.mTeam.mProcessList ⟨i, h⟩ p } }
  else if i = kCPSProcessLimitPerTeam then { s with mCurrentProcess := p }
  else { s with behind := p }

end UserProcessScheduler

/-- What `Run` does to a process before the switch: it counts the use, and boosts one that has
slept. -/
def UserProcess.scheduled (process : UserProcess) : UserProcess :=
  let process :=
    if process.uTime < process.pTime then { process with uTime := process.uTime + 1 } else process
  if 0 < process.sTime then
    let boost := process.sTime / 10
    let boost := if AffinityKind.kHigh.toNat < boost then AffinityKind.kHigh.toNat else boost
    { process with pTime := u64 (process.pTime + boost), sTime := 0 }
  else process

/-- What it does after a switch that has succeeded: the cooldown. -/
def UserProcess.switched (process : UserProcess) : UserProcess :=
  if process.pTime < process.rTime ∧ process.affinity ≠ .kUltraHigh then
    let rTime :=
      if process.rTime < AffinityKind.kVeryHigh.toNat then
        process.rTime + AffinityKind.kLowUsage.toNat
      else if process.rTime < AffinityKind.kHigh.toNat then
        process.rTime + AffinityKind.kStandard.toNat
      else if process.rTime < AffinityKind.kStandard.toNat then
        process.rTime + AffinityKind.kHigh.toNat
      else process.rTime
    { process with pTime := u64 (process.pTime + 2 ^ 64 - rTime), rTime := 0 }
  else if process.affinity ≠ .kUltraHigh then
    { process with pTime := u64 (process.pTime + AffinityKind.kUltraHigh.toNat) }
  else process

/-- What it does to a process that cannot be scheduled. -/
def UserProcess.passedOver (process : UserProcess) : UserProcess :=
  let process :=
    if process.status = .kFrozen then { process with sTime := u64 (process.sTime + 1) }
    else process
  { process with
    rTime := u64 (process.rTime + 1)
    pTime := u64 (process.pTime + 2 ^ 64 - 1) }

/-- What a call of `Run` does to the process it comes to. -/
def UserProcess.ticked (switch : Bool) (process : UserProcess) : UserProcess :=
  if canBeScheduled process then
    if switch then process.scheduled.switched else process.scheduled
  else process.passedOver

namespace UserProcessScheduler

/-- `process_index` after its step. -/
def nextIndex (s : UserProcessScheduler) : Nat :=
  if kCPSProcessLimitPerTeam < s.processIndex then 0 else s.processIndex + 1

/-- `Run`: what it returns, the index of the process it hands to `Switch`, and the scheduler after
it. `switch` is what `UserProcessHelper::Switch` answers. -/
def run (switch : Bool) (s : UserProcessScheduler) :
    Nat × Option Nat × UserProcessScheduler :=
  if s.mTeam.mProcessCur < 1 then (0, none, s)
  else
    let i := s.nextIndex
    let s := { s with processIndex := i }
    let process := s.asArray i
    if canBeScheduled process then
      let process := process.scheduled
      let s := s.setArray i process
      let s := { s with mCurrentProcess := process }
      if switch then (i, some i, s.setArray i process.switched)
      else (i, some i, s)
    else (i, none, s.setArray i process.passedOver)

end UserProcessScheduler

/-! ## Faults -/

/-- What a fault handler does to the current process. Some of the handlers look again before they
set the signal. -/
def handleFault (signalId : Nat) (again : Bool) (rsp : Nat) (process : UserProcess) :
    UserProcess :=
  let process := if process.isRunning then process.crash else process
  if again ∧ !process.isRunning then process
  else { process with signal := ⟨rsp, process.status, signalId⟩ }

def idtHandleGpf : Nat → UserProcess → UserProcess := handleFault SIGKILL true
def idtHandlePf : Nat → UserProcess → UserProcess := handleFault SIGKILL true
def idtHandleMath : Nat → UserProcess → UserProcess := handleFault (sigGenerateUnique SIGKILL) true
def idtHandleGeneric : Nat → UserProcess → UserProcess :=
  handleFault (sigGenerateUnique SIGSEG) false
def idtHandleUd : Nat → UserProcess → UserProcess := handleFault (sigGenerateUnique SIGKILL) false

inductive Fault where
  | gpf | pf | math | generic | ud

def Fault.handler : Fault → Nat → UserProcess → UserProcess
  | gpf => idtHandleGpf
  | pf => idtHandlePf
  | math => idtHandleMath
  | generic => idtHandleGeneric
  | ud => idtHandleUd

/-! ## What `Run` does to the team -/

/-- The process would be scheduled if its time were up. -/
def Eligible (p : UserProcess) : Prop := canBeScheduled { p with pTime := 0 } = true

theorem canBeScheduled_iff {p : UserProcess} :
    canBeScheduled p = true ↔ Eligible p ∧ (p.affinity = .kUltraHigh ∨ p.pTime < 1) := by
  unfold Eligible canBeScheduled
  by_cases h : p.affinity = .kUltraHigh
  · simp [h]
  · simp only [h, if_false, false_or]
    split
    · simp
    split
    · simp
    split
    · simp
    split
    · simp
    split
    · simp
    · simp

/-- The times of a process do not count. -/
theorem eligible_congr {p p' : UserProcess} (haffinity : p'.affinity = p.affinity)
    (hstatus : p'.status = p.status) (hstack : p'.stackSize = p.stackSize)
    (hname : p'.name = p.name) (hsignal : p'.signal = p.signal) : Eligible p' ↔ Eligible p := by
  unfold Eligible canBeScheduled
  simp only [haffinity, hstatus, hstack, hname, hsignal]

/-- The two processes differ in their times at most. -/
def OnlyTimes (p p' : UserProcess) : Prop :=
  ∃ pTime rTime uTime sTime,
    p' = { p with pTime := pTime, rTime := rTime, uTime := uTime, sTime := sTime }

theorem OnlyTimes.trans {p p' p'' : UserProcess} (h : OnlyTimes p p') (h' : OnlyTimes p' p'') :
    OnlyTimes p p'' := by
  obtain ⟨_, _, _, _, rfl⟩ := h
  obtain ⟨_, _, _, _, rfl⟩ := h'
  exact ⟨_, _, _, _, rfl⟩

theorem OnlyTimes.eligible_iff {p p' : UserProcess} (h : OnlyTimes p p') :
    Eligible p' ↔ Eligible p := by
  obtain ⟨_, _, _, _, rfl⟩ := h
  exact eligible_congr rfl rfl rfl rfl rfl

theorem OnlyTimes.processId_eq {p p' : UserProcess} (h : OnlyTimes p p') :
    p'.processId = p.processId := by
  obtain ⟨_, _, _, _, rfl⟩ := h
  rfl

theorem onlyTimes_scheduled {p : UserProcess} : OnlyTimes p p.scheduled := by
  unfold UserProcess.scheduled
  split <;> dsimp only <;> split <;> exact ⟨_, _, _, _, rfl⟩

theorem onlyTimes_switched {p : UserProcess} : OnlyTimes p p.switched := by
  unfold UserProcess.switched
  split
  · exact ⟨_, _, _, _, rfl⟩
  · split <;> exact ⟨_, _, _, _, rfl⟩

theorem onlyTimes_passedOver {p : UserProcess} : OnlyTimes p p.passedOver := by
  unfold UserProcess.passedOver
  dsimp only
  split <;> exact ⟨_, _, _, _, rfl⟩

theorem onlyTimes_ticked {p : UserProcess} {b : Bool} : OnlyTimes p (p.ticked b) := by
  unfold UserProcess.ticked
  split
  · split
    · exact onlyTimes_scheduled.trans onlyTimes_switched
    · exact onlyTimes_scheduled
  · exact onlyTimes_passedOver

theorem passedOver_pTime {p : UserProcess} : p.passedOver.pTime = u64 (p.pTime + 2 ^ 64 - 1) := by
  unfold UserProcess.passedOver
  dsimp only
  split <;> rfl

namespace UserProcessScheduler

variable {s : UserProcessScheduler} {b : Bool} {i : Nat} {j : Slot} {p : UserProcess}

theorem asArray_slot (j : Slot) : s.asArray j = s.mTeam.mProcessList j := by
  unfold asArray
  rw [dif_pos j.isLt]

theorem setArray_mProcessCur : (s.setArray i p).mTeam.mProcessCur = s.mTeam.mProcessCur := by
  unfold setArray
  split
  · rfl
  · split <;> rfl

theorem setArray_processIndex : (s.setArray i p).processIndex = s.processIndex := by
  unfold setArray
  split
  · rfl
  · split <;> rfl

theorem setArray_self : (s.setArray j p).mTeam.mProcessList j = p := by
  unfold setArray
  rw [dif_pos j.isLt]
  exact Function.update_self _ _ _

theorem setArray_other (h : i ≠ j) :
    (s.setArray i p).mTeam.mProcessList j = s.mTeam.mProcessList j := by
  unfold setArray
  split
  · exact Function.update_of_ne (fun heq => h (congrArg Fin.val heq).symm) _ _
  · split <;> rfl

/-- With no process on the team `Run` does nothing. -/
theorem run_idle (h : s.mTeam.mProcessCur < 1) : s.run b = (0, none, s) := by
  unfold run
  rw [if_pos h]

theorem run_mProcessCur : (s.run b).2.2.mTeam.mProcessCur = s.mTeam.mProcessCur := by
  unfold run
  split
  · rfl
  · dsimp only
    split
    · split
      · exact setArray_mProcessCur.trans setArray_mProcessCur
      · exact setArray_mProcessCur
    · exact setArray_mProcessCur

theorem run_processIndex (h : ¬ s.mTeam.mProcessCur < 1) :
    (s.run b).2.2.processIndex = s.nextIndex := by
  unfold run
  rw [if_neg h]
  dsimp only
  split
  · split
    · exact setArray_processIndex.trans setArray_processIndex
    · exact setArray_processIndex
  · exact setArray_processIndex

/-- A process that can be scheduled is handed to `Switch`. -/
theorem run_scheduled (h : ¬ s.mTeam.mProcessCur < 1)
    (hc : canBeScheduled (s.asArray s.nextIndex) = true) :
    (s.run b).2.1 = some s.nextIndex := by
  have hc' : canBeScheduled (({ s with processIndex := s.nextIndex } :
      UserProcessScheduler).asArray s.nextIndex) = true := hc
  unfold run
  rw [if_neg h]
  dsimp only
  rw [if_pos hc']
  cases b <;> rfl

/-- Any other process is passed over. -/
theorem run_passed (h : ¬ s.mTeam.mProcessCur < 1)
    (hc : ¬ canBeScheduled (s.asArray s.nextIndex) = true) :
    s.run b = (s.nextIndex, none, ({ s with processIndex := s.nextIndex } :
      UserProcessScheduler).setArray s.nextIndex (s.asArray s.nextIndex).passedOver) := by
  have hc' : ¬ canBeScheduled (({ s with processIndex := s.nextIndex } :
      UserProcessScheduler).asArray s.nextIndex) = true := hc
  unfold run
  rw [if_neg h]
  dsimp only
  rw [if_neg hc']
  rfl

/-- What `Run` hands to `Switch`. -/
theorem run_handed : (s.run b).2.1 = some i ↔
    ¬ s.mTeam.mProcessCur < 1 ∧ i = s.nextIndex ∧ canBeScheduled (s.asArray i) = true := by
  by_cases h : s.mTeam.mProcessCur < 1
  · rw [run_idle h]
    exact iff_of_false (by simp) fun hno => hno.1 h
  by_cases hc : canBeScheduled (s.asArray s.nextIndex) = true
  · rw [run_scheduled h hc]
    constructor
    · intro heq
      obtain rfl := Option.some.inj heq
      exact ⟨h, rfl, hc⟩
    · rintro ⟨-, rfl, -⟩
      rfl
  · rw [run_passed h hc]
    refine iff_of_false (by simp) ?_
    rintro ⟨-, rfl, hc'⟩
    exact hc hc'

/-- `Run` leaves every slot alone but the one it comes to. -/
theorem run_other (h : s.nextIndex ≠ j) :
    (s.run b).2.2.mTeam.mProcessList j = s.mTeam.mProcessList j := by
  unfold run
  split
  · rfl
  · dsimp only
    split
    · split
      · exact (setArray_other h).trans (setArray_other h)
      · exact setArray_other h
    · exact setArray_other h

/-- The slot it comes to is ticked. -/
theorem run_slot (h : ¬ s.mTeam.mProcessCur < 1) (hij : s.nextIndex = j) :
    (s.run b).2.2.mTeam.mProcessList j = (s.mTeam.mProcessList j).ticked b := by
  have hp : ({ s with processIndex := s.nextIndex } : UserProcessScheduler).asArray s.nextIndex =
      s.mTeam.mProcessList j := by
    rw [hij]
    exact asArray_slot j
  unfold run UserProcess.ticked
  rw [if_neg h]
  dsimp only
  rw [hp, hij]
  split
  · cases b with
    | true => exact setArray_self
    | false => exact setArray_self (p := (s.mTeam.mProcessList j).scheduled)
  · exact setArray_self

/-- A slot after a call of `Run` is as it was or ticked. -/
theorem run_slot_cases (j : Slot) :
    (s.run b).2.2.mTeam.mProcessList j = s.mTeam.mProcessList j ∨
      (s.run b).2.2.mTeam.mProcessList j = (s.mTeam.mProcessList j).ticked b := by
  by_cases h : s.mTeam.mProcessCur < 1
  · rw [run_idle h]
    exact .inl rfl
  by_cases hij : s.nextIndex = j
  · exact .inr (run_slot h hij)
  · exact .inl (run_other hij)

/-- `Run` does not change which slots are eligible. -/
theorem run_eligible (j : Slot) :
    Eligible ((s.run b).2.2.mTeam.mProcessList j) ↔ Eligible (s.mTeam.mProcessList j) := by
  rcases run_slot_cases (s := s) (b := b) j with h | h
  · rw [h]
  · rw [h, onlyTimes_ticked.eligible_iff]

end UserProcessScheduler

end NeKernel.Scheduler
