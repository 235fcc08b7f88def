import NeKernel.Scheduler.Run
import NeKernel.Scheduler.Slots

/-!
# Crashed processes that run again

A fault handler crashes the process that `Run` has switched to. It does so on `mCurrentProcess`,
and that is a copy: `Run` goes by the slots of the team, where the process is still running. A
crashed process stays off the processor when its slot was no longer eligible at the time of the
fault, and otherwise `Run` hands it to `Switch` again as soon as its time is up.
-/

namespace NeKernel.Scheduler

open Runs

/-- A scheduler, the slot `Run` last switched to, the slots of the processes that fault handlers
have crashed and `Spawn` has not filled since, and whether `Run` has handed one of them to
`Switch`. -/
structure ScheduleRun where
  scheduler : UserProcessScheduler
  last : Option Slot
  crashed : Finset Slot
  rescheduled : Bool

/-- A call of `Spawn`, a tick, or a fault. -/
inductive ScheduleCall where
  | spawn (name : Option (List UInt8)) (code image imageSz : Nat) (env : SpawnEnv)
  | run (switch : Bool)
  | fault (f : Fault) (rsp : Nat)

/-- The slot of a process that is handed to `Switch`, after `last`. `mCurrentProcess` is the process
that was switched to before. -/
def handedSlot (last : Option Slot) (i : Nat) : Option Slot :=
  if i = kCPSProcessLimitPerTeam then last else slot? i

/-- The slot of the team that is handed to `Switch`, if it is one. -/
def passes (i : Option Nat) : Option Slot := i.bind fun i => slot? i

/-- One call. -/
def ScheduleCall.apply (v : ScheduleRun) : ScheduleCall → Option ScheduleRun
  | .spawn name code image imageSz env =>
      (Scheduler.spawn v.scheduler.mTeam name code image imageSz env).map fun r =>
        { v with
          scheduler := { v.scheduler with mTeam := r.2 }
          crashed := (slot? r.1).elim v.crashed fun i => v.crashed.erase i }
  | .run switch =>
      let r := v.scheduler.run switch
      some { v with
        scheduler := r.2.2
        last := r.2.1.elim v.last (handedSlot v.last)
        rescheduled := v.rescheduled || (passes r.2.1).any (· ∈ v.crashed) }
  | .fault f rsp =>
      let process := v.scheduler.mCurrentProcess
      some { v with
        scheduler := { v.scheduler with mCurrentProcess := f.handler rsp process }
        crashed :=
          if process.isRunning then v.last.elim v.crashed fun i => insert i v.crashed
          else v.crashed }

/-- A call as a step. -/
def ScheduleStep (v : ScheduleRun) (c : ScheduleCall) (v' : ScheduleRun) : Prop :=
  c.apply v = some v'

/-- A scheduler before the first call. -/
def ScheduleRun.start (s : UserProcessScheduler) : ScheduleRun := ⟨s, none, ∅, false⟩

/-- The fault, if the call is one, does not crash a process whose slot is eligible. -/
def SparesEligible (v : ScheduleRun) : ScheduleCall → Prop
  | .fault _ _ => v.scheduler.mCurrentProcess.isRunning = true → ∀ i, v.last = some i →
      ¬ Eligible (v.scheduler.mTeam.mProcessList i)
  | _ => True

/-! ## Spawning -/

theorem eligible_cases {p : UserProcess} (h : Eligible p) :
    p.affinity = .kUltraHigh ∨ p.status = .kRunning := by
  by_contra hno
  obtain ⟨h₁, h₂⟩ := not_or.mp hno
  unfold Eligible canBeScheduled at h
  simp [h₁, h₂] at h

theorem crash_status {p : UserProcess} : p.crash.status ≠ .kRunning := by
  unfold UserProcess.crash
  split
  · next h => exact h
  · simp

theorem crash_affinity {p : UserProcess} : p.crash.affinity = p.affinity := by
  unfold UserProcess.crash
  split <;> rfl

/-- A process of the highest affinity is always scheduled. -/
theorem eligible_of_ultraHigh {p : UserProcess} (h : p.affinity = .kUltraHigh) : Eligible p := by
  unfold Eligible canBeScheduled
  simp [h]

/-- Only a `Spawn` that succeeds makes a slot eligible. -/
theorem fillSlot_not_eligible {p : UserProcess} {name : List UInt8} {code image imageSz : Nat}
    {pid : Int} {env : SpawnEnv}
    (hr : (fillSlot p name code image imageSz pid env).1 ≠ pid) (hno : ¬ Eligible p) :
    ¬ Eligible (fillSlot p name code image imageSz pid env).2 := by
  have hcrash {q : UserProcess} (hq : q.affinity ≠ .kUltraHigh) : ¬ Eligible q.crash := by
    intro he
    rcases eligible_cases he with h | h
    · rw [crash_affinity] at h
      exact hq h
    · exact crash_status h
  revert hr
  unfold fillSlot
  dsimp only
  split
  · intro _
    rwa [eligible_congr rfl rfl rfl rfl rfl]
  · split
    · intro _
      exact hcrash fun h => hno (eligible_of_ultraHigh h)
    · split
      · split
        · intro _
          exact hcrash (by simp)
        · intro hr
          exact absurd rfl hr
      · intro hr
        exact absurd rfl hr

theorem spawn_not_eligible {t t' : UserProcessTeam} {name : Option (List UInt8)}
    {code image imageSz : Nat} {env : SpawnEnv} {r : Int}
    (h : spawn t name code image imageSz env = some (r, t')) {j : Slot} (hr : slot? r ≠ some j)
    (hno : ¬ Eligible (t.mProcessList j)) : ¬ Eligible (t'.mProcessList j) := by
  unfold spawn at h
  cases name with
  | none =>
      cases h
      exact hno
  | some name =>
      simp only at h
      split at h
      · cases h
        exact hno
      · split at h
        · cases h
          exact hno
        · split at h
          · cases h
          · next i hi =>
              simp only [Option.some.injEq, Prod.mk.injEq] at h
              obtain ⟨rfl, rfl⟩ := h
              by_cases hji : j = i
              · subst hji
                simp only [Function.update_self]
                apply fillSlot_not_eligible _ hno
                intro heq
                rw [heq] at hr
                exact hr hi
              · simp only [Function.update_of_ne hji]
                exact hno

/-! ## Runs that spare eligible slots -/

variable {v v' : ScheduleRun} {c : ScheduleCall} {i : Slot}

/-- No crashed process is in an eligible slot, and none has been handed to `Switch`. -/
structure Settled (v : ScheduleRun) : Prop where
  crashed : ∀ i ∈ v.crashed, ¬ Eligible (v.scheduler.mTeam.mProcessList i)
  off : v.rescheduled = false

theorem settled_start {s : UserProcessScheduler} : Settled (.start s) :=
  ⟨fun i hi => absurd hi (Finset.notMem_empty i), rfl⟩

/-- What `Run` passes to `Switch` is eligible. -/
theorem passes_eligible {s : UserProcessScheduler} {b : Bool} (h : passes (s.run b).2.1 = some i) :
    Eligible (s.mTeam.mProcessList i) := by
  obtain ⟨k, hk, hi⟩ := Option.bind_eq_some_iff.mp h
  obtain ⟨-, -, hc⟩ := UserProcessScheduler.run_handed.mp hk
  have hki : k = i := Int.ofNat_inj.mp (slot?_eq_some hi)
  subst hki
  rw [UserProcessScheduler.asArray_slot] at hc
  exact (canBeScheduled_iff.mp hc).1

/-- A step that spares eligible slots keeps it so. -/
theorem ScheduleStep.settled (hv : Settled v) (hok : SparesEligible v c)
    (h : ScheduleStep v c v') : Settled v' := by
  unfold ScheduleStep at h
  cases c with
  | spawn name code image imageSz env =>
      obtain ⟨⟨r, t⟩, hspawn, rfl⟩ := Option.map_eq_some_iff.mp h
      refine ⟨fun i hi => ?_, hv.off⟩
      show ¬ Eligible (t.mProcessList i)
      cases hr : slot? r with
      | none =>
          have hi : i ∈ v.crashed := by simpa [hr] using hi
          exact spawn_not_eligible hspawn (by rw [hr]; simp) (hv.crashed i hi)
      | some k =>
          obtain ⟨hne, hi⟩ : i ≠ k ∧ i ∈ v.crashed := by simpa [hr] using hi
          refine spawn_not_eligible hspawn ?_ (hv.crashed i hi)
          rw [hr]
          exact fun heq => hne (Option.some.inj heq).symm
  | run b =>
      cases h
      refine ⟨fun i hi => ?_, ?_⟩
      · show ¬ Eligible ((v.scheduler.run b).2.2.mTeam.mProcessList i)
        rw [UserProcessScheduler.run_eligible]
        exact hv.crashed i hi
      · show (v.rescheduled || _) = false
        rw [hv.off, Bool.false_or]
        apply Bool.eq_false_iff.mpr
        -- a process that is scheduled was eligible before the run
        intro hany
        obtain ⟨i, hi, hin⟩ := (Option.any_eq_true _ _).mp hany
        exact hv.crashed i (of_decide_eq_true hin) (passes_eligible hi)
  | fault f rsp =>
      cases h
      refine ⟨fun i hi => ?_, hv.off⟩
      show ¬ Eligible (v.scheduler.mTeam.mProcessList i)
      by_cases hrun : v.scheduler.mCurrentProcess.isRunning = true
      · cases hlast : v.last with
        | none => exact hv.crashed i (by simpa [hrun, hlast] using hi)
        | some k =>
            obtain rfl | hi : i = k ∨ i ∈ v.crashed := by simpa [hrun, hlast] using hi
            · exact hok hrun i hlast
            · exact hv.crashed i hi
      · exact hv.crashed i (by simpa [hrun] using hi)

/-! ## Runs after a crash -/

/-- A crashed process in a slot that is still eligible, on a team with processes. -/
structure Pending (v : ScheduleRun) (i : Slot) : Prop where
  crashed : i ∈ v.crashed
  eligible : Eligible (v.scheduler.mTeam.mProcessList i)
  cur : 1 ≤ v.scheduler.mTeam.mProcessCur

/-- How many calls of `Run` it takes from an index to the slot. -/
def ticksTo (processIndex : Nat) (i : Slot) : Nat :=
  if kCPSProcessLimitPerTeam < processIndex then i + 1
  else if processIndex < i then i - processIndex
  else kCPSProcessLimitPerTeam + 2 - processIndex + i

/-- What goes down with every call of `Run` until the process is handed over: a turn over all
indices for each unit of its time, and the way to its slot. -/
def ticksLeft (v : ScheduleRun) (i : Slot) : Nat :=
  (v.scheduler.mTeam.mProcessList i).pTime * (kCPSProcessLimitPerTeam + 2) +
    ticksTo v.scheduler.processIndex i

theorem ticksTo_next {s : UserProcessScheduler} (h : s.nextIndex ≠ i) :
    ticksTo s.nextIndex i + 1 = ticksTo s.processIndex i := by
  have hi : (i : Nat) < kCPSProcessLimitPerTeam := i.isLt
  unfold UserProcessScheduler.nextIndex ticksTo at *
  by_cases hover : kCPSProcessLimitPerTeam < s.processIndex
  · rw [if_pos hover] at h ⊢
    rw [if_neg (by omega), if_pos (by omega), if_pos hover]
    omega
  · rw [if_neg hover] at h ⊢
    rw [if_neg hover]
    by_cases hbelow : s.processIndex < i
    · rw [if_neg (by omega), if_pos (by omega), if_pos hbelow]
      omega
    · rw [if_neg hbelow]
      split
      · omega
      · rw [if_neg (by omega)]
        omega

theorem ticksTo_pos {p : Nat} : 1 ≤ ticksTo p i := by
  have hi : (i : Nat) < 32 := i.isLt
  have hlimit : kCPSProcessLimitPerTeam = 32 := rfl
  unfold ticksTo
  split
  · omega
  · split <;> omega

theorem ticksTo_self : ticksTo i i = kCPSProcessLimitPerTeam + 2 := by
  have hi : (i : Nat) < kCPSProcessLimitPerTeam := i.isLt
  unfold ticksTo
  rw [if_neg (by omega), if_neg (by omega)]
  omega

/-- A process that waits for its time has some left. -/
theorem Eligible.pTime_pos {p : UserProcess} (h : Eligible p) (hc : ¬ canBeScheduled p = true) :
    1 ≤ p.pTime := by
  by_contra hno
  exact hc (canBeScheduled_iff.mpr ⟨h, .inr (by omega)⟩)

/-- **A call of `Run` comes closer to a process that waits**: on the way to its slot it leaves the
time alone, and at the slot it takes one off. -/
theorem ticksLeft_run {b : Bool} (hcur : ¬ v.scheduler.mTeam.mProcessCur < 1)
    (hs : v'.scheduler = (v.scheduler.run b).2.2)
    (heligible : Eligible (v.scheduler.mTeam.mProcessList i))
    (hwaits : v.scheduler.nextIndex = i →
      ¬ canBeScheduled (v.scheduler.mTeam.mProcessList i) = true) :
    ticksLeft v' i < ticksLeft v i := by
  unfold ticksLeft
  rw [hs, UserProcessScheduler.run_processIndex hcur]
  by_cases hi : v.scheduler.nextIndex = i
  · have htime := heligible.pTime_pos (hwaits hi)
    have hslot : ((v.scheduler.run b).2.2.mTeam.mProcessList i).pTime =
        u64 ((v.scheduler.mTeam.mProcessList i).pTime + 2 ^ 64 - 1) := by
      rw [UserProcessScheduler.run_slot hcur hi, UserProcess.ticked, if_neg (hwaits hi),
        passedOver_pTime]
    have hless : u64 ((v.scheduler.mTeam.mProcessList i).pTime + 2 ^ 64 - 1) + 1 ≤
        (v.scheduler.mTeam.mProcessList i).pTime := by
      unfold u64
      omega
    have hpos := ticksTo_pos (p := v.scheduler.processIndex) (i := i)
    rw [hslot, hi, ticksTo_self]
    have hmul := Nat.mul_le_mul_right (kCPSProcessLimitPerTeam + 2) hless
    rw [Nat.add_mul, Nat.one_mul] at hmul
    omega
  · have hnext : ticksTo v.scheduler.nextIndex i + 1 = ticksTo v.scheduler.processIndex i :=
      ticksTo_next hi
    rw [UserProcessScheduler.run_other hi]
    omega

/-- A call of `Run` hands the process over or comes closer to it. -/
theorem Pending.run (h : Pending v i) : ∃ v', ScheduleStep v (.run false) v' ∧
    (v'.rescheduled = true ∨ (Pending v' i ∧ ticksLeft v' i < ticksLeft v i)) := by
  refine ⟨_, rfl, ?_⟩
  have hcur : ¬ v.scheduler.mTeam.mProcessCur < 1 := not_lt.mpr h.cur
  have hteam : 1 ≤ (v.scheduler.run false).2.2.mTeam.mProcessCur := by
    rw [UserProcessScheduler.run_mProcessCur]
    exact h.cur
  have heligible := (UserProcessScheduler.run_eligible (b := false) i).mpr h.eligible
  by_cases hhanded : v.scheduler.nextIndex = i ∧
      canBeScheduled (v.scheduler.mTeam.mProcessList i) = true
  · obtain ⟨hi, hc⟩ := hhanded
    left
    show (v.rescheduled || (passes (v.scheduler.run false).2.1).any (· ∈ v.crashed)) = true
    have hpasses : passes (some (i : Nat)) = some i := slot?_val i
    rw [← UserProcessScheduler.asArray_slot, ← hi] at hc
    rw [UserProcessScheduler.run_scheduled hcur hc, hi, hpasses]
    simp [h.crashed]
  · right
    exact ⟨⟨h.crashed, heligible, hteam⟩,
      ticksLeft_run hcur rfl h.eligible fun hi hc => hhanded ⟨hi, hc⟩⟩

/-- So enough calls of `Run` hand it over. -/
theorem Pending.handed {n : Nat} (h : Pending v i) (hn : ticksLeft v i ≤ n) :
    ∃ w, Reach ScheduleStep (fun _ c => ∃ b, c = .run b) v w ∧ w.rescheduled = true := by
  induction n generalizing v with
  | zero =>
      have hpos := ticksTo_pos (p := v.scheduler.processIndex) (i := i)
      unfold ticksLeft at hn
      omega
  | succ n ih =>
      obtain ⟨v', hstep, hdone | ⟨h', hless⟩⟩ := h.run
      · exact ⟨v', .step _ .init ⟨false, rfl⟩ hstep, hdone⟩
      · obtain ⟨w, hreach, hw⟩ := ih h' (by omega)
        exact ⟨w, (Reach.step _ .init ⟨false, rfl⟩ hstep).trans hreach, hw⟩

/-- **A crashed process stays off the processor when its slot was not eligible at the fault, and
only then.** In a run whose faults spare eligible slots no crashed process is handed to `Switch`;
and after a fault that crashes the process of an eligible slot enough calls of `Run` hand it
over. -/
theorem crashed_off_iff_spared (s : UserProcessScheduler) :
    (∀ v, Reach ScheduleStep SparesEligible (.start s) v → v.rescheduled = false) ∧
      ∀ v f rsp v', Reachable ScheduleStep (.start s) v → ScheduleStep v (.fault f rsp) v' →
        1 ≤ v.scheduler.mTeam.mProcessCur → ¬ SparesEligible v (.fault f rsp) →
          ∃ w, Reach ScheduleStep (fun _ c => ∃ b, c = .run b) v' w ∧ w.rescheduled = true := by
  constructor
  · intro v hreach
    exact (hreach.inv (I := Settled) settled_start fun _ _ _ hv hok hst => hst.settled hv hok).off
  · intro v f rsp v' _ hst hcur hno
    unfold SparesEligible at hno
    push Not at hno
    obtain ⟨hrun, i, hlast, heligible⟩ := hno
    have hpending : Pending v' i := by
      unfold ScheduleStep at hst
      cases hst
      refine ⟨?_, heligible, hcur⟩
      show i ∈ if _ then _ else _
      rw [if_pos hrun, hlast]
      exact Finset.mem_insert_self i _
    exact hpending.handed (Nat.le_refl _)

/-- The scheduler as a zeroed global. -/
def zeroScheduler : UserProcessScheduler := ⟨zeroTeam, zeroProcess, zeroProcess, 0⟩

/-- A spawn of `"a"`. -/
def spawnA : ScheduleCall := .spawn (some [0x61]) 1 0 0 ⟨0, 1, 1⟩

/-- Spawn two processes, let `Run` switch to the second one and let it fault: later calls of `Run`
hand it to `Switch` again. -/
theorem crashed_runs_again : ∃ v w, Reachable ScheduleStep (.start zeroScheduler) v ∧
    v.crashed = {1} ∧ Reach ScheduleStep (fun _ c => ∃ b, c = .run b) v w ∧
      w.rescheduled = true := by
  obtain ⟨v, hcrash, hpending, hv⟩ : ∃ v, Reachable ScheduleStep (.start zeroScheduler) v ∧
      Pending v 1 ∧ v.crashed = {1} := by
    refine ⟨_, .step (.fault .gpf 0) (.step (.run true) (.step spawnA (.step spawnA .init trivial
      rfl) trivial rfl) trivial rfl) trivial rfl, ⟨?_, ?_, ?_⟩, ?_⟩
    · decide
    · show canBeScheduled _ = true
      decide
    · decide
    · decide
  obtain ⟨w, hruns, hw⟩ := hpending.handed (Nat.le_refl _)
  exact ⟨v, w, hcrash, hv, hruns, hw⟩

end NeKernel.Scheduler
