import NeKernel.Scheduler.BinaryMutex
import NeKernel.Scheduler.Indices

/-!
# The times of a process

`Run` keeps four unsigned times in a process. It takes something off one of them only: one from
`PTime` of a process it passes over, and the cooldown from `PTime` after a switch. Neither looks
whether that much is there. A process with no time left that is passed over for another reason has
nothing to take one off, and the cooldown is only taken when `PTime` is below it
(`wrapsBelow_iff`).

What waits for its time alone has some, so such a process is scheduled after finitely many calls of
`Run` whatever else happens (`waits_bounded`); how many depends on its `PTime`.
-/

namespace NeKernel.Scheduler

open Runs

/-! ## What is taken off -/

/-- `RTime` when the cooldown is taken. -/
def UserProcess.cooldown (process : UserProcess) : Nat :=
  if process.rTime < AffinityKind.kVeryHigh.toNat then
    process.rTime + AffinityKind.kLowUsage.toNat
  else if process.rTime < AffinityKind.kHigh.toNat then
    process.rTime + AffinityKind.kStandard.toNat
  else if process.rTime < AffinityKind.kStandard.toNat then
    process.rTime + AffinityKind.kHigh.toNat
  else process.rTime

/-- `PTime` and what a call of `Run` takes off it, if it takes something off. -/
def takenOff (switch : Bool) (process : UserProcess) : Option (Nat × Nat) :=
  if canBeScheduled process then
    let process := process.scheduled
    if switch ∧ process.pTime < process.rTime ∧ process.affinity ≠ .kUltraHigh then
      some (process.pTime, process.cooldown)
    else none
  else some (process.pTime, 1)

/-- A time that nothing is taken off: it stays or goes up, or back to zero. -/
def Grows (t t' : Nat) : Prop := t ≤ t' ∨ t' = u64 (t + 1) ∨ t' = 0

/-- A call of `Run` takes more off `PTime` than there is, or something off another time. -/
def WrapsBelow (switch : Bool) (process : UserProcess) : Prop :=
  (∃ x ∈ takenOff switch process, x.1 < x.2) ∨
    ¬ (Grows process.rTime (process.ticked switch).rTime ∧
      Grows process.uTime (process.ticked switch).uTime ∧
      Grows process.sTime (process.ticked switch).sTime)

/-- There is something to take off: a process that is passed over has time left, and one that is
switched to is exempt from the cooldown, or its boost is as long as it has run. -/
def Spared (switch : Bool) (process : UserProcess) : Prop :=
  if canBeScheduled process then
    switch = true → process.affinity = .kUltraHigh ∨
      process.rTime ≤ min (process.sTime / 10) AffinityKind.kHigh.toNat
  else process.pTime ≠ 0

section

variable {p : UserProcess} {b : Bool}

/-- What a call takes off is gone from `PTime`, modulo `2 ^ 64`. -/
theorem ticked_takenOff {x : Nat × Nat} (h : x ∈ takenOff b p) :
    (p.ticked b).pTime = u64 (x.1 + 2 ^ 64 - x.2) := by
  unfold takenOff at h
  unfold UserProcess.ticked
  split at h
  · next hc =>
      dsimp only at h
      split at h
      · next hcool =>
          cases h
          rw [if_pos hc, if_pos hcool.1, UserProcess.switched, if_pos hcool.2]
          rfl
      · cases h
  · next hc =>
      cases h
      rw [if_neg hc]
      exact passedOver_pTime

theorem scheduled_affinity : p.scheduled.affinity = p.affinity := by
  obtain ⟨_, _, _, _, h⟩ := onlyTimes_scheduled (p := p)
  rw [h]

/-- The times before the switch. -/
theorem scheduled_grows : p.scheduled.rTime = p.rTime ∧ Grows p.uTime p.scheduled.uTime ∧
    Grows p.sTime p.scheduled.sTime := by
  unfold UserProcess.scheduled Grows
  split <;> dsimp only <;> split <;> simp

theorem switched_grows : (p.switched.rTime = p.rTime ∨ p.switched.rTime = 0) ∧
    p.switched.uTime = p.uTime ∧ p.switched.sTime = p.sTime := by
  unfold UserProcess.switched
  split
  · exact ⟨.inr rfl, rfl, rfl⟩
  · split <;> exact ⟨.inl rfl, rfl, rfl⟩

theorem passedOver_grows : p.passedOver.rTime = u64 (p.rTime + 1) ∧
    p.passedOver.uTime = p.uTime ∧ Grows p.sTime p.passedOver.sTime := by
  unfold UserProcess.passedOver Grows
  dsimp only
  split <;> simp

/-- **Nothing is taken off the other times.** -/
theorem ticked_grows : Grows p.rTime (p.ticked b).rTime ∧ Grows p.uTime (p.ticked b).uTime ∧
    Grows p.sTime (p.ticked b).sTime := by
  obtain ⟨hr, hu, hs⟩ := scheduled_grows (p := p)
  unfold UserProcess.ticked
  split
  · split
    · obtain ⟨hr', hu', hs'⟩ := switched_grows (p := p.scheduled)
      rw [hu', hs']
      refine ⟨?_, hu, hs⟩
      rw [hr] at hr'
      exact hr'.imp (fun h => h.ge) .inr
    · exact ⟨.inl hr.ge, hu, hs⟩
  · obtain ⟨hr', hu', hs'⟩ := passedOver_grows (p := p)
    exact ⟨.inr (.inl hr'), .inl hu'.ge, hs'⟩

/-- The boost, as long as the time of a process is up. -/
theorem scheduled_pTime (hc : canBeScheduled p = true) (ha : p.affinity ≠ .kUltraHigh) :
    p.scheduled.pTime = min (p.sTime / 10) AffinityKind.kHigh.toNat := by
  have hzero : p.pTime = 0 := by
    have := (canBeScheduled_iff.mp hc).2.resolve_left ha
    omega
  have hboost : (if AffinityKind.kHigh.toNat < p.sTime / 10 then AffinityKind.kHigh.toNat
      else p.sTime / 10) = min (p.sTime / 10) AffinityKind.kHigh.toNat := by
    split <;> omega
  have hsmall : min (p.sTime / 10) AffinityKind.kHigh.toNat < 2 ^ 64 :=
    lt_of_le_of_lt (Nat.min_le_right _ _) (by decide)
  unfold UserProcess.scheduled
  simp only [hzero, Nat.not_lt_zero, if_false]
  split
  · rw [hboost, Nat.zero_add, u64_of_lt hsmall]
  · next hs =>
      have hnone : p.sTime = 0 := by omega
      rw [hnone, hzero]
      rfl

/-- The cooldown is no less than the time the process has run. -/
theorem rTime_le_cooldown : p.rTime ≤ p.cooldown := by
  unfold UserProcess.cooldown
  split
  · exact Nat.le_add_right _ _
  · split
    · exact Nat.le_add_right _ _
    · split
      · exact Nat.le_add_right _ _
      · exact Nat.le_refl _

/-- **A call of `Run` wraps `PTime` exactly when the process is not spared.** -/
theorem wrapsBelow_iff : WrapsBelow b p ↔ ¬ Spared b p := by
  rw [WrapsBelow, or_iff_left (not_not.mpr ticked_grows)]
  unfold takenOff Spared
  by_cases hc : canBeScheduled p = true
  · simp only [if_pos hc]
    by_cases ha : p.affinity = .kUltraHigh
    · simp [scheduled_affinity, ha]
    · -- the cooldown is only taken when it is more than there is
      have hmore : p.scheduled.pTime < p.scheduled.rTime →
          p.scheduled.pTime < p.scheduled.cooldown :=
        fun h => lt_of_lt_of_le h rTime_le_cooldown
      rw [scheduled_pTime hc ha, scheduled_grows.1] at *
      generalize min (p.sTime / 10) AffinityKind.kHigh.toNat = boost at *
      by_cases hb : b = true
      · by_cases hlt : boost < p.rTime
        · simp [scheduled_affinity, ha, hb, hlt, hmore hlt]
        · simp [scheduled_affinity, ha, hb, hlt, not_lt.mp hlt]
      · simp [hb]
  · simp only [if_neg hc, Option.mem_def, Option.some.injEq, exists_eq_left']
    omega

end

/-! ## Runs -/

/-- A call of `Run`, a wake or a freeze, or a change of an affinity. -/
inductive TimesCall where
  | run (switch : Bool)
  | wake (j : Slot) (shouldWakeup : Bool)
  | setAffinity (j : Slot) (affinity : AffinityKind)

def TimesCall.apply (s : UserProcessScheduler) : TimesCall → UserProcessScheduler
  | .run switch => (s.run switch).2.2
  | .wake j shouldWakeup => s.setArray j ((s.asArray j).wake shouldWakeup)
  | .setAffinity j affinity => s.setArray j { s.asArray j with affinity := affinity }

/-- What `Switch` answers in a call of `Run` that comes to the slot. -/
def tickOf (i : Slot) (s : UserProcessScheduler) : TimesCall → Option Bool
  | .run switch => if ¬ s.mTeam.mProcessCur < 1 ∧ s.nextIndex = i then some switch else none
  | _ => none

/-- A scheduler, and whether a time of the process in the slot has wrapped. -/
structure TimesRun where
  scheduler : UserProcessScheduler
  wrapped : Prop

def TimesStep (i : Slot) (v : TimesRun) (c : TimesCall) (v' : TimesRun) : Prop :=
  v' = ⟨c.apply v.scheduler, v.wrapped ∨
    ∃ b ∈ tickOf i v.scheduler c, WrapsBelow b (v.scheduler.mTeam.mProcessList i)⟩

/-- The call spares the process in the slot. -/
def Spares (i : Slot) (v : TimesRun) (c : TimesCall) : Prop :=
  ∀ b ∈ tickOf i v.scheduler c, Spared b (v.scheduler.mTeam.mProcessList i)

/-- The process is waiting for its time, and for nothing else. -/
def Waiting (p : UserProcess) : Prop := Eligible p ∧ ¬ canBeScheduled p = true

/-- The process in the slot is waiting at each of the calls. -/
def Waits (i : Slot) : UserProcessScheduler → List TimesCall → Prop
  | _, [] => True
  | s, c :: cs => Waiting (s.mTeam.mProcessList i) ∧ Waits i (c.apply s) cs

/-- How many of the calls are calls of `Run`. -/
def runsIn : List TimesCall → Nat
  | [] => 0
  | .run _ :: cs => runsIn cs + 1
  | _ :: cs => runsIn cs

section

variable {i j : Slot} {s : UserProcessScheduler} {p : UserProcess} {v : TimesRun}

theorem apply_mProcessCur (c : TimesCall) :
    (c.apply s).mTeam.mProcessCur = s.mTeam.mProcessCur := by
  cases c with
  | run b => exact UserProcessScheduler.run_mProcessCur
  | wake j b => exact UserProcessScheduler.setArray_mProcessCur
  | setAffinity j a => exact UserProcessScheduler.setArray_mProcessCur

/-- A change of a process that leaves its time alone brings nothing closer and nothing away. -/
theorem ticksLeft_setArray (hp : p.pTime = (s.mTeam.mProcessList j).pTime) :
    ticksLeft (.start (s.setArray j p)) i = ticksLeft (.start s) i := by
  show ((s.setArray j p).mTeam.mProcessList i).pTime * _ + ticksTo (s.setArray j p).processIndex i =
    _
  rw [UserProcessScheduler.setArray_processIndex]
  by_cases hji : (j : Nat) = i
  · obtain rfl : j = i := Fin.ext hji
    rw [UserProcessScheduler.setArray_self, hp]
    rfl
  · rw [UserProcessScheduler.setArray_other hji]
    rfl

/-- **What waits for its time alone waits for finitely many calls of `Run`**, whatever happens in
between. -/
theorem waits_bounded {cs : List TimesCall} (hcur : 1 ≤ s.mTeam.mProcessCur)
    (h : Waits i s cs) : runsIn cs ≤ ticksLeft (.start s) i := by
  induction cs generalizing s with
  | nil => exact Nat.zero_le _
  | cons c cs ih =>
      obtain ⟨hwait, hrest⟩ := h
      have hih := ih (by rw [apply_mProcessCur]; exact hcur) hrest
      cases c with
      | run b =>
          have hless : ticksLeft (.start (s.run b).2.2) i < ticksLeft (.start s) i :=
            ticksLeft_run (not_lt.mpr hcur) rfl hwait.1 fun _ => hwait.2
          exact lt_of_le_of_lt hih hless
      | wake j b =>
          refine hih.trans_eq (ticksLeft_setArray ?_)
          rw [UserProcessScheduler.asArray_slot]
          rfl
      | setAffinity j a =>
          refine hih.trans_eq (ticksLeft_setArray ?_)
          rw [UserProcessScheduler.asArray_slot]

/-- A step wraps a time exactly when it does not spare the process. -/
theorem TimesStep.wrapped_iff {v' : TimesRun} {c : TimesCall} (h : TimesStep i v c v')
    (hv : ¬ v.wrapped) : ¬ v'.wrapped ↔ Spares i v c := by
  unfold TimesStep at h
  subst h
  unfold Spares
  simp only [hv, false_or, not_exists, not_and, wrapsBelow_iff, not_not]

/-- **No time of a process wraps exactly as long as every call spares it**: in every run of such
calls none has wrapped, and the next call keeps it so if and only if it spares the process too. And
a process that waits for its time alone waits for finitely many calls of `Run`. -/
theorem times_spared_iff (i : Slot) (s₀ : UserProcessScheduler)
    (h : Reach (TimesStep i) (Spares i) ⟨s₀, False⟩ v) :
    ¬ v.wrapped ∧ (∀ c v', TimesStep i v c v' → (¬ v'.wrapped ↔ Spares i v c)) ∧
      (1 ≤ v.scheduler.mTeam.mProcessCur → ∀ cs, Waits i v.scheduler cs →
        runsIn cs ≤ ticksLeft (.start v.scheduler) i) := by
  have hinv : ¬ v.wrapped := by
    refine h.inv (I := fun v => ¬ v.wrapped) not_false fun v c v' hv hok hst => ?_
    exact (hst.wrapped_iff hv).mpr hok
  exact ⟨hinv, fun c v' hst => hst.wrapped_iff hinv, fun hcur cs => waits_bounded hcur⟩

end

/-- Two processes `"a"`. -/
def twoProcesses : UserProcessScheduler :=
  ((zeroScheduler.spawn (some [0x61]) 1 0 0 ⟨0, 1, 1⟩).2.2.spawn (some [0x61]) 1 0 0
    ⟨0, 1, 1⟩).2.2

/-- The second one is switched to. -/
theorem times_spared_iff_run : ∃ v : TimesRun, v.scheduler = (twoProcesses.run true).2.2 ∧
    ¬ v.wrapped ∧ (∀ c v', TimesStep 1 v c v' → (¬ v'.wrapped ↔ Spares 1 v c)) ∧
      (1 ≤ v.scheduler.mTeam.mProcessCur → ∀ cs, Waits 1 v.scheduler cs →
        runsIn cs ≤ ticksLeft (.start v.scheduler) 1) := by
  refine ⟨_, ?_, times_spared_iff 1 twoProcesses (.step (.run true) .init ?_ rfl)⟩
  · rfl
  · intro b hb
    show if canBeScheduled (twoProcesses.mTeam.mProcessList 1) = true then _ else _
    rw [if_pos (by decide)]
    exact fun _ => .inr (by decide)

/-- It is frozen and passed over: its time is `2 ^ 64 - 1`. -/
theorem frozen_wraps : ∃ v, Reachable (TimesStep 1) ⟨twoProcesses, False⟩ v ∧ v.wrapped ∧
    (v.scheduler.mTeam.mProcessList 1).pTime = 2 ^ 64 - 1 := by
  refine ⟨_, .step (.run true) (.step (.wake 1 false) .init trivial rfl) trivial rfl,
    .inr ⟨true, rfl, wrapsBelow_iff.mpr ?_⟩, ?_⟩
  · unfold Spared
    rw [if_neg (by decide)]
    exact not_not.mpr rfl
  · decide

end NeKernel.Scheduler
