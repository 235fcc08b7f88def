import NeKernel.Scheduler.Faults

/-!
# Indices into the team

`AsArray()` does not check an index. Whoever uses one has a comparison of his own: `Spawn` compares
the counter, `Remove` the id it is given, and `Run` turns an index of its own over. Here the three
operations run with whatever index they come up with and report every index they use. The array
ends at 31 and the comparisons let 32 pass, the one of `Run` 33 too: indices and ids stay in the
array exactly as long as no call comes up with one of these (`indices_inRange_iff`).
-/

namespace NeKernel.Scheduler

open Runs

/-- The place in the array an id indexes, after its conversion to `SizeT`. -/
def toIndex (pid : Int) : Nat := (pid % 2 ^ 64).toNat

namespace UserProcessScheduler

/-- A change of `mProcessCur`. -/
def addCur (s : UserProcessScheduler) (d : Int) : UserProcessScheduler :=
  { s with mTeam := { s.mTeam with mProcessCur := int64 (s.mTeam.mProcessCur + d) } }

/-- `Spawn`: what it returns, the indices it uses, and the scheduler after it. -/
def spawn (s : UserProcessScheduler) (name : Option (List UInt8)) (code image imageSz : Nat)
    (env : SpawnEnv) : Int × List Int × UserProcessScheduler :=
  match name with
  | none => (-kErrorProcessFault, [], s)
  | some name =>
    if code = 0 ∨ name = [] then (-kErrorProcessFault, [], s)
    else
      let pid := s.mTeam.mProcessCur
      if pid > kCPSProcessLimitPerTeam then (-kErrorProcessFault, [], s)
      else
        let s := s.addCur 1
        let r := fillSlot (s.asArray (toIndex pid)) name code image imageSz pid env
        (r.1, [pid], s.setArray (toIndex pid) r.2)

/-- `UserProcess::Exit` on the process at place `i`. -/
def exit (s : UserProcessScheduler) (i : Nat) (exitCode : Int) (finiDylib : Bool) :
    Option UserProcessScheduler :=
  if (s.asArray i).hasParent then
    ((s.asArray i).exit exitCode finiDylib).map fun p => (s.setArray i p).addCur (-1)
  else none

/-- `Remove`: the indices it uses and the scheduler after it. -/
def remove (s : UserProcessScheduler) (processId : Int) (finiDylib : Bool) :
    List Int × Option UserProcessScheduler :=
  if processId < 0 ∨ processId > kCPSProcessLimitPerTeam then ([], some s)
  else if (s.asArray (toIndex processId)).status = .kInvalid then ([processId], some s)
  else ([processId], s.exit (toIndex processId) kErrorSuccess finiDylib)

/-- The indices of a call of `Run`: its own, and after a switch the `ProcessId` that
`UserProcessHelper::Switch` reads the time of. -/
def runIndices (s : UserProcessScheduler) (switch : Bool) : List Int :=
  if s.mTeam.mProcessCur < 1 then []
  else
    let process := s.asArray s.nextIndex
    (s.nextIndex : Int) ::
      if canBeScheduled process && switch then [process.processId] else []

end UserProcessScheduler

/-! ## Inside the array -/

/-- `Spawn` refuses the call before it raises the counter. -/
def Refused (t : UserProcessTeam) (name : Option (List UInt8)) (code : Nat) : Prop :=
  name = none ∨ code = 0 ∨ name = some [] ∨ kCPSProcessLimitPerTeam < t.mProcessCur

section

variable {s s' : UserProcessScheduler} {name : Option (List UInt8)} {code image imageSz : Nat}
  {env : SpawnEnv} {i j : Slot} {pid : Int} {p q : UserProcess} {fini : Bool}

theorem toIndex_slot (i : Slot) : toIndex (i : Nat) = i := by
  have hi : (i : Nat) < 32 := i.isLt
  unfold toIndex
  omega

@[simp] theorem UserProcessScheduler.asArray_addCur {d : Int} {k : Nat} :
    (s.addCur d).asArray k = s.asArray k := rfl

/-- The two ways of a spawn: refused at the door, or it fills the place the counter names. -/
theorem UserProcessScheduler.spawn_cases (s : UserProcessScheduler) (name : Option (List UInt8))
    (code image imageSz : Nat) (env : SpawnEnv) :
    (Refused s.mTeam name code ∧
      s.spawn name code image imageSz env = (-kErrorProcessFault, [], s)) ∨
    (¬ Refused s.mTeam name code ∧ ∃ n, name = some n ∧ ∃ r,
      fillSlot (s.asArray (toIndex s.mTeam.mProcessCur)) n code image imageSz
        s.mTeam.mProcessCur env = r ∧
      s.spawn name code image imageSz env = (r.1, [s.mTeam.mProcessCur],
        (s.addCur 1).setArray (toIndex s.mTeam.mProcessCur) r.2)) := by
  cases name with
  | none => exact .inl ⟨.inl rfl, rfl⟩
  | some n =>
      unfold UserProcessScheduler.spawn
      by_cases hdoor : code = 0 ∨ n = []
      · left
        refine ⟨.inr ?_, by simp only [if_pos hdoor]⟩
        exact hdoor.imp id fun h => .inl (congrArg some h)
      by_cases hfull : s.mTeam.mProcessCur > kCPSProcessLimitPerTeam
      · left
        exact ⟨.inr (.inr (.inr hfull)), by simp only [if_neg hdoor, if_pos hfull]⟩
      · right
        refine ⟨?_, n, rfl, _, rfl, by simp only [if_neg hdoor, if_neg hfull, asArray_addCur]⟩
        rintro (h | h | h | h)
        · cases h
        · exact hdoor (.inl h)
        · exact hdoor (.inr (Option.some.inj h))
        · exact hfull h

/-- In the array it is the spawn of a team. -/
theorem UserProcessScheduler.spawn_checked (hi : slot? s.mTeam.mProcessCur = some i) :
    Scheduler.spawn s.mTeam name code image imageSz env =
      some ((s.spawn name code image imageSz env).1,
        (s.spawn name code image imageSz env).2.2.mTeam) := by
  cases name with
  | none => rfl
  | some n =>
      have hidx : toIndex s.mTeam.mProcessCur = i := by
        rw [slot?_eq_some hi, toIndex_slot]
      unfold Scheduler.spawn UserProcessScheduler.spawn
      simp only [hi, hidx]
      split
      · rfl
      · split
        · rfl
        · rw [UserProcessScheduler.asArray_slot, UserProcessScheduler.setArray, dif_pos i.isLt]
          rfl

/-- What a spawn returns: an error code or the counter. -/
theorem fillSlot_result {n : List UInt8} :
    ((fillSlot p n code image imageSz pid env).1 = -kErrorProcessFault ∨
      (fillSlot p n code image imageSz pid env).1 = -kErrorHeapOutOfMemory) ∨
    (fillSlot p n code image imageSz pid env).1 = pid := by
  unfold fillSlot
  dsimp only
  split
  · exact .inl (.inl rfl)
  · split
    · exact .inl (.inl rfl)
    · split
      · split
        · exact .inl (.inr rfl)
        · exact .inr rfl
      · exact .inr rfl

theorem fillSlot_processId {n : List UInt8} :
    (fillSlot p n code image imageSz pid env).2.processId = p.processId ∨
      (fillSlot p n code image imageSz pid env).2.processId = pid := by
  unfold fillSlot
  dsimp only
  split
  · exact .inl rfl
  · split
    · left
      unfold UserProcess.crash
      split <;> rfl
    · right
      split
      · split
        · unfold UserProcess.crash
          split <;> rfl
        · rfl
      · rfl

/-- A slot that can be scheduled after a spawn has the new id, or could be scheduled before and has
its old one. -/
theorem fillSlot_eligible {n : List UInt8} (h₀ : 0 ≤ pid)
    (h : Eligible (fillSlot p n code image imageSz pid env).2) :
    (fillSlot p n code image imageSz pid env).2.processId = pid ∨
      (Eligible p ∧
        (fillSlot p n code image imageSz pid env).2.processId = p.processId) := by
  rcases fillSlot_cases p n code image imageSz pid env with hneg | ⟨-, hid⟩
  · have hids : (fillSlot p n code image imageSz pid env).2.processId = p.processId ∨
        (fillSlot p n code image imageSz pid env).2.processId = pid := fillSlot_processId
    rcases hids with hid | hid
    · refine .inr ⟨?_, hid⟩
      by_contra hno
      exact fillSlot_not_eligible (by omega) hno h
    · exact .inl hid
  · exact .inl hid

theorem exit_processId {c : Int} (h : p.exit c fini = some q) : q.processId = 0 := by
  unfold UserProcess.exit at h
  dsimp only at h
  split at h
  · cases h
  · cases h
    rfl

end

/-! ## Runs of calls -/

inductive IndexCall where
  | spawn (name : Option (List UInt8)) (code image imageSz : Nat) (env : SpawnEnv)
  | remove (processId : Int) (finiDylib : Bool)
  | run (switch : Bool)

/-- `0 ≤ i < kCPSProcessLimitPerTeam`. -/
def InRange (i : Int) : Prop := 0 ≤ i ∧ i < kCPSProcessLimitPerTeam

/-- One call: the indices it uses, the id if it is a spawn that returns none of the error codes,
and the scheduler after it (`none` when the call stops the kernel). -/
def IndexCall.apply (s : UserProcessScheduler) :
    IndexCall → List Int × List Int × Option UserProcessScheduler
  | .spawn name code image imageSz env =>
      let r := s.spawn name code image imageSz env
      (r.2.1, if r.1 = -kErrorProcessFault ∨ r.1 = -kErrorHeapOutOfMemory then [] else [r.1],
        some r.2.2)
  | .remove processId fini => ((s.remove processId fini).1, [], (s.remove processId fini).2)
  | .run switch => (s.runIndices switch, [], some (s.run switch).2.2)

/-- Every index the call uses lies in the array, and so does the id it returns. -/
def InBounds (s : UserProcessScheduler) (c : IndexCall) : Prop :=
  (∀ i ∈ (c.apply s).1, InRange i) ∧ ∀ id ∈ (c.apply s).2.1, InRange id

/-- The call does not come up with an index that only the comparison lets pass. -/
def Within (s : UserProcessScheduler) : IndexCall → Prop
  | .spawn name code _ _ _ => Refused s.mTeam name code ∨
      (0 ≤ s.mTeam.mProcessCur ∧ s.mTeam.mProcessCur ≠ kCPSProcessLimitPerTeam)
  | .remove processId _ => processId ≠ kCPSProcessLimitPerTeam
  | .run _ => s.mTeam.mProcessCur < 1 ∨
      (s.processIndex ≠ kCPSProcessLimitPerTeam - 1 ∧ s.processIndex ≠ kCPSProcessLimitPerTeam)

/-- A scheduler and what its calls have used and returned so far. -/
structure IndexRun where
  scheduler : UserProcessScheduler
  indices : List Int
  ids : List Int

def IndexStep (v : IndexRun) (c : IndexCall) (v' : IndexRun) : Prop :=
  ∃ s, (c.apply v.scheduler).2.2 = some s ∧
    v' = ⟨s, v.indices ++ (c.apply v.scheduler).1, v.ids ++ (c.apply v.scheduler).2.1⟩

/-- A scheduler before its first call. -/
structure FreshScheduler (s : UserProcessScheduler) : Prop extends EmptyTeam s.mTeam where
  affinity : ∀ i, (s.mTeam.mProcessList i).affinity ≠ .kUltraHigh
  processIndex : s.processIndex = 0

/-- Every slot that can be scheduled carries the id of a slot. -/
def IdsInRange (s : UserProcessScheduler) : Prop :=
  ∀ i, Eligible (s.mTeam.mProcessList i) → InRange (s.mTeam.mProcessList i).processId

section

variable {s s' : UserProcessScheduler} {c : IndexCall} {i j : Slot} {p : UserProcess}

theorem inRange_slot (i : Slot) : InRange (i : Nat) := by
  have hi : (i : Nat) < kCPSProcessLimitPerTeam := i.isLt
  unfold InRange
  omega

theorem inRange_iff {k : Int} (h₀ : 0 ≤ k) (h : k ≤ kCPSProcessLimitPerTeam) :
    InRange k ↔ k ≠ kCPSProcessLimitPerTeam := by
  unfold InRange
  omega

theorem IdsInRange.setArray (hs : IdsInRange s)
    (hp : Eligible p → InRange p.processId) (k : Nat) : IdsInRange (s.setArray k p) := by
  intro j hj
  by_cases hkj : k = j
  · subst hkj
    rw [UserProcessScheduler.setArray_self] at hj ⊢
    exact hp hj
  · rw [UserProcessScheduler.setArray_other hkj] at hj ⊢
    exact hs j hj

/-- **A call stays in the array exactly when it is within.** -/
theorem inBounds_iff (hs : IdsInRange s) (c : IndexCall) : InBounds s c ↔ Within s c := by
  cases c with
  | spawn name code image imageSz env =>
      unfold InBounds Within IndexCall.apply
      rcases s.spawn_cases name code image imageSz env with ⟨hno, h⟩ | ⟨hgo, n, rfl, r, hr, h⟩
      · simp [h, hno]
      · have hle : s.mTeam.mProcessCur ≤ kCPSProcessLimitPerTeam := by
          by_contra hlt
          exact hgo (.inr (.inr (.inr (not_le.mp hlt))))
        -- the id, when there is one, is the index that was used
        have hid : InRange s.mTeam.mProcessCur →
            ∀ id ∈ (if r.1 = -kErrorProcessFault ∨ r.1 = -kErrorHeapOutOfMemory then []
              else [r.1]), InRange id := by
          intro hin id hmem
          split at hmem
          · simp at hmem
          · next hno =>
              rw [List.mem_singleton] at hmem
              have hpid : r.1 = s.mTeam.mProcessCur := hr ▸ fillSlot_result.resolve_left (hr ▸ hno)
              rw [hmem, hpid]
              exact hin
        simp only [h, List.mem_singleton, forall_eq, hgo, false_or]
        constructor
        · intro hin
          exact ⟨hin.1.1, (inRange_iff hin.1.1 hle).mp hin.1⟩
        · intro hcur
          have hin := (inRange_iff hcur.1 hle).mpr hcur.2
          exact ⟨hin, hid hin⟩
  | remove processId fini =>
      unfold InBounds Within IndexCall.apply UserProcessScheduler.remove
      simp only [List.not_mem_nil, false_imp_iff, implies_true, and_true]
      split
      · next hout =>
          simp only [List.not_mem_nil, false_imp_iff, implies_true, true_iff]
          omega
      · next hin =>
          have hlt : 0 ≤ processId ∧ processId ≤ kCPSProcessLimitPerTeam := by omega
          split <;> simp only [List.mem_singleton, forall_eq, inRange_iff hlt.1 hlt.2]
  | run b =>
      unfold InBounds Within IndexCall.apply UserProcessScheduler.runIndices
      simp only [List.not_mem_nil, false_imp_iff, implies_true, and_true]
      split
      · next hidle => simp [hidle]
      · next hcur =>
          simp only [hcur, false_or, List.mem_cons, forall_eq_or_imp]
          have hnext : InRange s.nextIndex ↔ (s.processIndex ≠ kCPSProcessLimitPerTeam - 1 ∧
              s.processIndex ≠ kCPSProcessLimitPerTeam) := by
            have hlimit : kCPSProcessLimitPerTeam = 32 := rfl
            unfold InRange UserProcessScheduler.nextIndex
            split <;> omega
          rw [hnext]
          refine and_iff_left_of_imp fun hwithin id hmem => ?_
          -- the id that `Switch` uses is the one of a process that was scheduled
          split at hmem
          · next hc =>
              obtain ⟨-, hlt⟩ := hnext.mpr hwithin
              obtain ⟨i, hi⟩ : ∃ i : Slot, (i : Nat) = s.nextIndex :=
                ⟨⟨s.nextIndex, by exact_mod_cast hlt⟩, rfl⟩
              rw [← hi, UserProcessScheduler.asArray_slot] at hc hmem
              rw [Bool.and_eq_true] at hc
              rw [List.mem_singleton.mp hmem]
              exact hs i (canBeScheduled_iff.mp hc.1).1
          · simp at hmem

/-- A call that is within leaves ids in range. -/
theorem IdsInRange.apply (hs : IdsInRange s) (hc : Within s c)
    (h : (c.apply s).2.2 = some s') : IdsInRange s' := by
  cases c with
  | spawn name code image imageSz env =>
      simp only [IndexCall.apply, Option.some.injEq] at h
      subst h
      rcases s.spawn_cases name code image imageSz env with ⟨-, h⟩ | ⟨hgo, n, rfl, r, rfl, h⟩
      · rw [h]
        exact hs
      · rw [h]
        obtain ⟨h₀, hne⟩ := hc.resolve_left hgo
        -- a spawn that goes through has met the limit, so the counter names a slot
        have hcur : InRange s.mTeam.mProcessCur := by
          refine (inRange_iff h₀ ?_).mpr hne
          by_contra hlt
          exact hgo (.inr (.inr (.inr (not_le.mp hlt))))
        obtain ⟨i, hi⟩ : ∃ i : Slot, s.mTeam.mProcessCur = (i : Nat) :=
          ⟨⟨s.mTeam.mProcessCur.toNat, by unfold InRange at hcur; omega⟩, by simp; omega⟩
        apply IdsInRange.setArray (s := s.addCur 1) hs
        intro helig
        rw [hi, toIndex_slot, UserProcessScheduler.asArray_slot] at helig ⊢
        rcases fillSlot_eligible (by omega) helig with hpid | ⟨hold, hpid⟩
        · rw [hpid]
          exact inRange_slot i
        · rw [hpid]
          exact hs i hold
  | remove processId fini =>
      simp only [IndexCall.apply, UserProcessScheduler.remove] at h
      split at h
      · cases h
        exact hs
      · split at h
        · cases h
          exact hs
        · unfold UserProcessScheduler.exit at h
          split at h
          · obtain ⟨q, hq, rfl⟩ := Option.map_eq_some_iff.mp h
            refine IdsInRange.setArray hs (fun _ => ?_) _
            rw [exit_processId hq]
            exact inRange_slot 0
          · cases h
  | run b =>
      simp only [IndexCall.apply, Option.some.injEq] at h
      subst h
      intro j hj
      rw [UserProcessScheduler.run_eligible] at hj
      rcases UserProcessScheduler.run_slot_cases (s := s) (b := b) j with h | h
      · rw [h]
        exact hs j hj
      · rw [h, onlyTimes_ticked.processId_eq]
        exact hs j hj

/-- A fresh scheduler has nothing to schedule. -/
theorem FreshScheduler.idsInRange (h : FreshScheduler s) : IdsInRange s := by
  intro i hi
  rcases eligible_cases hi with hult | hrun
  · exact absurd hult (h.affinity i)
  · rcases h.status i with hst | hst <;> rw [hst] at hrun <;> cases hrun

/-- **Indices and ids stay in the array exactly as long as every call is within**: in every run of
such calls all indices used and all ids returned are in range, and the next call keeps it so if and
only if it is within too. -/
theorem indices_inRange_iff {s₀ : UserProcessScheduler} (h₀ : FreshScheduler s₀) {v : IndexRun}
    (h : Reach IndexStep (fun v c => Within v.scheduler c) ⟨s₀, [], []⟩ v) :
    (∀ i ∈ v.indices, InRange i) ∧ (∀ id ∈ v.ids, InRange id) ∧
      ∀ c, InBounds v.scheduler c ↔ Within v.scheduler c := by
  have hinv : IdsInRange v.scheduler ∧ (∀ i ∈ v.indices, InRange i) ∧ ∀ id ∈ v.ids, InRange id := by
    refine h.inv (I := fun v => IdsInRange v.scheduler ∧ (∀ i ∈ v.indices, InRange i) ∧
      ∀ id ∈ v.ids, InRange id) ⟨h₀.idsInRange, by simp, by simp⟩ ?_
    rintro v c v' ⟨hs, hidx, hids⟩ hc ⟨s', hs', rfl⟩
    obtain ⟨hnew, hnewId⟩ := (inBounds_iff hs c).mpr hc
    refine ⟨hs.apply hc hs', ?_, ?_⟩
    · intro i hi
      exact (List.mem_append.mp hi).elim (hidx i) (hnew i)
    · intro id hid
      exact (List.mem_append.mp hid).elim (hids id) (hnewId id)
  exact ⟨hinv.2.1, hinv.2.2, inBounds_iff hinv.1⟩

end

theorem zeroScheduler_fresh : FreshScheduler zeroScheduler :=
  { zeroTeam_empty with
    affinity := fun _ h => by cases h
    processIndex := rfl }

/-- A spawn and a tick. -/
theorem indices_inRange_iff_two : ∃ v : IndexRun, v.indices = [0, 1] ∧ v.ids = [0] ∧
    (∀ i ∈ v.indices, InRange i) ∧ (∀ id ∈ v.ids, InRange id) ∧
      ∀ c, InBounds v.scheduler c ↔ Within v.scheduler c := by
  refine ⟨_, ?_, ?_, indices_inRange_iff zeroScheduler_fresh
    (.step (.run true) (.step (.spawn (some [0x61]) 1 0 0 ⟨0, 1, 1⟩) .init ?_ ⟨_, rfl, rfl⟩)
      ?_ ⟨_, rfl, rfl⟩)⟩
  · decide
  · decide
  · exact .inr (by decide)
  · exact .inr (by decide)

/-- The first call is a `Remove` of the id 32, and it reads the record behind the array. -/
theorem remove_outside : ¬ InBounds zeroScheduler (.remove kCPSProcessLimitPerTeam true) := by
  rintro ⟨h, -⟩
  have hin : InRange kCPSProcessLimitPerTeam := h _ (by decide)
  exact absurd hin.2 (lt_irrefl _)

end NeKernel.Scheduler
