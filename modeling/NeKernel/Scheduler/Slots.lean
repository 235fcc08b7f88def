import NeKernel.Lib.Runs
import NeKernel.Scheduler.UserProcess
import Mathlib.Data.Finset.Insert
import Mathlib.Data.Fintype.Basic

/-!
# Which slot a spawn takes

`Spawn` takes the slot that `mProcessCur` names, and `mProcessCur` goes up with a spawn and down
with an exit. A process is *live* from the `Spawn` that returned its id until its `Exit` or until a
`Remove` that takes effect on its slot. Live processes keep their slots to themselves as long as
the processes below the counter are exactly the candidates for the next exit: exits come last-in
first-out (`LifoExit`). The first exit out of that order leaves a live process in the slot the
counter names, and the next spawn takes it (`spawnSafe_iff_lifoExit`).
-/

namespace NeKernel.Scheduler

open Runs

/-- A team and the slots of its live processes. -/
structure TeamRun where
  team : UserProcessTeam
  live : Finset (Slot)

inductive Call where
  | spawn (name : Option (List UInt8)) (code image imageSz : Nat) (env : SpawnEnv)
  | remove (processId : Int) (finiDylib : Bool)
  | exit (i : Slot) (exitCode : Int) (finiDylib : Bool)

/-- The slot a `Remove` takes effect on. -/
def removeTarget (t : UserProcessTeam) (processId : Int) : Option (Slot) :=
  (slot? processId).filter fun i => decide ((t.mProcessList i).status ≠ .kInvalid)

/-- One call, with the id a spawn returns (`0` for the other two). `Exit` is called on live
processes only. -/
def applyCall (s : TeamRun) : Call → Option (Int × TeamRun)
  | .spawn name code image imageSz env =>
      (spawn s.team name code image imageSz env).map fun r =>
        (r.1, { team := r.2
                live := match slot? r.1 with | some i => insert i s.live | none => s.live })
  | .remove processId fini =>
      (remove s.team processId fini).map fun t =>
        (0, { team := t
              live := match removeTarget s.team processId with
                | some i => s.live.erase i
                | none => s.live })
  | .exit i exitCode fini =>
      if i ∈ s.live then
        (exitSlot s.team i exitCode fini).map fun t => (0, { team := t, live := s.live.erase i })
      else none

def Step (s : TeamRun) (c : Call) (s' : TeamRun) : Prop := ∃ r, applyCall s c = some (r, s')

/-- A team without processes: the counter is at `0` and no slot was ever filled. Its statuses are
`kKilled` when the constructor ran and `kInvalid` when the team is a zeroed global. -/
structure EmptyTeam (t : UserProcessTeam) : Prop where
  cur : t.mProcessCur = 0
  hasParent : ∀ i, (t.mProcessList i).hasParent = false
  status : ∀ i, (t.mProcessList i).status = .kInvalid ∨ (t.mProcessList i).status = .kKilled

/-- What a spawn owes the live processes: its id is none of theirs, and it writes none of their
records. -/
structure SpawnContract (s : TeamRun) (r : Int) (s' : TeamRun) : Prop where
  fresh : ∀ i, slot? r = some i → i ∉ s.live
  kept : ∀ j ∈ s.live, s'.team.mProcessList j = s.team.mProcessList j

/-- Every spawn that can follow meets its contract. -/
def SpawnSafe (s : TeamRun) : Prop :=
  ∀ name code image imageSz env r s',
    applyCall s (.spawn name code image imageSz env) = some (r, s') → SpawnContract s r s'

/-- No two live processes carry the same `ProcessId`. -/
def PidsDistinct (s : TeamRun) : Prop :=
  ∀ i ∈ s.live, ∀ j ∈ s.live,
    (s.team.mProcessList i).processId = (s.team.mProcessList j).processId → i = j

/-- Apart from slot `i`, every live process sits below the slot the lowered counter will name. -/
def OthersBelow (s : TeamRun) (i : Slot) : Prop :=
  ∀ j ∈ s.live, j ≠ i → (j : Int) < s.team.mProcessCur - 1

/-- The last-in first-out discipline: what takes a process off the team leaves every other live
process below the lowered counter. -/
def LifoExit (s : TeamRun) : Call → Prop
  | .spawn .. => True
  | .remove processId _ => ∀ i, removeTarget s.team processId = some i → OthersBelow s i
  | .exit i _ _ => OthersBelow s i

/-! ## The slot invariant -/

/-- Live processes sit below the counter and carry their slot's number as id. -/
structure SlotInv (s : TeamRun) : Prop where
  below : ∀ i ∈ s.live, (i : Int) < s.team.mProcessCur
  pid : ∀ i ∈ s.live, (s.team.mProcessList i).processId = (i : Nat)

theorem slotInv_empty {t : UserProcessTeam} : SlotInv { team := t, live := ∅ } :=
  ⟨fun i hi => absurd hi (Finset.notMem_empty i), fun i hi => absurd hi (Finset.notMem_empty i)⟩

theorem SlotInv.pidsDistinct {s : TeamRun} (h : SlotInv s) : PidsDistinct s := by
  intro i hi j hj hij
  rw [h.pid i hi, h.pid j hj] at hij
  exact Fin.ext (by exact_mod_cast hij)

theorem slot?_neg {r : Int} (h : r < 0) : slot? r = none := dif_neg (by omega)

theorem slot?_val (i : Slot) : slot? (i : Nat) = some i := by
  have hi : (i : Nat) < kCPSProcessLimitPerTeam := i.isLt
  rw [slot?, dif_pos ⟨by omega, by omega⟩]
  rfl

/-- A spawn step: refused at the door, or it fills the slot the counter names. -/
theorem spawn_step {s s' : TeamRun} {name : Option (List UInt8)} {code image imageSz : Nat}
    {env : SpawnEnv} {r : Int}
    (h : applyCall s (.spawn name code image imageSz env) = some (r, s')) :
    (slot? r = none ∧ s' = s) ∨
    ∃ i : Slot, s.team.mProcessCur = (i : Nat) ∧
      s'.team.mProcessCur = s.team.mProcessCur + 1 ∧
      (∀ j, j ≠ i → s'.team.mProcessList j = s.team.mProcessList j) ∧
      ((slot? r = none ∧ s'.live = s.live) ∨
        (slot? r = some i ∧ s'.live = insert i s.live ∧
          (s'.team.mProcessList i).processId = (i : Nat))) := by
  simp only [applyCall, Option.map_eq_some_iff] at h
  obtain ⟨⟨r', t'⟩, hsp, heq⟩ := h
  simp only [Prod.mk.injEq] at heq
  obtain ⟨rfl, rfl⟩ := heq
  rcases spawn_cases hsp with ⟨hr, rfl⟩ | ⟨i, hcur, hcur', hkeep, hr | ⟨rfl, hpid⟩⟩
  · left
    rw [slot?_neg hr]
    exact ⟨rfl, rfl⟩
  · refine .inr ⟨i, hcur, hcur', hkeep, .inl ?_⟩
    rw [slot?_neg hr]
    exact ⟨rfl, rfl⟩
  · refine .inr ⟨i, hcur, hcur', hkeep, .inr ?_⟩
    rw [slot?_val]
    exact ⟨rfl, rfl, hpid⟩

/-- `Remove` does nothing without a target, and closes its slot otherwise. -/
theorem removeSlot_cases {t t' : UserProcessTeam} {processId : Int} {fini : Bool}
    (h : remove t processId fini = some t') :
    (removeTarget t processId = none ∧ t' = t) ∨
    ∃ i, removeTarget t processId = some i ∧ t'.mProcessCur = int64 (t.mProcessCur - 1) ∧
      ∀ j, j ≠ i → t'.mProcessList j = t.mProcessList j := by
  unfold remove at h
  unfold removeTarget
  cases hslot : slot? processId with
  | none =>
      refine .inl ⟨rfl, ?_⟩
      rw [hslot] at h
      split at h
      · exact (Option.some.inj h).symm
      · cases h
  | some i =>
      have hi : (i : Nat) < kCPSProcessLimitPerTeam := i.isLt
      have hpid := slot?_eq_some hslot
      rw [hslot, if_neg (by omega)] at h
      dsimp only at h
      by_cases hst : (t.mProcessList i).status = .kInvalid
      · rw [if_pos hst] at h
        refine .inl ⟨?_, (Option.some.inj h).symm⟩
        simp [Option.filter, hst]
      · rw [if_neg hst] at h
        refine .inr ⟨i, ?_, exitSlot_cases h⟩
        simp [Option.filter, hst]

/-- A step that takes processes off the team: nothing happens, or one slot is closed, the counter
goes down and the other slots stay. -/
theorem exit_step {s s' : TeamRun} {c : Call} (hc : ∀ n k i z e, c ≠ .spawn n k i z e)
    (h : Step s c s') :
    (s' = s ∧ LifoExit s c) ∨
    ∃ i, s'.team.mProcessCur = int64 (s.team.mProcessCur - 1) ∧ s'.live = s.live.erase i ∧
      (∀ j, j ≠ i → s'.team.mProcessList j = s.team.mProcessList j) ∧
      (LifoExit s c ↔ OthersBelow s i) := by
  obtain ⟨r, h⟩ := h
  cases c with
  | spawn n k i z e => exact absurd rfl (hc n k i z e)
  | remove processId fini =>
      simp only [applyCall, Option.map_eq_some_iff, Prod.mk.injEq] at h
      obtain ⟨t, hrem, -, rfl⟩ := h
      rcases removeSlot_cases hrem with ⟨hnone, rfl⟩ | ⟨i, hsome, hcur, hkeep⟩
      · left
        rw [hnone]
        exact ⟨rfl, fun i hi => absurd (hnone.symm.trans hi) (Option.some_ne_none i).symm⟩
      · refine .inr ⟨i, hcur, by rw [hsome], hkeep, fun hl => hl i hsome, fun ho k hk => ?_⟩
        obtain rfl : i = k := Option.some.inj (hsome.symm.trans hk)
        exact ho
  | exit i exitCode fini =>
      simp only [applyCall] at h
      split at h
      · simp only [Option.map_eq_some_iff, Prod.mk.injEq] at h
        obtain ⟨t, hex, -, rfl⟩ := h
        obtain ⟨hcur, hkeep⟩ := exitSlot_cases hex
        exact .inr ⟨i, hcur, rfl, hkeep, Iff.rfl⟩
      · cases h

/-- The invariant along runs: the slot invariant, and a counter that fits its type. -/
structure CurInv (s : TeamRun) : Prop extends SlotInv s where
  bounded : s.team.mProcessCur < 2 ^ 63

theorem spawn_keeps {s s' : TeamRun} {name : Option (List UInt8)} {code image imageSz : Nat}
    {env : SpawnEnv} {r : Int} (hI : CurInv s)
    (h : applyCall s (.spawn name code image imageSz env) = some (r, s')) : CurInv s' := by
  rcases spawn_step h with ⟨-, rfl⟩ | ⟨i, hcur, hcur', hkeep, hlive⟩
  · exact hI
  · have hi : (i : Nat) < 32 := i.isLt
    have hne : ∀ j ∈ s.live, j ≠ i := by
      intro j hj hji
      have := hI.below j hj
      rw [hji, hcur] at this
      omega
    have hb : ∀ j ∈ s.live, (j : Int) < s'.team.mProcessCur := by
      intro j hj
      have := hI.below j hj
      omega
    have hp : ∀ j ∈ s.live, (s'.team.mProcessList j).processId = (j : Nat) := by
      intro j hj
      rw [hkeep j (hne j hj)]
      exact hI.pid j hj
    rcases hlive with ⟨-, hl⟩ | ⟨-, hl, hpid⟩
    · exact ⟨⟨by rwa [hl], by rwa [hl]⟩, by omega⟩
    · refine ⟨⟨?_, ?_⟩, by omega⟩
      · rw [hl]
        intro j hj
        rcases Finset.mem_insert.mp hj with rfl | hj
        · omega
        · exact hb j hj
      · rw [hl]
        intro j hj
        rcases Finset.mem_insert.mp hj with rfl | hj
        · exact hpid
        · exact hp j hj

/-- The lowered counter does not wrap while another process is live. -/
theorem CurInv.int64_pred {s : TeamRun} (hI : CurInv s) {j : Slot}
    (hj : j ∈ s.live) : int64 (s.team.mProcessCur - 1) = s.team.mProcessCur - 1 := by
  have hlt := hI.below j hj
  have hb := hI.bounded
  exact int64_of_small (by omega) (by omega)

theorem exit_keeps {s s' : TeamRun} {c : Call} (hc : ∀ n k i z e, c ≠ .spawn n k i z e)
    (hI : CurInv s) (hl : LifoExit s c) (h : Step s c s') : CurInv s' := by
  rcases exit_step hc h with ⟨rfl, -⟩ | ⟨i, hcur, hlive, hkeep, hiff⟩
  · exact hI
  · have hothers : OthersBelow s i := hiff.mp hl
    refine ⟨⟨?_, ?_⟩, ?_⟩
    · rw [hlive]
      intro j hj
      obtain ⟨hji, hj⟩ := Finset.mem_erase.mp hj
      rw [hcur, hI.int64_pred hj]
      exact hothers j hj hji
    · rw [hlive]
      intro j hj
      obtain ⟨hji, hj⟩ := Finset.mem_erase.mp hj
      rw [hkeep j hji]
      exact hI.pid j hj
    · rw [hcur]
      unfold int64
      omega

theorem lifo_keeps (s : TeamRun) (c : Call) (s' : TeamRun) (hI : CurInv s) (hl : LifoExit s c)
    (h : Step s c s') : CurInv s' := by
  cases c with
  | spawn n k i z e =>
      obtain ⟨r, h⟩ := h
      exact spawn_keeps hI h
  | remove p f => exact exit_keeps (by simp) hI hl h
  | exit i c f => exact exit_keeps (by simp) hI hl h

/-! ## When a spawn is safe -/

/-- A spawn that goes through: a one-letter name, some code, and memory to spare. -/
def plainSpawn : Call := .spawn (some [65]) 1 0 0 ⟨0, 1, 1⟩

theorem fillSlot_plain (p : UserProcess) (pid : Int) :
    (fillSlot p [65] 1 0 0 pid ⟨0, 1, 1⟩).1 = pid := by
  simp only [fillSlot]
  split
  · next h => exact absurd h (by decide)
  · simp only [Nat.one_ne_zero, ↓reduceIte]
    split <;> rfl

theorem plainSpawn_takes {s : TeamRun} {i : Slot} (h : s.team.mProcessCur = (i : Nat)) :
    ∃ s', applyCall s plainSpawn = some (((i : Nat) : Int), s') := by
  have hi : (i : Nat) < 32 := i.isLt
  have hlim : ¬ ((i : Nat) : Int) > kCPSProcessLimitPerTeam := by
    have : kCPSProcessLimitPerTeam = 32 := rfl
    omega
  refine ⟨{ team := ⟨Function.update s.team.mProcessList i
      (fillSlot (s.team.mProcessList i) [65] 1 0 0 (i : Nat) ⟨0, 1, 1⟩).2, int64 ((i : Nat) + 1)⟩
            live := insert i s.live }, ?_⟩
  simp [plainSpawn, applyCall, spawn, h, hlim, slot?_val, fillSlot_plain]

/-- **A state is safe for spawning exactly when the counter names no live slot.** -/
theorem spawnSafe_iff {s : TeamRun} :
    SpawnSafe s ↔ ∀ j ∈ s.live, (j : Int) ≠ s.team.mProcessCur := by
  constructor
  · intro hs j hj hcur
    obtain ⟨s', h⟩ := plainSpawn_takes hcur.symm
    exact (hs _ _ _ _ _ _ _ h).fresh j (slot?_val j) hj
  · intro hfree name code image imageSz env r s' h
    rcases spawn_step h with ⟨hr, rfl⟩ | ⟨i, hcur, -, hkeep, hlive⟩
    · exact ⟨fun i hi => absurd (hr ▸ hi) (by simp), fun _ _ => rfl⟩
    · have hi : i ∉ s.live := fun hi => hfree i hi hcur.symm
      refine ⟨?_, fun j hj => hkeep j fun hji => hi (hji ▸ hj)⟩
      rcases hlive with ⟨hr, -⟩ | ⟨hr, -⟩ <;> intro k hk <;> rw [hr] at hk <;> cases hk
      exact hi

theorem CurInv.spawnSafe {s : TeamRun} (hI : CurInv s) : SpawnSafe s :=
  spawnSafe_iff.mpr fun j hj => by have := hI.below j hj; omega

theorem exit_spawnSafe_iff {s s' : TeamRun} {c : Call} (hc : ∀ n k i z e, c ≠ .spawn n k i z e)
    (hI : CurInv s) (h : Step s c s') : SpawnSafe s' ↔ LifoExit s c := by
  rcases exit_step hc h with ⟨rfl, hl⟩ | ⟨i, hcur, hlive, -, hiff⟩
  · exact ⟨fun _ => hl, fun _ => hI.spawnSafe⟩
  · rw [hiff, spawnSafe_iff, hlive, hcur]
    constructor
    · intro hfree j hj hji
      have hne := hfree j (Finset.mem_erase.mpr ⟨hji, hj⟩)
      have hlt := hI.below j hj
      rw [hI.int64_pred hj] at hne
      omega
    · intro hothers j hj
      obtain ⟨hji, hj⟩ := Finset.mem_erase.mp hj
      have := hothers j hj hji
      rw [hI.int64_pred hj]
      omega

/-- **Spawns are safe exactly under last-in first-out exits.** Along every run whose exits keep
the discipline, live processes carry distinct ids and every spawn leaves them alone; and the next
call keeps it so if and only if it keeps the discipline too. -/
theorem spawnSafe_iff_lifoExit {t₀ : UserProcessTeam} (h₀ : EmptyTeam t₀) {s : TeamRun}
    (h : Reach Step LifoExit { team := t₀, live := ∅ } s) :
    PidsDistinct s ∧ SpawnSafe s ∧ ∀ c s', Step s c s' → (SpawnSafe s' ↔ LifoExit s c) := by
  have hI : CurInv s := by
    refine h.inv ⟨slotInv_empty, ?_⟩ lifo_keeps
    rw [h₀.cur]
    decide
  refine ⟨hI.pidsDistinct, hI.spawnSafe, ?_⟩
  intro c s' hstep
  cases c with
  | spawn n k i z e =>
      obtain ⟨r, hr⟩ := hstep
      exact ⟨fun _ => trivial, fun _ => (spawn_keeps hI hr).spawnSafe⟩
  | remove p f => exact exit_spawnSafe_iff (by simp) hI hstep
  | exit i c f => exact exit_spawnSafe_iff (by simp) hI hstep

/-- A slot of a zeroed team. -/
def zeroProcess : UserProcess where
  name := ByteStore.zeros
  stackFrame := none
  affinity := .kInvalid
  status := .kInvalid
  stackReserve := ByteStore.zeros
  stackSize := 0
  dylibDelegate := 0
  signal := ⟨0, .kInvalid, 0⟩
  image := ⟨0, 0, 0⟩
  fileTree := 0
  heapTree := 0
  hasParent := false
  vmRegister := 0
  pTime := 0
  rTime := 0
  uTime := 0
  sTime := 0
  processId := 0
  kind := .kInvalidExecutableKind
  lastExitCode := 0

/-- The team as a zeroed global. -/
def zeroTeam : UserProcessTeam := { mProcessList := fun _ => zeroProcess, mProcessCur := 0 }

theorem zeroTeam_empty : EmptyTeam zeroTeam := ⟨rfl, fun _ => rfl, fun _ => .inl rfl⟩

/-- Two spawns and the exit of the second. -/
theorem spawnSafe_iff_lifoExit_two : ∃ s : TeamRun, s.live = {0} ∧ s.team.mProcessCur = 1 ∧
    PidsDistinct s ∧ SpawnSafe s ∧ ∀ c s', Step s c s' → (SpawnSafe s' ↔ LifoExit s c) := by
  refine ⟨_, ?_, ?_, spawnSafe_iff_lifoExit zeroTeam_empty
    (.step (.exit 1 0 true) (.step plainSpawn (.step plainSpawn .init trivial ⟨0, rfl⟩)
      trivial ⟨1, rfl⟩) ?_ ⟨0, rfl⟩)⟩
  · decide
  · decide
  · show ∀ j ∈ ({1, 0} : Finset Slot), j ≠ 1 → (j : Int) < 2 - 1
    decide

/-- Spawn twice and let the first process exit: the third spawn gets id `1`, which the second
process still has. -/
theorem spawn_takes_live_slot : ∃ s s' : TeamRun,
    Reachable Step { team := zeroTeam, live := ∅ } s ∧
      applyCall s plainSpawn = some (1, s') ∧ (1 : Slot) ∈ s.live := by
  refine ⟨_, _, .step (.exit 0 0 true) (.step plainSpawn (.step plainSpawn .init trivial ⟨0, rfl⟩)
      trivial ⟨1, rfl⟩) trivial ⟨0, rfl⟩, rfl, ?_⟩
  decide

end NeKernel.Scheduler
