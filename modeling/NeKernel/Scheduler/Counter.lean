import NeKernel.Scheduler.SpawnContract
import Mathlib.Data.Int.Interval

/-!
# The counter of the team

`mProcessCur` is meant to be the number of live processes. A process is live from the `Spawn` that
returned its id until its `Exit`, or a `Remove` that takes effect. The counter goes up in every
spawn that is not refused at the door, and down in every exit. So it counts the live processes as
long as a spawn goes through to a slot without a live process, and every exit is the exit of a live
one (`counter_live_iff`).
-/

namespace NeKernel.Scheduler

open Runs

/-- A scheduler and the ids of its live processes. -/
structure CountRun where
  scheduler : UserProcessScheduler
  live : Finset Int

inductive CountCall where
  | spawn (name : Option (List UInt8)) (code image imageSz : Nat) (env : SpawnEnv)
  | remove (processId : Int) (finiDylib : Bool)
  | exit (i : Slot) (exitCode : Int) (finiDylib : Bool)

/-- A `Remove` that comes to `Exit`. -/
def Removes (s : UserProcessScheduler) (processId : Int) : Prop :=
  ¬ (processId < 0 ∨ processId > kCPSProcessLimitPerTeam) ∧
    (s.asArray (toIndex processId)).status ≠ .kInvalid

instance (s : UserProcessScheduler) (processId : Int) : Decidable (Removes s processId) :=
  inferInstanceAs (Decidable (_ ∧ _))

/-- One call. -/
def CountCall.apply (v : CountRun) : CountCall → Option CountRun
  | .spawn name code image imageSz env =>
      let r := v.scheduler.spawn name code image imageSz env
      some ⟨r.2.2, if r.1 < 0 then v.live else insert r.1 v.live⟩
  | .remove processId fini =>
      (v.scheduler.remove processId fini).2.map fun s =>
        ⟨s, if Removes v.scheduler processId then v.live.erase processId else v.live⟩
  | .exit i exitCode fini =>
      (v.scheduler.exit i exitCode fini).map fun s => ⟨s, v.live.erase i⟩

def CountStep (v : CountRun) (c : CountCall) (v' : CountRun) : Prop := c.apply v = some v'

/-- The counter is the number of live processes. -/
def Counts (v : CountRun) : Prop :=
  v.scheduler.mTeam.mProcessCur = v.live.card ∧ 0 ≤ v.scheduler.mTeam.mProcessCur

/-- A spawn that raises the counter starts a process in a slot without a live one, and what exits is
live. -/
def Balanced (v : CountRun) : CountCall → Prop
  | .spawn name code _ _ env => Refused v.scheduler.mTeam name code ∨
      (v.scheduler.mTeam.mProcessCur ∉ v.live ∧ ∀ n, name = some n →
        GoesThrough (v.scheduler.asArray (toIndex v.scheduler.mTeam.mProcessCur)) n env)
  | .remove processId _ => Removes v.scheduler processId → processId ∈ v.live
  | .exit i _ _ => (i : Int) ∈ v.live

/-- The counter counts, and live ids pass the comparison of `Spawn`. -/
structure CountInv (v : CountRun) : Prop where
  counts : Counts v
  ids : ∀ id ∈ v.live, 0 ≤ id ∧ id ≤ kCPSProcessLimitPerTeam

section

variable {v v' : CountRun} {s s' : UserProcessScheduler} {c : CountCall} {k : Nat} {pid : Int}

/-- There is no room for more than 33 ids. -/
theorem CountInv.card_le (h : CountInv v) : v.live.card ≤ 33 := by
  calc v.live.card ≤ (Finset.Icc (0 : Int) kCPSProcessLimitPerTeam).card :=
        Finset.card_le_card fun id hid => Finset.mem_Icc.mpr (h.ids id hid)
    _ = 33 := by rw [Int.card_Icc]; rfl

/-- The counter is small, so it moves without wrapping. -/
theorem CountInv.addCur (h : CountInv v) {d : Int} (hd : -1 ≤ d ∧ d ≤ 1) :
    (v.scheduler.addCur d).mTeam.mProcessCur = v.live.card + d := by
  have hle := h.card_le
  have hcur := h.counts.1
  show int64 (v.scheduler.mTeam.mProcessCur + d) = _
  rw [hcur]
  exact int64_of_small (by omega) (by omega)

/-- An exit lowers the counter. -/
theorem exit_cur {i : Nat} {code : Int} {fini : Bool} (h : s.exit i code fini = some s') :
    s'.mTeam.mProcessCur = (s.addCur (-1)).mTeam.mProcessCur := by
  unfold UserProcessScheduler.exit at h
  split at h
  · obtain ⟨p, -, rfl⟩ := Option.map_eq_some_iff.mp h
    show int64 ((s.setArray i p).mTeam.mProcessCur + -1) = _
    rw [UserProcessScheduler.setArray_mProcessCur]
    rfl
  · cases h

/-- A remove is nothing or an exit. -/
theorem remove_cases {fini : Bool} (h : (s.remove pid fini).2 = some s') :
    (¬ Removes s pid ∧ s' = s) ∨
      (Removes s pid ∧ s'.mTeam.mProcessCur = (s.addCur (-1)).mTeam.mProcessCur) := by
  unfold UserProcessScheduler.remove at h
  unfold Removes
  split at h
  · next hout =>
      cases h
      exact .inl ⟨fun h => h.1 hout, rfl⟩
  · next hin =>
      split at h
      · next hst =>
          cases h
          exact .inl ⟨fun h => h.2 hst, rfl⟩
      · next hst => exact .inr ⟨⟨hin, hst⟩, exit_cur h⟩

/-- The counter after one process less. -/
theorem CountInv.lowered (h : CountInv v)
    (hcur : s'.mTeam.mProcessCur = (v.scheduler.addCur (-1)).mTeam.mProcessCur) :
    Counts ⟨s', v.live.erase pid⟩ ↔ pid ∈ v.live := by
  rw [h.addCur (by decide)] at hcur
  unfold Counts
  dsimp only
  rw [hcur]
  constructor
  · intro ⟨hcard, _⟩
    by_contra hno
    rw [Finset.erase_eq_of_notMem hno] at hcard
    omega
  · intro hin
    have hpos : 0 < v.live.card := Finset.card_pos.mpr ⟨pid, hin⟩
    rw [Finset.card_erase_of_mem hin]
    omega

/-- The counter after a spawn that was not refused. -/
theorem CountInv.raised (h : CountInv v) {r : Int}
    (hcur : s'.mTeam.mProcessCur = (v.scheduler.addCur 1).mTeam.mProcessCur)
    (hr : r < 0 ∨ r = v.scheduler.mTeam.mProcessCur) :
    Counts ⟨s', if r < 0 then v.live else insert r v.live⟩ ↔
      0 ≤ r ∧ v.scheduler.mTeam.mProcessCur ∉ v.live := by
  rw [h.addCur (by decide)] at hcur
  unfold Counts
  dsimp only
  rw [hcur]
  rcases hr with hneg | rfl
  · rw [if_pos hneg]
    refine iff_of_false (fun hno => ?_) fun hno => absurd hno.1 (not_le.mpr hneg)
    have := hno.1
    omega
  · have h₀ := h.counts.2
    rw [if_neg (not_lt.mpr h₀)]
    constructor
    · intro ⟨hcard, _⟩
      refine ⟨h₀, fun hin => ?_⟩
      rw [Finset.insert_eq_of_mem hin] at hcard
      omega
    · intro ⟨_, hnew⟩
      rw [Finset.card_insert_of_notMem hnew]
      omega

/-- **A step keeps the count exactly when it is balanced.** -/
theorem CountInv.step_iff (h : CountInv v) (hst : CountStep v c v') :
    Counts v' ↔ Balanced v c := by
  cases c with
  | spawn name code image imageSz env =>
      simp only [CountStep, CountCall.apply, Option.some.injEq] at hst
      subst hst
      dsimp only [Balanced]
      rcases v.scheduler.spawn_cases name code image imageSz env with
        ⟨hno, heq⟩ | ⟨hgo, n, rfl, r, hr, heq⟩
      · rw [heq, if_pos fault_neg]
        exact iff_of_true h.counts (.inl hno)
      · have hname : (∀ n', some n = some n' → GoesThrough (v.scheduler.asArray
            (toIndex v.scheduler.mTeam.mProcessCur)) n' env) ↔ GoesThrough
            (v.scheduler.asArray (toIndex v.scheduler.mTeam.mProcessCur)) n env := by simp
        rw [heq, or_iff_right hgo, hname]
        have hcases := fillSlot_goesThrough
          (v.scheduler.asArray (toIndex v.scheduler.mTeam.mProcessCur)) n code image imageSz
          v.scheduler.mTeam.mProcessCur env
        rw [hr] at hcases
        rw [h.raised UserProcessScheduler.setArray_mProcessCur
          (hcases.symm.imp (fun h => h.2.neg) fun h => h.2.1)]
        rcases hcases with ⟨hthrough, hid, -⟩ | ⟨hthrough, hneg⟩
        · rw [hid]
          exact ⟨fun h => ⟨h.2, hthrough⟩, fun hb => ⟨h.counts.2, hb.1⟩⟩
        · exact iff_of_false (fun h => absurd h.1 (not_le.mpr hneg.neg)) fun h => hthrough h.2
  | remove processId fini =>
      obtain ⟨s, hs, rfl⟩ := Option.map_eq_some_iff.mp hst
      unfold Balanced
      rcases remove_cases hs with ⟨hno, rfl⟩ | ⟨htakes, hcur⟩
      · rw [if_neg hno]
        exact iff_of_true h.counts fun h => absurd h hno
      · rw [if_pos htakes, h.lowered hcur]
        exact (imp_iff_right htakes).symm
  | exit i exitCode fini =>
      obtain ⟨s, hs, rfl⟩ := Option.map_eq_some_iff.mp hst
      exact h.lowered (exit_cur hs)

theorem CountInv.step (h : CountInv v) (hb : Balanced v c) (hst : CountStep v c v') :
    CountInv v' := by
  refine ⟨(h.step_iff hst).mpr hb, ?_⟩
  cases c with
  | spawn name code image imageSz env =>
      simp only [CountStep, CountCall.apply, Option.some.injEq] at hst
      subst hst
      dsimp only
      rcases v.scheduler.spawn_cases name code image imageSz env with
        ⟨-, heq⟩ | ⟨hgo, n, rfl, r, rfl, heq⟩
      · rw [heq, if_pos fault_neg]
        exact h.ids
      · rw [heq]
        split
        · exact h.ids
        · next hpos =>
            -- the new id is the counter, which has passed the comparison
            have hid := ((fillSlot_goesThrough _ _ _ _ _ _ _).resolve_right
              fun hno => hpos hno.2.neg).2.1
            intro id hmem
            rcases Finset.mem_insert.mp hmem with rfl | hmem
            · rw [hid]
              exact ⟨h.counts.2, not_lt.mp fun hlt => hgo (.inr (.inr (.inr hlt)))⟩
            · exact h.ids id hmem
  | remove processId fini =>
      obtain ⟨s, -, rfl⟩ := Option.map_eq_some_iff.mp hst
      dsimp only
      split
      · exact fun id hid => h.ids id (Finset.mem_of_mem_erase hid)
      · exact h.ids
  | exit i exitCode fini =>
      obtain ⟨s, -, rfl⟩ := Option.map_eq_some_iff.mp hst
      exact fun id hid => h.ids id (Finset.mem_of_mem_erase hid)

/-- **The counter is the number of live processes exactly as long as the calls are balanced**: it
is so in every run of such calls, and the next call keeps it so if and only if it is balanced
too. -/
theorem counter_live_iff {s₀ : UserProcessScheduler} (h₀ : EmptyTeam s₀.mTeam)
    (h : Reach CountStep Balanced ⟨s₀, ∅⟩ v) :
    Counts v ∧ ∀ c v', CountStep v c v' → (Counts v' ↔ Balanced v c) := by
  have hinv : CountInv v := by
    refine h.inv ⟨⟨?_, ?_⟩, by simp⟩ fun v c v' hv hb hst => hv.step hb hst
    · simpa using h₀.cur
    · simpa using h₀.cur.ge
  exact ⟨hinv.counts, fun c v' hst => hinv.step_iff hst⟩

end

/-- The spawn of `"a"`. -/
def countA : CountCall := .spawn (some [0x61]) 1 0 0 ⟨0, 1, 1⟩

/-- Two spawns and an exit. -/
theorem counter_live_iff_two : ∃ v : CountRun, v.live = {1} ∧ Counts v ∧
    ∀ c v', CountStep v c v' → (Counts v' ↔ Balanced v c) := by
  have hbalanced (v : CountRun) (h : v.scheduler.mTeam.mProcessCur ∉ v.live) :
      Balanced v countA := by
    refine .inr ⟨h, fun n hn => ?_⟩
    cases hn
    exact ⟨by decide, by decide, .inr (by decide)⟩
  have hempty : EmptyTeam zeroScheduler.mTeam := zeroTeam_empty
  refine ⟨_, ?_, counter_live_iff hempty
    (.step (.exit 0 0 true) (.step countA (.step countA .init (hbalanced _ ?_) rfl)
      (hbalanced _ ?_) rfl) ?_ rfl)⟩
  · decide
  · decide
  · decide
  · show (0 : Int) ∈ _
    decide

/-- A name that is too long raises the counter without a process; removing a process twice lowers
it below zero. -/
theorem counter_off : ∃ v w : CountRun,
    Reachable CountStep ⟨zeroScheduler, ∅⟩ v ∧ v.scheduler.mTeam.mProcessCur = 1 ∧
      v.live = ∅ ∧
    Reachable CountStep ⟨zeroScheduler, ∅⟩ w ∧ w.scheduler.mTeam.mProcessCur = -1 ∧
      w.live = ∅ := by
  refine ⟨_, _, .step (.spawn (some (List.replicate 129 0x61)) 1 0 0 ⟨0, 1, 1⟩) .init trivial rfl,
    ?_, ?_, .step (.remove 0 true) (.step (.remove 0 true) (.step countA .init trivial rfl)
      trivial rfl) trivial rfl, ?_, ?_⟩
  · decide +kernel
  · decide +kernel
  · decide
  · decide

end NeKernel.Scheduler
