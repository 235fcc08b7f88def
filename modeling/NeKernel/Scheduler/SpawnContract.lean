import NeKernel.FSKit.NeFS
import NeKernel.Scheduler.Indices

/-!
# What a spawn leaves behind

`Spawn` raises the counter and writes the code and the image into the slot before its last three
failure exits. A spawn that fails leaves the team as it was when it was refused before that, and
only then (`spawn_atomic_iff`).

The name is copied without its terminator, over the name of whoever had the slot before. It reads
as the name that was given when the old name has a zero where the new one ends
(`name_readsAs_iff`).
-/

namespace NeKernel.Scheduler

open ByteStore
open NeFS (CString charsAt charsAt_eq)

/-- The exits behind the counter are all passed: the name fits, and both `new` expressions return
what they are asked for. -/
def GoesThrough (p : UserProcess) (name : List UInt8) (env : SpawnEnv) : Prop :=
  name.length ≤ kCPSNameLen ∧ env.newStackFrame ≠ 0 ∧ (p.fileTree ≠ 0 ∨ env.newFileTree ≠ 0)

section

variable {s : UserProcessScheduler} {name : Option (List UInt8)} {n : List UInt8}
  {code image imageSz k : Nat} {env : SpawnEnv} {pid : Int} {p : UserProcess}

/-- One of the codes `Spawn` fails with. -/
def SpawnError (r : Int) : Prop := r = -kErrorProcessFault ∨ r = -kErrorHeapOutOfMemory

theorem SpawnError.neg {r : Int} (h : SpawnError r) : r < 0 := by
  rcases h with rfl | rfl
  · exact fault_neg
  · exact outOfMemory_neg

/-- A spawn that goes through returns the counter, any other one an error code. -/
theorem fillSlot_goesThrough (p : UserProcess) (n : List UInt8) (code image imageSz : Nat)
    (pid : Int) (env : SpawnEnv) :
    (GoesThrough p n env ∧ (fillSlot p n code image imageSz pid env).1 = pid ∧
      (fillSlot p n code image imageSz pid env).2.processId = pid ∧
      (fillSlot p n code image imageSz pid env).2.name =
        blit p.name 0 n.length fun i => n.getD i 0) ∨
    (¬ GoesThrough p n env ∧ SpawnError (fillSlot p n code image imageSz pid env).1) := by
  unfold fillSlot GoesThrough
  dsimp only
  split
  · next hlong => exact .inr ⟨fun h => absurd h.1 (not_le.mpr hlong), .inl rfl⟩
  · next hlen =>
      split
      · next hframe => exact .inr ⟨fun h => h.2.1 hframe, .inl rfl⟩
      · next hframe =>
          split
          · next htree =>
              split
              · next hnew => exact .inr ⟨fun h => h.2.2.elim (· htree) (· hnew), .inr rfl⟩
              · next hnew => exact .inl ⟨⟨not_lt.mp hlen, hframe, .inr hnew⟩, rfl, rfl, rfl⟩
          · next htree => exact .inl ⟨⟨not_lt.mp hlen, hframe, .inl htree⟩, rfl, rfl, rfl⟩

/-! ## Failing spawns -/

/-- The raised counter is another one. -/
theorem addCur_ne : (s.addCur 1).mTeam.mProcessCur ≠ s.mTeam.mProcessCur := by
  show int64 (s.mTeam.mProcessCur + 1) ≠ s.mTeam.mProcessCur
  unfold int64
  omega

/-- **A failing spawn leaves the team as it was exactly when it is refused before the counter is
raised.** Any other spawn changes the team, and so it has to go through, to an id that no error
code is like. -/
theorem spawn_atomic_iff (s : UserProcessScheduler) (name : Option (List UInt8))
    (code image imageSz : Nat) (env : SpawnEnv) :
    ((s.spawn name code image imageSz env).1 < 0 →
      (s.spawn name code image imageSz env).2.2.mTeam = s.mTeam) ↔
    Refused s.mTeam name code ∨
      (0 ≤ s.mTeam.mProcessCur ∧
        ∀ n, name = some n → GoesThrough (s.asArray (toIndex s.mTeam.mProcessCur)) n env) := by
  rcases s.spawn_cases name code image imageSz env with ⟨hno, h⟩ | ⟨hgo, n, rfl, r, rfl, h⟩
  · rw [h]
    exact iff_of_true (fun _ => rfl) (.inl hno)
  · rw [h]
    have hchanged (p : UserProcess) : ((s.addCur 1).setArray (toIndex s.mTeam.mProcessCur)
        p).mTeam ≠ s.mTeam := by
      intro heq
      apply addCur_ne (s := s)
      rw [← UserProcessScheduler.setArray_mProcessCur (p := p), heq]
    have hname : (∀ n', some n = some n' →
        GoesThrough (s.asArray (toIndex s.mTeam.mProcessCur)) n' env) ↔
        GoesThrough (s.asArray (toIndex s.mTeam.mProcessCur)) n env := by simp
    simp only [hchanged, imp_false, not_lt, hgo, false_or, hname]
    rcases fillSlot_goesThrough (s.asArray (toIndex s.mTeam.mProcessCur)) n code image imageSz
      s.mTeam.mProcessCur env with ⟨hthrough, hr, -⟩ | ⟨hthrough, hr⟩
    · rw [hr]
      exact (and_iff_left hthrough).symm
    · exact iff_of_false (not_le.mpr hr.neg) fun hno => hthrough hno.2

/-- A name of 129 bytes is refused, and the counter has gone up. -/
theorem spawn_long_name :
    (zeroScheduler.spawn (some (List.replicate 129 0x61)) 1 0 0 ⟨0, 1, 1⟩).1 =
        -kErrorProcessFault ∧
      (zeroScheduler.spawn (some (List.replicate 129 0x61)) 1 0 0
        ⟨0, 1, 1⟩).2.2.mTeam.mProcessCur = 1 ∧
      zeroScheduler.mTeam.mProcessCur = 0 := by decide +kernel

/-! ## The name -/

/-- A field of `room` bytes, read as a C string, is the string, and the terminator is in the
field. -/
def ReadsAs (field : Store) (room : Nat) (name : CString) : Prop :=
  charsAt field 0 room = name.chars ∧ ∃ i < room, field i = 0

/-- The characters that are read stand in the field, and behind them stands a zero if there is one
at all. -/
theorem charsAt_spec {r : Store} {off room : Nat} (hz : ∃ i < room, r (off + i) = 0) :
    (charsAt r off room).length < room ∧ r (off + (charsAt r off room).length) = 0 ∧
      ∀ i < (charsAt r off room).length, r (off + i) = (charsAt r off room).getD i 0 := by
  induction room generalizing off with
  | zero =>
      obtain ⟨i, hi, -⟩ := hz
      omega
  | succ room ih =>
      rw [charsAt]
      by_cases h₀ : r off = 0
      · rw [if_pos h₀]
        exact ⟨Nat.succ_pos _, h₀, fun i hi => absurd hi (Nat.not_lt_zero i)⟩
      · rw [if_neg h₀]
        -- the first byte is no zero, so there is one behind it
        have hz' : ∃ i < room, r (off + 1 + i) = 0 := by
          obtain ⟨i, hi, hri⟩ := hz
          cases i with
          | zero => exact absurd hri h₀
          | succ i => exact ⟨i, Nat.lt_of_succ_lt_succ hi, by rwa [Nat.add_right_comm]⟩
        obtain ⟨hlen, hend, hchars⟩ := ih hz'
        rw [List.length_cons]
        refine ⟨Nat.succ_lt_succ hlen, by rwa [Nat.add_right_comm] at hend, fun i hi => ?_⟩
        cases i with
        | zero => rfl
        | succ i =>
            have := hchars i (Nat.lt_of_succ_lt_succ hi)
            rwa [Nat.add_right_comm] at this

theorem readsAs_iff {field : Store} {room : Nat} {name : CString} :
    ReadsAs field room name ↔ name.length < room ∧ field name.length = 0 ∧
      ∀ i < name.length, field i = name.bytes i := by
  unfold ReadsAs CString.length CString.bytes
  constructor
  · rintro ⟨heq, hz⟩
    have hspec := @charsAt_spec field 0 room (by simpa using hz)
    simpa only [heq, Nat.zero_add] using hspec
  · rintro ⟨hlen, hend, hchars⟩
    refine ⟨charsAt_eq hlen name.noNul ?_ ?_, _, hlen, hend⟩
    · simpa using hchars
    · simpa using hend

theorem asArray_setArray (k : Nat) : (s.setArray k p).asArray k = p := by
  unfold UserProcessScheduler.setArray UserProcessScheduler.asArray
  split
  · exact Function.update_self _ _ _
  · split <;> rfl

/-- **The name of a started process** reads as the name that was given exactly when the slot held a
zero where that name ends, inside the field. -/
theorem name_readsAs_iff (s : UserProcessScheduler) (name : CString) (code image imageSz : Nat)
    (env : SpawnEnv) (hstarted : 0 ≤ (s.spawn (some name.chars) code image imageSz env).1) :
    ReadsAs ((s.spawn (some name.chars) code image imageSz env).2.2.asArray
        (toIndex (s.spawn (some name.chars) code image imageSz env).1)).name kCPSNameLen name ↔
      name.length < kCPSNameLen ∧
        (s.asArray (toIndex s.mTeam.mProcessCur)).name name.length = 0 := by
  rcases s.spawn_cases (some name.chars) code image imageSz env with
    ⟨-, h⟩ | ⟨-, n, hn, r, rfl, h⟩
  · rw [h] at hstarted
    exact absurd hstarted (not_le.mpr fault_neg)
  · cases hn
    rw [h] at hstarted ⊢
    obtain ⟨-, hr, -, hname⟩ := (fillSlot_goesThrough _ _ _ _ _ _ _).resolve_right
      fun hno => absurd hno.2.neg (not_lt.mpr hstarted)
    dsimp only
    rw [hr, asArray_setArray, hname, readsAs_iff]
    have hend : blit (s.asArray (toIndex s.mTeam.mProcessCur)).name 0 name.chars.length
        (fun i => name.chars.getD i 0) name.length =
        (s.asArray (toIndex s.mTeam.mProcessCur)).name name.length :=
      blit_apply_of_notMem (.inr (by simp [CString.length]))
    have hchars : ∀ i < name.length, blit (s.asArray (toIndex s.mTeam.mProcessCur)).name 0
        name.chars.length (fun i => name.chars.getD i 0) i = name.bytes i := by
      intro i hi
      rw [blit_apply_of_mem (Nat.zero_le i) (by simpa [CString.length] using hi)]
      rfl
    rw [hend]
    exact ⟨fun h => ⟨h.1, h.2.1⟩, fun h => ⟨h.1, h.2, hchars⟩⟩

end

/-- `"a"` and `"bb"`. -/
def nameA : CString := ⟨[0x61], by simp⟩
def nameBB : CString := ⟨[0x62, 0x62], by simp⟩

/-- A name in a zeroed slot. -/
theorem name_readsAs_a :
    ReadsAs ((zeroScheduler.spawn (some nameA.chars) 1 0 0 ⟨0, 1, 1⟩).2.2.asArray
      (toIndex (zeroScheduler.spawn (some nameA.chars) 1 0 0 ⟨0, 1, 1⟩).1)).name kCPSNameLen
        nameA :=
  (name_readsAs_iff zeroScheduler nameA 1 0 0 ⟨0, 1, 1⟩ (by decide)).mpr
    ⟨by decide, rfl⟩

/-- `"bb"` exits and `"a"` gets its slot: the name reads `"ab"`. -/
theorem name_mixed : ∃ s₁ s₂ : UserProcessScheduler,
    zeroScheduler.spawn (some nameBB.chars) 1 0 0 ⟨0, 1, 1⟩ = (0, [0], s₁) ∧
      s₁.exit 0 0 true = some s₂ ∧
      0 ≤ (s₂.spawn (some nameA.chars) 1 0 0 ⟨0, 1, 1⟩).1 ∧
      charsAt ((s₂.spawn (some nameA.chars) 1 0 0 ⟨0, 1, 1⟩).2.2.asArray
        (toIndex (s₂.spawn (some nameA.chars) 1 0 0 ⟨0, 1, 1⟩).1)).name 0 kCPSNameLen =
          [0x61, 0x62] ∧
      ¬ ReadsAs ((s₂.spawn (some nameA.chars) 1 0 0 ⟨0, 1, 1⟩).2.2.asArray
        (toIndex (s₂.spawn (some nameA.chars) 1 0 0 ⟨0, 1, 1⟩).1)).name kCPSNameLen nameA := by
  refine ⟨_, _, rfl, rfl, by decide, by decide +kernel, ?_⟩
  intro h
  have hread : _ = nameA.chars := h.1
  exact absurd hread (by decide +kernel)

end NeKernel.Scheduler
