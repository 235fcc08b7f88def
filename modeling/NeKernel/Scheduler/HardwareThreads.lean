import NeKernel.Scheduler.Indices
import Mathlib.Data.List.Sort

/-!
# Handing a process to a core

`UserProcessHelper::Switch` goes through the cores until one takes the frame. A core is marked busy
before it is asked, and one that does not take the frame stays marked. So what `Switch` reports is
what it did as long as the first core it asks takes the frame (`switch_reports_iff`).
-/

namespace NeKernel.Scheduler

inductive ThreadKind where
  | kAPInvalid | kAPSystemReserved | kAPStandard | kAPRealTime | kAPBoot
  deriving DecidableEq, Repr

/-- A core. `fStack` is the address of a frame. -/
structure HardwareThread where
  fStack : Nat
  fKind : ThreadKind
  fID : Nat
  fWakeup : Bool
  fBusy : Bool
  fPTime : Nat
  deriving DecidableEq, Repr

/-- The cores, `n` being `kMaxAPInsideSched`. -/
structure HardwareThreadScheduler (n : Nat) where
  fThreadList : Fin n → HardwareThread
  fCurrentThreadIdx : Nat

/-- What the cores run on: the frames in memory, and what `mp_register_task` answers for each
core. -/
structure SwitchEnv (n : Nat) where
  frames : Nat → StackFrame
  mpRegisterTask : Fin n → Bool

variable {n : Nat}

/-- `hal_check_task`. -/
def halCheckTask (frames : Nat → StackFrame) (stackPtr : Nat) : Bool :=
  if stackPtr = 0 then false else 0 < (frames stackPtr).sp && 0 < (frames stackPtr).ip

/-- `HardwareThread::Switch` on core `i`. -/
def HardwareThread.switch (e : SwitchEnv n) (i : Fin n) (thread : HardwareThread) (frame : Nat) :
    Bool × HardwareThread :=
  if frame = 0 then (false, thread)
  else if halCheckTask e.frames frame = false then (false, thread)
  else (e.mpRegisterTask i, { thread with fStack := frame })

/-- A core that `UserProcessHelper::Switch` asks. -/
def HardwareThread.Asked (thread : HardwareThread) : Prop :=
  thread.fKind ≠ .kAPInvalid ∧ thread.fKind ≠ .kAPBoot ∧ thread.fBusy = false

instance (thread : HardwareThread) : Decidable thread.Asked := inferInstanceAs (Decidable (_ ∧ _))

namespace HardwareThreadScheduler

def set (s : HardwareThreadScheduler n) (i : Fin n) (thread : HardwareThread) :
    HardwareThreadScheduler n :=
  { s with fThreadList := Function.update s.fThreadList i thread }

end HardwareThreadScheduler

/-- The loop of `UserProcessHelper::Switch`, over the cores that are left. No core of the list is
null. -/
def tryCores (e : SwitchEnv n) (framePtr pTime : Nat) :
    List (Fin n) → HardwareThreadScheduler n → Bool × HardwareThreadScheduler n
  | [], s => (false, s)
  | i :: is, s =>
    let s := { s with fCurrentThreadIdx := i }
    let thread := s.fThreadList i
    if thread.fKind = .kAPInvalid ∨ thread.fKind = .kAPBoot then tryCores e framePtr pTime is s
    else if thread.fBusy then tryCores e framePtr pTime is s
    else
      let ret := HardwareThread.switch e i { thread with fBusy := true } framePtr
      if ret.1 = false then tryCores e framePtr pTime is (s.set i ret.2)
      else (true, s.set i { ret.2 with fPTime := pTime })

/-- `UserProcessHelper::Switch`. The current process id it writes is one of a copy. -/
def userProcessSwitch (e : SwitchEnv n) (users : UserProcessScheduler) (framePtr : Nat)
    (newPid : Int) (s : HardwareThreadScheduler n) : Bool × HardwareThreadScheduler n :=
  tryCores e framePtr (users.asArray (toIndex newPid)).pTime (List.finRange n) s

/-! ## What it reports -/

/-- `YES`: one core is busy that was idle. `NO`: the cores are as busy as before, and run on the
stacks they had. -/
def Reports (s : HardwareThreadScheduler n) (r : Bool × HardwareThreadScheduler n) : Prop :=
  (r.1 = true → ∃! i, (s.fThreadList i).fBusy = false ∧ (r.2.fThreadList i).fBusy = true) ∧
    (r.1 = false → ∀ i, (r.2.fThreadList i).fBusy = (s.fThreadList i).fBusy ∧
      (r.2.fThreadList i).fStack = (s.fThreadList i).fStack)

/-- The core takes the frame. -/
def Takes (e : SwitchEnv n) (framePtr : Nat) (i : Fin n) : Prop :=
  halCheckTask e.frames framePtr = true ∧ e.mpRegisterTask i = true

/-- The first core that is asked, if one is, takes the frame. -/
def FirstTakes (e : SwitchEnv n) (framePtr : Nat) (s : HardwareThreadScheduler n) : Prop :=
  ∀ i, (s.fThreadList i).Asked → (∀ j < i, ¬ (s.fThreadList j).Asked) → Takes e framePtr i

variable {e : SwitchEnv n} {framePtr pTime : Nat} {s : HardwareThreadScheduler n} {i j : Fin n}
  {is : List (Fin n)} {thread : HardwareThread}

theorem switch_takes : (HardwareThread.switch e i thread framePtr).1 = true ↔
    Takes e framePtr i := by
  unfold HardwareThread.switch Takes halCheckTask
  by_cases h₀ : framePtr = 0
  · simp [h₀]
  · simp only [h₀, if_false]
    split
    · next h => simp [h]
    · next h => simp [Bool.eq_true_of_not_eq_false h]

theorem switch_fBusy : (HardwareThread.switch e i thread framePtr).2.fBusy = thread.fBusy := by
  unfold HardwareThread.switch
  split
  · rfl
  · split <;> rfl

/-- The loop passes a core it does not ask. -/
theorem tryCores_pass (h : ¬ (s.fThreadList i).Asked) :
    tryCores e framePtr pTime (i :: is) s =
      tryCores e framePtr pTime is { s with fCurrentThreadIdx := i } := by
  rw [tryCores]
  dsimp only
  split
  · rfl
  · next hkind =>
      rw [if_pos]
      by_contra hbusy
      exact h ⟨fun hk => hkind (.inl hk), fun hk => hkind (.inr hk), Bool.eq_false_iff.mpr hbusy⟩

/-- A core it asks is marked, whatever it answers. -/
theorem tryCores_ask (e : SwitchEnv n) (framePtr pTime : Nat) (is : List (Fin n))
    (h : (s.fThreadList i).Asked) : ∃ thread', thread'.fBusy = true ∧
    ((Takes e framePtr i ∧ ∃ idx, tryCores e framePtr pTime (i :: is) s =
        (true, ⟨Function.update s.fThreadList i thread', idx⟩)) ∨
      (¬ Takes e framePtr i ∧ ∃ idx, tryCores e framePtr pTime (i :: is) s =
        tryCores e framePtr pTime is ⟨Function.update s.fThreadList i thread', idx⟩)) := by
  obtain ⟨hinv, hboot, hidle⟩ := h
  rw [tryCores]
  dsimp only
  rw [if_neg (not_or.mpr ⟨hinv, hboot⟩), if_neg (by simp [hidle])]
  by_cases ht : Takes e framePtr i
  · rw [if_neg (by simp [switch_takes.mpr ht])]
    exact ⟨_, by rw [switch_fBusy], .inl ⟨ht, _, rfl⟩⟩
  · have hfails : (HardwareThread.switch e i { s.fThreadList i with fBusy := true }
        framePtr).1 = false := Bool.eq_false_iff.mpr fun h => ht (switch_takes.mp h)
    rw [if_pos hfails]
    exact ⟨_, by rw [switch_fBusy], .inr ⟨ht, _, rfl⟩⟩

/-- A busy core stays busy. -/
theorem tryCores_busy (e : SwitchEnv n) (framePtr pTime : Nat) (is : List (Fin n))
    (h : (s.fThreadList j).fBusy = true) :
    ((tryCores e framePtr pTime is s).2.fThreadList j).fBusy = true := by
  induction is generalizing s with
  | nil => exact h
  | cons i is ih =>
      by_cases ha : (s.fThreadList i).Asked
      · obtain ⟨t, ht, hcases⟩ := tryCores_ask e framePtr pTime is ha
        have hnew : (Function.update s.fThreadList i t j).fBusy = true := by
          by_cases hji : j = i
          · rw [hji, Function.update_self, ht]
          · rw [Function.update_of_ne hji, h]
        rcases hcases with ⟨-, idx, heq⟩ | ⟨-, idx, heq⟩
        · rw [heq]
          exact hnew
        · rw [heq]
          exact ih hnew
      · rw [tryCores_pass ha]
        exact ih h

/-- `YES` comes from a core that was idle and is busy now. -/
theorem tryCores_yes (h : (tryCores e framePtr pTime is s).1 = true) :
    ∃ j, (s.fThreadList j).fBusy = false ∧
      ((tryCores e framePtr pTime is s).2.fThreadList j).fBusy = true := by
  induction is generalizing s with
  | nil => cases h
  | cons i is ih =>
      by_cases ha : (s.fThreadList i).Asked
      · -- the core that is asked is one
        refine ⟨i, ha.2.2, ?_⟩
        obtain ⟨t, ht, hcases⟩ := tryCores_ask e framePtr pTime is ha
        have hnew : (Function.update s.fThreadList i t i).fBusy = true := by
          rw [Function.update_self, ht]
        rcases hcases with ⟨-, idx, heq⟩ | ⟨-, idx, heq⟩
        · rw [heq]
          exact hnew
        · rw [heq]
          exact tryCores_busy e framePtr pTime is hnew
      · rw [tryCores_pass ha] at h ⊢
        exact ih h

/-- The cores that are left decide, when no other core is to be asked. -/
theorem tryCores_reports_iff (hsorted : is.Pairwise (· < ·))
    (hleft : ∀ j, (s.fThreadList j).Asked → j ∈ is) :
    Reports s (tryCores e framePtr pTime is s) ↔ FirstTakes e framePtr s := by
  induction is generalizing s with
  | nil =>
      refine iff_of_true ⟨fun h => absurd h Bool.false_ne_true, fun _ _ => ⟨rfl, rfl⟩⟩
        fun i ha _ => ?_
      exact absurd (hleft i ha) List.not_mem_nil
  | cons i is ih =>
      obtain ⟨hfirst, hsorted⟩ := List.pairwise_cons.mp hsorted
      by_cases ha : (s.fThreadList i).Asked
      · have hi : ∀ j < i, ¬ (s.fThreadList j).Asked := by
          intro j hj haj
          rcases List.mem_cons.mp (hleft j haj) with rfl | hmem
          · exact lt_irrefl _ hj
          · exact lt_asymm hj (hfirst j hmem)
        have hiff : FirstTakes e framePtr s ↔ Takes e framePtr i := by
          refine ⟨fun h => h i ha hi, fun h k hk hbefore => ?_⟩
          rcases lt_trichotomy k i with hki | rfl | hki
          · exact absurd hk (hi k hki)
          · exact h
          · exact absurd ha (hbefore i hki)
        rw [hiff]
        obtain ⟨t, ht, ⟨htakes, idx, heq⟩ | ⟨hno, idx, heq⟩⟩ := tryCores_ask e framePtr
          pTime is ha
        · rw [heq]
          refine iff_of_true ⟨fun _ => ⟨i, ⟨ha.2.2, ?_⟩, ?_⟩, fun h => by cases h⟩ htakes
          · show (Function.update s.fThreadList i t i).fBusy = true
            rw [Function.update_self, ht]
          · rintro j ⟨hidle, hbusy⟩
            by_contra hji
            have hsame : (Function.update s.fThreadList i t j).fBusy = true := hbusy
            rw [Function.update_of_ne hji, hidle] at hsame
            cases hsame
        · -- core `i` stays marked: after `NO` that shows, and after `YES` there are two
          rw [heq]
          refine iff_of_false (fun hr => ?_) hno
          have hself : (Function.update s.fThreadList i t i).fBusy = true := by
            rw [Function.update_self, ht]
          have hbusy := tryCores_busy e framePtr pTime is
            (s := ⟨Function.update s.fThreadList i t, idx⟩) hself
          cases hres : (tryCores e framePtr pTime is ⟨Function.update s.fThreadList i t, idx⟩).1 with
          | false =>
              have hstill := (hr.2 hres i).1
              rw [hbusy, ha.2.2] at hstill
              cases hstill
          | true =>
              obtain ⟨j, hj, hj'⟩ := tryCores_yes hres
              have hji : j ≠ i := by
                rintro rfl
                have hsame : (Function.update s.fThreadList j t j).fBusy = false := hj
                rw [hself] at hsame
                cases hsame
              have hidle : (s.fThreadList j).fBusy = false := by
                rwa [show (⟨Function.update s.fThreadList i t, idx⟩ :
                  HardwareThreadScheduler n).fThreadList j = s.fThreadList j from
                    Function.update_of_ne hji _ _] at hj
              exact hji ((hr.1 hres).unique ⟨hidle, hj'⟩ ⟨ha.2.2, hbusy⟩)
      · rw [tryCores_pass ha]
        refine ih (s := { s with fCurrentThreadIdx := i }) hsorted fun j haj => ?_
        rcases List.mem_cons.mp (hleft j haj) with rfl | hmem
        · exact absurd haj ha
        · exact hmem

/-- **`Switch` reports what it did exactly when the first core it asks takes the frame**, or when
there is none to ask. -/
theorem switch_reports_iff (e : SwitchEnv n) (users : UserProcessScheduler) (framePtr : Nat)
    (newPid : Int) (s : HardwareThreadScheduler n) :
    Reports s (userProcessSwitch e users framePtr newPid s) ↔ FirstTakes e framePtr s := by
  apply tryCores_reports_iff
  · exact (List.sortedLT_finRange n).pairwise
  · exact fun j _ => List.mem_finRange j

/-- Two idle cores, of which the second takes the frame: both are busy afterwards. -/
theorem switch_marks_two : ∃ s : HardwareThreadScheduler 2, ∃ e : SwitchEnv 2,
    (∀ i, (s.fThreadList i).fBusy = false) ∧
      (userProcessSwitch e zeroScheduler 1 0 s).1 = true ∧
      ∀ i, ((userProcessSwitch e zeroScheduler 1 0 s).2.fThreadList i).fBusy = true := by
  refine ⟨⟨fun _ => ⟨0, .kAPStandard, 0, false, false, 0⟩, 0⟩, ⟨fun _ => ⟨1, 1⟩, fun i => i = 1⟩,
    fun _ => rfl, rfl, ?_⟩
  decide

end NeKernel.Scheduler
