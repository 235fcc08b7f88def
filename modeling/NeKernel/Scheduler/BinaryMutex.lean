import NeKernel.Scheduler.Slots
import NeKernel.Scheduler.Run

/-!
# The binary mutex

`BinaryMutex` with its priority inheritance. A process that finds the mutex locked and has a
higher priority than the owner lends the owner its affinity, and the mutex keeps the affinity the
owner had, in one field. A second, higher boost overwrites the field with the first one, and that
is what `Unlock` then restores.

Whether the mutex is locked is read off the status of its owner. A process that calls `Lock` while
the owner is frozen or crashed takes the mutex over: the owner is not told, and what it has been
lent stays with it.
-/

namespace NeKernel.Scheduler

/-- `operator<` of affinities: a lower value is a higher priority. -/
instance : LT AffinityKind := ⟨fun lhs rhs => lhs.toNat < rhs.toNat⟩

instance (lhs rhs : AffinityKind) : Decidable (lhs < rhs) :=
  inferInstanceAs (Decidable (lhs.toNat < rhs.toNat))

/-- Nothing is below `kInvalid`. -/
theorem AffinityKind.ne_kInvalid {a b : AffinityKind} (h : a < b) : b ≠ .kInvalid := by
  rintro rfl
  exact absurd h (Nat.not_lt_zero _)

theorem AffinityKind.ne_of_lt {a b : AffinityKind} (h : a < b) : a ≠ b := by
  rintro rfl
  exact absurd h (Nat.lt_irrefl _)

theorem AffinityKind.lt_trans {a b c : AffinityKind} (h : a < b) (h' : b < c) : a < c :=
  Nat.lt_trans h h'

/-- `UserProcess::Wake`. -/
def UserProcess.wake (p : UserProcess) (shouldWakeup : Bool) : UserProcess :=
  { p with status := if shouldWakeup then .kRunning else .kFrozen }

/-! ## The mutex -/

structure BinaryMutex (ι : Type*) where
  fLockingProcess : Option ι
  fOwnerOriginalAffinity : AffinityKind

/-- A mutex, the processes that use it, and which of them wait inside `LockAndWait`. -/
structure MutexSystem (ι : Type*) where
  mutex : BinaryMutex ι
  process : ι → UserProcess
  waiting : ι → Bool

namespace MutexSystem

variable {ι : Type*} [DecidableEq ι]

def affinity (s : MutexSystem ι) (p : ι) : AffinityKind := (s.process p).affinity

def setAffinity (s : MutexSystem ι) (p : ι) (a : AffinityKind) : MutexSystem ι :=
  { s with process := Function.update s.process p { s.process p with affinity := a } }

/-- `BinaryMutex::IsLocked`. -/
def isLocked (s : MutexSystem ι) : Bool := s.mutex.fLockingProcess.any fun o => (s.process o).isRunning

/-- `BinaryMutex::Unlock`. -/
def unlock (s : MutexSystem ι) : Bool × MutexSystem ι :=
  match s.mutex.fLockingProcess with
  | none => (false, s)
  | some o =>
      let s :=
        if s.mutex.fOwnerOriginalAffinity ≠ .kInvalid then
          let s := s.setAffinity o s.mutex.fOwnerOriginalAffinity
          { s with mutex := { s.mutex with fOwnerOriginalAffinity := .kInvalid } }
        else s
      (true, { s with mutex := { s.mutex with fLockingProcess := none } })

/-- The owner is lent the affinity of `p`. -/
def boost (s : MutexSystem ι) (o p : ι) : MutexSystem ι :=
  let original := s.affinity o
  let s := s.setAffinity o (s.affinity p)
  { s with mutex := { s.mutex with fOwnerOriginalAffinity := original } }

/-- `BinaryMutex::Lock` for a process; for a null pointer it answers No at once. -/
def lock (s : MutexSystem ι) (p : ι) : Bool × MutexSystem ι :=
  match s.mutex.fLockingProcess with
  | none => (true, { s with mutex := ⟨some p, .kInvalid⟩ })
  | some o =>
      if s.isLocked then (false, if s.affinity p < s.affinity o then s.boost o p else s)
      else (true, { s with mutex := ⟨some p, .kInvalid⟩ })

/-! ## What the operations do -/

variable {s : MutexSystem ι} {o p q : ι} {a : AffinityKind}

@[simp] theorem affinity_setAffinity_same : (s.setAffinity p a).affinity p = a := by
  simp [setAffinity, affinity]

theorem affinity_setAffinity_other (h : q ≠ p) : (s.setAffinity p a).affinity q = s.affinity q := by
  simp [setAffinity, affinity, Function.update_of_ne h]

theorem lock_free (h : s.mutex.fLockingProcess = none) :
    s.lock p = (true, { s with mutex := ⟨some p, .kInvalid⟩ }) := by
  rw [lock, h]

theorem lock_owned (h : s.mutex.fLockingProcess = some o) (hrun : (s.process o).isRunning = true) :
    s.lock p = (false, if s.affinity p < s.affinity o then s.boost o p else s) := by
  have hlocked : s.isLocked = true := by rw [isLocked, h, Option.any_some, hrun]
  rw [lock, h]
  simp only [hlocked, if_true]

theorem lock_taken (h : s.mutex.fLockingProcess = some o)
    (hrun : (s.process o).isRunning = false) :
    s.lock p = (true, { s with mutex := ⟨some p, .kInvalid⟩ }) := by
  have hlocked : s.isLocked = false := by rw [isLocked, h, Option.any_some, hrun]
  rw [lock, h]
  simp only [hlocked, Bool.false_eq_true, if_false]

@[simp] theorem boost_owner : (s.boost o p).mutex.fLockingProcess = s.mutex.fLockingProcess := rfl

@[simp] theorem boost_original :
    (s.boost o p).mutex.fOwnerOriginalAffinity = s.affinity o := rfl

@[simp] theorem boost_affinity_owner : (s.boost o p).affinity o = s.affinity p :=
  affinity_setAffinity_same

theorem boost_affinity_other (h : q ≠ o) : (s.boost o p).affinity q = s.affinity q :=
  affinity_setAffinity_other h

/-- After `Unlock` the owner has what the mutex has kept, if it has kept anything. -/
theorem unlock_affinity_owner (h : s.mutex.fLockingProcess = some o) : s.unlock.2.affinity o =
    if s.mutex.fOwnerOriginalAffinity ≠ .kInvalid then s.mutex.fOwnerOriginalAffinity
    else s.affinity o := by
  rw [unlock, h]
  simp only
  split
  · exact affinity_setAffinity_same
  · rfl

theorem unlock_affinity_other (h : s.mutex.fLockingProcess ≠ some q) :
    s.unlock.2.affinity q = s.affinity q := by
  unfold unlock
  split
  · rfl
  · next o ho =>
      have hne : q ≠ o := by
        rintro rfl
        exact h ho
      simp only
      split
      · exact affinity_setAffinity_other hne
      · rfl

theorem unlock_owner : s.unlock.2.mutex.fLockingProcess = none := by
  unfold unlock
  split
  · next h => exact h
  · rfl

theorem unlock_original (h : s.mutex.fLockingProcess = some o) :
    s.unlock.2.mutex.fOwnerOriginalAffinity = .kInvalid := by
  rw [unlock, h]
  simp only
  split
  · rfl
  · next hk => exact not_not.mp hk

end MutexSystem

/-! ## Sequences of `Lock` and `Unlock` -/

/-- A call of the mutex. -/
inductive MutexCall (ι : Type*) where
  | lock (p : ι)
  | unlock

namespace MutexSystem

variable {ι : Type*} [DecidableEq ι] {s : MutexSystem ι} {o p : ι} {a : Option AffinityKind}

/-- The owner is running. -/
def OwnerRunning (s : MutexSystem ι) : Prop :=
  ∀ o, s.mutex.fLockingProcess = some o → (s.process o).isRunning = true

/-- The owner is running all along. -/
def OwnerStays : List (MutexCall ι) → MutexSystem ι → Prop
  | [], s => s.OwnerRunning
  | .lock p :: cs, s => s.OwnerRunning ∧ OwnerStays cs (s.lock p).2
  | .unlock :: cs, s => s.OwnerRunning ∧ OwnerStays cs s.unlock.2

/-- Each `Unlock` leaves the owner with the affinity it had when it acquired the mutex; `a` is
that affinity, while there is an owner. -/
def Restored : Option AffinityKind → List (MutexCall ι) → MutexSystem ι → Prop
  | _, [], _ => True
  | a, .lock p :: cs, s =>
      Restored (if (s.lock p).1 then some (s.affinity p) else a) cs (s.lock p).2
  | a, .unlock :: cs, s =>
      (∀ o, s.mutex.fLockingProcess = some o → some (s.unlock.2.affinity o) = a) ∧
        Restored none cs s.unlock.2

/-- The owner is not boosted by `p`, or has not been boosted before. -/
def FirstBoost (s : MutexSystem ι) (p : ι) : Prop :=
  ∀ o, s.mutex.fLockingProcess = some o → s.affinity p < s.affinity o →
    s.mutex.fOwnerOriginalAffinity = .kInvalid

/-- No owner is boosted a second time. -/
def BoostedOnce : List (MutexCall ι) → MutexSystem ι → Prop
  | [], _ => True
  | .lock p :: cs, s => s.FirstBoost p ∧ BoostedOnce cs (s.lock p).2
  | .unlock :: cs, s => BoostedOnce cs s.unlock.2

/-- The affinity at acquisition is the owner's, or the mutex has kept it. -/
def Keeps (a : Option AffinityKind) (s : MutexSystem ι) : Prop :=
  ∀ o, s.mutex.fLockingProcess = some o →
    s.mutex.fOwnerOriginalAffinity = .kInvalid ∧ a = some (s.affinity o) ∨
    a = some s.mutex.fOwnerOriginalAffinity ∧ s.affinity o < s.mutex.fOwnerOriginalAffinity

/-- The mutex has kept another affinity than the one at acquisition. -/
def Loses (a : Option AffinityKind) (s : MutexSystem ι) : Prop :=
  ∃ o x, s.mutex.fLockingProcess = some o ∧ a = some x ∧
    s.mutex.fOwnerOriginalAffinity < x ∧ s.affinity o < s.mutex.fOwnerOriginalAffinity

/-- A first boost keeps the affinity at acquisition. -/
theorem Keeps.boost (h : Keeps a s) (ho : s.mutex.fLockingProcess = some o)
    (hlt : s.affinity p < s.affinity o) (hfirst : s.mutex.fOwnerOriginalAffinity = .kInvalid) :
    Keeps a (s.boost o p) := by
  intro o' ho'
  obtain rfl : o = o' := Option.some.inj (ho.symm.trans ho')
  rcases h o ho with ⟨-, ha⟩ | ⟨-, hbelow⟩
  · refine .inr ⟨ha, ?_⟩
    rw [boost_affinity_owner]
    exact hlt
  · exact absurd hfirst (AffinityKind.ne_kInvalid hbelow)

/-- A second boost loses it. -/
theorem Keeps.lost (h : Keeps a s) (ho : s.mutex.fLockingProcess = some o)
    (hlt : s.affinity p < s.affinity o) (hsecond : s.mutex.fOwnerOriginalAffinity ≠ .kInvalid) :
    Loses a (s.boost o p) := by
  rcases h o ho with ⟨hk, -⟩ | ⟨ha, hbelow⟩
  · exact absurd hk hsecond
  · refine ⟨o, _, ho, ha, hbelow, ?_⟩
    rw [boost_affinity_owner]
    exact hlt

/-- What is lost stays lost, whoever comes. -/
theorem Loses.boost (h : Loses a s) (ho : s.mutex.fLockingProcess = some o)
    (hlt : s.affinity p < s.affinity o) : Loses a (s.boost o p) := by
  obtain ⟨o', x, ho', ha, horig, hbelow⟩ := h
  obtain rfl : o = o' := Option.some.inj (ho.symm.trans ho')
  refine ⟨o, x, ho, ha, AffinityKind.lt_trans hbelow horig, ?_⟩
  rw [boost_affinity_owner]
  exact hlt

/-- From there the next `Unlock` restores the wrong affinity. -/
theorem Loses.not_restored (cs : List (MutexCall ι)) (h : Loses a s) (hrun : OwnerStays cs s) :
    ¬ Restored a (cs ++ [.unlock]) s := by
  induction cs generalizing s with
  | nil =>
      obtain ⟨o, x, ho, rfl, horig, hbelow⟩ := h
      intro hres
      have hback := hres.1 o ho
      rw [unlock_affinity_owner ho, if_pos (AffinityKind.ne_kInvalid hbelow)] at hback
      exact AffinityKind.ne_of_lt horig (Option.some.inj hback)
  | cons c cs ih =>
      cases c with
      | lock p =>
          obtain ⟨o, -, ho, -⟩ := id h
          have hlock := lock_owned (p := p) ho (hrun.1 o ho)
          rw [List.cons_append, Restored, hlock]
          have hrun' := hrun.2
          rw [hlock] at hrun'
          simp only [Bool.false_eq_true, if_false]
          split at hrun'
          · next hlt =>
              rw [if_pos hlt]
              exact ih (h.boost ho hlt) hrun'
          · next hlt =>
              rw [if_neg hlt]
              exact ih h hrun'
      | unlock =>
          obtain ⟨o, x, ho, rfl, horig, hbelow⟩ := h
          intro hres
          have hback := hres.1 o ho
          rw [unlock_affinity_owner ho, if_pos (AffinityKind.ne_kInvalid hbelow)] at hback
          exact AffinityKind.ne_of_lt horig (Option.some.inj hback)

/-- What has been kept is restored. -/
theorem Keeps.unlock (h : Keeps a s) (ho : s.mutex.fLockingProcess = some o) :
    some (s.unlock.2.affinity o) = a := by
  rw [unlock_affinity_owner ho]
  rcases h o ho with ⟨hk, ha⟩ | ⟨ha, hbelow⟩
  · rw [if_neg (not_not.mpr hk), ha]
  · rw [if_pos (AffinityKind.ne_kInvalid hbelow), ha]

omit [DecidableEq ι] in
/-- The new owner has the affinity it has. -/
theorem keeps_taken : Keeps (some (s.affinity p)) { s with mutex := ⟨some p, .kInvalid⟩ } := by
  intro o ho
  obtain rfl : p = o := Option.some.inj ho
  exact .inl ⟨rfl, rfl⟩

theorem restored_iff (cs : List (MutexCall ι)) (h : Keeps a s) (hrun : OwnerStays cs s) :
    Restored a (cs ++ [.unlock]) s ↔ BoostedOnce cs s := by
  induction cs generalizing a s with
  | nil =>
      rw [BoostedOnce, iff_true]
      exact ⟨fun o ho => h.unlock ho, trivial⟩
  | cons c cs ih =>
      cases c with
      | lock p =>
          rw [List.cons_append, Restored, BoostedOnce]
          have hrun' := hrun.2
          cases ho : s.mutex.fLockingProcess with
          | none =>
              have hfirst : s.FirstBoost p := fun o ho' => by
                rw [ho] at ho'
                cases ho'
              rw [lock_free ho] at hrun' ⊢
              rw [if_pos rfl, ih keeps_taken hrun']
              exact ⟨fun hb => ⟨hfirst, hb⟩, fun hb => hb.2⟩
          | some o =>
              rw [lock_owned ho (hrun.1 o ho)] at hrun' ⊢
              rw [if_neg Bool.false_ne_true]
              -- the owner is boosted: its affinity is lost for good if it had been boosted already
              by_cases hlt : s.affinity p < s.affinity o
              · simp only [if_pos hlt] at hrun' ⊢
                by_cases hk : s.mutex.fOwnerOriginalAffinity = .kInvalid
                · rw [ih (h.boost ho hlt hk) hrun']
                  exact ⟨fun hb => ⟨fun _ _ _ => hk, hb⟩, fun hb => hb.2⟩
                · refine ⟨fun hres => ?_, fun hb => absurd (hb.1 o ho hlt) hk⟩
                  exact absurd hres ((h.lost ho hlt hk).not_restored cs hrun')
              · simp only [if_neg hlt] at hrun' ⊢
                rw [ih h hrun']
                refine ⟨fun hb => ⟨fun o' ho' hlt' => ?_, hb⟩, fun hb => hb.2⟩
                obtain rfl : o = o' := Option.some.inj (ho.symm.trans ho')
                exact absurd hlt' hlt
      | unlock =>
          have hfree : Keeps none s.unlock.2 := by
            intro o ho
            rw [unlock_owner] at ho
            cases ho
          rw [List.cons_append, Restored, BoostedOnce, ih hfree hrun.2]
          exact ⟨fun hb => hb.2, fun hb => ⟨fun o ho => h.unlock ho, hb⟩⟩

/-- **The boost of the owner.** While the owner keeps running, every `Unlock` of a run, and one
after it, gives the owner back the affinity it had when it acquired the mutex if and only if no
owner is boosted a second time. -/
theorem restored_iff_boostedOnce (s : MutexSystem ι) (cs : List (MutexCall ι))
    (hfree : s.mutex.fLockingProcess = none) (hrun : OwnerStays cs s) :
    Restored none (cs ++ [.unlock]) s ↔ BoostedOnce cs s := by
  apply restored_iff cs _ hrun
  intro o ho
  rw [hfree] at ho
  cases ho

/-- A free mutex and a running process of every affinity. -/
def freeMutex : MutexSystem AffinityKind where
  mutex := ⟨none, .kInvalid⟩
  process a := { zeroProcess with status := .kRunning, affinity := a }
  waiting _ := false

theorem restored_iff_boostedOnce_high :
    Restored none [.lock .kStandard, .lock .kHigh, .unlock] freeMutex := by
  refine (restored_iff_boostedOnce freeMutex [.lock .kStandard, .lock .kHigh] rfl ?_).mpr ?_
  · refine ⟨?_, ?_, ?_⟩ <;> intro o ho <;> cases ho <;> rfl
  · refine ⟨?_, ?_, trivial⟩ <;> intro o ho <;> cases ho
    exact fun _ => rfl

/-- Two waiters of rising priority: `Unlock` leaves the owner with the affinity of the first. -/
theorem boosted_twice :
    OwnerStays [.lock .kStandard, .lock .kHigh, .lock .kVeryHigh, .unlock] freeMutex ∧
      ¬ Restored none [.lock .kStandard, .lock .kHigh, .lock .kVeryHigh, .unlock] freeMutex := by
  constructor
  · refine ⟨?_, ?_, ?_, ?_, ?_⟩ <;> intro o ho <;> cases ho <;> rfl
  · intro h
    have hback : some AffinityKind.kHigh = some AffinityKind.kStandard := h.1 .kStandard rfl
    cases hback

end MutexSystem

/-! ## Interleavings -/

/-- A step of some process, or of the kernel: the calls of the mutex, the second attempt of a
process that waits inside `LockAndWait`, and changes of status. -/
inductive MutexEvent (ι : Type*) where
  | lock (p : ι)
  | lockAndWait (p : ι) (timer : Bool)
  | retry (p : ι)
  | unlock
  | crash (p : ι)
  | wake (p : ι) (shouldWakeup : Bool)

namespace MutexSystem

variable {ι : Type*} [DecidableEq ι] {s s' : MutexSystem ι} {o p q : ι} {base : ι → AffinityKind}

def setProcess (s : MutexSystem ι) (p : ι) (f : UserProcess → UserProcess) : MutexSystem ι :=
  { s with process := Function.update s.process p (f (s.process p)) }

def setWaiting (s : MutexSystem ι) (p : ι) (w : Bool) : MutexSystem ι :=
  { s with waiting := Function.update s.waiting p w }

/-- The process that tries to lock the mutex in the event. A process without a timer does not, and
only one that waits tries again. -/
def trying (s : MutexSystem ι) : MutexEvent ι → Option ι
  | .lock p => some p
  | .lockAndWait p timer => if timer then some p else none
  | .retry p => if s.waiting p then some p else none
  | _ => none

/-- One event. -/
def exec (s : MutexSystem ι) : MutexEvent ι → MutexSystem ι
  | .lock p => (s.lock p).2
  | .lockAndWait p timer =>
      if timer then if (s.lock p).1 then (s.lock p).2 else (s.lock p).2.setWaiting p true else s
  | .retry p => if s.waiting p then (s.lock p).2.setWaiting p false else s
  | .unlock => s.unlock.2
  | .crash p => s.setProcess p UserProcess.crash
  | .wake p shouldWakeup => s.setProcess p fun process => process.wake shouldWakeup

/-- The process to which a call returns Yes in the event. -/
def locks (s : MutexSystem ι) (e : MutexEvent ι) : Option ι :=
  (s.trying e).filter fun p => (s.lock p).1

/-- Between a Yes to the process `holder` and the next `Unlock` no other process gets a Yes, and
each `Unlock` leaves every process with its own affinity. -/
def Exclusive (base : ι → AffinityKind) :
    Option ι → List (MutexEvent ι) → MutexSystem ι → Prop
  | _, [], _ => True
  | _, .unlock :: es, s =>
      (∀ q, s.unlock.2.affinity q = base q) ∧ Exclusive base none es s.unlock.2
  | holder, e :: es, s =>
      (∀ p o, s.locks e = some p → holder = some o → p = o) ∧
        Exclusive base ((s.locks e).or holder) es (s.exec e)

/-- A process that tries to lock an owned mutex finds the owner running, and not boosted already if
it is about to boost it; or it is the owner itself and has not been boosted. -/
def FindsRunning (s : MutexSystem ι) (p : ι) : Prop :=
  ∀ o, s.mutex.fLockingProcess = some o →
    if (s.process o).isRunning then
      s.affinity p < s.affinity o → s.mutex.fOwnerOriginalAffinity = .kInvalid
    else p = o ∧ s.mutex.fOwnerOriginalAffinity = .kInvalid

/-- All attempts find the owner running. -/
def AllFindRunning : List (MutexEvent ι) → MutexSystem ι → Prop
  | [], _ => True
  | e :: es, s => (∀ p, s.trying e = some p → s.FindsRunning p) ∧ AllFindRunning es (s.exec e)

/-! ### What one event does -/

/-- A Yes makes the process the owner, and a No leaves the owner. -/
theorem lock_owner : (s.lock p).2.mutex.fLockingProcess =
    if (s.lock p).1 then some p else s.mutex.fLockingProcess := by
  unfold lock
  split
  · rfl
  · split
    · split <;> rfl
    · rfl

/-- What happens to the mutex and the affinities in an event that is not `Unlock`. -/
inductive Moves (s s' : MutexSystem ι) (e : MutexEvent ι) : Prop where
  | attempt (p : ι) : s.trying e = some p → s'.mutex = (s.lock p).2.mutex →
      (∀ q, s'.affinity q = (s.lock p).2.affinity q) → Moves s s' e
  | idle : s.trying e = none → s'.mutex = s.mutex → (∀ q, s'.affinity q = s.affinity q) →
      Moves s s' e

/-- A change of status is no change of affinity. -/
theorem setProcess_affinity {f : UserProcess → UserProcess}
    (hf : ∀ process, (f process).affinity = process.affinity) :
    (s.setProcess p f).affinity q = s.affinity q := by
  by_cases hq : q = p
  · subst hq
    simp [setProcess, affinity, hf]
  · simp [setProcess, affinity, Function.update_of_ne hq]

theorem crash_affinity {process : UserProcess} : process.crash.affinity = process.affinity := by
  unfold UserProcess.crash
  split <;> rfl

theorem exec_moves {e : MutexEvent ι} (he : e ≠ .unlock) : Moves s (s.exec e) e := by
  cases e with
  | lock p => exact .attempt p rfl rfl fun _ => rfl
  | lockAndWait p timer =>
      cases timer with
      | false => exact .idle rfl rfl fun _ => rfl
      | true =>
          rw [exec, if_pos rfl]
          split
          · exact .attempt p rfl rfl fun _ => rfl
          · exact .attempt p rfl rfl fun _ => rfl
  | retry p =>
      rw [exec]
      split
      · next hw => exact .attempt p (if_pos hw) rfl fun _ => rfl
      · next hw => exact .idle (if_neg hw) rfl fun _ => rfl
  | unlock => exact absurd rfl he
  | crash p => exact .idle rfl rfl fun _ => setProcess_affinity fun _ => crash_affinity
  | wake p b =>
      exact .idle rfl rfl fun _ =>
        setProcess_affinity (f := fun process => process.wake b) fun _ => rfl

theorem exclusive_cons {holder : Option ι} {e : MutexEvent ι} {es : List (MutexEvent ι)}
    (he : e ≠ .unlock) : Exclusive base holder (e :: es) s ↔
      (∀ p o, s.locks e = some p → holder = some o → p = o) ∧
        Exclusive base ((s.locks e).or holder) es (s.exec e) := by
  cases e with
  | unlock => exact absurd rfl he
  | _ => exact Iff.rfl

/-- The holder is the owner the mutex knows. -/
theorem exec_owner {e : MutexEvent ι} (he : e ≠ .unlock) :
    (s.exec e).mutex.fLockingProcess = (s.locks e).or s.mutex.fLockingProcess := by
  rcases exec_moves (s := s) he with ⟨p, htry, hmutex, -⟩ | ⟨htry, hmutex, -⟩
  · rw [hmutex, lock_owner, locks, htry]
    split
    · next hyes => rw [Option.filter_some, if_pos hyes, Option.some_or]
    · next hno => rw [Option.filter_some, if_neg hno, Option.none_or]
  · rw [hmutex, locks, htry]
    rfl

/-! ### Own affinities -/

/-- Every process has its own affinity, but for a boosted owner, whose own one the mutex has
kept. -/
structure OwnAffinities (base : ι → AffinityKind) (s : MutexSystem ι) : Prop where
  other : ∀ q, s.mutex.fLockingProcess ≠ some q → s.affinity q = base q
  owner : ∀ o, s.mutex.fLockingProcess = some o →
    s.mutex.fOwnerOriginalAffinity = .kInvalid ∧ s.affinity o = base o ∨
    s.mutex.fOwnerOriginalAffinity = base o ∧ s.affinity o < s.mutex.fOwnerOriginalAffinity

/-- The owner is boosted, and the mutex has not kept its own affinity. -/
def Stranded (base : ι → AffinityKind) (s : MutexSystem ι) : Prop :=
  ∃ o, s.mutex.fLockingProcess = some o ∧ s.affinity o < base o ∧
    (s.mutex.fOwnerOriginalAffinity = .kInvalid ∨
      s.mutex.fOwnerOriginalAffinity < base o ∧ s.affinity o < s.mutex.fOwnerOriginalAffinity)

/-- Another process takes the mutex from its owner. -/
def Robbed (s : MutexSystem ι) (p : ι) : Prop :=
  ∃ o, s.mutex.fLockingProcess = some o ∧ (s.lock p).1 = true ∧ p ≠ o

omit [DecidableEq ι] in
theorem OwnAffinities.congr (h : OwnAffinities base s) (hmutex : s'.mutex = s.mutex)
    (haffinity : ∀ q, s'.affinity q = s.affinity q) : OwnAffinities base s' := by
  refine ⟨fun q => ?_, fun o => ?_⟩
  · rw [hmutex, haffinity]
    exact h.other q
  · rw [hmutex, haffinity]
    exact h.owner o

omit [DecidableEq ι] in
theorem Stranded.congr (h : Stranded base s) (hmutex : s'.mutex = s.mutex)
    (haffinity : ∀ q, s'.affinity q = s.affinity q) : Stranded base s' := by
  obtain ⟨o, ho⟩ := h
  exact ⟨o, by rw [hmutex, haffinity]; exact ho⟩

/-- An owner that has not been boosted has its own affinity, as all the others do. -/
theorem OwnAffinities.all (h : OwnAffinities base s)
    (hk : s.mutex.fLockingProcess ≠ none → s.mutex.fOwnerOriginalAffinity = .kInvalid) (q : ι) :
    s.affinity q = base q := by
  by_cases hq : s.mutex.fLockingProcess = some q
  · rcases h.owner q hq with ⟨-, hbase⟩ | ⟨-, hbelow⟩
    · exact hbase
    · have hk := hk (by rw [hq]; exact Option.some_ne_none q)
      exact absurd hk (AffinityKind.ne_kInvalid hbelow)
  · exact h.other q hq

omit [DecidableEq ι] in
theorem OwnAffinities.taken (h : ∀ q, s.affinity q = base q) :
    OwnAffinities base { s with mutex := ⟨some p, .kInvalid⟩ } :=
  ⟨fun q _ => h q, fun o _ => .inl ⟨rfl, h o⟩⟩

/-- An attempt that finds the owner running robs nobody and keeps what the mutex has to keep. -/
theorem OwnAffinities.lock (h : OwnAffinities base s) (hf : s.FindsRunning p) :
    OwnAffinities base (s.lock p).2 ∧ ¬ Robbed s p := by
  cases ho : s.mutex.fLockingProcess with
  | none =>
      rw [lock_free ho]
      refine ⟨.taken (h.all fun hn => absurd ho hn), ?_⟩
      rintro ⟨o, ho', -⟩
      rw [ho] at ho'
      cases ho'
  | some o =>
      have hfinds := hf o ho
      split at hfinds
      · next hrun =>
          rw [lock_owned ho hrun]
          refine ⟨?_, ?_⟩
          · simp only
            split
            · next hlt =>
                -- the boost is the first one of this owner, so what it saves is the owner's own affinity
                have hk := hfinds hlt
                have hbase : s.affinity o = base o := h.all (fun _ => hk) o
                refine ⟨fun q hq => ?_, fun o' ho' => ?_⟩
                · have hne : q ≠ o := by
                    rintro rfl
                    exact hq ho
                  rw [boost_affinity_other hne]
                  exact h.all (fun _ => hk) q
                · obtain rfl : o = o' := Option.some.inj (ho.symm.trans ho')
                  rw [boost_original, boost_affinity_owner]
                  exact .inr ⟨hbase, hlt⟩
            · exact h
          · rintro ⟨o', -, hyes, -⟩
            rw [lock_owned ho hrun] at hyes
            cases hyes
      · next hrun =>
          obtain ⟨rfl, hk⟩ := hfinds
          rw [lock_taken ho (Bool.eq_false_iff.mpr hrun)]
          refine ⟨.taken (h.all fun _ => hk), ?_⟩
          rintro ⟨o', ho', -, hne⟩
          exact hne (Option.some.inj (ho.symm.trans ho'))

/-- Any other attempt robs the owner or strands it. -/
theorem OwnAffinities.lock_else (h : OwnAffinities base s) (hf : ¬ s.FindsRunning p) :
    Robbed s p ∨ Stranded base (s.lock p).2 := by
  unfold FindsRunning at hf
  push Not at hf
  obtain ⟨o, ho, hf⟩ := hf
  split at hf
  · next hrun =>
      obtain ⟨hlt, hk⟩ := Classical.not_imp.mp hf
      rcases h.owner o ho with ⟨hk', -⟩ | ⟨hbase, hbelow⟩
      · exact absurd hk' hk
      · rw [lock_owned ho hrun, if_pos hlt]
        refine .inr ⟨o, ho, ?_, .inr ⟨?_, ?_⟩⟩
        · rw [boost_affinity_owner, ← hbase]
          exact AffinityKind.lt_trans hlt hbelow
        · rw [boost_original, ← hbase]
          exact hbelow
        · rw [boost_affinity_owner]
          exact hlt
  · next hrun =>
      have hlock := lock_taken (p := p) ho (Bool.eq_false_iff.mpr hrun)
      by_cases hp : p = o
      · subst hp
        have hk : s.mutex.fOwnerOriginalAffinity ≠ .kInvalid := fun hk => hf ⟨rfl, hk⟩
        rcases h.owner p ho with ⟨hk', -⟩ | ⟨hbase, hbelow⟩
        · exact absurd hk' hk
        · rw [hlock]
          refine .inr ⟨p, rfl, ?_, .inl rfl⟩
          rw [← hbase]
          exact hbelow
      · exact .inl ⟨o, ho, by rw [hlock], hp⟩

/-- A stranded owner stays so until it is robbed. -/
theorem Stranded.lock (h : Stranded base s) : Robbed s p ∨ Stranded base (s.lock p).2 := by
  obtain ⟨o, ho, hlow, hk⟩ := h
  cases hrun : (s.process o).isRunning with
  | true =>
      rw [lock_owned ho hrun]
      refine .inr ?_
      simp only
      split
      · next hlt =>
          refine ⟨o, ho, ?_, .inr ⟨hlow, ?_⟩⟩
          · rw [boost_affinity_owner]
            exact AffinityKind.lt_trans hlt hlow
          · rw [boost_original, boost_affinity_owner]
            exact hlt
      · exact ⟨o, ho, hlow, hk⟩
  | false =>
      have hlock := lock_taken (p := p) ho hrun
      by_cases hp : p = o
      · subst hp
        rw [hlock]
        exact .inr ⟨p, rfl, hlow, .inl rfl⟩
      · exact .inl ⟨o, ho, by rw [hlock], hp⟩

/-- `Unlock` gives every process its own affinity. -/
theorem OwnAffinities.unlock (h : OwnAffinities base s) (q : ι) :
    s.unlock.2.affinity q = base q := by
  by_cases hq : s.mutex.fLockingProcess = some q
  · rw [unlock_affinity_owner hq]
    rcases h.owner q hq with ⟨hk, hbase⟩ | ⟨hbase, hbelow⟩
    · rw [if_neg (not_not.mpr hk), hbase]
    · rw [if_pos (AffinityKind.ne_kInvalid hbelow), hbase]
  · rw [unlock_affinity_other hq]
    exact h.other q hq

/-- A stranded owner does not get its own back. -/
theorem Stranded.unlock (h : Stranded base s) : ∃ q, s.unlock.2.affinity q ≠ base q := by
  obtain ⟨o, ho, hlow, hk⟩ := h
  refine ⟨o, ?_⟩
  rw [unlock_affinity_owner ho]
  rcases hk with hk | ⟨horig, hbelow⟩
  · rw [if_neg (not_not.mpr hk)]
    exact AffinityKind.ne_of_lt hlow
  · rw [if_pos (AffinityKind.ne_kInvalid hbelow)]
    exact AffinityKind.ne_of_lt horig

/-! ### Runs -/

/-- A robbery is seen: a process gets a Yes while another one holds the mutex. -/
theorem Robbed.seen {e : MutexEvent ι} (h : Robbed s p) (htry : s.trying e = some p) :
    ¬ ∀ p o, s.locks e = some p → s.mutex.fLockingProcess = some o → p = o := by
  obtain ⟨o, ho, hyes, hne⟩ := h
  intro hall
  refine hne (hall p o ?_ ho)
  rw [locks, htry]
  simp [hyes]

theorem Stranded.not_exclusive (es : List (MutexEvent ι)) (h : Stranded base s) :
    ¬ Exclusive base s.mutex.fLockingProcess (es ++ [.unlock]) s := by
  induction es generalizing s with
  | nil =>
      obtain ⟨q, hq⟩ := h.unlock
      exact fun hex => hq (hex.1 q)
  | cons e es ih =>
      by_cases he : e = .unlock
      · subst he
        obtain ⟨q, hq⟩ := h.unlock
        exact fun hex => hq (hex.1 q)
      rw [List.cons_append, exclusive_cons he, ← exec_owner he]
      rintro ⟨hall, hex⟩
      refine ih ?_ hex
      rcases exec_moves (s := s) he with ⟨p, htry, hmutex, haffinity⟩ | ⟨-, hmutex, haffinity⟩
      · rcases h.lock (p := p) with hrob | hst
        · exact absurd hall (hrob.seen htry)
        · exact hst.congr hmutex haffinity
      · exact h.congr hmutex haffinity

theorem exclusive_iff (es : List (MutexEvent ι)) (h : OwnAffinities base s) :
    Exclusive base s.mutex.fLockingProcess (es ++ [.unlock]) s ↔ AllFindRunning es s := by
  induction es generalizing s with
  | nil =>
      rw [AllFindRunning, iff_true]
      exact ⟨h.unlock, trivial⟩
  | cons e es ih =>
      by_cases he : e = .unlock
      · subst he
        have hfree : OwnAffinities base s.unlock.2 := by
          refine ⟨fun q _ => h.unlock q, fun o ho => ?_⟩
          rw [unlock_owner] at ho
          cases ho
        have hih := ih hfree
        rw [unlock_owner] at hih
        rw [List.cons_append, Exclusive, AllFindRunning, hih]
        refine ⟨fun hex => ⟨fun p hp => ?_, hex.2⟩, fun hall => ⟨h.unlock, hall.2⟩⟩
        cases hp
      rw [List.cons_append, exclusive_cons he, ← exec_owner he, AllFindRunning]
      -- a lock that finds no running owner breaks exclusion there or at the last unlock
      rcases exec_moves (s := s) he with ⟨p, htry, hmutex, haffinity⟩ | ⟨htry, hmutex, haffinity⟩
      · have hone : (∀ p, s.trying e = some p → s.FindsRunning p) ↔ s.FindsRunning p := by
          rw [htry]
          exact ⟨fun hall => hall p rfl, fun hf p' hp' => Option.some.inj hp' ▸ hf⟩
        rw [hone]
        by_cases hf : s.FindsRunning p
        · obtain ⟨hown, hno⟩ := h.lock hf
          rw [ih (hown.congr hmutex haffinity)]
          refine ⟨fun hex => ⟨hf, hex.2⟩, fun hall => ⟨fun p' o hyes ho => ?_, hall.2⟩⟩
          by_contra hne
          rw [locks, htry] at hyes
          obtain ⟨hp, hyes⟩ := Option.filter_eq_some_iff.mp hyes
          obtain rfl := Option.some.inj hp
          exact hno ⟨o, ho, hyes, hne⟩
        · refine ⟨fun hex => ?_, fun hall => absurd hall.1 hf⟩
          rcases h.lock_else hf with hrob | hst
          · exact absurd hex.1 (hrob.seen htry)
          · exact absurd hex.2 ((hst.congr hmutex haffinity).not_exclusive es)
      · have hno : ∀ p, s.trying e = some p → s.FindsRunning p := by
          rw [htry]
          intro p hp
          cases hp
        rw [ih (h.congr hmutex haffinity)]
        refine ⟨fun hex => ⟨hno, hex.2⟩, fun hall => ⟨fun p o hyes => ?_, hall.2⟩⟩
        rw [locks, htry] at hyes
        cases hyes

/-- **Mutual exclusion.** From a free mutex, a run and an `Unlock` after it keep the mutex to one
process at a time and leave no process boosted if and only if every process that tries to lock
the mutex finds its owner running, and boosts it only when it is not boosted already. -/
theorem exclusive_iff_findRunning (s : MutexSystem ι) (es : List (MutexEvent ι))
    (hfree : s.mutex.fLockingProcess = none) :
    Exclusive s.affinity none (es ++ [.unlock]) s ↔ AllFindRunning es s := by
  rw [← hfree]
  apply exclusive_iff
  refine ⟨fun _ _ => rfl, fun o ho => ?_⟩
  rw [hfree] at ho
  cases ho

theorem exclusive_iff_findRunning_high :
    Exclusive freeMutex.affinity none
      [.lock .kStandard, .lockAndWait .kHigh true, .unlock] freeMutex := by
  refine (exclusive_iff_findRunning freeMutex [.lock .kStandard, .lockAndWait .kHigh true]
    rfl).mpr ⟨?_, ?_, trivial⟩
  · intro p _ o ho
    cases ho
  · intro p hp o ho
    cases hp
    cases ho
    exact fun _ => rfl

/-- The owner is frozen, and the next process that comes gets the mutex. -/
theorem frozen_owner_robbed :
    ¬ Exclusive freeMutex.affinity none
      [.lock .kStandard, .wake .kStandard false, .lock .kHigh] freeMutex := by
  intro h
  have hsame : AffinityKind.kHigh = AffinityKind.kStandard := h.2.2.1 _ _ rfl rfl
  cases hsame

end MutexSystem

end NeKernel.Scheduler
