import Mathlib.Logic.Function.Basic
import NeKernel.Lib.Runs

/-!
# The registered system calls

`hali_add_entry` and `hali_remove_entry` write the entry of a hash, a member at a time. Each has a lock of its
own, so two additions exclude each other and so do two removals, but an addition and a removal may run side by
side. The model takes one statement of either at a time; a processor that spins has no part in it. The order
in which a processor's own writes become visible to another one is taken to be that of the program.

With nobody inside, an entry is free, holds the hash and the procedure of an addition that was accepted, or is
*dead*: active with no hash (`settled_entry`). A dead entry comes from an addition and a removal of one hash and
stays for ever (`dead_for_ever`). With one lock for both functions the table would be what the calls make of it
one after the other (`one_lock_would_do`).
-/

namespace NeKernel.HALKit.Registered

open Runs

/-! ## The table -/

/-- `HAL_CALL_ENTRY`. A procedure is its address. -/
structure HalCallEntry where
  fHash : UInt64
  fActive : Bool
  fProc : UInt64
  fAuthLevel : UInt64

def HalCallEntry.blank : HalCallEntry := ⟨0, false, 0, 0⟩

/-- A call of `hali_add_entry` that passes its first two tests. -/
structure Addition where
  proc : UInt64
  level : UInt64
  hash : UInt64
  hash_ne : hash ≠ 0
  proc_ne : proc ≠ 0

def kMaxDispatchCallCount : Nat := 512

/-- `hash % kMaxDispatchCallCount`. -/
def slot (hash : UInt64) : Nat := hash.toNat % kMaxDispatchCallCount

/-- What the holder of the lock of `hali_add_entry` does next. -/
inductive AddStep where
  | check
  | hash
  | proc
  | active
  | level
  | unlock
  deriving DecidableEq

/-- What the holder of the lock of `hali_remove_entry` does next. -/
inductive RemoveStep where
  | check
  | proc
  | hash
  | active
  | level
  | unlock
  deriving DecidableEq

/-- The table and the two locks, each with its holder. Two more members only record what happens: the additions
that found their entry inactive, and the table as the calls would make it one after the other, each at its
test. -/
structure State where
  kRegisteredSystemCalls : Nat → HalCallEntry
  adder : Option (Addition × AddStep)
  remover : Option (UInt64 × RemoveStep)
  accepted : List Addition
  spec : Nat → Option Addition

def State.initial : State := ⟨fun _ => .blank, none, none, [], fun _ => none⟩

/-- A member of one entry is written. -/
def State.write (s : State) (hash : UInt64) (f : HalCallEntry → HalCallEntry) : State :=
  { s with
    kRegisteredSystemCalls := Function.update s.kRegisteredSystemCalls (slot hash)
      (f (s.kRegisteredSystemCalls (slot hash))) }

/-- An addition, all at once. -/
def addSpec (spec : Nat → Option Addition) (c : Addition) : Nat → Option Addition :=
  if (spec (slot c.hash)).isNone then Function.update spec (slot c.hash) (some c) else spec

/-- A removal, all at once. -/
def removeSpec (spec : Nat → Option Addition) (hash : UInt64) : Nat → Option Addition :=
  if (spec (slot hash)).any fun c : Addition => c.hash == hash then Function.update spec (slot hash) none else spec

/-- The next statement of `hali_add_entry`. -/
def State.add (s : State) (c : Addition) : AddStep → State
  | .check =>
      let s := { s with spec := addSpec s.spec c }
      if slot c.hash > kMaxDispatchCallCount then { s with adder := some (c, .unlock) }
      else if (s.kRegisteredSystemCalls (slot c.hash)).fActive then { s with adder := some (c, .unlock) }
      else { s with adder := some (c, .hash), accepted := c :: s.accepted }
  | .hash => { s.write c.hash fun e => { e with fHash := c.hash } with adder := some (c, .proc) }
  | .proc => { s.write c.hash fun e => { e with fProc := c.proc } with adder := some (c, .active) }
  | .active => { s.write c.hash fun e => { e with fActive := true } with adder := some (c, .level) }
  | .level => { s.write c.hash fun e => { e with fAuthLevel := c.level } with adder := some (c, .unlock) }
  | .unlock => { s with adder := none }

/-- The next statement of `hali_remove_entry`. -/
def State.remove (s : State) (hash : UInt64) : RemoveStep → State
  | .check =>
      let s := { s with spec := removeSpec s.spec hash }
      if slot hash > kMaxDispatchCallCount then { s with remover := some (hash, .unlock) }
      else if (s.kRegisteredSystemCalls (slot hash)).fHash ≠ hash then { s with remover := some (hash, .unlock) }
      else { s with remover := some (hash, .proc) }
  | .proc => { s.write hash fun e => { e with fProc := 0 } with remover := some (hash, .hash) }
  | .hash => { s.write hash fun e => { e with fHash := 0 } with remover := some (hash, .active) }
  | .active => { s.write hash fun e => { e with fActive := false } with remover := some (hash, .level) }
  | .level => { s.write hash fun e => { e with fAuthLevel := 0 } with remover := some (hash, .unlock) }
  | .unlock => { s with remover := none }

inductive Label where
  | lockAdd (c : Addition)
  | add
  | lockRemove (hash : UInt64)
  | remove

/-- One statement of one processor. -/
inductive Step : State → Label → State → Prop
  | lockAdd {s : State} (c : Addition) (hfree : s.adder = none) :
      Step s (.lockAdd c) { s with adder := some (c, .check) }
  | add {s : State} {c : Addition} {k : AddStep} (hin : s.adder = some (c, k)) : Step s .add (s.add c k)
  | lockRemove {s : State} (hash : UInt64) (hne : hash ≠ 0) (hfree : s.remover = none) :
      Step s (.lockRemove hash) { s with remover := some (hash, .check) }
  | remove {s : State} {hash : UInt64} {k : RemoveStep} (hin : s.remover = some (hash, k)) :
      Step s .remove (s.remove hash k)

/-! ## One entry -/

variable {s s' : State} {c : Addition} {e : HalCallEntry} {a : Option (Addition × AddStep)}
  {r : Option (UInt64 × RemoveStep)} {acc : List Addition} {hash : UInt64} {k : AddStep} {j : RemoveStep} {i : Nat}

/-- The entry is partly written. -/
def AddStep.Writing (k : AddStep) : Prop := k = .proc ∨ k = .active ∨ k = .level

/-- What is known of an entry from the two calls that are about it, if there are any. -/
structure EntryInv (e : HalCallEntry) (a : Option (Addition × AddStep)) (r : Option (UInt64 × RemoveStep))
    (acc : List Addition) : Prop where
  owned : e.fHash ≠ 0 → ∃ c ∈ acc, e.fHash = c.hash ∧
    (e.fProc = c.proc ∨ (∃ hash, r = some (hash, .hash)) ∨ a = some (c, .proc)) ∧
    (e.fActive = true ∨ a = some (c, .proc) ∨ a = some (c, .active)) ∧
    (e.fAuthLevel = c.level ∨ e.fAuthLevel = 0 ∨ ∃ k, k.Writing ∧ a = some (c, k)) ∧
    ∀ c' k, a = some (c', k) → k.Writing → c' = c
  known : ∀ c k, a = some (c, k) → k = .hash ∨ k.Writing → c ∈ acc
  empty : ∀ c, a = some (c, .hash) → e.fHash = 0 ∧ e.fActive = false
  inactive : ∀ c, a = some (c, .proc) ∨ a = some (c, .active) → e.fActive = false
  removing : ∀ hash, r = some (hash, .proc) ∨ r = some (hash, .hash) → e.fHash = hash
  erased : ∀ hash, r = some (hash, .active) → e.fHash = 0
  live : ∀ hash, r = some (hash, .proc) ∨ r = some (hash, .hash) ∨ r = some (hash, .active) →
    e.fActive = true ∨ ∃ c, a = some (c, .proc) ∨ a = some (c, .active)
  removed_ne : ∀ hash j, r = some (hash, j) → hash ≠ 0

theorem EntryInv.write_hash (h : EntryInv e (some (c, .hash)) r acc) :
    EntryInv { e with fHash := c.hash } (some (c, .proc)) r acc := by
  obtain ⟨howned, hknown, hempty, hinactive, hremoving, herased, hlive, hne⟩ := h
  constructor <;> grind [AddStep.Writing]

theorem EntryInv.write_proc (h : EntryInv e (some (c, .proc)) r acc) :
    EntryInv { e with fProc := c.proc } (some (c, .active)) r acc := by
  obtain ⟨howned, hknown, hempty, hinactive, hremoving, herased, hlive, hne⟩ := h
  constructor <;> grind [AddStep.Writing]

theorem EntryInv.write_active (h : EntryInv e (some (c, .active)) r acc) :
    EntryInv { e with fActive := true } (some (c, .level)) r acc := by
  obtain ⟨howned, hknown, hempty, hinactive, hremoving, herased, hlive, hne⟩ := h
  constructor <;> grind [AddStep.Writing]

theorem EntryInv.write_level (h : EntryInv e (some (c, .level)) r acc) :
    EntryInv { e with fAuthLevel := c.level } (some (c, .unlock)) r acc := by
  obtain ⟨howned, hknown, hempty, hinactive, hremoving, herased, hlive, hne⟩ := h
  constructor <;> grind [AddStep.Writing]

theorem EntryInv.accept (h : EntryInv e (some (c, .check)) r acc) (hfree : e.fActive = false) :
    EntryInv e (some (c, .hash)) r (c :: acc) := by
  obtain ⟨howned, hknown, hempty, hinactive, hremoving, herased, hlive, hne⟩ := h
  constructor <;> grind [AddStep.Writing]

/-- A call that is not in between two writes has no part in it. -/
theorem EntryInv.idle_adder (h : EntryInv e a r acc)
    (ha : a = none ∨ ∃ c, a = some (c, .check) ∨ a = some (c, .unlock)) {a' : Option (Addition × AddStep)}
    (ha' : a' = none ∨ ∃ c, a' = some (c, .check) ∨ a' = some (c, .unlock)) : EntryInv e a' r acc := by
  obtain ⟨howned, hknown, hempty, hinactive, hremoving, herased, hlive, hne⟩ := h
  constructor <;> grind [AddStep.Writing]

theorem EntryInv.more (h : EntryInv e a r acc) : EntryInv e a r (c :: acc) := by
  obtain ⟨howned, hknown, hempty, hinactive, hremoving, herased, hlive, hne⟩ := h
  constructor <;> grind [AddStep.Writing]

theorem EntryInv.found (h : EntryInv e a (some (hash, .check)) acc) (heq : e.fHash = hash) :
    EntryInv e a (some (hash, .proc)) acc := by
  obtain ⟨howned, hknown, hempty, hinactive, hremoving, herased, hlive, hne⟩ := h
  constructor <;> grind [AddStep.Writing]

theorem EntryInv.erase_proc (h : EntryInv e a (some (hash, .proc)) acc) :
    EntryInv { e with fProc := 0 } a (some (hash, .hash)) acc := by
  obtain ⟨howned, hknown, hempty, hinactive, hremoving, herased, hlive, hne⟩ := h
  constructor <;> grind [AddStep.Writing]

theorem EntryInv.erase_hash (h : EntryInv e a (some (hash, .hash)) acc) :
    EntryInv { e with fHash := 0 } a (some (hash, .active)) acc := by
  obtain ⟨howned, hknown, hempty, hinactive, hremoving, herased, hlive, hne⟩ := h
  constructor <;> grind [AddStep.Writing]

theorem EntryInv.erase_active (h : EntryInv e a (some (hash, .active)) acc) :
    EntryInv { e with fActive := false } a (some (hash, .level)) acc := by
  obtain ⟨howned, hknown, hempty, hinactive, hremoving, herased, hlive, hne⟩ := h
  constructor <;> grind [AddStep.Writing]

theorem EntryInv.erase_level (h : EntryInv e a (some (hash, .level)) acc) :
    EntryInv { e with fAuthLevel := 0 } a (some (hash, .unlock)) acc := by
  obtain ⟨howned, hknown, hempty, hinactive, hremoving, herased, hlive, hne⟩ := h
  constructor <;> grind [AddStep.Writing]

theorem EntryInv.idle_remover (h : EntryInv e a r acc)
    (hr : ∀ hash j, r = some (hash, j) → j = .check ∨ j = .unlock)
    {r' : Option (UInt64 × RemoveStep)}
    (hr' : ∀ hash j, r' = some (hash, j) → hash ≠ 0 ∧ (j = .check ∨ j = .unlock)) : EntryInv e a r' acc := by
  obtain ⟨howned, hknown, hempty, hinactive, hremoving, herased, hlive, hne⟩ := h
  constructor <;> grind [AddStep.Writing]

/-! ## The whole table -/

/-- The addition that is about an entry. -/
def State.adderAt (s : State) (i : Nat) : Option (Addition × AddStep) :=
  s.adder.filter fun a => slot a.1.hash = i

/-- The removal that is about an entry. -/
def State.removerAt (s : State) (i : Nat) : Option (UInt64 × RemoveStep) :=
  s.remover.filter fun r => slot r.1 = i

/-- What holds of the table between any two statements. -/
def State.Sound (s : State) : Prop :=
  ∀ i, EntryInv (s.kRegisteredSystemCalls i) (s.adderAt i) (s.removerAt i) s.accepted

theorem adderAt_none (h : s.adder = none) : s.adderAt i = none := by rw [State.adderAt, h, Option.filter_none]

theorem adderAt_same (h : s.adder = some (c, k)) : s.adderAt (slot c.hash) = some (c, k) := by
  rw [State.adderAt, h, Option.filter_some, if_pos (by simp)]

theorem adderAt_other (h : s.adder = some (c, k)) (hi : slot c.hash ≠ i) : s.adderAt i = none := by
  rw [State.adderAt, h, Option.filter_some, if_neg (by simpa using hi)]

theorem removerAt_none (h : s.remover = none) : s.removerAt i = none := by
  rw [State.removerAt, h, Option.filter_none]

theorem removerAt_same (h : s.remover = some (hash, j)) : s.removerAt (slot hash) = some (hash, j) := by
  rw [State.removerAt, h, Option.filter_some, if_pos (by simp)]

theorem removerAt_other (h : s.remover = some (hash, j)) (hi : slot hash ≠ i) : s.removerAt i = none := by
  rw [State.removerAt, h, Option.filter_some, if_neg (by simpa using hi)]

theorem initial_sound : State.initial.Sound := by
  intro i
  constructor <;> simp [State.initial, State.adderAt, State.removerAt, HalCallEntry.blank]

theorem slot_lt (hash : UInt64) : slot hash < kMaxDispatchCallCount := Nat.mod_lt _ (by decide)

/-- A statement of the addition that is inside keeps every entry right if it keeps its own. -/
theorem State.Sound.of_add {k' : AddStep} (h : s.Sound) (hin : s.adder = some (c, k))
    (hin' : s'.adder = some (c, k'))
    (hremover : s'.remover = s.remover) (hacc : s'.accepted = s.accepted ∨ s'.accepted = c :: s.accepted)
    (hother : ∀ i, slot c.hash ≠ i → s'.kRegisteredSystemCalls i = s.kRegisteredSystemCalls i)
    (hsame : EntryInv (s'.kRegisteredSystemCalls (slot c.hash)) (some (c, k')) (s.removerAt (slot c.hash))
      s'.accepted) : s'.Sound := by
  intro i
  have hr : s'.removerAt i = s.removerAt i := by rw [State.removerAt, hremover, State.removerAt]
  rw [hr]
  by_cases hi : slot c.hash = i
  · subst hi
    rwa [adderAt_same hin']
  · have hi' := h i
    rw [adderAt_other hin hi] at hi'
    rw [adderAt_other hin' hi, hother i hi]
    rcases hacc with hacc | hacc
    · rwa [hacc]
    · rw [hacc]
      exact hi'.more

/-- So does one of the removal that is inside. -/
theorem State.Sound.of_remove {j' : RemoveStep} (h : s.Sound) (hin : s.remover = some (hash, j))
    (hin' : s'.remover = some (hash, j')) (hadder : s'.adder = s.adder) (hacc : s'.accepted = s.accepted)
    (hother : ∀ i, slot hash ≠ i → s'.kRegisteredSystemCalls i = s.kRegisteredSystemCalls i)
    (hsame : EntryInv (s'.kRegisteredSystemCalls (slot hash)) (s.adderAt (slot hash)) (some (hash, j'))
      s.accepted) : s'.Sound := by
  intro i
  have ha : s'.adderAt i = s.adderAt i := by rw [State.adderAt, hadder, State.adderAt]
  rw [ha, hacc]
  by_cases hi : slot hash = i
  · subst hi
    rwa [removerAt_same hin']
  · have hi' := h i
    rw [removerAt_other hin hi] at hi'
    rwa [removerAt_other hin' hi, hother i hi]

theorem write_same {f : HalCallEntry → HalCallEntry} : (s.write hash f).kRegisteredSystemCalls (slot hash) =
    f (s.kRegisteredSystemCalls (slot hash)) := Function.update_self ..

theorem write_other {f : HalCallEntry → HalCallEntry} (hi : slot hash ≠ i) :
    (s.write hash f).kRegisteredSystemCalls i = s.kRegisteredSystemCalls i :=
  Function.update_of_ne (Ne.symm hi) ..

/-- A member is written by the addition, -/
theorem State.Sound.write_add {k' : AddStep} (h : s.Sound) (hin : s.adder = some (c, k))
    (f : HalCallEntry → HalCallEntry)
    (hsame : EntryInv (f (s.kRegisteredSystemCalls (slot c.hash))) (some (c, k')) (s.removerAt (slot c.hash))
      s.accepted) : State.Sound { s.write c.hash f with adder := some (c, k') } := by
  refine State.Sound.of_add h hin rfl rfl (.inl rfl) (fun _ hi => write_other (s := s) hi) ?_
  have hwritten : (s.write c.hash f).kRegisteredSystemCalls (slot c.hash) = _ := write_same
  exact hwritten ▸ hsame

/-- or by the removal. -/
theorem State.Sound.write_remove {j' : RemoveStep} (h : s.Sound) (hin : s.remover = some (hash, j))
    (f : HalCallEntry → HalCallEntry)
    (hsame : EntryInv (f (s.kRegisteredSystemCalls (slot hash))) (s.adderAt (slot hash)) (some (hash, j'))
      s.accepted) : State.Sound { s.write hash f with remover := some (hash, j') } := by
  refine State.Sound.of_remove h hin rfl rfl rfl (fun _ hi => write_other (s := s) hi) ?_
  have hwritten : (s.write hash f).kRegisteredSystemCalls (slot hash) = _ := write_same
  exact hwritten ▸ hsame

theorem State.Sound.add (h : s.Sound) (hin : s.adder = some (c, k)) : (s.add c k).Sound := by
  have he := h (slot c.hash)
  rw [adderAt_same hin] at he
  have hidle := he.idle_adder
  cases k with
  | check =>
      rw [State.add, if_neg (Nat.not_lt.mpr (Nat.le_of_lt (slot_lt _)))]
      split
      · next hactive =>
          refine State.Sound.of_add h hin rfl rfl (.inl rfl) (fun _ _ => rfl) ?_
          exact he.idle_adder (.inr ⟨c, .inl rfl⟩) (.inr ⟨c, .inr rfl⟩)
      · next hactive =>
          refine State.Sound.of_add h hin rfl rfl (.inr rfl) (fun _ _ => rfl) ?_
          exact he.accept (Bool.eq_false_iff.mpr hactive)
  | hash => exact h.write_add hin (fun e => { e with fHash := c.hash }) he.write_hash
  | proc => exact h.write_add hin (fun e => { e with fProc := c.proc }) he.write_proc
  | active => exact h.write_add hin (fun e => { e with fActive := true }) he.write_active
  | level => exact h.write_add hin (fun e => { e with fAuthLevel := c.level }) he.write_level
  | unlock =>
      intro i
      have hi := h i
      rw [adderAt_none (s := (s.add c .unlock)) rfl]
      by_cases hslot : slot c.hash = i
      · subst hslot
        rw [adderAt_same hin] at hi
        exact hi.idle_adder (.inr ⟨c, .inr rfl⟩) (.inl rfl)
      · rw [adderAt_other hin hslot] at hi
        exact hi

theorem State.Sound.remove (h : s.Sound) (hin : s.remover = some (hash, j)) : (s.remove hash j).Sound := by
  have he := h (slot hash)
  rw [removerAt_same hin] at he
  cases j with
  | check =>
      rw [State.remove, if_neg (Nat.not_lt.mpr (Nat.le_of_lt (slot_lt _)))]
      split
      · next hne =>
          refine State.Sound.of_remove h hin rfl rfl rfl (fun _ _ => rfl) ?_
          exact he.idle_remover (by simp) (by simpa using he.removed_ne _ _ rfl)
      · next heq =>
          refine State.Sound.of_remove h hin rfl rfl rfl (fun _ _ => rfl) ?_
          exact he.found (not_not.mp heq)
  | proc => exact h.write_remove hin (fun e => { e with fProc := 0 }) he.erase_proc
  | hash => exact h.write_remove hin (fun e => { e with fHash := 0 }) he.erase_hash
  | active => exact h.write_remove hin (fun e => { e with fActive := false }) he.erase_active
  | level => exact h.write_remove hin (fun e => { e with fAuthLevel := 0 }) he.erase_level
  | unlock =>
      intro i
      have hi := h i
      rw [removerAt_none (s := (s.remove hash .unlock)) rfl]
      by_cases hslot : slot hash = i
      · subst hslot
        rw [removerAt_same hin] at hi
        exact hi.idle_remover (by simp) (by simp)
      · rw [removerAt_other hin hslot] at hi
        exact hi

/-- **Every statement** of every processor keeps what is known of the table. -/
theorem State.Sound.step {l : Label} (h : s.Sound) (hst : Step s l s') : s'.Sound := by
  cases hst with
  | lockAdd c hfree =>
      intro i
      have hi := h i
      rw [adderAt_none hfree] at hi
      refine hi.idle_adder (.inl rfl) ?_
      by_cases hslot : slot c.hash = i
      · subst hslot
        exact .inr ⟨c, .inl (adderAt_same rfl)⟩
      · exact .inl (adderAt_other (k := .check) rfl hslot)
  | add hin => exact h.add hin
  | lockRemove hash hne hfree =>
      intro i
      have hi := h i
      rw [removerAt_none hfree] at hi
      refine hi.idle_remover (by simp) ?_
      by_cases hslot : slot hash = i
      · subst hslot
        rw [removerAt_same (j := .check) rfl]
        simpa using hne
      · rw [removerAt_other (j := .check) rfl hslot]
        simp
  | remove hin => exact h.remove hin

theorem reachable_sound (h : Reachable Step .initial s) : s.Sound :=
  h.inv initial_sound fun _ _ _ hs _ hst => hs.step hst

/-- A hash stands in its own entry. -/
def State.Placed (s : State) : Prop :=
  ∀ i, (s.kRegisteredSystemCalls i).fHash ≠ 0 → slot (s.kRegisteredSystemCalls i).fHash = i

/-- A statement that leaves the hash of its entry as it is, or clears it. -/
theorem State.Placed.write (h : s.Placed) {f : HalCallEntry → HalCallEntry}
    (hf : ∀ e, (f e).fHash = e.fHash ∨ (f e).fHash = 0) : (s.write hash f).Placed := by
  intro i hne
  by_cases hi : slot hash = i
  · subst hi
    rw [write_same] at hne ⊢
    rcases hf (s.kRegisteredSystemCalls (slot hash)) with heq | heq
    · rw [heq] at hne ⊢
      exact h _ hne
    · exact absurd heq hne
  · rw [write_other hi] at hne ⊢
    exact h i hne

theorem State.Placed.step {l : Label} (h : s.Placed) (hst : Step s l s') : s'.Placed := by
  cases hst with
  | lockAdd c hfree => exact h
  | lockRemove hash hne hfree => exact h
  | @add c k hin =>
      cases k with
      | check =>
          rw [State.add]
          split
          · exact h
          · split <;> exact h
      | hash =>
          intro i hne
          by_cases hi : slot c.hash = i
          · subst hi
            show slot ((s.write c.hash fun e => { e with fHash := c.hash }).kRegisteredSystemCalls _).fHash = _
            rw [write_same]
          · have hother := write_other (s := s) (f := fun e => { e with fHash := c.hash }) hi
            have hi' : (s.kRegisteredSystemCalls i).fHash ≠ 0 := hother ▸ hne
            exact hother ▸ h i hi'
      | proc => exact h.write (f := fun e => { e with fProc := c.proc }) fun e => .inl rfl
      | active => exact h.write (f := fun e => { e with fActive := true }) fun e => .inl rfl
      | level => exact h.write (f := fun e => { e with fAuthLevel := c.level }) fun e => .inl rfl
      | unlock => exact h
  | @remove hash j hin =>
      cases j with
      | check =>
          rw [State.remove]
          split
          · exact h
          · split <;> exact h
      | proc => exact h.write (f := fun e => { e with fProc := 0 }) fun e => .inl rfl
      | hash => exact h.write (f := fun e => { e with fHash := 0 }) fun e => .inr rfl
      | active => exact h.write (f := fun e => { e with fActive := false }) fun e => .inl rfl
      | level => exact h.write (f := fun e => { e with fAuthLevel := 0 }) fun e => .inl rfl
      | unlock => exact h

/-- **What an entry is** when no call is about it, in every run of any number of processors: without a hash, or
the hash and the procedure of an addition that was accepted, active, with the level of the addition or zero. -/
theorem settled_entry (h : Reachable Step .initial s) (ha : s.adderAt i = none) (hr : s.removerAt i = none) :
    (s.kRegisteredSystemCalls i).fHash = 0 ∨
      ∃ c ∈ s.accepted, slot c.hash = i ∧ (s.kRegisteredSystemCalls i).fHash = c.hash ∧
        (s.kRegisteredSystemCalls i).fProc = c.proc ∧ (s.kRegisteredSystemCalls i).fActive = true ∧
        ((s.kRegisteredSystemCalls i).fAuthLevel = c.level ∨ (s.kRegisteredSystemCalls i).fAuthLevel = 0) := by
  by_cases hhash : (s.kRegisteredSystemCalls i).fHash = 0
  · exact .inl hhash
  · have hplaced : s.Placed := h.inv (fun _ hne => absurd rfl hne) fun _ _ _ hs _ hst => hs.step hst
    obtain ⟨c, hc, heq, hproc, hactive, hlevel, -⟩ := (reachable_sound h i).owned hhash
    refine .inr ⟨c, hc, heq ▸ hplaced i hhash, heq, ?_, ?_, ?_⟩
    · simpa [ha, hr] using hproc
    · simpa [ha] using hactive
    · simpa [ha] using hlevel

/-! ## Dead entries -/

/-- No call is between the writes of an entry. -/
structure Untouched (a : Option (Addition × AddStep)) (r : Option (UInt64 × RemoveStep)) : Prop where
  adder : ∀ c k, a = some (c, k) → k = .check ∨ k = .unlock
  remover : ∀ hash j, r = some (hash, j) → hash ≠ 0 ∧ (j = .check ∨ j = .unlock)

/-- An entry is `e`, and nobody is about to change it. -/
def State.Keeps (s : State) (i : Nat) (e : HalCallEntry) : Prop :=
  s.kRegisteredSystemCalls i = e ∧ Untouched (s.adderAt i) (s.removerAt i)

/-- A statement about another entry. -/
theorem add_other (hin : s.adder = some (c, k)) (hi : slot c.hash ≠ i) :
    (s.add c k).kRegisteredSystemCalls i = s.kRegisteredSystemCalls i ∧ (s.add c k).adderAt i = none ∧
      (s.add c k).removerAt i = s.removerAt i := by
  cases k with
  | check =>
      rw [State.add]
      split
      · exact ⟨rfl, adderAt_other rfl hi, rfl⟩
      · split
        · exact ⟨rfl, adderAt_other rfl hi, rfl⟩
        · exact ⟨rfl, adderAt_other rfl hi, rfl⟩
  | unlock => exact ⟨rfl, adderAt_none rfl, rfl⟩
  | _ => exact ⟨Function.update_of_ne (Ne.symm hi) .., adderAt_other rfl hi, rfl⟩

theorem remove_other (hin : s.remover = some (hash, j)) (hi : slot hash ≠ i) :
    (s.remove hash j).kRegisteredSystemCalls i = s.kRegisteredSystemCalls i ∧
      (s.remove hash j).adderAt i = s.adderAt i ∧ (s.remove hash j).removerAt i = none := by
  cases j with
  | check =>
      rw [State.remove]
      split
      · exact ⟨rfl, rfl, removerAt_other rfl hi⟩
      · split
        · exact ⟨rfl, rfl, removerAt_other rfl hi⟩
        · exact ⟨rfl, rfl, removerAt_other rfl hi⟩
  | unlock => exact ⟨rfl, rfl, removerAt_none rfl⟩
  | _ => exact ⟨Function.update_of_ne (Ne.symm hi) .., rfl, removerAt_other rfl hi⟩

/-- A dead entry stays as it is at every statement. -/
theorem State.Keeps.step {l : Label} (h : s.Keeps i e) (hhash : e.fHash = 0) (hactive : e.fActive = true)
    (hst : Step s l s') : s'.Keeps i e := by
  obtain ⟨hentry, hadder, hremover⟩ := h
  cases hst with
  | lockAdd c hfree =>
      refine ⟨hentry, ?_, hremover⟩
      by_cases hi : slot c.hash = i
      · subst hi
        rw [adderAt_same (k := .check) rfl]
        simp
      · rw [adderAt_other (k := .check) rfl hi]
        simp
  | lockRemove hash hne hfree =>
      refine ⟨hentry, hadder, ?_⟩
      by_cases hi : slot hash = i
      · subst hi
        rw [removerAt_same (j := .check) rfl]
        simpa using hne
      · rw [removerAt_other (j := .check) rfl hi]
        simp
  | @add c k hin =>
      by_cases hi : slot c.hash = i
      · subst hi
        rcases hadder c k (adderAt_same hin) with rfl | rfl
        · rw [State.add, if_neg (Nat.not_lt.mpr (Nat.le_of_lt (slot_lt _)))]
          dsimp only
          rw [hentry, if_pos hactive]
          refine ⟨hentry, ?_, hremover⟩
          rw [adderAt_same (k := .unlock) rfl]
          simp
        · refine ⟨hentry, ?_, hremover⟩
          rw [adderAt_none rfl]
          simp
      · obtain ⟨htable, hnone, hsame⟩ := add_other hin hi
        refine ⟨htable.trans hentry, ?_, hsame ▸ hremover⟩
        rw [hnone]
        simp
  | @remove hash j hin =>
      by_cases hi : slot hash = i
      · subst hi
        obtain ⟨hne, rfl | rfl⟩ := hremover hash j (removerAt_same hin)
        · rw [State.remove, if_neg (Nat.not_lt.mpr (Nat.le_of_lt (slot_lt _)))]
          dsimp only
          rw [hentry, hhash, if_pos (Ne.symm hne)]
          refine ⟨hentry, hadder, ?_⟩
          rw [removerAt_same (j := .unlock) rfl]
          simpa using hne
        · refine ⟨hentry, hadder, ?_⟩
          rw [removerAt_none rfl]
          simp
      · obtain ⟨htable, hsame, hnone⟩ := remove_other hin hi
        refine ⟨htable.trans hentry, hsame ▸ hadder, ?_⟩
        rw [hnone]
        simp

/-- A run, with its statements. -/
inductive Trace : State → List Label → State → Prop
  | nil (s : State) : Trace s [] s
  | cons {s s' s'' : State} {l : Label} {ls : List Label} (hst : Step s l s') (rest : Trace s' ls s'') :
      Trace s (l :: ls) s''

/-- The calls of a run. -/
def calls (ls : List Label) : List Label :=
  ls.filter fun l => match l with
    | .lockAdd _ | .lockRemove _ => true
    | .add | .remove => false

/-- The entry that is left when a removal of the hash goes between the writes of an addition. -/
def deadEntry (c : Addition) : HalCallEntry := ⟨0, true, c.proc, c.level⟩

/-- An addition that finds its entry inactive. -/
theorem add_check_free (hfree : (s.kRegisteredSystemCalls (slot c.hash)).fActive = false) :
    s.add c .check =
      { s with spec := addSpec s.spec c, adder := some (c, .hash), accepted := c :: s.accepted } := by
  rw [State.add, if_neg (Nat.not_lt.mpr (Nat.le_of_lt (slot_lt _)))]
  exact if_neg (by simp [hfree])

/-- A removal that finds its hash. -/
theorem remove_check_found (hfound : (s.kRegisteredSystemCalls (slot hash)).fHash = hash) :
    s.remove hash .check = { s with spec := removeSpec s.spec hash, remover := some (hash, .proc) } := by
  rw [State.remove, if_neg (Nat.not_lt.mpr (Nat.le_of_lt (slot_lt _)))]
  exact if_neg (not_not.mpr hfound)

/-- A removal that goes between the writes of an addition. -/
def deadRun (c : Addition) : List Label :=
  [.lockAdd c, .add, .add, .lockRemove c.hash, .remove, .remove, .remove, .remove, .remove, .remove, .add, .add, .add,
    .add]

theorem deadRun_trace (ha : s.adder = none) (hr : s.remover = none)
    (hfree : (s.kRegisteredSystemCalls (slot c.hash)).fActive = false) :
    ∃ s', Trace s (deadRun c) s' ∧ s'.adder = none ∧ s'.remover = none ∧
      s'.kRegisteredSystemCalls (slot c.hash) = deadEntry c := by
  -- the addition has written the hash
  let s₁ : State := { s with adder := some (c, .check) }
  let s₂ := (s₁.add c .check).add c .hash
  have hcheck : s₁.add c .check =
      { s₁ with spec := addSpec s₁.spec c, adder := some (c, .hash), accepted := c :: s₁.accepted } :=
    add_check_free hfree
  have hadder₁ : (s₁.add c .check).adder = some (c, .hash) := by
    rw [hcheck]
  have hremover₂ : s₂.remover = none := by
    show (s₁.add c .check).remover = none
    rw [hcheck]
    exact hr
  have hentry₂ : (s₂.kRegisteredSystemCalls (slot c.hash)).fHash = c.hash := by
    show (((s₁.add c .check).write c.hash fun e => { e with fHash := c.hash }).kRegisteredSystemCalls _).fHash = _
    rw [write_same]
  -- the removal runs to its end
  let s₃ : State := { s₂ with remover := some (c.hash, .check) }
  have hfound : s₃.remove c.hash .check =
      { s₃ with spec := removeSpec s₃.spec c.hash, remover := some (c.hash, .proc) } := remove_check_found hentry₂
  let s₄ := (((s₃.remove c.hash .check).remove c.hash .proc).remove c.hash .hash).remove c.hash .active
  let s₅ := (s₄.remove c.hash .level).remove c.hash .unlock
  have hremover₄ : (s₃.remove c.hash .check).remover = some (c.hash, .proc) := by
    rw [hfound]
  have hadder₅ : s₅.adder = some (c, .proc) := by
    show (s₃.remove c.hash .check).adder = some (c, .proc)
    rw [hfound]
    rfl
  -- and so does the addition
  let s₆ := ((s₅.add c .proc).add c .active).add c .level
  refine ⟨s₆.add c .unlock, ?_, rfl, rfl, ?_⟩
  · refine .cons (.lockAdd c ha) (.cons (.add rfl) (.cons (.add hadder₁) ?_))
    refine .cons (.lockRemove c.hash c.hash_ne hremover₂) (.cons (.remove rfl) (.cons (.remove hremover₄) ?_))
    refine .cons (.remove rfl) (.cons (.remove rfl) (.cons (.remove rfl) (.cons (.remove rfl) ?_)))
    exact .cons (.add hadder₅) (.cons (.add rfl) (.cons (.add rfl) (.cons (.add rfl) (.nil _))))
  · simp [s₆, s₅, s₄, State.add, State.remove, State.write, deadEntry]

/-- **Dead for ever.** Whenever no call is inside and the entry of an addition is not active, the addition and a
removal of the same hash can leave the entry active with no hash; and then it stays exactly as it is, whatever
calls are made on any number of processors. -/
theorem dead_for_ever (s : State) (c : Addition) (ha : s.adder = none) (hr : s.remover = none)
    (hfree : (s.kRegisteredSystemCalls (slot c.hash)).fActive = false) :
    ∃ ls s', Trace s ls s' ∧ calls ls = [.lockAdd c, .lockRemove c.hash] ∧ s'.adder = none ∧ s'.remover = none ∧
      ∀ s'', Reachable Step s' s'' → s''.kRegisteredSystemCalls (slot c.hash) = deadEntry c := by
  obtain ⟨s', htrace, ha', hr', hentry⟩ := deadRun_trace ha hr hfree
  refine ⟨deadRun c, s', htrace, rfl, ha', hr', fun s'' hreach => ?_⟩
  have hkeeps : s'.Keeps (slot c.hash) (deadEntry c) := by
    refine ⟨hentry, ?_, ?_⟩
    · rw [adderAt_none ha']
      simp
    · rw [removerAt_none hr']
      simp
  exact (hreach.inv (I := fun s : State => s.Keeps (slot c.hash) (deadEntry c)) hkeeps
    fun _ _ _ hs _ hst => hs.step rfl rfl hst).1

/-! ## One lock -/

/-- A call comes in when no other one is inside, as one lock for both functions would have it. -/
def Alone (s : State) : Label → Prop
  | .lockAdd _ => s.remover = none
  | .lockRemove _ => s.adder = none
  | .add | .remove => True

/-- The entry of an addition that nobody has removed. -/
def recorded : Option Addition → HalCallEntry
  | none => .blank
  | some c => ⟨c.hash, true, c.proc, c.level⟩

/-- The entry between the writes of an addition, -/
def written (c : Addition) : AddStep → HalCallEntry
  | .check | .hash => .blank
  | .proc => ⟨c.hash, false, 0, 0⟩
  | .active => ⟨c.hash, false, c.proc, 0⟩
  | .level => ⟨c.hash, true, c.proc, 0⟩
  | .unlock => ⟨c.hash, true, c.proc, c.level⟩

/-- and between those of a removal. -/
def erased (c : Addition) : RemoveStep → HalCallEntry
  | .check | .proc => ⟨c.hash, true, c.proc, c.level⟩
  | .hash => ⟨c.hash, true, 0, c.level⟩
  | .active => ⟨0, true, 0, c.level⟩
  | .level => ⟨0, false, 0, c.level⟩
  | .unlock => .blank

/-- What a call alone makes of an entry. -/
def EntryAlone (spec : Option Addition) (e : HalCallEntry) :
    Option (Addition × AddStep) → Option (UInt64 × RemoveStep) → Prop
  | none, none => e = recorded spec
  | some (c, k), none => if k = .check ∨ k = .unlock then e = recorded spec else spec = some c ∧ e = written c k
  | none, some (hash, j) =>
      hash ≠ 0 ∧
        if j = .check ∨ j = .unlock then e = recorded spec else spec = none ∧ ∃ c, e = erased c j
  | some _, some _ => False

/-- Not more than one call is inside, and every entry is as that call makes it. -/
structure State.OneLock (s : State) : Prop where
  one : s.adder = none ∨ s.remover = none
  entry : ∀ i, EntryAlone (s.spec i) (s.kRegisteredSystemCalls i) (s.adderAt i) (s.removerAt i)

theorem addSpec_other {spec : Nat → Option Addition} (hi : slot c.hash ≠ i) : addSpec spec c i = spec i := by
  rw [addSpec]
  split
  · exact Function.update_of_ne (Ne.symm hi) ..
  · rfl

theorem removeSpec_other {spec : Nat → Option Addition} (hi : slot hash ≠ i) :
    removeSpec spec hash i = spec i := by
  rw [removeSpec]
  split
  · exact Function.update_of_ne (Ne.symm hi) ..
  · rfl

theorem add_spec_other (hi : slot c.hash ≠ i) : (s.add c k).spec i = s.spec i := by
  cases k with
  | check =>
      rw [State.add]
      split
      · exact addSpec_other hi
      · split <;> exact addSpec_other hi
  | _ => rfl

theorem remove_spec_other (hi : slot hash ≠ i) : (s.remove hash j).spec i = s.spec i := by
  cases j with
  | check =>
      rw [State.remove]
      split
      · exact removeSpec_other hi
      · split <;> exact removeSpec_other hi
  | _ => rfl

/-- The addition inside keeps its own entry as it makes it. -/
theorem add_alone
    (h : EntryAlone (s.spec (slot c.hash)) (s.kRegisteredSystemCalls (slot c.hash)) (some (c, k)) none) :
    EntryAlone ((s.add c k).spec (slot c.hash)) ((s.add c k).kRegisteredSystemCalls (slot c.hash))
      ((s.add c k).adderAt (slot c.hash)) none := by
  cases k with
  | check =>
      have he : s.kRegisteredSystemCalls (slot c.hash) = recorded (s.spec (slot c.hash)) := h
      rw [State.add, if_neg (Nat.not_lt.mpr (Nat.le_of_lt (slot_lt _)))]
      cases hspec : s.spec (slot c.hash) with
      | none =>
          rw [hspec] at he
          rw [if_neg (by simp [he, recorded, HalCallEntry.blank]), adderAt_same (k := .hash) rfl]
          refine ⟨?_, he⟩
          simp [addSpec, hspec]
      | some old =>
          rw [hspec] at he
          rw [if_pos (by simp [he, recorded]), adderAt_same (k := .unlock) rfl]
          show s.kRegisteredSystemCalls (slot c.hash) = recorded (addSpec s.spec c (slot c.hash))
          simpa [addSpec, hspec] using he
  | hash =>
      obtain ⟨hspec, he⟩ := h
      rw [adderAt_same (k := .proc) rfl]
      refine ⟨hspec, (Function.update_self ..).trans ?_⟩
      rw [he]
      rfl
  | proc =>
      obtain ⟨hspec, he⟩ := h
      rw [adderAt_same (k := .active) rfl]
      refine ⟨hspec, (Function.update_self ..).trans ?_⟩
      rw [he]
      rfl
  | active =>
      obtain ⟨hspec, he⟩ := h
      rw [adderAt_same (k := .level) rfl]
      refine ⟨hspec, (Function.update_self ..).trans ?_⟩
      rw [he]
      rfl
  | level =>
      obtain ⟨hspec, he⟩ := h
      have hspec' : (s.add c .level).spec (slot c.hash) = some c := hspec
      rw [adderAt_same (k := .unlock) rfl, hspec']
      show (s.add c .level).kRegisteredSystemCalls (slot c.hash) = recorded (some c)
      refine (Function.update_self ..).trans ?_
      rw [he]
      rfl
  | unlock =>
      rw [adderAt_none rfl]
      exact h

/-- So does the removal. -/
theorem remove_alone (h : EntryAlone (s.spec (slot hash)) (s.kRegisteredSystemCalls (slot hash)) none
      (some (hash, j))) :
    EntryAlone ((s.remove hash j).spec (slot hash)) ((s.remove hash j).kRegisteredSystemCalls (slot hash)) none
      ((s.remove hash j).removerAt (slot hash)) := by
  cases j with
  | check =>
      obtain ⟨hne, he⟩ := h
      have he' : s.kRegisteredSystemCalls (slot hash) = recorded (s.spec (slot hash)) := he
      rw [State.remove, if_neg (Nat.not_lt.mpr (Nat.le_of_lt (slot_lt _)))]
      by_cases hfound : (s.kRegisteredSystemCalls (slot hash)).fHash = hash
      · rw [if_neg (not_not.mpr hfound), removerAt_same (j := .proc) rfl]
        cases hspec : s.spec (slot hash) with
        | none =>
            rw [he', hspec] at hfound
            exact absurd hfound.symm hne
        | some c =>
            rw [hspec] at he'
            have heq : c.hash = hash := by rwa [he'] at hfound
            refine ⟨hne, ?_, c, he'⟩
            simp [removeSpec, hspec, heq]
      · rw [if_pos hfound, removerAt_same (j := .unlock) rfl]
        refine ⟨hne, ?_⟩
        show s.kRegisteredSystemCalls (slot hash) = recorded (removeSpec s.spec hash (slot hash))
        rw [removeSpec, if_neg]
        · exact he'
        · cases hspec : s.spec (slot hash) with
          | none => simp
          | some c =>
              have hother : c.hash ≠ hash := by
                rw [he', hspec] at hfound
                exact hfound
              simpa using hother
  | proc =>
      obtain ⟨hne, hspec, c, he⟩ := h
      rw [removerAt_same (j := .hash) rfl]
      refine ⟨hne, hspec, c, (Function.update_self ..).trans ?_⟩
      rw [he]
      rfl
  | hash =>
      obtain ⟨hne, hspec, c, he⟩ := h
      rw [removerAt_same (j := .active) rfl]
      refine ⟨hne, hspec, c, (Function.update_self ..).trans ?_⟩
      rw [he]
      rfl
  | active =>
      obtain ⟨hne, hspec, c, he⟩ := h
      rw [removerAt_same (j := .level) rfl]
      refine ⟨hne, hspec, c, (Function.update_self ..).trans ?_⟩
      rw [he]
      rfl
  | level =>
      obtain ⟨hne, hspec, c, he⟩ := h
      have hspec' : (s.remove hash .level).spec (slot hash) = none := hspec
      rw [removerAt_same (j := .unlock) rfl, hspec']
      refine ⟨hne, ?_⟩
      show (s.remove hash .level).kRegisteredSystemCalls (slot hash) = recorded none
      refine (Function.update_self ..).trans ?_
      rw [he]
      rfl
  | unlock =>
      rw [removerAt_none rfl]
      exact h.2

theorem add_remover : (s.add c k).remover = s.remover := by
  cases k with
  | check =>
      rw [State.add]
      split
      · rfl
      · split <;> rfl
  | _ => rfl

theorem remove_adder : (s.remove hash j).adder = s.adder := by
  cases j with
  | check =>
      rw [State.remove]
      split
      · rfl
      · split <;> rfl
  | _ => rfl

/-- Every statement of a run in which calls come one after the other. -/
theorem State.OneLock.step {l : Label} (h : s.OneLock) (hok : Alone s l) (hst : Step s l s') : s'.OneLock := by
  obtain ⟨hone, hentry⟩ := h
  cases hst with
  | lockAdd c hfree =>
      have hr : s.remover = none := hok
      refine ⟨.inr hr, fun i => ?_⟩
      have hi := hentry i
      rw [adderAt_none hfree, removerAt_none hr] at hi
      rw [removerAt_none (s := { s with adder := some (c, .check) }) hr]
      by_cases hslot : slot c.hash = i
      · subst hslot
        rw [adderAt_same (k := .check) rfl]
        exact hi
      · rw [adderAt_other (k := .check) rfl hslot]
        exact hi
  | lockRemove hash hne hfree =>
      have ha : s.adder = none := hok
      refine ⟨.inl ha, fun i => ?_⟩
      have hi := hentry i
      rw [adderAt_none ha, removerAt_none hfree] at hi
      rw [adderAt_none (s := { s with remover := some (hash, .check) }) ha]
      by_cases hslot : slot hash = i
      · subst hslot
        rw [removerAt_same (j := .check) rfl]
        exact ⟨hne, hi⟩
      · rw [removerAt_other (j := .check) rfl hslot]
        exact hi
  | @add c k hin =>
      have hr : s.remover = none := hone.resolve_left (by simp [hin])
      refine ⟨.inr (add_remover.trans hr), fun i => ?_⟩
      have hi := hentry i
      rw [removerAt_none hr] at hi
      rw [removerAt_none (add_remover.trans hr)]
      by_cases hslot : slot c.hash = i
      · subst hslot
        rw [adderAt_same hin] at hi
        exact add_alone hi
      · obtain ⟨htable, hnone, -⟩ := add_other hin hslot
        rw [htable, hnone, add_spec_other hslot]
        rwa [adderAt_other hin hslot] at hi
  | @remove hash j hin =>
      have ha : s.adder = none := hone.resolve_right (by simp [hin])
      refine ⟨.inl (remove_adder.trans ha), fun i => ?_⟩
      have hi := hentry i
      rw [adderAt_none ha] at hi
      rw [adderAt_none (remove_adder.trans ha)]
      by_cases hslot : slot hash = i
      · subst hslot
        rw [removerAt_same hin] at hi
        exact remove_alone hi
      · obtain ⟨htable, -, hnone⟩ := remove_other hin hslot
        rw [htable, hnone, remove_spec_other hslot]
        rwa [removerAt_other hin hslot] at hi

/-- **One lock would do.** In every run in which no call comes in while another one is inside, the table is,
whenever none is, what the calls make of it one after the other: an addition takes its entry if it is free, and
a removal frees the entry of its hash. -/
theorem one_lock_would_do (h : Reach Step Alone .initial s) (ha : s.adder = none) (hr : s.remover = none) :
    ∀ i, s.kRegisteredSystemCalls i = recorded (s.spec i) := by
  have hlock : s.OneLock := h.inv ⟨.inl rfl, fun _ => rfl⟩ fun _ _ _ hs hok hst => hs.step hok hst
  intro i
  have hi := hlock.entry i
  rwa [adderAt_none ha, removerAt_none hr] at hi

/-- An addition that nothing comes between. -/
theorem added (s : State) (c : Addition) (ha : s.adder = none) (hr : s.remover = none)
    (hfree : (s.kRegisteredSystemCalls (slot c.hash)).fActive = false) :
    ∃ s', Reach Step Alone s s' ∧ s'.adder = none ∧ s'.remover = none ∧
      s'.kRegisteredSystemCalls (slot c.hash) = recorded (some c) := by
  let s₁ : State := { s with adder := some (c, .check) }
  have hcheck : s₁.add c .check =
      { s₁ with spec := addSpec s₁.spec c, adder := some (c, .hash), accepted := c :: s₁.accepted } :=
    add_check_free hfree
  have hadder₁ : (s₁.add c .check).adder = some (c, .hash) := by
    rw [hcheck]
  let s₂ := ((((s₁.add c .check).add c .hash).add c .proc).add c .active).add c .level
  refine ⟨s₂.add c .unlock, ?_, rfl, add_remover.trans ?_, ?_⟩
  · have h₁ : Reach Step Alone s s₁ := .step (.lockAdd c) .init hr (.lockAdd c ha)
    have h₂ : Reach Step Alone s ((s₁.add c .check).add c .hash) :=
      .step .add (.step .add h₁ trivial (.add rfl)) trivial (.add hadder₁)
    have h₃ : Reach Step Alone s s₂ := .step .add (.step .add (.step .add h₂ trivial (.add rfl)) trivial (.add rfl))
      trivial (.add rfl)
    exact .step .add h₃ trivial (.add rfl)
  · show (s₁.add c .check).remover = none
    exact add_remover.trans hr
  · simp [s₂, State.add, State.write, recorded]

theorem firstHash_ne : (3 : UInt64) ≠ 0 := by decide

theorem firstProc_ne : (0x1000 : UInt64) ≠ 0 := by decide

/-- A procedure at `0x1000`, for the hash 3. -/
def firstAddition : Addition := ⟨0x1000, 100, 3, firstHash_ne, firstProc_ne⟩

theorem one_lock_would_do_first : ∃ s, s.kRegisteredSystemCalls 3 = ⟨3, true, 0x1000, 100⟩ ∧
    Reach Step Alone .initial s ∧ ∀ i, s.kRegisteredSystemCalls i = recorded (s.spec i) := by
  obtain ⟨s, hreach, ha, hr, hentry⟩ := added .initial firstAddition rfl rfl rfl
  exact ⟨s, hentry, hreach, one_lock_would_do hreach ha hr⟩

theorem settled_entry_first : ∃ s, Reachable Step .initial s ∧ (s.kRegisteredSystemCalls 3).fActive = true ∧
    ((s.kRegisteredSystemCalls 3).fHash = 0 ∨ ∃ c ∈ s.accepted, slot c.hash = 3 ∧
      (s.kRegisteredSystemCalls 3).fHash = c.hash ∧ (s.kRegisteredSystemCalls 3).fProc = c.proc ∧
      (s.kRegisteredSystemCalls 3).fActive = true ∧
      ((s.kRegisteredSystemCalls 3).fAuthLevel = c.level ∨ (s.kRegisteredSystemCalls 3).fAuthLevel = 0)) := by
  obtain ⟨s, hreach, ha, hr, hentry⟩ := added .initial firstAddition rfl rfl rfl
  have hreach' : Reachable Step .initial s := hreach.mono fun _ _ _ => trivial
  exact ⟨s, hreach', congrArg HalCallEntry.fActive hentry,
    settled_entry hreach' (adderAt_none ha) (removerAt_none hr)⟩

/-- The entry of the first addition can be dead for ever. -/
theorem dead_for_ever_first : ∃ ls s', Trace .initial ls s' ∧
    calls ls = [.lockAdd firstAddition, .lockRemove 3] ∧ s'.adder = none ∧ s'.remover = none ∧
      ∀ s'', Reachable Step s' s'' → s''.kRegisteredSystemCalls 3 = ⟨0, true, 0x1000, 100⟩ :=
  dead_for_ever .initial firstAddition rfl rfl rfl

end NeKernel.HALKit.Registered
