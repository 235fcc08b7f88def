import NeKernel.Lib.CStrings
import NeKernel.Lib.Runs
import NeKernel.NeKit.Config

/-!
# Threads of a process

`libThread` keeps four tables of 1024 entries each. A thread's entries are at its slot, which comes from
the hash of its name: the first four bytes of the name, and a seed.

    thread_name ──4 bytes + kThreadBaseHash──▶ __hash ──kThreadMapMax % __hash──▶ slot

The remainder is taken the wrong way round. The seed alone is greater than `kThreadMapMax`, so that every
thread has the slot `kThreadMapMax` (`reach_slot`): one for all, and behind the tables. A call is right
only where it comes to no slot (`threads_right_iff`).

`ThrCreateThread` runs the thread's procedure before it returns, and the procedure can make calls of its
own. So the call is two steps here, up to the procedure and after it.
-/

namespace NeKernel.LibThread

open ByteStore
open CStrings (CString)
open Runs

def kThreadMapMax : Nat := 1024
def kThreadBaseHash : Nat := 0x5555ffff6

/-- `ThreadRef`, a pointer: the number of the object it points to, as the objects are allocated. -/
abbrev ThreadRef := Nat

/-- `REF_TYPE`. Its `__self` is the procedure. -/
structure RefType where
  hash : Nat
  self : Nat

/-- The index that a hash is used with. -/
def slot (hash : Nat) : Nat := kThreadMapMax % hash

/-- `*(UInt32*) thread_name`, and the seed. -/
def hashOf (threadName : CString) : Nat := u64 (getLE threadName.bytes 0 4 + kThreadBaseHash)

/-- The entries at one place of the four tables. -/
structure Entry where
  map : Option ThreadRef := none
  head : Option ThreadRef := none
  flags : Int := 0
  exitCode : Int := 0

/-- The statics of `Thread.cpp`, the objects, and who is live and who runs. -/
structure Threads where
  /-- `kThreadMap`, `kThreadHeads`, `kThreadFlags`, `kThreadExitCodes`, place by place. -/
  tables : Nat → Entry := fun _ => {}
  kCurrentThread : Option ThreadRef := none
  /-- Whether `sem_ref` of `_ThrRunThread` is null; it has no value before the first call. -/
  semRef : Option Bool := none
  refs : List RefType := []
  /-- The threads that have been created and not exited. -/
  live : List ThreadRef := []
  /-- The threads whose procedure has not returned, the innermost first. -/
  running : List ThreadRef := []

def Threads.hash (s : Threads) (ref : ThreadRef) : Nat := (s.refs[ref]?.map RefType.hash).getD 0

/-- `table[kThreadMapMax % hash] = value`. -/
def Threads.store (s : Threads) (hash : Nat) (change : Entry → Entry) : Threads :=
  { s with tables := Function.update s.tables (slot hash) (change (s.tables (slot hash))) }

/-- What a call comes to: the state after it, and the hashes that an index was made of. -/
structure Outcome where
  state : Threads
  hashes : List Nat := []

/-- `_ThrRunThread` up to the procedure, which is not run without a semaphore. -/
def thrRunThread (ref : ThreadRef) (semGiven : Bool) (s : Threads) : Threads :=
  let semRef := s.semRef.getD semGiven
  { s with semRef := some semRef, running := if semRef then ref :: s.running else s.running }

/-- `ThrCreateThread` up to the procedure. -/
def thrCreateThread (allocated : Bool) (threadName : Option CString) (procedure : Option Nat)
    (flags : Int) (semGiven : Bool) (s : Threads) : Outcome :=
  match allocated, threadName, procedure with
  | true, some threadName, some procedure =>
      let ref := s.refs.length
      let hash := hashOf threadName
      let s : Threads := { s with refs := s.refs ++ [⟨hash, procedure⟩], live := ref :: s.live }
      let s := s.store hash fun e => { e with map := some ref }
      let s := s.store hash fun e => { e with head := some ref }
      let s := s.store hash fun e => { e with flags := flags }
      { state := thrRunThread ref semGiven { s with kCurrentThread := some ref }
        hashes := [hash, hash, hash] }
  | _, _, _ => { state := s }

/-- The rest of `_ThrRunThread`, after the procedure. -/
def procedureReturned (ret : Int) (s : Threads) : Outcome :=
  match s.running with
  | [] => { state := s }
  | ref :: running =>
      let s := s.store (s.hash ref) fun e => { e with exitCode := ret }
      { state := { s with
          kCurrentThread := if some ref = s.kCurrentThread then none else s.kCurrentThread
          -- it is a static, so that no later thread has a semaphore
          semRef := some false
          running := running }
        hashes := [s.hash ref] }

/-- `ThrExitThread`. -/
def thrExitThread (ref : Option ThreadRef) (exitCode : Int) (s : Threads) : Int × Outcome :=
  match ref with
  | none => (kErrorInvalidData, { state := s })
  | some ref =>
      let hash := s.hash ref
      let s := s.store hash fun e => { e with map := none }
      let s := s.store hash fun e => { e with head := none }
      let s := s.store hash fun e => { e with flags := 0 }
      let s := { s with
        kCurrentThread := if s.kCurrentThread = some ref then none else s.kCurrentThread
        live := s.live.erase ref }
      (kErrorSuccess,
        { state := s.store hash fun e => { e with exitCode := exitCode }
          hashes := [hash, hash, hash, hash] })

/-- A step: one of the two calls, or the return of the procedure that was started last. -/
inductive Call where
  | create (allocated : Bool) (threadName : Option CString) (procedure : Option Nat) (flags : Int)
      (semGiven : Bool)
  | returned (ret : Int)
  | exit (ref : Option ThreadRef) (exitCode : Int)

def Call.run : Call → Threads → Outcome
  | .create allocated threadName procedure flags semGiven, s =>
      thrCreateThread allocated threadName procedure flags semGiven s
  | .returned ret, s => procedureReturned ret s
  | .exit ref exitCode, s => (thrExitThread ref exitCode s).2

/-- A procedure returns if one runs, and the references given are live or null. -/
def Call.Allowed : Call → Threads → Prop
  | .create .., _ => True
  | .returned _, s => s.running ≠ []
  | .exit ref _, s => ∀ r, ref = some r → r ∈ s.live

/-! ## What the calls are for -/

/-- An entry is free in the table of the threads. -/
def Threads.SlotFree (s : Threads) : Prop := ∃ i < kThreadMapMax, (s.tables i).map = none

/-- What a call is to keep to in this state. As long as an entry is free, threads with other hashes
are to have other slots, and the call is to leave the entry of each thread that it is not about. -/
structure Call.Right (call : Call) (s : Threads) : Prop where
  divides : ∀ hash ∈ (call.run s).hashes, hash ≠ 0
  inside : ∀ hash ∈ (call.run s).hashes, slot hash < kThreadMapMax
  apart : (call.run s).state.SlotFree → ∀ ref ∈ (call.run s).state.live,
    ∀ ref' ∈ (call.run s).state.live, (call.run s).state.hash ref ≠ (call.run s).state.hash ref' →
      slot ((call.run s).state.hash ref) ≠ slot ((call.run s).state.hash ref')
  keeps : s.SlotFree → ∀ ref ∈ s.live, s.hash ref ∉ (call.run s).hashes →
    (call.run s).state.tables (slot (s.hash ref)) = s.tables (slot (s.hash ref))

/-- The calls can be made one after the other. -/
def CallsAllowed : List Call → Threads → Prop
  | [], _ => True
  | call :: calls, s => call.Allowed s ∧ CallsAllowed calls (call.run s).state

/-- Every call of the sequence is right in the state it is made in. -/
def CallsRight : List Call → Threads → Prop
  | [], _ => True
  | call :: calls, s => call.Right s ∧ CallsRight calls (call.run s).state

/-- The call makes no thread. -/
def Call.NoThread : Call → Prop
  | .create allocated threadName procedure _ _ =>
      ¬ (allocated = true ∧ threadName ≠ none ∧ procedure ≠ none)
  | .returned _ => True
  | .exit _ _ => True

variable {call : Call} {calls : List Call} {s s' : Threads} {hash : Nat} {ref : ThreadRef}
  {name : CString}

/-! ## The slot -/

theorem kThreadMapMax_lt_hashOf (name : CString) : kThreadMapMax < hashOf name := by
  have hword : getLE name.bytes 0 4 < 256 ^ 4 := getLE_lt
  rw [hashOf, u64_of_lt]
  · rw [kThreadMapMax, kThreadBaseHash]
    omega
  · rw [kThreadBaseHash]
    omega

/-- The remainder is the dividend. -/
theorem slot_of_lt (h : kThreadMapMax < hash) : slot hash = kThreadMapMax := Nat.mod_eq_of_lt h

/-- A step of the library. -/
def Step (s : Threads) (call : Call) (s' : Threads) : Prop :=
  call.Allowed s ∧ s' = (call.run s).state

/-- Every object has the hash of a name, and every live thread has its object. -/
structure Hashed (s : Threads) : Prop where
  hashes : ∀ obj ∈ s.refs, kThreadMapMax < obj.hash
  objects : ∀ ref ∈ s.live, ref < s.refs.length

/-- A create that makes a thread is given all it asks for. -/
theorem given_of_makes {allocated : Bool} {threadName : Option CString} {procedure : Option Nat}
    {flags : Int} {semGiven : Bool}
    (h : ¬ (Call.create allocated threadName procedure flags semGiven).NoThread) :
    ∃ name self, allocated = true ∧ threadName = some name ∧ procedure = some self := by
  obtain ⟨rfl, hname, hself⟩ := not_not.mp h
  obtain ⟨name, rfl⟩ := Option.ne_none_iff_exists'.mp hname
  obtain ⟨self, rfl⟩ := Option.ne_none_iff_exists'.mp hself
  exact ⟨name, self, rfl, rfl, rfl⟩

/-- A create that lacks something leaves all as it is. -/
theorem create_none {allocated : Bool} {threadName : Option CString} {procedure : Option Nat}
    {flags : Int} {semGiven : Bool}
    (h : (Call.create allocated threadName procedure flags semGiven).NoThread) (s : Threads) :
    thrCreateThread allocated threadName procedure flags semGiven s = { state := s } := by
  match allocated, threadName, procedure with
  | true, some _, some _ => exact absurd ⟨rfl, Option.some_ne_none _, Option.some_ne_none _⟩ h
  | false, _, _ => rfl
  | true, none, _ => rfl
  | true, some _, none => rfl

/-- What a step does to the objects and to the live threads. -/
theorem run_cases (call : Call) (s : Threads) :
    ((call.run s).state.refs = s.refs ∧ (call.run s).state.live ⊆ s.live) ∨
    ∃ name self, (call.run s).state.refs = s.refs ++ [⟨hashOf name, self⟩] ∧
      (call.run s).state.live = s.refs.length :: s.live := by
  cases call with
  | create allocated threadName procedure flags semGiven =>
      by_cases hmakes : (Call.create allocated threadName procedure flags semGiven).NoThread
      · left
        rw [Call.run, create_none hmakes]
        exact ⟨rfl, List.Subset.refl _⟩
      · obtain ⟨name, self, rfl, rfl, rfl⟩ := given_of_makes hmakes
        exact .inr ⟨name, self, rfl, rfl⟩
  | returned ret =>
      left
      rw [Call.run, procedureReturned]
      cases s.running with
      | nil => exact ⟨rfl, List.Subset.refl _⟩
      | cons ref running => exact ⟨rfl, List.Subset.refl _⟩
  | exit ref exitCode =>
      left
      cases ref with
      | none => exact ⟨rfl, List.Subset.refl _⟩
      | some ref => exact ⟨rfl, List.erase_subset⟩

theorem Hashed.run (h : Hashed s) (call : Call) : Hashed (call.run s).state := by
  obtain ⟨hrefs, hlive⟩ | ⟨name, self, hrefs, hlive⟩ := run_cases call s
  · refine ⟨?_, ?_⟩
    · rw [hrefs]
      exact h.hashes
    · rw [hrefs]
      exact fun ref hmem => h.objects ref (hlive hmem)
  · refine ⟨?_, ?_⟩
    · rw [hrefs, List.forall_mem_append, List.forall_mem_singleton]
      exact ⟨h.hashes, kThreadMapMax_lt_hashOf name⟩
    · rw [hrefs, hlive, List.length_append, List.length_singleton, List.forall_mem_cons]
      exact ⟨Nat.lt_succ_self _, fun ref hmem => Nat.lt_succ_of_lt (h.objects ref hmem)⟩

/-- **The slot of a thread.** In every state that is reached all live threads have one slot, which is
no place of the tables. -/
theorem reach_slot (h : Reachable Step {} s) (hlive : ref ∈ s.live) :
    s.hash ref ≠ 0 ∧ slot (s.hash ref) = kThreadMapMax := by
  have hashed : Hashed s := h.inv ⟨List.forall_mem_nil _, List.forall_mem_nil _⟩
    fun s call s' hs _ hstep => hstep.2 ▸ hs.run call
  have hlt := hashed.objects ref hlive
  have hhash : kThreadMapMax < s.hash ref := by
    rw [Threads.hash, List.getElem?_eq_getElem hlt]
    exact hashed.hashes _ (List.getElem_mem hlt)
  exact ⟨Nat.ne_of_gt (Nat.lt_trans (by decide) hhash), slot_of_lt hhash⟩

/-! ## A run -/

/-- No thread has been made. -/
structure NoThreads (s : Threads) : Prop where
  live : s.live = []
  running : s.running = []

/-- A thread that is made has its entries behind the tables. -/
theorem create_outside (name : CString) (self : Nat) (flags : Int) (semGiven : Bool) (s : Threads) :
    ¬ (Call.create true (some name) (some self) flags semGiven).Right s := by
  intro h
  have hinside := h.inside (hashOf name) List.mem_cons_self
  rw [slot_of_lt (kThreadMapMax_lt_hashOf name)] at hinside
  exact Nat.lt_irrefl _ hinside

/-- A call that comes to nothing is right. -/
theorem right_of_idle (h : call.run s = { state := s }) (hs : NoThreads s) : call.Right s := by
  constructor
  · rw [h]
    exact List.forall_mem_nil _
  · rw [h]
    exact List.forall_mem_nil _
  · rw [h, hs.live]
    exact fun _ => List.forall_mem_nil _
  · rw [h]
    exact fun _ _ _ _ => rfl

/-- Without a thread the calls that make none come to nothing. -/
theorem NoThreads.run (hs : NoThreads s) (hcall : call.NoThread) (hallowed : call.Allowed s) :
    call.run s = { state := s } := by
  cases call with
  | create allocated threadName procedure flags semGiven => exact create_none hcall s
  | returned ret => exact absurd hs.running hallowed
  | exit ref exitCode =>
      cases ref with
      | none => rfl
      | some ref =>
          have hlive := hallowed ref rfl
          rw [hs.live] at hlive
          cases hlive

/-- **The threads of a process.** From the start on, every call of a sequence keeps to its own entries
in the tables exactly when none of them makes a thread. -/
theorem threads_right_iff (calls : List Call) (hallowed : CallsAllowed calls {}) :
    CallsRight calls {} ↔ ∀ call ∈ calls, call.NoThread := by
  have hrun : ∀ s, NoThreads s → CallsAllowed calls s →
      (CallsRight calls s ↔ ∀ call ∈ calls, call.NoThread) := by
    clear hallowed
    induction calls with
    | nil => exact fun _ _ _ => iff_of_true trivial (List.forall_mem_nil _)
    | cons call calls ih =>
        rintro s hs ⟨hcall, hcalls⟩
        rw [CallsRight, List.forall_mem_cons]
        by_cases hmakes : call.NoThread
        · have hidle := hs.run hmakes hcall
          rw [hidle] at hcalls ⊢
          rw [iff_true_intro hmakes, iff_true_intro (right_of_idle hidle hs), ih s hs hcalls]
        · refine iff_of_false (fun h => ?_) fun h => hmakes h.1
          cases call with
          | create allocated threadName procedure flags semGiven =>
              obtain ⟨name, self, rfl, rfl, rfl⟩ := given_of_makes hmakes
              exact create_outside name self flags semGiven s h.1
          | returned ret => exact hmakes trivial
          | exit ref exitCode => exact hmakes trivial
  exact hrun {} ⟨rfl, rfl⟩ hallowed

/-- The calls of the library's tests that are to give nothing. -/
def nullCalls : List Call := [.create true none none 0 true, .exit none 0]

theorem nullCalls_allowed : CallsAllowed nullCalls {} :=
  .intro trivial (.intro (fun _ h => nomatch h) trivial)

/-- `"t"`. -/
def threadName : CString where
  bytes i := if i = 0 then 0x74 else 0
  len := 1
  noNul i hi := by
    obtain rfl : i = 0 := Nat.lt_one_iff.mp hi
    decide
  nul := rfl

/-- A thread that is created, runs to its end and is exited. -/
def threadCalls : List Call :=
  [.create true (some threadName) (some 0) 0 true, .returned 0, .exit (some 0) 0]

theorem threadCalls_allowed : CallsAllowed threadCalls {} := by
  refine .intro trivial (.intro (List.cons_ne_nil _ _) (.intro ?_ trivial))
  rintro _ ⟨⟩
  exact List.mem_singleton_self 0

theorem threads_right_iff_thread : CallsRight nullCalls {} ∧ ¬ CallsRight threadCalls {} := by
  constructor
  · rw [threads_right_iff nullCalls nullCalls_allowed]
    exact List.forall_mem_cons.mpr ⟨fun h => h.2.1 rfl, List.forall_mem_singleton.mpr trivial⟩
  · rw [threads_right_iff threadCalls threadCalls_allowed]
    exact fun h => h _ List.mem_cons_self ⟨rfl, Option.some_ne_none _, Option.some_ne_none _⟩

/-- The entries of a thread are no entries of the tables. -/
theorem thread_outside :
    ¬ CallsRight [.create true (some threadName) (some 0) 0 true] {} := by
  rintro ⟨h, -⟩
  have hinside := h.inside (hashOf threadName) List.mem_cons_self
  exact absurd hinside (by decide)

end NeKernel.LibThread
