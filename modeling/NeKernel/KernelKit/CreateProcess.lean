import NeKernel.KernelKit.PEF
import NeKernel.Scheduler.SpawnContract

/-!
# Creating a process from an image

Both overloads of `rtl_create_user_process`, as far as the team is concerned. They are the same but
for the symbols they ask the loader for and the size they pass on. What the loader and the heap
answer is given; the text and the word of a symbol are what stands at the address `FindSymbol`
returns.

The id that `Spawn` returns is compared with `kCPSInvalidPID` alone, and `Spawn` never returns that
when it refuses: the error code is used as an index and returned (`reportsSpawn_iff`).
-/

namespace NeKernel.KernelKit

open Scheduler
open NeFS (CString)

def kCPSInvalidPID : Int := -1

/-- `"__ImageStart"`. -/
def kPefImageStart : CString := ⟨kPefStart, by simp [kPefStart]⟩

def kPeImageStart : CString := ⟨kPefStart, by simp [kPefStart]⟩

/-- `"__NEProgramName"`. -/
def kPeNameSymbol : List UInt8 :=
  [0x5F, 0x5F, 0x4E, 0x45, 0x50, 0x72, 0x6F, 0x67, 0x72, 0x61, 0x6D, 0x4E, 0x61, 0x6D, 0x65]

/-- `"__NESizeOfReserveStack"`. -/
def kPeStackSizeSymbol : List UInt8 :=
  [0x5F, 0x5F, 0x4E, 0x45, 0x53, 0x69, 0x7A, 0x65, 0x4F, 0x66, 0x52, 0x65, 0x73, 0x65, 0x72, 0x76,
    0x65, 0x53, 0x74, 0x61, 0x63, 0x6B]

/-- What stands at the address of a symbol. -/
structure Symbol where
  text : CString
  word : Nat

/-- A loader, by what it answers. `findStart` gives the error and the address; a symbol that is
not found is `none`. -/
structure Loader where
  isLoaded : Bool
  findStart : Int × Nat
  findSymbol : List UInt8 → Nat → Option Symbol
  blob : Nat
  blobSz : Nat

/-- What a call gets from the kernel: what `Spawn` gets, whether `rt_alloc_string` and
`new UIntPtr` find memory, and what a library reports when it is shut down. -/
structure CreateEnv where
  spawn : SpawnEnv
  allocString : Bool
  newStackSize : Bool
  finiDylib : Bool

/-- What the overloads differ in. -/
structure Format where
  nameSymbol : List UInt8
  nameKind : Nat
  imageStart : CString
  imageSz : Loader → Nat
  stackSizeSymbol : List UInt8
  stackSizeKind : Nat

def pefFormat : Format :=
  ⟨kPefNameSymbol, kPefCode, kPefImageStart, Loader.blobSz, kPefStackSizeSymbol, kPefData⟩

/-- `Spawn` is called without a size here; it defaults to `0`. -/
def pe32Format : Format := ⟨kPeNameSymbol, 0, kPeImageStart, fun _ => 0, kPeStackSizeSymbol, 0⟩

/-- `symname`, after the fallback. -/
def symname (f : Format) (exec : Loader) (e : CreateEnv) : Option CString :=
  match exec.findSymbol f.nameSymbol f.nameKind with
  | some sym => some sym.text
  | none => if e.allocString then some f.imageStart else none

/-- The name and the code `Spawn` is called with, if it is called. -/
def spawnCall (f : Format) (exec : Loader) (e : CreateEnv) : Option (CString × Nat) :=
  if exec.isLoaded = false then none
  else if exec.findStart.1 ≠ kErrorSuccess then none
  else (symname f exec e).map fun name => (name, exec.findStart.2)

/-- The word `stacksym` points at, after the fallback. -/
def stacksym (f : Format) (exec : Loader) (e : CreateEnv) : Option Nat :=
  match exec.findSymbol f.stackSizeSymbol f.stackSizeKind with
  | some sym => some sym.word
  | none => if e.newStackSize then some kCPSMaxStackSz else none

/-- `AsArray()[id]` gets its kind and its stack size. -/
def setKind (s : UserProcessScheduler) (id : Int) (processKind : ExecutableKind) (stackSize : Nat) :
    UserProcessScheduler :=
  s.setArray (toIndex id) { s.asArray (toIndex id) with
    kind := processKind
    stackSize := stackSize }

/-- `rtl_create_user_process`: what it returns, the indices into the team it uses besides those of
`Spawn`, and the scheduler after it. -/
def rtlCreateUserProcessOf (f : Format) (exec : Loader) (processKind : ExecutableKind)
    (e : CreateEnv) (s : UserProcessScheduler) :
    Option (Int × List Int × UserProcessScheduler) :=
  match spawnCall f exec e with
  | none => some (kCPSInvalidPID, [], s)
  | some (name, code) =>
    let r := s.spawn (some name.chars) code exec.blob (f.imageSz exec) e.spawn
    let id := r.1
    if id ≠ kCPSInvalidPID then
      match stacksym f exec e with
      | none =>
        let removed := r.2.2.remove id e.finiDylib
        removed.2.map fun s => (kCPSInvalidPID, removed.1, s)
      | some word =>
        let word := if word > kCPSMaxStackSz then kCPSMaxStackSz else word
        some (id, [id, id], setKind r.2.2 id processKind word)
    else some (id, [], r.2.2)

/-- The overload for `PEFLoader`. -/
def rtlCreateUserProcessPEF := rtlCreateUserProcessOf pefFormat

/-- The overload for `PE32Loader`. -/
def rtlCreateUserProcessPE32 := rtlCreateUserProcessOf pe32Format

/-! ## What is reported -/

/-- `Spawn` refuses the process: before the counter is raised or behind it. -/
def SpawnRefuses (s : UserProcessScheduler) (name : CString) (code : Nat) (env : SpawnEnv) : Prop :=
  Refused s.mTeam (some name.chars) code ∨
    ¬ GoesThrough (s.asArray (toIndex s.mTeam.mProcessCur)) name.chars env

/-- When `Spawn` refuses the process, the call returns `kCPSInvalidPID` and uses no index; when it
returns something else, `Spawn` has created a process and that is its index. -/
def ReportsSpawn (f : Format) (exec : Loader) (processKind : ExecutableKind) (e : CreateEnv)
    (s : UserProcessScheduler) : Prop :=
  ∀ id used s', rtlCreateUserProcessOf f exec processKind e s = some (id, used, s') →
    (∀ name code, spawnCall f exec e = some (name, code) → SpawnRefuses s name code e.spawn →
      id = kCPSInvalidPID ∧ used = []) ∧
    (id ≠ kCPSInvalidPID → ∃ name code, spawnCall f exec e = some (name, code) ∧
      ¬ SpawnRefuses s name code e.spawn ∧ id = s.mTeam.mProcessCur ∧
        (s'.asArray (toIndex id)).processId = id)

/-- `Spawn` does not refuse the process, when it is called; or else there is no memory for the size
of the stack. -/
def NotRefused (f : Format) (exec : Loader) (e : CreateEnv) (s : UserProcessScheduler) : Prop :=
  (∀ name code, spawnCall f exec e = some (name, code) → ¬ SpawnRefuses s name code e.spawn) ∨
    stacksym f exec e = none

variable {f : Format} {exec : Loader} {processKind : ExecutableKind} {e : CreateEnv}
  {s : UserProcessScheduler} {name : CString} {code : Nat}

/-- What `Spawn` returns for a process it refuses is an error code. -/
theorem spawn_refuses (h : SpawnRefuses s name code e.spawn) (image imageSz : Nat) :
    SpawnError (s.spawn (some name.chars) code image imageSz e.spawn).1 := by
  rcases s.spawn_cases (some name.chars) code image imageSz e.spawn with
    ⟨-, heq⟩ | ⟨hgo, n, hn, r, rfl, heq⟩
  · rw [heq]
    exact .inl rfl
  · cases hn
    rw [heq]
    exact ((fillSlot_goesThrough _ _ _ _ _ _ _).resolve_left
      fun hok => h.resolve_left hgo hok.1).2

/-- For a process it does not refuse it is the counter, and the process there carries it. -/
theorem spawn_creates (h : ¬ SpawnRefuses s name code e.spawn) (image imageSz : Nat) :
    (s.spawn (some name.chars) code image imageSz e.spawn).1 = s.mTeam.mProcessCur ∧
      ((s.spawn (some name.chars) code image imageSz e.spawn).2.2.asArray
        (toIndex s.mTeam.mProcessCur)).processId = s.mTeam.mProcessCur := by
  obtain ⟨hdoor, hthrough⟩ := not_or.mp h
  rcases s.spawn_cases (some name.chars) code image imageSz e.spawn with
    ⟨hno, -⟩ | ⟨-, n, hn, r, rfl, heq⟩
  · exact absurd hno hdoor
  · cases hn
    obtain ⟨-, hid, hpid, -⟩ := (fillSlot_goesThrough _ _ _ _ _ _ _).resolve_right
      fun hno => hno.1 (not_not.mp hthrough)
    rw [heq]
    exact ⟨hid, by rw [asArray_setArray, hpid]⟩

/-- A negative id is not removed. -/
theorem remove_negative {id : Int} (h : id < 0) : s.remove id e.finiDylib = ([], some s) := by
  unfold UserProcessScheduler.remove
  exact if_pos (.inl h)

/-- **What a call reports about `Spawn`** is right exactly when `Spawn` does not refuse the process,
or when there is no memory for the size of the stack. -/
theorem reportsSpawn_of (f : Format) (exec : Loader) (processKind : ExecutableKind) (e : CreateEnv)
    (s : UserProcessScheduler) :
    ReportsSpawn f exec processKind e s ↔ NotRefused f exec e s := by
  unfold ReportsSpawn NotRefused rtlCreateUserProcessOf
  cases hcall : spawnCall f exec e with
  | none => simp
  | some c =>
      obtain ⟨name, code⟩ := c
      by_cases href : SpawnRefuses s name code e.spawn
      · -- the error code is not the invalid id
        have hcode := spawn_refuses href exec.blob (f.imageSz exec)
        have hne : (s.spawn (some name.chars) code exec.blob (f.imageSz exec) e.spawn).1 ≠
            kCPSInvalidPID := by
          rcases hcode with h | h <;> rw [h] <;> decide
        have hneg : (s.spawn (some name.chars) code exec.blob (f.imageSz exec) e.spawn).1 < 0 :=
          hcode.neg
        simp only [if_pos hne, remove_negative hneg]
        cases hstack : stacksym f exec e with
        | none => simp
        | some word =>
            refine iff_of_false (fun h => ?_) fun h => ?_
            · obtain ⟨h, -⟩ := h _ _ _ rfl
              exact hne (h name code rfl href).1
            · rcases h with h | h
              · exact h name code rfl href
              · cases h
      · refine iff_of_true (fun id used s' h => ⟨?_, fun hne => ?_⟩) (.inl ?_)
        · rintro _ _ ⟨⟩ hno
          exact absurd hno href
        · obtain ⟨hid, hpid⟩ := spawn_creates href exec.blob (f.imageSz exec)
          refine ⟨name, code, rfl, href, ?_⟩
          simp only [hid] at h
          split at h
          · split at h
            · -- the process was removed again
              obtain ⟨_, -, heq⟩ := Option.map_eq_some_iff.mp h
              exact absurd (Prod.mk.inj heq).1.symm hne
            · cases h
              refine ⟨rfl, ?_⟩
              rw [setKind, asArray_setArray]
              exact hpid
          · cases h
            exact ⟨rfl, hpid⟩
        · rintro _ _ ⟨⟩
          exact href

/-- **Both overloads report what `Spawn` did exactly when it does not refuse the process**, or when
there is no memory for the size of the stack. -/
theorem reportsSpawn_iff (exec : Loader) (processKind : ExecutableKind) (e : CreateEnv)
    (s : UserProcessScheduler) :
    (ReportsSpawn pefFormat exec processKind e s ↔ NotRefused pefFormat exec e s) ∧
      (ReportsSpawn pe32Format exec processKind e s ↔ NotRefused pe32Format exec e s) :=
  ⟨reportsSpawn_of pefFormat exec processKind e s, reportsSpawn_of pe32Format exec processKind e s⟩

/-- An image without symbols that starts at 1. -/
def bareLoader : Loader := ⟨true, (kErrorSuccess, 1), fun _ _ => none, 0, 0⟩

/-- There is no memory for the stack frame: both overloads return the error code of `Spawn` after
they have used it as an index. -/
theorem error_code_returned :
    (∃ s, rtlCreateUserProcessPEF bareLoader .kExecutableKind ⟨⟨0, 0, 0⟩, true, true, true⟩
      zeroScheduler = some (-kErrorProcessFault, [-kErrorProcessFault, -kErrorProcessFault], s)) ∧
    (∃ s, rtlCreateUserProcessPE32 bareLoader .kExecutableKind ⟨⟨0, 0, 0⟩, true, true, true⟩
      zeroScheduler = some (-kErrorProcessFault, [-kErrorProcessFault, -kErrorProcessFault], s)) ∧
    -kErrorProcessFault ≠ kCPSInvalidPID :=
  ⟨⟨_, rfl⟩, ⟨_, rfl⟩, by decide⟩

end NeKernel.KernelKit
