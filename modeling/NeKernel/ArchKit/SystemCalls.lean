import NeKernel.ArchKit.KernelCalls

/-!
# System calls

A system call is installed under a name in a table of its own, and a program calls it by the hash of
that name:

    nesys_hash_64 ──hash──▶ hal_system_call_enter ──scan──▶ fProc

The two hashes are written separately and are the same (`nesysHash64_eq`). The calls fill the table
from the front, so a call's slot is the number of those before it, and with distinct hashes the scan
stops at one slot or at none.
-/

namespace NeKernel.ArchKit

open NeFS (CString)

variable {Proc : Type*}

/-- `kSysCalls`. Its entries have the fields of those of `kKernCalls`. -/
abbrev SysCalls (Proc : Type*) := KernCalls Proc

/-- `ke_install_syscall`: `ke_install_kerncall` word by word, on the other table. -/
def keInstallSyscall (name : Option CString) (proc : Option Proc) (table : SysCalls Proc) :
    Int × SysCalls Proc :=
  keInstallKerncall name proc table

/-- `nesys_hash_64` of libSystem; its characters are signed, too. -/
def nesysHash64 : Option CString → BitVec 64
  | none => 0
  | some path =>
      if path.chars = [] then 0
      else path.chars.foldl (fun hash c => (hash ^^^ c.toBitVec.signExtend 64) * 0x100000001b3#64)
        0xcbf29ce484222325#64

/-- A procedure that is run, and its argument. -/
structure SysInvocation (Proc : Type*) where
  proc : Proc
  arg : BitVec 64

/-- The loop of `hal_system_call_enter`. -/
def scanSysCalls (rcxHash arg : BitVec 64) :
    List (KernelDispatchEntry Proc) → Option (SysInvocation Proc)
  | [] => none
  | e :: es =>
      if e.fHooked ∧ rcxHash = e.fHash then e.fProc.map fun proc => ⟨proc, arg⟩
      else scanSysCalls rcxHash arg es

/-- `hal_system_call_enter`: the procedure it runs and returns the result of. It returns null if
there is none. -/
def halSystemCallEnter (kCurrentUser : Option Nat) (table : SysCalls Proc)
    (rcxHash rdxSyscallArg : BitVec 64) : Option (SysInvocation Proc) :=
  match kCurrentUser with
  | none => none
  | some _ => scanSysCalls rcxHash rdxSyscallArg table.entries

/-- The calls one after the other, with what each has returned. -/
def installSyscalls : List (CString × Proc) → SysCalls Proc → List Int × SysCalls Proc
  | [], table => ([], table)
  | call :: calls, table =>
      let r := keInstallSyscall (some call.1) (some call.2) table
      let rest := installSyscalls calls r.2
      (r.1 :: rest.1, rest.2)

variable {table : SysCalls Proc} {calls done : List (CString × Proc)} {call : CString × Proc}

theorem nesysHash64_eq (name : Option CString) : nesysHash64 name = keHash64 name := by
  cases name with
  | none => rfl
  | some name => rfl

/-! ## What is installed -/

/-- The table holds these calls from its front, and nothing else. -/
structure Holds (table : SysCalls Proc) (done : List (CString × Proc)) : Prop where
  entries : table.entries =
    done.map entryOf ++ List.replicate (kMaxDispatchCallCount - done.length) freeEntry
  fits : done.length ≤ kMaxDispatchCallCount

theorem holds_free : Holds (KernCalls.free : SysCalls Proc) [] := ⟨rfl, Nat.zero_le _⟩

theorem name_ne_of_hash (hhash : keHash64 (some call.1) ≠ 0) : call.1.chars ≠ [] :=
  fun h => hhash (if_pos h)

/-- A call takes the first slot behind the others, or there is none. -/
theorem Holds.install (hd : Holds table done) (hhash : keHash64 (some call.1) ≠ 0) :
    (keInstallSyscall (some call.1) (some call.2) table).1 =
        (if done.length < kMaxDispatchCallCount then (done.length : Int) else -1) ∧
      Holds (keInstallSyscall (some call.1) (some call.2) table).2
        (if done.length < kMaxDispatchCallCount then done ++ [call] else done) := by
  have hname : ¬ (some call.1).all (·.chars = []) := mt of_decide_eq_true (name_ne_of_hash hhash)
  have hgood : ¬ (keHash64 (some call.1) = 0 ∨ (some call.2).isNone) :=
    fun hbad => hbad.elim hhash Bool.false_ne_true
  have hhook := @hookFirst_filled _ done (entryOf call) (kMaxDispatchCallCount - done.length)
  rw [← hd.entries] at hhook
  rw [keInstallSyscall, keInstallKerncall, if_neg hname, if_neg hgood]
  change hookFirst ⟨keHash64 (some call.1), true, some call.2⟩ table.entries = _ at hhook
  by_cases hroom : done.length < kMaxDispatchCallCount
  · obtain ⟨k, hk⟩ : ∃ k, kMaxDispatchCallCount - done.length = k + 1 :=
      ⟨kMaxDispatchCallCount - done.length - 1, by omega⟩
    rw [hk] at hhook
    rw [if_pos hroom, if_pos hroom]
    split
    · next hnone =>
        rw [hnone] at hhook
        cases hhook
    · next i entries hsome =>
        rw [hsome] at hhook
        obtain ⟨rfl, rfl⟩ := Prod.mk.inj (Option.some.inj hhook)
        refine ⟨rfl, ?_, ?_⟩
        · have hleft : kMaxDispatchCallCount - (done ++ [call]).length = k := by
            rw [List.length_append, List.length_singleton]
            omega
          rw [hleft, List.map_append, List.append_assoc]
          rfl
        · rw [List.length_append, List.length_singleton]
          omega
  · rw [Nat.sub_eq_zero_of_le (Nat.le_of_not_lt hroom)] at hhook
    rw [if_neg hroom, if_neg hroom]
    split
    · exact ⟨rfl, hd⟩
    · next i entries hsome =>
        rw [hsome] at hhook
        cases hhook

/-- What a sequence of calls returns and leaves. -/
theorem Holds.installAll (hd : Holds table done) (hhash : ∀ c ∈ calls, keHash64 (some c.1) ≠ 0) :
    (installSyscalls calls table).1 = (List.range calls.length).map (fun i =>
        if done.length + i < kMaxDispatchCallCount then ((done.length + i : Nat) : Int) else -1) ∧
      Holds (installSyscalls calls table).2
        (done ++ calls.take (kMaxDispatchCallCount - done.length)) := by
  induction calls generalizing table done with
  | nil => exact ⟨rfl, by rw [List.take_nil, List.append_nil]; exact hd⟩
  | cons call calls ih =>
      obtain ⟨hslot, hnext⟩ := hd.install (hhash call List.mem_cons_self)
      obtain ⟨hslots, hlast⟩ := ih hnext fun c hc => hhash c (List.mem_cons_of_mem _ hc)
      simp only [installSyscalls]
      rw [hslot, hslots, List.length_cons, List.range_succ_eq_map, List.map_cons, List.map_map]
      by_cases hroom : done.length < kMaxDispatchCallCount
      · rw [if_pos hroom] at hlast
        have hlen : (done ++ [call]).length = done.length + 1 := by
          rw [List.length_append, List.length_singleton]
        refine ⟨?_, ?_⟩
        · simp only [if_pos hroom, Nat.add_zero, Function.comp_def, hlen]
          refine congrArg _ (List.map_congr_left fun i _ => ?_)
          rw [show done.length + 1 + i = done.length + Nat.succ i by omega]
        · rw [hlen, List.append_assoc] at hlast
          rw [show kMaxDispatchCallCount - done.length =
            kMaxDispatchCallCount - (done.length + 1) + 1 by omega, List.take_succ_cons]
          exact hlast
      · have hfull : done.length = kMaxDispatchCallCount :=
          Nat.le_antisymm hd.fits (Nat.le_of_not_lt hroom)
        rw [if_neg hroom] at hlast
        refine ⟨?_, ?_⟩
        · simp only [if_neg hroom, Nat.add_zero, Function.comp_def]
          refine congrArg _ (List.map_congr_left fun i _ => ?_)
          rw [if_neg (by omega), if_neg (by omega)]
        · rw [hfull, Nat.sub_self, List.take_zero] at hlast ⊢
          exact hlast

/-! ## What is run -/

theorem scanSysCalls_free (rcxHash arg : BitVec 64) (k : Nat) :
    scanSysCalls rcxHash arg (List.replicate k (freeEntry : KernelDispatchEntry Proc)) = none := by
  induction k with
  | zero => rfl
  | succ k ih =>
      rw [List.replicate_succ, scanSysCalls, if_neg fun h => Bool.false_ne_true h.1]
      exact ih

/-- The scan stops at the first call with the hash. -/
theorem scanSysCalls_filled (rcxHash arg : BitVec 64) (k : Nat) :
    scanSysCalls rcxHash arg (done.map entryOf ++ List.replicate k freeEntry) =
      (done.find? fun c => keHash64 (some c.1) = rcxHash).map fun c => ⟨c.2, arg⟩ := by
  induction done with
  | nil => exact scanSysCalls_free rcxHash arg k
  | cons c done ih =>
      rw [List.map_cons, List.cons_append, scanSysCalls]
      by_cases h : rcxHash = keHash64 (some c.1)
      · rw [if_pos ⟨rfl, h⟩, List.find?_cons, decide_eq_true h.symm]
        rfl
      · rw [if_neg fun hboth => h hboth.2, List.find?_cons, decide_eq_false (Ne.symm h), ih]

theorem Holds.enter (hd : Holds table done) (user : Nat) (rcxHash arg : BitVec 64) :
    halSystemCallEnter (some user) table rcxHash arg =
      (done.find? fun c => keHash64 (some c.1) = rcxHash).map fun c => ⟨c.2, arg⟩ := by
  rw [halSystemCallEnter, hd.entries, scanSysCalls_filled]

/-- Among calls with distinct hashes the scan finds the one that is meant. -/
theorem find_hash (hmem : call ∈ done)
    (hdistinct : done.Pairwise fun a b => keHash64 (some a.1) ≠ keHash64 (some b.1)) :
    (done.find? fun c => keHash64 (some c.1) = keHash64 (some call.1)) = some call := by
  rw [← List.head?_filter, filter_eq_singleton hmem hdistinct, List.head?_cons]

/-- What the calls have returned: -1 exactly when 512 of those before have been installed, and
otherwise a slot that none of those before has taken. -/
structure SlotsRight (slots : List Int) : Prop where
  full : ∀ (i : Nat) (h : i < slots.length),
    slots[i] = -1 ↔ (slots.take i).countP (· ≠ -1) = kMaxDispatchCallCount
  fresh : ∀ (i j : Nat) (hij : i < j) (hj : j < slots.length), slots[j] ≠ -1 → slots[i] ≠ slots[j]
  inside : ∀ slot ∈ slots, slot ≠ -1 → 0 ≤ slot ∧ slot < kMaxDispatchCallCount

/-- The slot of the `i`-th call of all. -/
def slotOf (i : Nat) : Int := if i < kMaxDispatchCallCount then (i : Int) else -1

theorem slotOf_eq_iff {i : Nat} : slotOf i = -1 ↔ kMaxDispatchCallCount ≤ i := by
  rw [slotOf]
  split <;> omega

theorem countP_slotOf (n : Nat) :
    ((List.range n).map slotOf).countP (· ≠ -1) = min n kMaxDispatchCallCount := by
  induction n with
  | zero => rfl
  | succ n ih =>
      rw [List.range_succ, List.map_append, List.countP_append, ih, List.map_singleton]
      by_cases h : kMaxDispatchCallCount ≤ n
      · rw [List.countP_singleton, if_neg (by simp [slotOf_eq_iff.mpr h])]
        omega
      · rw [List.countP_singleton, if_pos (by simpa using mt slotOf_eq_iff.mp h)]
        omega

theorem slotsRight_range (n : Nat) : SlotsRight ((List.range n).map slotOf) where
  full i h := by
    rw [List.length_map, List.length_range] at h
    rw [List.getElem_map, List.getElem_range, slotOf_eq_iff, ← List.map_take, List.take_range,
      countP_slotOf, Nat.min_eq_left (Nat.le_of_lt h)]
    omega
  fresh i j hij hj hslot := by
    rw [List.getElem_map, List.getElem_range] at hslot ⊢
    rw [List.getElem_map, List.getElem_range]
    have hj' : j < kMaxDispatchCallCount := Nat.lt_of_not_le (mt slotOf_eq_iff.mpr hslot)
    rw [slotOf, slotOf, if_pos hj', if_pos (Nat.lt_trans hij hj')]
    omega
  inside slot hmem hslot := by
    obtain ⟨i, -, rfl⟩ := List.mem_map.mp hmem
    have hi : i < kMaxDispatchCallCount := Nat.lt_of_not_le (mt slotOf_eq_iff.mpr hslot)
    rw [slotOf, if_pos hi]
    omega

theorem mem_zip_slotOf {slot : Int} :
    (call, slot) ∈ calls.zip ((List.range calls.length).map slotOf) ↔
      ∃ i, calls[i]? = some call ∧ slot = slotOf i := by
  rw [List.mem_iff_getElem?]
  refine exists_congr fun i => ?_
  rw [List.getElem?_zip_eq_some]
  refine and_congr_right fun hcall => ?_
  have hi : i < calls.length := (List.getElem?_eq_some_iff.mp hcall).1
  rw [List.getElem?_map, List.getElem?_range hi, Option.map_some, Option.some.injEq, eq_comm]

/-- **System calls by name.** Calls with distinct hashes are installed until the table is full, each
in a slot of its own. Then the hash of an installed name runs that name's procedure on the argument,
and any other hash runs none. -/
theorem syscalls_by_name (calls : List (CString × Proc)) (user : Nat) (arg : BitVec 64)
    (hhash : ∀ call ∈ calls, keHash64 (some call.1) ≠ 0)
    (hdistinct : calls.Pairwise fun a b => keHash64 (some a.1) ≠ keHash64 (some b.1)) :
    (installSyscalls calls .free).1.length = calls.length ∧
    SlotsRight (installSyscalls calls .free).1 ∧
    (∀ call slot, (call, slot) ∈ calls.zip (installSyscalls calls .free).1 → slot ≠ -1 →
      halSystemCallEnter (some user) (installSyscalls calls .free).2 (nesysHash64 (some call.1)) arg =
        some ⟨call.2, arg⟩) ∧
    ∀ rcxHash, (∀ call slot, (call, slot) ∈ calls.zip (installSyscalls calls .free).1 → slot ≠ -1 →
        nesysHash64 (some call.1) ≠ rcxHash) →
      halSystemCallEnter (some user) (installSyscalls calls .free).2 rcxHash arg = none := by
  obtain ⟨hslots, hholds⟩ := holds_free.installAll hhash
  have hslots : (installSyscalls calls .free).1 = (List.range calls.length).map slotOf := by
    rw [hslots]
    refine List.map_congr_left fun i _ => ?_
    rw [List.length_nil, Nat.zero_add, slotOf]
  rw [List.length_nil, Nat.sub_zero, List.nil_append] at hholds
  rw [hslots]
  refine ⟨?_, slotsRight_range _, fun call slot hmem hslot => ?_, fun rcxHash hother => ?_⟩
  · rw [List.length_map, List.length_range]
  · obtain ⟨i, hcall, rfl⟩ := mem_zip_slotOf.mp hmem
    have hi : i < kMaxDispatchCallCount := Nat.lt_of_not_le (mt slotOf_eq_iff.mpr hslot)
    have hin : call ∈ calls.take kMaxDispatchCallCount := by
      rw [List.mem_iff_getElem?]
      exact ⟨i, by rw [List.getElem?_take_of_lt hi]; exact hcall⟩
    rw [hholds.enter, nesysHash64_eq,
      find_hash hin (hdistinct.sublist (List.take_sublist _ _)), Option.map_some]
  · rw [hholds.enter, Option.map_eq_none_iff, List.find?_eq_none]
    intro call hin hfound
    obtain ⟨i, hi⟩ := List.mem_iff_getElem?.mp hin
    rw [List.getElem?_take] at hi
    obtain ⟨hlt, hcall⟩ : i < kMaxDispatchCallCount ∧ calls[i]? = some call := by
      split at hi
      · next hlt => exact ⟨hlt, hi⟩
      · cases hi
    refine hother call (slotOf i) (mem_zip_slotOf.mpr ⟨i, hcall, rfl⟩)
      (mt slotOf_eq_iff.mp (Nat.not_le_of_lt hlt)) ?_
    rw [nesysHash64_eq]
    exact of_decide_eq_true hfound

/-- `"ke_fwaurzu"`. -/
def fwaurzu : CString := ⟨[107, 101, 95, 102, 119, 97, 117, 114, 122, 117], by simp⟩

/-- The calls of two names. -/
def twoSyscalls : List (CString × Nat) := [(fwaurzu, 1), (cfkitGetKobj, 2)]

theorem syscalls_by_name_two : SlotsRight (installSyscalls twoSyscalls .free).1 ∧
    halSystemCallEnter (some 0) (installSyscalls twoSyscalls .free).2 5 7 = none := by
  obtain ⟨-, hslots, -, hother⟩ := syscalls_by_name twoSyscalls 0 7 (by decide) (by decide)
  refine ⟨hslots, hother 5 fun call slot hmem _ => ?_⟩
  have hcalls : ∀ call ∈ twoSyscalls, nesysHash64 (some call.1) ≠ 5 := by decide
  exact hcalls call (List.of_mem_zip hmem).1

end NeKernel.ArchKit
