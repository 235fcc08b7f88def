import NeKernel.FSKit.NeFS

/-!
# Kernel calls

A kernel call is installed under a name, and a driver calls it by that name:

    ke_call_dispatch ──hash──▶ __ke_call_dispatch ──trap──▶ hal_kernel_call_enter ──scan──▶ fProc

Both sides hash the name with 64-bit FNV. The stub in between is declared with an `int32_t` for it, so
only the low half of the hash travels: what puts it into its register clears the upper half. A name is
reached if that happens to be the hash of a name with the same procedure. The count is an `int32_t` too,
and a negative one arrives as a large one.
-/

namespace NeKernel.ArchKit

open NeFS (CString)

/-! ## The dispatch table -/

def kMaxDispatchCallCount : Nat := 512

/-- `HAL_KERNEL_DISPATCH_ENTRY`. A null procedure is `none`. -/
structure KernelDispatchEntry (Proc : Type*) where
  fHash : BitVec 64
  fHooked : Bool
  fProc : Option Proc

/-- `kKernCalls`. -/
structure KernCalls (Proc : Type*) where
  entries : List (KernelDispatchEntry Proc)
  length_entries : entries.length = kMaxDispatchCallCount

/-- The hash both sides compute: every character is a signed `char`. -/
def fnv64 (name : CString) : BitVec 64 :=
  name.chars.foldl (fun hash c => (hash ^^^ c.toBitVec.signExtend 64) * 0x100000001b3#64)
    0xcbf29ce484222325#64

/-- `ke_hash_64`. -/
def keHash64 : Option CString → BitVec 64
  | none => 0
  | some name => if name.chars = [] then 0 else fnv64 name

variable {Proc : Type*}

/-- A slot of the zeroed table. -/
def freeEntry : KernelDispatchEntry Proc := ⟨0, false, none⟩

/-- The zeroed table. -/
def KernCalls.free : KernCalls Proc :=
  ⟨List.replicate kMaxDispatchCallCount freeEntry, List.length_replicate⟩

/-- The loop of `ke_install_kerncall`: the first slot that is not hooked takes the entry. -/
def hookFirst (entry : KernelDispatchEntry Proc) :
    List (KernelDispatchEntry Proc) → Option (Nat × List (KernelDispatchEntry Proc))
  | [] => none
  | e :: es =>
      if e.fHooked then (hookFirst entry es).map fun r => (r.1 + 1, e :: r.2)
      else some (0, entry :: es)

theorem hookFirst_length {entry : KernelDispatchEntry Proc} {es es' : List _} {i : Nat}
    (h : hookFirst entry es = some (i, es')) : es'.length = es.length := by
  induction es generalizing i es' with
  | nil => cases h
  | cons e es ih =>
      rw [hookFirst] at h
      split at h
      · obtain ⟨⟨j, tail⟩, hr, heq⟩ := Option.map_eq_some_iff.mp h
        obtain ⟨-, rfl⟩ := Prod.mk.inj heq
        rw [List.length_cons, ih hr, List.length_cons]
      · obtain ⟨-, rfl⟩ := Prod.mk.inj (Option.some.inj h)
        rfl

/-- `ke_install_kerncall`: the slot the call took, or `-1`. -/
def keInstallKerncall (name : Option CString) (proc : Option Proc) (table : KernCalls Proc) :
    Int × KernCalls Proc :=
  if name.all (·.chars = []) then (-1, table)
  else if keHash64 name = 0 ∨ proc.isNone then (-1, table)
  else
    match h : hookFirst ⟨keHash64 name, true, proc⟩ table.entries with
    | none => (-1, table)
    | some (i, entries) => (i, ⟨entries, (hookFirst_length h).trans table.length_entries⟩)

/-- What a sequence of `ke_install_kerncall`s makes of the zeroed table, and the calls it has
installed, in their order. -/
inductive Installed : KernCalls Proc → List (CString × Proc) → Prop where
  | zeroed : Installed .free []
  | took {table table' calls name proc slot} : Installed table calls →
      keInstallKerncall (some name) (some proc) table = (slot, table') → slot ≠ -1 →
      Installed table' (calls ++ [(name, proc)])
  | refused {table table' calls name proc} : Installed table calls →
      keInstallKerncall name proc table = (-1, table') → Installed table' calls

/-! ## The trap -/

inductive UserRingKind where
  | kRingInvalid
  | kRingStdUser
  | kRingSuperUser
  | kRingGuestUser
  | kRingRecoveryUser
deriving DecidableEq

/-- The user pointers of the kernel, and the ring of the user behind a pointer. -/
structure Users where
  kRootUser : Option Nat
  kCurrentUser : Option Nat
  ring : Nat → UserRingKind

/-- `User::IsSuperUser`. -/
def Users.isSuperUser (users : Users) (user : Nat) : Bool := users.ring user = .kRingSuperUser

/-- A procedure called with its three arguments. -/
structure Invocation (Proc : Type*) where
  proc : Proc
  cnt : BitVec 64
  arg : BitVec 64
  sz : BitVec 64

/-- The body of the loop of `hal_kernel_call_enter`. -/
def KernelDispatchEntry.call (e : KernelDispatchEntry Proc) (rcxHash cnt arg sz : BitVec 64) :
    Option (Invocation Proc) :=
  if e.fHooked ∧ rcxHash = e.fHash then e.fProc.map fun proc => ⟨proc, cnt, arg, sz⟩ else none

/-- `hal_kernel_call_enter`: the procedures it calls, in the order of the table. -/
def halKernelCallEnter (users : Users) (table : KernCalls Proc)
    (rcxHash cnt arg sz : BitVec 64) : List (Invocation Proc) :=
  match users.kRootUser with
  | none => []
  | some root =>
      if users.kCurrentUser ≠ some root then []
      else if !users.isSuperUser root then []
      else table.entries.filterMap fun e => e.call rcxHash cnt arg sz

/-- `__ke_call_dispatch`, taken to hand its four parameters to the handler. The two that are declared
narrower than the handler's come in the low half of a register whose upper half the compiled caller has
cleared: every write of a 32-bit register does. -/
def keCallDispatchStub (users : Users) (table : KernCalls Proc) (name cnt : BitVec 32)
    (data sz : BitVec 64) : List (Invocation Proc) :=
  halKernelCallEnter users table (name.setWidth 64) (cnt.setWidth 64) data sz

/-- `ddk_fnv_64`. -/
def ddkFnv64 : Option CString → BitVec 64
  | none => 0
  | some path => if path.chars = [] then 0 else fnv64 path

/-- `ke_call_dispatch`: the procedures that are called. The conversion to `int32_t` keeps the low
half of the hash. -/
def keCallDispatch (users : Users) (table : KernCalls Proc) (name : Option CString)
    (cnt : BitVec 32) (data sz : BitVec 64) : List (Invocation Proc) :=
  if name.all (·.chars = []) ∨ data = 0 ∨ cnt = 0 then []
  else keCallDispatchStub users table ((ddkFnv64 name).setWidth 32) cnt data sz

/-! ## What is installed -/

/-- The entry of a call. -/
def entryOf (call : CString × Proc) : KernelDispatchEntry Proc :=
  ⟨keHash64 (some call.1), true, some call.2⟩

variable {table : KernCalls Proc} {calls : List (CString × Proc)} {users : Users}

/-- The calls fill the table from the front. -/
def Filled (table : KernCalls Proc) (calls : List (CString × Proc)) : Prop :=
  ∃ k, table.entries = calls.map entryOf ++ List.replicate k freeEntry

theorem hookFirst_filled {entry : KernelDispatchEntry Proc} {k : Nat} :
    hookFirst entry (calls.map entryOf ++ List.replicate k freeEntry) =
      match k with
      | 0 => none
      | k + 1 =>
          some (calls.length, calls.map entryOf ++ entry :: List.replicate k freeEntry) := by
  induction calls with
  | nil => cases k <;> rfl
  | cons call calls ih =>
      rw [List.map_cons, List.cons_append, hookFirst, ih]
      cases k <;> rfl

/-- An installation appends its call, or leaves the table. -/
theorem Filled.install {name : Option CString} {proc : Option Proc} {slot : Int}
    {table' : KernCalls Proc} (hf : Filled table calls)
    (h : keInstallKerncall name proc table = (slot, table')) :
    slot = -1 ∧ table' = table ∨
      0 ≤ slot ∧ ∃ n p, name = some n ∧ proc = some p ∧ Filled table' (calls ++ [(n, p)]) := by
  obtain ⟨k, hk⟩ := hf
  unfold keInstallKerncall at h
  split at h
  · exact .inl ((Prod.mk.inj h).imp Eq.symm Eq.symm)
  · next hname =>
      split at h
      · exact .inl ((Prod.mk.inj h).imp Eq.symm Eq.symm)
      · next hproc =>
          split at h
          · exact .inl ((Prod.mk.inj h).imp Eq.symm Eq.symm)
          · next i entries hhook =>
              obtain ⟨rfl, rfl⟩ := Prod.mk.inj h
              obtain ⟨n, rfl⟩ : ∃ n, name = some n := by
                cases name with
                | none => exact absurd rfl hname
                | some n => exact ⟨n, rfl⟩
              obtain ⟨p, rfl⟩ : ∃ p, proc = some p := by
                cases proc with
                | none => exact absurd (.inr rfl) hproc
                | some p => exact ⟨p, rfl⟩
              refine .inr ⟨Int.natCast_nonneg i, n, p, rfl, rfl, ?_⟩
              rw [hk, hookFirst_filled] at hhook
              cases k with
              | zero => cases hhook
              | succ k =>
                  obtain ⟨-, rfl⟩ := Prod.mk.inj (Option.some.inj hhook)
                  refine ⟨k, ?_⟩
                  rw [List.map_append, List.append_assoc]
                  rfl

/-- The table holds what has been installed. -/
theorem Installed.filled (h : Installed table calls) : Filled table calls := by
  induction h with
  | zeroed => exact ⟨kMaxDispatchCallCount, rfl⟩
  | took _ hinstall hslot ih =>
      rcases ih.install hinstall with ⟨hno, -⟩ | ⟨-, n, p, hn, hp, hfilled⟩
      · exact absurd hno hslot
      · rw [Option.some.inj hn, Option.some.inj hp]
        exact hfilled
  | refused _ hinstall ih =>
      rcases ih.install hinstall with ⟨-, rfl⟩ | ⟨hslot, -⟩
      · exact ih
      · exact absurd hslot (by decide)

/-- An installed name has characters. -/
theorem Installed.name_ne (h : Installed table calls) {name : CString} {proc : Proc}
    (hmem : (name, proc) ∈ calls) : name.chars ≠ [] := by
  induction h with
  | zeroed => cases hmem
  | took _ hinstall hslot ih =>
      rcases List.mem_append.mp hmem with hmem | hmem
      · exact ih hmem
      · obtain ⟨rfl, rfl⟩ := Prod.mk.inj (List.mem_singleton.mp hmem)
        intro hempty
        apply hslot
        rw [keInstallKerncall, Option.all_some, if_pos (decide_eq_true hempty)] at hinstall
        exact (Prod.mk.inj hinstall).1.symm
  | refused _ _ ih => exact ih hmem

/-! ## What is called -/

/-- The current user is the root user, and a super user. -/
def Users.AtRoot (users : Users) : Prop :=
  ∃ root, users.kRootUser = some root ∧ users.kCurrentUser = some root ∧
    users.ring root = .kRingSuperUser

theorem entryOf_call (call : CString × Proc) (rcxHash cnt arg sz : BitVec 64) :
    (entryOf call).call rcxHash cnt arg sz =
      if keHash64 (some call.1) = rcxHash then some ⟨call.2, cnt, arg, sz⟩ else none := by
  by_cases h : rcxHash = keHash64 (some call.1)
  · rw [if_pos h.symm]
    exact if_pos ⟨rfl, h⟩
  · rw [if_neg (Ne.symm h)]
    exact if_neg fun hboth => h hboth.2

/-- The trap calls the procedures of the calls whose hash arrives. -/
theorem enter_filled (hroot : users.AtRoot) (hf : Filled table calls)
    (rcxHash cnt arg sz : BitVec 64) :
    halKernelCallEnter users table rcxHash cnt arg sz =
      (calls.filter fun call => keHash64 (some call.1) = rcxHash).map fun call =>
        ⟨call.2, cnt, arg, sz⟩ := by
  obtain ⟨root, hr, hc, hring⟩ := hroot
  obtain ⟨k, hk⟩ := hf
  have hsuper : users.isSuperUser root = true := decide_eq_true hring
  have hfree : (List.replicate k freeEntry).filterMap
      (fun e : KernelDispatchEntry Proc => e.call rcxHash cnt arg sz) = [] := by
    rw [List.filterMap_eq_nil_iff]
    intro e he
    rw [List.eq_of_mem_replicate he]
    exact if_neg fun hboth => Bool.false_ne_true hboth.1
  simp only [halKernelCallEnter, hr, hc, hsuper, ne_eq, not_true_eq_false, Bool.not_true,
    Bool.false_eq_true, if_false, hk, List.filterMap_append, hfree, List.append_nil]
  clear hk
  induction calls with
  | nil => rfl
  | cons call calls ih =>
      rw [List.map_cons, List.filterMap_cons, entryOf_call, ih, List.filter_cons]
      by_cases h : keHash64 (some call.1) = rcxHash
      · simp only [if_pos h, decide_eq_true h]
        rfl
      · simp only [if_neg h, decide_eq_false h]
        rfl

/-- Among calls with distinct hashes, exactly one has the hash, or none. -/
theorem filter_eq_singleton {call : CString × Proc} (hmem : call ∈ calls)
    (hdistinct : calls.Pairwise fun a b => keHash64 (some a.1) ≠ keHash64 (some b.1)) :
    (calls.filter fun other => keHash64 (some other.1) = keHash64 (some call.1)) = [call] := by
  induction calls with
  | nil => cases hmem
  | cons head calls ih =>
      obtain ⟨hhead, htail⟩ := List.pairwise_cons.mp hdistinct
      rcases List.mem_cons.mp hmem with rfl | hmem
      · rw [List.filter_cons, if_pos (decide_eq_true rfl)]
        congr 1
        rw [List.filter_eq_nil_iff]
        intro other hother
        rw [decide_eq_true_iff]
        exact (hhead other hother).symm
      · rw [List.filter_cons, if_neg (mt of_decide_eq_true (hhead call hmem))]
        exact ih hmem htail

/-- The hash as it arrives: its low half, with zeros above it. -/
def arrives (name : CString) : BitVec 64 := ((fnv64 name).setWidth 32).setWidth 64

/-- The whole hash arrives if its upper half is zero. -/
theorem arrives_eq_iff (name : CString) : arrives name = fnv64 name ↔ fnv64 name >>> 32 = 0 := by
  have hlt := (fnv64 name).isLt
  have hzero : (0 : BitVec 64).toNat = 0 := rfl
  rw [arrives, ← BitVec.toNat_inj, ← BitVec.toNat_inj, hzero]
  simp only [BitVec.toNat_setWidth, BitVec.toNat_ushiftRight, Nat.shiftRight_eq_div_pow]
  omega

theorem keHash64_some {name : CString} (h : name.chars ≠ []) :
    keHash64 (some name) = fnv64 name := if_neg h

/-- Exactly `proc` is called, with the count, the argument and the size. -/
def Delivered (proc : Proc) (cnt : BitVec 32) (data sz : BitVec 64)
    (invocations : List (Invocation Proc)) : Prop :=
  ∃ n : BitVec 64, n.toInt = cnt.toInt ∧ invocations = [⟨proc, n, data, sz⟩]

theorem keCallDispatch_eq (hroot : users.AtRoot) (hf : Filled table calls) {name : CString}
    (hname : name.chars ≠ []) {cnt : BitVec 32} (hcnt : cnt ≠ 0) {data : BitVec 64}
    (hdata : data ≠ 0) (sz : BitVec 64) :
    keCallDispatch users table (some name) cnt data sz =
      (calls.filter fun call => keHash64 (some call.1) = arrives name).map fun call =>
        ⟨call.2, cnt.setWidth 64, data, sz⟩ := by
  have hpass : ¬ ((some name).all (·.chars = []) ∨ data = 0 ∨ cnt = 0) := by
    rintro (h | h | h)
    · exact hname (of_decide_eq_true h)
    · exact hdata h
    · exact hcnt h
  rw [keCallDispatch, if_neg hpass, keCallDispatchStub, ddkFnv64, if_neg hname]
  exact enter_filled hroot hf (arrives name) _ data sz

/-- A count arrives as it is unless it is negative. -/
theorem count_arrives_iff (cnt : BitVec 32) : (cnt.setWidth 64).toInt = cnt.toInt ↔ 0 ≤ cnt.toInt := by
  have hwide : (cnt.setWidth 64).toInt = cnt.toNat := by
    rw [BitVec.toInt_eq_toNat_of_lt (by rw [BitVec.toNat_setWidth]; omega), BitVec.toNat_setWidth]
    omega
  rw [hwide, BitVec.toInt_eq_toNat_cond]
  split <;> omega

/-- **Kernel calls by name.** A driver's call reaches the procedure installed under its name, and
no other, with its count, if and only if the count is not negative and what arrives of the hash is the hash
of an installed name with that procedure: of the name itself if the upper half of its hash is zero. -/
theorem delivered_iff (users : Users) (table : KernCalls Proc) (calls : List (CString × Proc))
    (name : CString) (proc : Proc) (cnt : BitVec 32) (data sz : BitVec 64)
    (hinstalled : Installed table calls)
    (hdistinct : calls.Pairwise fun a b => keHash64 (some a.1) ≠ keHash64 (some b.1))
    (hmem : (name, proc) ∈ calls) (hcnt : cnt ≠ 0) (hdata : data ≠ 0) (hroot : users.AtRoot) :
    Delivered proc cnt data sz (keCallDispatch users table (some name) cnt data sz) ↔
      0 ≤ cnt.toInt ∧
        (fnv64 name >>> 32 = 0 ∨
          ∃ other ≠ name, (other, proc) ∈ calls ∧ keHash64 (some other) = arrives name) := by
  have hself : keHash64 (some name) = arrives name ↔ fnv64 name >>> 32 = 0 := by
    rw [keHash64_some (hinstalled.name_ne hmem), eq_comm]
    exact arrives_eq_iff name
  rw [keCallDispatch_eq hroot hinstalled.filled (hinstalled.name_ne hmem) hcnt hdata]
  constructor
  · rintro ⟨n, hn, hall⟩
    obtain ⟨⟨other, proc'⟩, hother, heq⟩ := List.mem_map.mp (hall ▸ List.mem_singleton_self _)
    obtain ⟨hcall, hhash⟩ := List.mem_filter.mp hother
    obtain rfl : proc' = proc := congrArg Invocation.proc heq
    obtain rfl : cnt.setWidth 64 = n := congrArg Invocation.cnt heq
    refine ⟨(count_arrives_iff cnt).mp hn, ?_⟩
    by_cases hname : other = name
    · subst hname
      exact .inl (hself.mp (of_decide_eq_true hhash))
    · exact .inr ⟨other, hname, hcall, of_decide_eq_true hhash⟩
  · rintro ⟨hpos, hhash⟩
    obtain ⟨other, hcall, hhash⟩ : ∃ other, (other, proc) ∈ calls ∧ keHash64 (some other) = arrives name := by
      rcases hhash with hzero | ⟨other, -, hcall, hhash⟩
      · exact ⟨name, hmem, hself.mpr hzero⟩
      · exact ⟨other, hcall, hhash⟩
    refine ⟨cnt.setWidth 64, (count_arrives_iff cnt).mpr hpos, ?_⟩
    rw [← hhash, filter_eq_singleton hcall hdistinct]
    rfl

/-- The root user is the current one. -/
def rootUsers : Users := ⟨some 0, some 0, fun _ => .kRingSuperUser⟩

/-- `"ke_hnfvodn"`, whose hash has no bit in its upper half. -/
def hnfvodn : CString := ⟨[107, 101, 95, 104, 110, 102, 118, 111, 100, 110], by simp⟩

/-- `"cfkit_get_kobj"`, the call of `ke_get_obj`. -/
def cfkitGetKobj : CString := ⟨[99, 102, 107, 105, 116, 95, 103, 101, 116, 95, 107, 111, 98, 106], by simp⟩

/-- The table with one call. -/
theorem installed_one (name : CString) (h : name.chars ≠ []) (hhash : fnv64 name ≠ 0) :
    Installed (keInstallKerncall (some name) (some ()) .free).2 [(name, ())] := by
  have hname : ¬ (some name).all (·.chars = []) := mt of_decide_eq_true h
  have hgood : ¬ (keHash64 (some name) = 0 ∨ (some ()).isNone) := by
    rw [keHash64_some h]
    exact fun hbad => hbad.elim hhash Bool.false_ne_true
  cases hinstall : keInstallKerncall (some name) (some ()) .free with
  | mk slot table =>
      apply Installed.took .zeroed hinstall
      rw [keInstallKerncall, if_neg hname, if_neg hgood] at hinstall
      split at hinstall
      · next hnone => cases hnone
      · obtain ⟨rfl, -⟩ := Prod.mk.inj hinstall
        omega

theorem delivered_iff_hnfvodn :
    Delivered () 3 0x1000 24 (keCallDispatch rootUsers
      (keInstallKerncall (some hnfvodn) (some ()) .free).2 (some hnfvodn) 3 0x1000 24) := by
  apply (delivered_iff rootUsers _ [(hnfvodn, ())] hnfvodn () 3 0x1000 24 _ _ _ _ _ _).mpr
  · exact ⟨by decide, .inl (by decide)⟩
  · exact installed_one hnfvodn (by decide) (by decide)
  · exact List.pairwise_singleton _ _
  · exact List.mem_singleton_self _
  · decide
  · decide
  · exact ⟨0, rfl, rfl, rfl⟩

/-- The kernel call of `ke_get_obj` never reaches the procedure installed for it. -/
theorem get_kobj_lost :
    Installed (keInstallKerncall (some cfkitGetKobj) (some ()) .free).2 [(cfkitGetKobj, ())] ∧
      ¬ Delivered () 1 0x1000 1 (keCallDispatch rootUsers
        (keInstallKerncall (some cfkitGetKobj) (some ()) .free).2 (some cfkitGetKobj) 1 0x1000 1)
    := by
  have hinstalled := installed_one cfkitGetKobj (by decide) (by decide)
  refine ⟨hinstalled, ?_⟩
  rintro ⟨n, -, hall⟩
  rw [keCallDispatch_eq ⟨0, rfl, rfl, rfl⟩ hinstalled.filled (by decide) (by decide) (by decide),
    List.filter_cons, if_neg (by decide)] at hall
  cases hall

end NeKernel.ArchKit
