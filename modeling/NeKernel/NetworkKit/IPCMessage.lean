import NeKernel.NeKit.AsciiUtils

/-!
# Messages between processes

`IPC_MSG::Pass` hands the data of one message to another. It refuses a target that is larger than the
source, and the copy refuses one that is smaller: it clears the target, and `Pass` does not look at what
the copy returns. So only messages of one size are delivered (`delivers_iff`). The lock of the target is
free when it is even, but `ipc_construct_packet` sets it to `kIPCLockFree`, which is odd, and the counter
that should end the wait is never moved: `Pass` to a new message does not return (`waits_iff`).

A message is a record of its own; its data is in memory, wherever the message says.
-/

namespace NeKernel.NetworkKit

open ByteStore WordCopy NeKit

/-! ## Messages -/

def kIPCHeaderMagic : UInt32 := 0x4950434

def kIPCLockFree : UInt32 := 1
def kIPCLockUsed : UInt32 := 2

/-- `Endian::kEndianBig`. -/
def kEndianBig : UInt8 := 1

/-- `sizeof(IPC_MSG)`. -/
def sizeofIPCMsg : Nat := 80

structure IPCAddr where
  userProcessID : Nat
  userProcessTeam : Nat

structure IPCMsg where
  ipcHeaderMagic : UInt32
  ipcEndianess : UInt8
  ipcPacketSize : Nat
  ipcFrom : IPCAddr
  ipcTo : IPCAddr
  ipcLock : UInt32
  ipcSize : Nat
  ipcData : Nat

/-- `IPC_MSG()`: all fields are zero. -/
def blankMsg : IPCMsg := ⟨0, 0, 0, ⟨0, 0⟩, ⟨0, 0⟩, 0, 0, 0⟩

/-- The messages, by address, and the memory their data is in. -/
structure IPCState where
  msgs : Nat → IPCMsg
  mem : Store

namespace IPCState

/-- A message is changed. -/
def setMsg (s : IPCState) (msg : Nat) (f : IPCMsg → IPCMsg) : IPCState :=
  { s with msgs := Function.update s.msgs msg (f (s.msgs msg)) }

/-- The lock of a message is changed. -/
def setLock (s : IPCState) (msg : Nat) (lock : UInt32) : IPCState :=
  s.setMsg msg fun m => { m with ipcLock := lock }

@[simp] theorem setMsg_self (s : IPCState) (msg : Nat) (f : IPCMsg → IPCMsg) :
    (s.setMsg msg f).msgs msg = f (s.msgs msg) := Function.update_self _ _ _

@[simp] theorem setLock_self (s : IPCState) (msg : Nat) (lock : UInt32) :
    (s.setLock msg lock).msgs msg = { s.msgs msg with ipcLock := lock } := setMsg_self s msg _

theorem setLock_other {msg other : Nat} (s : IPCState) (lock : UInt32) (h : other ≠ msg) :
    (s.setLock msg lock).msgs other = s.msgs other := Function.update_of_ne h _ _

theorem setLock_setLock (s : IPCState) (msg : Nat) (a b : UInt32) :
    (s.setLock msg a).setLock msg b = s.setLock msg b := by
  simp only [setLock, setMsg, Function.update_self, Function.update_idem]

/-- The lock that is there. -/
theorem setLock_same (s : IPCState) (msg : Nat) : s.setLock msg (s.msgs msg).ipcLock = s := by
  simp only [setLock, setMsg, Function.update_eq_self]

/-- A byte of the data of a message. A null pointer has none. -/
def dataByte (s : IPCState) (msg i : Nat) : Option UInt8 :=
  if (s.msgs msg).ipcData = 0 ∨ (s.msgs msg).ipcSize ≤ i then none
  else some (s.mem ((s.msgs msg).ipcData + i))

end IPCState

/-- What `ipc_construct_packet` writes into a message. -/
def constructed (m : IPCMsg) : IPCMsg :=
  { m with
    ipcHeaderMagic := kIPCHeaderMagic
    ipcEndianess := kEndianBig
    ipcPacketSize := sizeofIPCMsg
    ipcTo := ⟨0, 0⟩
    ipcFrom := ⟨0, 0⟩
    ipcLock := kIPCLockFree }

/-- `ipc_construct_packet`. The pointer that is passed may be null; so may the one it points to, and then
`fresh` is what `new` returns. The pointer it points to afterwards is returned, too. The endianness of a
message is compared with itself. -/
def ipcConstructPacket (s : IPCState) (pcktIn : Option Nat) (fresh : Nat) : Bool × Nat × IPCState :=
  match pcktIn with
  | none => (false, 0, s)
  | some 0 =>
    if fresh = 0 then (false, 0, s)
    else (true, fresh, s.setMsg fresh fun _ => constructed blankMsg)
  | some pckt => (true, pckt, s.setMsg pckt constructed)

/-! ## `IPC_MSG::Pass` -/

def kLimitTimeout : Nat := 1000000

/-- The loop that waits for the lock, which nobody changes: `true` when it is free, `false` when the time
is over. Nothing moves `timeout`. -/
def waitLock (ipcLock : UInt32) (timeout : Nat) : Nat → Option Bool
  | 0 => none
  | polls + 1 =>
    if ipcLock % kIPCLockUsed ≠ 0 then
      if timeout > kLimitTimeout then some false else waitLock ipcLock timeout polls
    else some true

/-- The state after the copy, between the two changes of the lock. -/
def copyData (src target : Nat) (s : IPCState) : IPCState :=
  { s with
    mem := (rtCopyMemorySafe s.mem (s.msgs src).ipcData (s.msgs target).ipcData
      (s.msgs src).ipcSize (s.msgs target).ipcSize).2 }

/-- What `Pass` does once the lock is free. -/
def deliver (src target : Nat) (s : IPCState) : IPCState :=
  let s := s.setLock target ((s.msgs target).ipcLock + 1)
  let s := copyData src target s
  s.setLock target ((s.msgs target).ipcLock - 1)

/-- `IPC_MSG::Pass`, for so many polls of the lock; `none` if they do not end it. -/
def pass (polls src target : Nat) (s : IPCState) : Option (Bool × IPCState) :=
  if src ≠ 0 ∧ target ≠ 0 ∧ target ≠ src then
    if (s.msgs target).ipcSize > (s.msgs src).ipcSize then some (false, s)
    else
      match waitLock (s.msgs target).ipcLock 0 polls with
      | none => none
      | some false => some (false, s)
      | some true => some (true, deliver src target s)
  else some (false, s)

/-- `Pass` comes to the lock. -/
def Accepted (src target : Nat) (s : IPCState) : Prop :=
  (src ≠ 0 ∧ target ≠ 0 ∧ target ≠ src) ∧ (s.msgs target).ipcSize ≤ (s.msgs src).ipcSize

/-- The lock lets `Pass` through. -/
def LockOpen (s : IPCState) (target : Nat) : Prop := (s.msgs target).ipcLock % kIPCLockUsed = 0

variable {s s' : IPCState} {src target polls : Nat} {lock : UInt32} {r : Bool}

instance : Decidable (LockOpen s target) := inferInstanceAs (Decidable (_ = _))

instance : Decidable (Accepted src target s) := inferInstanceAs (Decidable (_ ∧ _))

theorem pass_refused (h : ¬ Accepted src target s) : pass polls src target s = some (false, s) := by
  unfold pass
  split
  · next hptr =>
      rw [if_pos]
      by_contra hle
      exact h ⟨hptr, Nat.not_lt.mp hle⟩
  · rfl

theorem waitLock_open (h : lock % kIPCLockUsed = 0) : waitLock lock 0 (polls + 1) = some true := by
  rw [waitLock, if_neg (not_not.mpr h)]

/-- **A lock that is taken** is waited for as long as one likes. -/
theorem waitLock_taken (h : lock % kIPCLockUsed ≠ 0) : waitLock lock 0 polls = none := by
  induction polls with
  | zero => rfl
  | succ polls ih => rw [waitLock, if_pos h, if_neg (by decide), ih]

theorem pass_open (h : Accepted src target s) (hopen : LockOpen s target) :
    pass (polls + 1) src target s = some (true, deliver src target s) := by
  rw [pass, if_pos h.1, if_neg (Nat.not_lt.mpr h.2), waitLock_open hopen]

theorem pass_taken (h : Accepted src target s) (htaken : ¬ LockOpen s target) :
    pass polls src target s = none := by
  rw [pass, if_pos h.1, if_neg (Nat.not_lt.mpr h.2), waitLock_taken htaken]

/-- What `Pass` returns. -/
theorem pass_cases (h : pass polls src target s = some (r, s')) :
    (r = false ∧ s' = s) ∨
      (r = true ∧ s' = deliver src target s ∧ Accepted src target s ∧ LockOpen s target) := by
  by_cases hacc : Accepted src target s
  · by_cases hopen : LockOpen s target
    · cases polls with
      | zero =>
          rw [pass, if_pos hacc.1, if_neg (Nat.not_lt.mpr hacc.2)] at h
          cases h
      | succ polls =>
          rw [pass_open hacc hopen] at h
          cases h
          exact .inr ⟨rfl, rfl, hacc, hopen⟩
    · rw [pass_taken hacc hopen] at h
      cases h
  · rw [pass_refused hacc] at h
    cases h
    exact .inl ⟨rfl, rfl⟩

/-! ## Delivery -/

/-- The lock is a word apart from the data: what is left of a delivery is the copy. -/
theorem deliver_eq (hne : target ≠ src) : deliver src target s = copyData src target s := by
  have hcopy : ∀ lock, copyData src target (s.setLock target lock) =
      (copyData src target s).setLock target lock := by
    intro lock
    simp only [copyData, IPCState.setLock_other s lock hne.symm, IPCState.setLock_self]
    rfl
  simp only [deliver, hcopy, IPCState.setLock_self, IPCState.setLock_setLock, UInt32.add_sub_cancel]
  exact IPCState.setLock_same _ target

/-- What a call of `Pass` that returns `Yes` is for: the target has the data of the source, no other byte
has changed, and the lock is as before. -/
structure Delivers (src target : Nat) (s s' : IPCState) : Prop where
  data : ∀ i < (s.msgs src).ipcSize, ∃ b, s.dataByte src i = some b ∧ s'.dataByte target i = some b
  inside : OnlyAt s.mem s'.mem (s.msgs target).ipcData (s.msgs target).ipcSize
  lock : (s'.msgs target).ipcLock = (s.msgs target).ipcLock

/-- `Pass` does what its result says. -/
def PassRight (src target : Nat) (s : IPCState) : Prop :=
  ∀ polls r s', pass polls src target s = some (r, s') →
    (r = true → Delivers src target s s') ∧
      (r = false → s'.msgs target = s.msgs target ∧ s'.mem = s.mem)

/-- The bytes of the source come out right when they are copied one by one: the target does not begin
inside the source, or the source repeats itself from there on. -/
def CopiesRight (s : IPCState) (src target : Nat) : Prop :=
  (s.msgs src).ipcData < (s.msgs target).ipcData → ∀ i < (s.msgs src).ipcSize,
    s.mem ((s.msgs src).ipcData + i % ((s.msgs target).ipcData - (s.msgs src).ipcData)) =
      s.mem ((s.msgs src).ipcData + i)

/-- The messages have one size, and data that can be copied unless that size is zero. -/
def Fits (src target : Nat) (s : IPCState) : Prop :=
  (s.msgs target).ipcSize = (s.msgs src).ipcSize ∧
    ((s.msgs src).ipcSize = 0 ∨
      (s.msgs src).ipcData ≠ 0 ∧ (s.msgs target).ipcData ≠ 0 ∧ CopiesRight s src target)

/-- The data of a message of `n` bytes at `p`, byte by byte. -/
theorem dataByte_some {msg i p n : Nat} {b : UInt8} (hp : (s.msgs msg).ipcData = p)
    (hn : (s.msgs msg).ipcSize = n) :
    s.dataByte msg i = some b ↔ p ≠ 0 ∧ i < n ∧ s.mem (p + i) = b := by
  unfold IPCState.dataByte
  rw [hp, hn]
  split
  · next hnone =>
      refine iff_of_false (fun h => by cases h) fun h => ?_
      omega
  · next hsome =>
      rw [not_or] at hsome
      rw [Option.some_inj]
      exact ⟨fun h => ⟨hsome.1, by omega, h⟩, fun h => h.2.2⟩

/-- What the copy leaves in the target when there is something to copy and room for it. -/
theorem copyData_mem (hsrc : (s.msgs src).ipcData ≠ 0) (htarget : (s.msgs target).ipcData ≠ 0)
    (hsize : (s.msgs src).ipcSize ≤ (s.msgs target).ipcSize) :
    (∀ i < (s.msgs src).ipcSize, (copyData src target s).mem ((s.msgs target).ipcData + i) =
      s.mem ((s.msgs src).ipcData + i)) ↔ CopiesRight s src target := by
  have hcopy : (copyData src target s).mem = copyUp 1 (s.msgs target).ipcData (s.msgs src).ipcData
      (s.msgs src).ipcSize s.mem := rtCopyMemorySafe_fits hsrc htarget hsize
  rw [hcopy, CopiesRight]
  by_cases hahead : (s.msgs src).ipcData < (s.msgs target).ipcData
  · rw [copyUp_ahead hahead]
    refine ⟨fun h _ i hi => ?_, fun h i hi => ?_⟩
    · rw [← h i hi, blit_apply_add hi]
    · rw [← h hahead i hi, blit_apply_add hi]
  · refine iff_of_true (fun i hi => ?_) fun h => absurd h hahead
    rw [copyUp_eq (.inl (Nat.not_lt.mp hahead)), Nat.one_mul, blit_apply_add hi,
      slice_apply]

/-- **What is delivered**: the data of a message that fits the target. -/
theorem delivers_iff (hacc : Accepted src target s) :
    Delivers src target s (deliver src target s) ↔ Fits src target s := by
  rw [deliver_eq hacc.1.2.2]
  constructor
  · intro h
    by_cases hzero : (s.msgs src).ipcSize = 0
    · have hle := hacc.2
      exact ⟨by omega, .inl hzero⟩
    · obtain ⟨b, hb, hb'⟩ := h.data ((s.msgs src).ipcSize - 1) (by omega)
      obtain ⟨hsrc, -, -⟩ := (dataByte_some rfl rfl).mp hb
      obtain ⟨htarget, hlast, -⟩ := (dataByte_some (s := copyData src target s) rfl rfl).mp hb'
      have hsize : (s.msgs target).ipcSize = (s.msgs src).ipcSize := by
        have hle := hacc.2
        have hroom : (s.msgs src).ipcSize - 1 < (s.msgs target).ipcSize := hlast
        omega
      refine ⟨hsize, .inr ⟨hsrc, htarget, ?_⟩⟩
      rw [← copyData_mem hsrc htarget (by omega)]
      intro i hi
      obtain ⟨c, hc, hc'⟩ := h.data i hi
      have hto := ((dataByte_some (s := copyData src target s) rfl rfl).mp hc').2.2
      exact hto.trans ((dataByte_some rfl rfl).mp hc).2.2.symm
  · rintro ⟨hsize, hdata⟩
    refine ⟨fun i hi => ?_, rtCopyMemorySafe_onlyAt, rfl⟩
    obtain ⟨hsrc, htarget, hright⟩ := hdata.resolve_left (by omega)
    have hcopy := (copyData_mem hsrc htarget (by omega)).mpr hright i hi
    refine ⟨_, (dataByte_some rfl rfl).mpr ⟨hsrc, hi, rfl⟩, ?_⟩
    exact (dataByte_some (s := copyData src target s) rfl rfl).mpr
      ⟨htarget, by rw [← hsize] at hi; exact hi, hcopy⟩

/-- **`Pass` does what its result says** exactly when it does not come to the copy, or the messages fit
each other. -/
theorem pass_right_iff (src target : Nat) (s : IPCState) :
    PassRight src target s ↔
      (Accepted src target s → LockOpen s target → Fits src target s) := by
  constructor
  · intro h hacc hopen
    exact (delivers_iff hacc).mp ((h 1 _ _ (pass_open hacc hopen)).1 rfl)
  · intro h polls r s' hpass
    rcases pass_cases hpass with ⟨rfl, rfl⟩ | ⟨rfl, rfl, hacc, hopen⟩
    · exact ⟨fun hr => Bool.noConfusion hr, fun _ => ⟨rfl, rfl⟩⟩
    · exact ⟨fun _ => (delivers_iff hacc).mpr (h hacc hopen), fun hr => Bool.noConfusion hr⟩

/-- A source of two bytes at `0x100`, and a target for one at `0x200`; both are unlocked. -/
def twoMessages : IPCState where
  msgs := fun msg =>
    if msg = 0x10 then { blankMsg with ipcSize := 2, ipcData := 0x100 }
    else { blankMsg with ipcSize := 1, ipcData := 0x200 }
  mem := fun _ => 7

/-- The target is cleared, and the result is `Yes`. -/
theorem pass_clears_target :
    pass 1 0x10 0x20 twoMessages = some (true, deliver 0x10 0x20 twoMessages) ∧
      (deliver 0x10 0x20 twoMessages).mem 0x200 = 0 ∧ ¬ PassRight 0x10 0x20 twoMessages := by
  have hacc : Accepted 0x10 0x20 twoMessages := ⟨by decide, by decide⟩
  have hpass : pass 1 0x10 0x20 twoMessages = some (true, deliver 0x10 0x20 twoMessages) :=
    pass_open hacc (by decide)
  refine ⟨hpass, by decide, fun h => ?_⟩
  have hfits := (delivers_iff hacc).mp ((h 1 _ _ hpass).1 rfl)
  exact absurd hfits.1 (by decide)

/-! ## Waiting -/

/-- `Pass` comes back within the polls the limit allows, and gets through to a target whose lock is as
`ipc_construct_packet` leaves it. -/
structure WaitsRight (src target : Nat) (s : IPCState) : Prop where
  ends : ∃ polls ≤ kLimitTimeout + 2, pass polls src target s ≠ none
  acquires : Accepted src target s → (s.msgs target).ipcLock = kIPCLockFree →
    ∃ polls, pass polls src target s = some (true, deliver src target s)

/-- A call whose lock is even, or that is refused, is the only one that comes back. -/
theorem waits_iff : WaitsRight src target s ↔ (Accepted src target s → LockOpen s target) := by
  constructor
  · intro h hacc
    by_contra htaken
    obtain ⟨polls, -, hends⟩ := h.ends
    exact hends (pass_taken hacc htaken)
  · intro h
    refine ⟨⟨1, by decide, ?_⟩, fun hacc hfree => ?_⟩
    · by_cases hacc : Accepted src target s
      · rw [pass_open hacc (h hacc)]
        exact Option.some_ne_none _
      · rw [pass_refused hacc]
        exact Option.some_ne_none _
    · exact ⟨1, pass_open hacc (h hacc)⟩

/-- A message that is new has the lock `kIPCLockFree`. -/
theorem construct_lock {pcktIn : Option Nat} {fresh pckt : Nat}
    (h : ipcConstructPacket s pcktIn fresh = (true, pckt, s')) :
    (s'.msgs pckt).ipcLock = kIPCLockFree := by
  unfold ipcConstructPacket at h
  split at h
  · cases h
  · split at h
    · cases h
    · cases h
      rw [IPCState.setMsg_self]
      rfl
  · cases h
    rw [IPCState.setMsg_self]
    rfl

/-- **Waiting ends** exactly when the call is refused or the lock is even; and the lock of a new message
is not, so that `Pass` to one never returns unless it refuses it. -/
theorem waits_right_iff (src target : Nat) (s : IPCState) :
    (WaitsRight src target s ↔ (Accepted src target s → LockOpen s target)) ∧
      ∀ s₀ pcktIn fresh, ipcConstructPacket s₀ pcktIn fresh = (true, target, s) →
        Accepted src target s → ∀ polls, pass polls src target s = none := by
  refine ⟨waits_iff, fun s₀ pcktIn fresh h hacc polls => pass_taken hacc fun hopen => ?_⟩
  rw [LockOpen, construct_lock h] at hopen
  exact absurd hopen (by decide)

/-- A new message at `0x20`, and a source at `0x10`. -/
def newMessage : IPCState := (ipcConstructPacket twoMessages (some 0) 0x20).2.2

theorem pass_hangs : (∀ polls, pass polls 0x10 0x20 newMessage = none) ∧
    ¬ WaitsRight 0x10 0x20 newMessage := by
  have hacc : Accepted 0x10 0x20 newMessage := ⟨by decide, by decide⟩
  have htaken : ¬ LockOpen newMessage 0x20 := by decide
  exact ⟨fun polls => pass_taken hacc htaken, fun h => htaken (waits_iff.mp h hacc)⟩

end NeKernel.NetworkKit
