import NeKernel.Scheduler.HeapAccount

/-!
# Thread local storage

`tls_new_ptr` and `tls_delete_ptr` allocate and free on the heap of the current process. Both take
the process by value: what `New` and `Delete` change in it, the root of the tree, the memory in use
and the status, is gone with the copy. Only the nodes in memory stay changed. So the memory in use
never grows, and no block that `tls_new_ptr` hands out is recorded: a sequence of calls meets its
contract exactly when none is handed out (`contract_iff`).
-/

namespace NeKernel.Scheduler

/-- `tls_new_ptr<T>`, where the allocations answer `ptr` and `node`: the pointer it returns, the
nodes, and the current process behind the call. An error of `New` is never `0`. -/
def tlsNewPtr (theCurrentProcess : ProcessHeap) (nodes : HeapNodes) (sizeofT ptr node : Nat) :
    Option (Nat × HeapNodes × ProcessHeap) :=
  -- `auto` makes a copy, and the process itself is not written to
  let refProcess := theCurrentProcess
  (refProcess.new nodes sizeofT 0 ptr node).map fun r =>
    match r.1 with
    | .error _ => (0, r.2.1, theCurrentProcess)
    | .ok pointer => (pointer, r.2.1, theCurrentProcess)

/-- `tls_delete_ptr`, where `mm_free_ptr` answers `ret`. -/
def tlsDeletePtr (theCurrentProcess : ProcessHeap) (nodes : HeapNodes) (obj : Nat)
    (ret : Option Int) : Option (Bool × ProcessHeap) :=
  if obj = 0 then some (false, theCurrentProcess)
  else
    let refProcess := theCurrentProcess
    (refProcess.delete nodes obj ret).map fun r => (r.1, theCurrentProcess)

/-! ## The contract of a sequence of calls -/

/-- The current process, the nodes in memory, the pointers `tls_new_ptr` has handed out, and those
of them that no `tls_delete_ptr` has released. -/
structure TlsRun where
  theCurrentProcess : ProcessHeap
  nodes : HeapNodes
  handed : List Nat
  live : List Nat

inductive TlsCall where
  | newPtr (sizeofT ptr node : Nat)
  | deletePtr (obj : Nat) (ret : Option Int)

/-- The state behind a `tls_new_ptr` that returned `r`. -/
def TlsRun.afterNew (s : TlsRun) (r : Nat × HeapNodes × ProcessHeap) : TlsRun where
  theCurrentProcess := r.2.2
  nodes := r.2.1
  handed := if r.1 = 0 then s.handed else r.1 :: s.handed
  live := if r.1 = 0 then s.live else r.1 :: s.live

/-- The state behind a `tls_delete_ptr` that returned `r`. -/
def TlsRun.afterDelete (s : TlsRun) (obj : Nat) (r : Bool × ProcessHeap) : TlsRun :=
  { s with
    theCurrentProcess := r.2
    live := if r.1 then s.live.filter (· ≠ obj) else s.live }

/-- The tree of the current process reaches the pointer. -/
def TlsRun.InTree (s : TlsRun) (ptr : Nat) : Prop :=
  ∃ n, Reaches s.nodes s.theCurrentProcess.heapTree n ∧ (s.nodes n).entry = ptr

/-- A block of `sz` bytes at `ptr` is recorded between the two states. -/
structure Recorded (s s' : TlsRun) (sz ptr : Nat) : Prop where
  tree : s'.InTree ptr
  memory : s'.theCurrentProcess.usedMemory = s.theCurrentProcess.usedMemory + sz

/-- The release of a pointer succeeded, removed its record, and left the process running. -/
structure Released (s' : TlsRun) (answer : Bool) (ptr : Nat) : Prop where
  success : answer = true
  tree : ¬ s'.InTree ptr
  running : s'.theCurrentProcess.status = .kRunning

/-- Every pointer handed out is recorded, and its release succeeds once, removes the record and
leaves the process running. Calls that never come back are not judged. -/
def Contract : TlsRun → List TlsCall → Prop
  | _, [] => True
  | s, .newPtr sz ptr node :: cs =>
      ∀ r, tlsNewPtr s.theCurrentProcess s.nodes sz ptr node = some r →
        (r.1 ≠ 0 → Recorded s (s.afterNew r) sz r.1) ∧ Contract (s.afterNew r) cs
  | s, .deletePtr obj ret :: cs =>
      ∀ r, tlsDeletePtr s.theCurrentProcess s.nodes obj ret = some r →
        (obj ∈ s.handed → (obj ∈ s.live → Released (s.afterDelete obj r) r.1 obj) ∧
          (obj ∉ s.live → r.1 = false)) ∧ Contract (s.afterDelete obj r) cs

/-- `New` finds no memory for a block: the process is over its limit, an allocation fails, or the
search for the place of the node never ends. -/
def NoMemory (s : TlsRun) (sz ptr node : Nat) : Prop :=
  s.theCurrentProcess.usedMemory > kCPSMaxMemoryLimit ∨ ptr = 0 ∨ node = 0 ∨
    s.theCurrentProcess.heapTree ≠ 0 ∧ newSearch s.nodes sz treeFuel
      s.theCurrentProcess.heapTree s.theCurrentProcess.heapTree false = none

/-- No `tls_new_ptr` of the sequence finds memory. -/
def Starved : TlsRun → List TlsCall → Prop
  | _, [] => True
  | s, .newPtr sz ptr node :: cs => NoMemory s sz ptr node ∧
      ∀ r, tlsNewPtr s.theCurrentProcess s.nodes sz ptr node = some r → Starved (s.afterNew r) cs
  | s, .deletePtr obj ret :: cs =>
      ∀ r, tlsDeletePtr s.theCurrentProcess s.nodes obj ret = some r →
        Starved (s.afterDelete obj r) cs

/-- A type takes at least one byte. -/
def TlsCall.Sized : TlsCall → Prop
  | .newPtr sz _ _ => 0 < sz
  | .deletePtr _ _ => True

section

variable {p : ProcessHeap} {nodes : HeapNodes} {s : TlsRun} {cs : List TlsCall}
  {sz ptr node obj : Nat} {ret : Option Int}

/-- **The current process is as before.** -/
theorem tlsNewPtr_current {r : Nat × HeapNodes × ProcessHeap}
    (h : tlsNewPtr p nodes sz ptr node = some r) : r.2.2 = p := by
  obtain ⟨⟨e, nodes', q⟩, -, rfl⟩ := Option.map_eq_some_iff.mp h
  cases e <;> rfl

/-- A `tls_new_ptr` hands out a pointer exactly when it finds memory. -/
theorem tlsNewPtr_eq_zero_iff {r : Nat × HeapNodes × ProcessHeap}
    (h : tlsNewPtr s.theCurrentProcess s.nodes sz ptr node = some r) :
    r.1 = 0 ↔ NoMemory s sz ptr node := by
  obtain ⟨q, hq, rfl⟩ := Option.map_eq_some_iff.mp h
  unfold ProcessHeap.new at hq
  by_cases hlimit : s.theCurrentProcess.usedMemory > kCPSMaxMemoryLimit
  · rw [if_pos hlimit] at hq
    cases hq
    simp [NoMemory, hlimit]
  · rw [if_neg hlimit] at hq
    by_cases h0 : s.theCurrentProcess.heapTree = 0
    · rw [if_pos h0] at hq
      split at hq
      · next hnode =>
          cases hq
          simp [NoMemory, hnode]
      · next hnode =>
          cases hq
          simp [NoMemory, hlimit, hnode, h0]
    · rw [if_neg h0] at hq
      split at hq
      · cases hq
      · next entry prevEntry isParent hsearch =>
          split at hq
          · next hnode =>
              cases hq
              simp [NoMemory, hnode]
          · next hnode =>
              cases hq
              simp [NoMemory, hlimit, hnode, hsearch]

/-- A `tls_new_ptr` that never comes back finds no memory. -/
theorem noMemory_of_none (h : tlsNewPtr s.theCurrentProcess s.nodes sz ptr node = none) :
    NoMemory s sz ptr node := by
  rw [tlsNewPtr, Option.map_eq_none_iff] at h
  unfold ProcessHeap.new at h
  split at h
  · cases h
  · split at h
    · split at h <;> cases h
    · next h0 =>
        split at h
        · next hsearch => exact .inr (.inr (.inr ⟨h0, hsearch⟩))
        · split at h <;> cases h

/-- **No block is ever recorded**: the memory in use is what it was. -/
theorem not_recorded {r : Nat × HeapNodes × ProcessHeap}
    (h : tlsNewPtr s.theCurrentProcess s.nodes sz ptr node = some r) (hsz : 0 < sz) :
    ¬ Recorded s (s.afterNew r) sz r.1 := by
  intro hrec
  have hmemory : r.2.2.usedMemory = s.theCurrentProcess.usedMemory + sz := hrec.memory
  rw [tlsNewPtr_current h] at hmemory
  omega

/-- **A sequence of calls meets its contract** exactly when it hands out no memory at all. -/
theorem contract_iff (hs : s.handed = []) (hsz : ∀ c ∈ cs, c.Sized) :
    Contract s cs ↔ Starved s cs := by
  induction cs generalizing s with
  | nil => exact Iff.rfl
  | cons c cs ih =>
      have hrest : ∀ c ∈ cs, c.Sized := fun c hc => hsz c (List.mem_cons_of_mem _ hc)
      cases c with
      | newPtr sz ptr node =>
          have hpos : 0 < sz := hsz (.newPtr sz ptr node) List.mem_cons_self
          have hnext : ∀ r : Nat × HeapNodes × ProcessHeap, r.1 = 0 →
              (s.afterNew r).handed = [] := by
            intro r h0
            rw [TlsRun.afterNew, if_pos h0]
            exact hs
          constructor
          · intro hc
            -- an allocation that returned memory has not recorded it, which breaks the contract
            have hzero : ∀ r, tlsNewPtr s.theCurrentProcess s.nodes sz ptr node = some r →
                r.1 = 0 := by
              intro r hr
              by_contra hne
              exact not_recorded hr hpos ((hc r hr).1 hne)
            refine ⟨?_, fun r hr => (ih (hnext r (hzero r hr)) hrest).mp (hc r hr).2⟩
            cases hr : tlsNewPtr s.theCurrentProcess s.nodes sz ptr node with
            | none => exact noMemory_of_none hr
            | some r => exact (tlsNewPtr_eq_zero_iff hr).mp (hzero r hr)
          · rintro ⟨hno, hst⟩ r hr
            have h0 : r.1 = 0 := (tlsNewPtr_eq_zero_iff hr).mpr hno
            exact ⟨fun hne => absurd h0 hne, (ih (hnext r h0) hrest).mpr (hst r hr)⟩
      | deletePtr obj ret =>
          have hnot : obj ∉ s.handed := by
            rw [hs]
            exact List.not_mem_nil
          constructor
          · exact fun hc r hr => (ih (s := s.afterDelete obj r) hs hrest).mp (hc r hr).2
          · exact fun hst r hr =>
              ⟨fun hm => absurd hm hnot, (ih (s := s.afterDelete obj r) hs hrest).mpr (hst r hr)⟩

/-- A running process without blocks, and no pointer handed out. -/
def emptyTls : TlsRun := ⟨emptyRun.process, emptyRun.nodes, [], []⟩

theorem contract_iff_none :
    Contract emptyTls [.newPtr 16 0 0] ↔ Starved emptyTls [.newPtr 16 0 0] :=
  contract_iff rfl (by simp [TlsCall.Sized])

/-- The first `tls_new_ptr` of a process hands out a pointer without a record. -/
theorem first_not_recorded : ¬ Contract emptyTls [.newPtr 16 0x100 0x200] := by
  intro hc
  have hr : tlsNewPtr emptyTls.theCurrentProcess emptyTls.nodes 16 0x100 0x200 = some (0x100,
      Function.update emptyTls.nodes 0x200 (newEntry 0x100 16 0 0), emptyTls.theCurrentProcess) :=
    rfl
  exact not_recorded hr (by decide) ((hc _ hr).1 (by decide))

end

end NeKernel.Scheduler
