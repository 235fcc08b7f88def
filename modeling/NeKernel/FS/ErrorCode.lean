import NeKernel.FS.FileContents

/-!
# The error code and the lookups

`hefsi_fetch_in` looks at `err_global_get()` at the head of its loop, to see whether the drive has left an
error there. Not every driver sets it: that of AHCI does so with every transfer, those of ATA never do. Here
the drive says for each transfer which bytes it has moved and what it has left in the error code, and the
lookups are run on it.
-/

namespace NeKernel.FS

open ByteStore Detail HeFileSystemParser HefsIndexNodeDirectory Scan

/-! ## A drive with outcomes -/

/-- What the drive does with a packet: the bytes it moves, and the error code, if it sets it. -/
structure Outcome where
  moved : Nat → Bool
  err : Option Int

/-- The disk, `err_global_get()`, and how many packets the drive has been given in this call. -/
structure DriveState where
  bytes : Store
  err : Int
  made : Nat

def DriveState.setErr (s : DriveState) (e : Int) : DriveState := { s with err := e }

/-- The drive's outcomes in this call, and what is in the memory the heap hands out. -/
structure Session where
  outcome : Nat → Outcome
  bootMem : Store
  dirMem : Store

/-- The buffers of `hefsi_fetch_in` at the head of its loop. -/
structure Fetch where
  start : Nat
  dir : Store
  node : Store
  drive : DriveState

/-- How a turn of that loop ends. -/
inductive FetchTurn where
  | found (node : Store) (s : DriveState)
  | missed (s : DriveState)
  | next (st : Fetch)

namespace Session

variable (env : Session)

def fInput (s : DriveState) (lba sz : Nat) (buf : Store) : Store × DriveState :=
  let out := env.outcome s.made
  (fun i => if i < sz ∧ out.moved i = true then s.bytes (lba + i) else buf i,
    { s with err := out.err.getD s.err, made := s.made + 1 })

def fOutput (s : DriveState) (lba sz : Nat) (src : Store) : DriveState :=
  let out := env.outcome s.made
  { bytes := fun x =>
      if lba ≤ x ∧ x < lba + sz ∧ out.moved (x - lba) = true then src (x - lba) else s.bytes x
    err := out.err.getD s.err
    made := s.made + 1 }

/-- The loop over the last `n` slices of `dir`: whether an index node has been found, and it. -/
def fetchSlices (dir : Store) (fileName : List UInt8) (kind : UInt8) :
    Nat → Store → DriveState → Bool × Store × DriveState
  | 0, node, s => (false, node, s)
  | n + 1, node, s =>
      let r := env.fInput s ((fINSlices (kOpenHeFSSliceCount - (n + 1))).get dir)
        HefsIndexNode.size node
      if hashPath fileName = HefsIndexNode.fHashPath.get r.1 ∧
          HefsIndexNode.fKind.get r.1 = kind.toNat then (true, r.1, r.2)
      else fetchSlices dir fileName kind n r.1 r.2

/-- The slices are looked at when the directory is the one that is looked for. -/
def fetchNode (dir : Store) (f : File) (node : Store) (s : DriveState) :
    Bool × Store × DriveState :=
  if hashPath f.dir = fHashPath.get dir then
    env.fetchSlices dir f.name f.kind kOpenHeFSSliceCount node s
  else (false, node, s)

/-- A turn of the loop of `hefsi_fetch_in`. -/
def fetchTurn (boot : Store) (f : File) (st : Fetch) : FetchTurn :=
  if st.drive.err = kErrorDiskIsCorrupted then .missed st.drive
  else
    let r := env.fInput st.drive st.start HefsIndexNodeDirectory.size st.dir
    if fHashPath.get r.1 = 0 then .missed (r.2.setErr kErrorFileNotFound)
    else
      let q := env.fetchNode r.1 f st.node r.2
      if q.1 = true then .found q.2.1 q.2.2
      else
        let start := nextStart st.start
        if HefsBootNode.fEndIND.get boot ≤ start then .missed (q.2.2.setErr kErrorFileNotFound)
        else .next ⟨start, r.1, q.2.1, q.2.2⟩

/-- The loop, for at most `fuel` turns. -/
def fetchLoop (boot : Store) (f : File) : Nat → Fetch → Option (Option Store × DriveState)
  | 0, _ => none
  | fuel + 1, st =>
      match env.fetchTurn boot f st with
      | .found node s => some (some node, s)
      | .missed s => some (none, s)
      | .next st => fetchLoop boot f fuel st

/-- The buffers before the first turn: the index node is all zeros, the record is not. -/
def fetchStart (boot : Store) (s : DriveState) : Fetch :=
  ⟨HefsBootNode.fStartIND.get boot, env.dirMem, zeros, s⟩

/-- `hefsi_fetch_in`. -/
def hefsiFetchIn (fuel : Nat) (boot : Store) (s : DriveState) (f : File) :
    Option (Option Store × DriveState) :=
  if HefsBootNode.fEndIND.get boot < HefsBootNode.fStartIND.get boot then some (none, s)
  else if HefsBootNode.fEndIN.get boot < HefsBootNode.fStartIN.get boot then some (none, s)
  else env.fetchLoop boot f fuel (env.fetchStart boot s)

/-- `INodeExists`. -/
def iNodeExists (fuel : Nat) (mnt : DriveTrait) (s : DriveState) (f : File) :
    Option (Bool × DriveState) :=
  if kOpenHeFSFileNameLen < f.dir.length then some (false, s)
  else if kOpenHeFSFileNameLen < f.name.length then some (false, s)
  else
    let boot := env.fInput s mnt.fLbaStart HefsBootNode.size env.bootMem
    if bootValid boot.1 = false then some (false, boot.2.setErr kErrorDisk)
    else
      (env.hefsiFetchIn fuel boot.1 boot.2 f).map fun r =>
        match r.1 with
        | none => (false, r.2.setErr kErrorFileNotFound)
        | some _ => (true, r.2.setErr kErrorSuccess)

/-- What `INodeManip` does with the index node. -/
def manipNode (s : DriveState) (start block : Store) (blockSz : Nat) (isInput : Bool) :
    Bool × Store × DriveState :=
  let low := HefsIndexNode.fOffsetSliceLow.get start
  if low ≠ 0 ∧ HefsIndexNode.fHashPath.get start ≠ 0 then
    let lba := HefsIndexNode.fOffsetSliceHigh.get start * 2 ^ 32 + low
    if isInput = true then (true, env.fInput s lba blockSz block)
    else if HefsIndexNode.fFlags.get start &&& kOpenHeFSFlagsReadOnly ≠ 0 then (false, block, s)
    else (true, block, env.fOutput s lba blockSz block)
  else (true, block, s)

/-- `INodeManip`. -/
def iNodeManip (fuel : Nat) (mnt : DriveTrait) (s : DriveState) (block : Store) (blockSz : Nat)
    (f : File) (isInput : Bool) : Option (Bool × Store × DriveState) :=
  if kOpenHeFSFileNameLen < f.dir.length then some (false, block, s.setErr kErrorDisk)
  else if kOpenHeFSFileNameLen < f.name.length then some (false, block, s.setErr kErrorDisk)
  else
    let boot := env.fInput s mnt.fLbaStart HefsBootNode.size env.bootMem
    if bootValid boot.1 = false then some (false, block, boot.2.setErr kErrorDisk)
    else
      (env.hefsiFetchIn fuel boot.1 boot.2 f).map fun r =>
        match r.1 with
        | none => (false, block, r.2.setErr kErrorFileNotFound)
        | some start => env.manipNode r.2 start block blockSz isInput

end Session

/-! ## The two lookups -/

/-- The two operations that look a file up. -/
inductive LookupCall where
  | inodeExists
  | inodeManip (block : Store) (blockSz : Nat) (isInput : Bool)

/-- The reply of a call, the caller's buffer, and the disk. -/
structure Answer where
  reply : Bool
  block : Store
  bytes : Store

def LookupCall.answer (env : Session) (fuel : Nat) (mnt : DriveTrait) (s : DriveState) (f : File) :
    LookupCall → Option Answer
  | .inodeExists =>
      (env.iNodeExists fuel mnt s f).map fun r => ⟨r.1, zeros, r.2.bytes⟩
  | .inodeManip block blockSz isInput =>
      (env.iNodeManip fuel mnt s block blockSz f isInput).map fun r => ⟨r.1, r.2.1, r.2.2.bytes⟩

/-- The call comes back with this answer, when the error code is `e` before it. -/
def ComesBack (env : Session) (mnt : DriveTrait) (m : Store) (f : File) (call : LookupCall) (e : Int)
    (r : Answer) : Prop :=
  ∃ fuel, call.answer env fuel mnt ⟨m, e, 0⟩ f = some r

/-- The call comes back with the same answers, or does not come back, under both error codes. -/
def SameAnswers (env : Session) (mnt : DriveTrait) (m : Store) (f : File) (call : LookupCall)
    (e e' : Int) : Prop :=
  ∀ r, ComesBack env mnt m f call e r ↔ ComesBack env mnt m f call e' r

/-- The lookup comes to an index node, or to none, from here on. -/
inductive ComesTo (env : Session) (boot : Store) (f : File) : Fetch → Option Store → Prop
  | found {st : Fetch} {node : Store} {s : DriveState} :
      env.fetchTurn boot f st = .found node s → ComesTo env boot f st (some node)
  | missed {st : Fetch} {s : DriveState} :
      env.fetchTurn boot f st = .missed s → ComesTo env boot f st none
  | next {st st' : Fetch} {r : Option Store} :
      env.fetchTurn boot f st = .next st' → ComesTo env boot f st' r → ComesTo env boot f st r

/-- The boot node as the drive has handed it out. -/
def Session.bootNode (env : Session) (mnt : DriveTrait) (m : Store) : Store :=
  (env.fInput ⟨m, kErrorSuccess, 0⟩ mnt.fLbaStart HefsBootNode.size env.bootMem).1

/-- The call is refused before the lookup. -/
def Refused (env : Session) (mnt : DriveTrait) (m : Store) (f : File) : Prop :=
  kOpenHeFSFileNameLen < f.dir.length ∨ kOpenHeFSFileNameLen < f.name.length ∨
    bootValid (env.bootNode mnt m) = false ∨
    HefsBootNode.fEndIND.get (env.bootNode mnt m) < HefsBootNode.fStartIND.get (env.bootNode mnt m) ∨
    HefsBootNode.fEndIN.get (env.bootNode mnt m) < HefsBootNode.fStartIN.get (env.bootNode mnt m)

/-- A write to a read-only file. -/
def LookupCall.Forbidden (start : Store) : LookupCall → Prop
  | .inodeExists => False
  | .inodeManip _ _ isInput =>
      isInput = false ∧ HefsIndexNode.fOffsetSliceLow.get start ≠ 0 ∧
        HefsIndexNode.fHashPath.get start ≠ 0 ∧
        HefsIndexNode.fFlags.get start &&& kOpenHeFSFlagsReadOnly ≠ 0

/-- Without an error the lookup comes to no index node, or to one the call may not use. -/
def Fruitless (env : Session) (mnt : DriveTrait) (m : Store) (f : File) (call : LookupCall) : Prop :=
  ∃ r, ComesTo env (env.bootNode mnt m) f
      (env.fetchStart (env.bootNode mnt m) ⟨m, kErrorSuccess, 1⟩) r ∧
    ∀ start, r = some start → call.Forbidden start

/-! ## Runs that differ in the error code -/

/-- The two are the same for `hefsi_fetch_in`. -/
structure Alike (s s' : DriveState) : Prop where
  bytes : s'.bytes = s.bytes
  made : s'.made = s.made
  err : s'.err = kErrorDiskIsCorrupted ↔ s.err = kErrorDiskIsCorrupted

theorem Alike.setErr {s s' : DriveState} (h : Alike s s') (e : Int) : Alike (s.setErr e) (s'.setErr e) :=
  ⟨h.bytes, h.made, Iff.rfl⟩

/-- Buffers and drive after the head of the loop. -/
inductive FetchTurn.Alike : FetchTurn → FetchTurn → Prop
  | found {node : Store} {s s' : DriveState} : FS.Alike s s' → Alike (.found node s) (.found node s')
  | missed {s s' : DriveState} : FS.Alike s s' → Alike (.missed s) (.missed s')
  | next {start : Nat} {dir node : Store} {s s' : DriveState} :
      FS.Alike s s' → Alike (.next ⟨start, dir, node, s⟩) (.next ⟨start, dir, node, s'⟩)

section
variable {env : Session} {boot dir node block buf m : Store} {f : File} {st : Fetch}
  {s s' : DriveState} {lba sz fuel start : Nat} {e e' : Int} {r : Option Store} {mnt : DriveTrait}
  {call : LookupCall}

theorem fInput_alike (env : Session) (lba sz : Nat) (buf : Store) (h : Alike s s') :
    (env.fInput s' lba sz buf).1 = (env.fInput s lba sz buf).1 ∧
      Alike (env.fInput s lba sz buf).2 (env.fInput s' lba sz buf).2 := by
  refine ⟨?_, h.bytes, ?_, ?_⟩
  · simp only [Session.fInput, h.bytes, h.made]
  · simp only [Session.fInput, h.made]
  · simp only [Session.fInput, h.made]
    cases (env.outcome s.made).err with
    | none => exact h.err
    | some e => exact Iff.rfl

theorem fetchSlices_alike {fileName : List UInt8} {kind : UInt8} (n : Nat) (h : Alike s s') :
    ∃ found node' t t', env.fetchSlices dir fileName kind n node s = (found, node', t) ∧
      env.fetchSlices dir fileName kind n node s' = (found, node', t') ∧ Alike t t' := by
  induction n generalizing node s s' with
  | zero => exact ⟨_, _, _, _, rfl, rfl, h⟩
  | succ n ih =>
      obtain ⟨hbuf, hs⟩ := fInput_alike env ((fINSlices (kOpenHeFSSliceCount - (n + 1))).get dir)
        HefsIndexNode.size node h
      simp only [Session.fetchSlices, hbuf]
      split
      · exact ⟨_, _, _, _, rfl, rfl, hs⟩
      · exact ih hs

theorem fetchNode_alike (env : Session) (dir : Store) (f : File) (node : Store) (h : Alike s s') :
    ∃ found node' t t', env.fetchNode dir f node s = (found, node', t) ∧
      env.fetchNode dir f node s' = (found, node', t') ∧ Alike t t' := by
  unfold Session.fetchNode
  split
  · exact fetchSlices_alike _ h
  · exact ⟨_, _, _, _, rfl, rfl, h⟩

theorem fetchTurn_alike (h : Alike s s') :
    (env.fetchTurn boot f ⟨start, dir, node, s⟩).Alike
      (env.fetchTurn boot f ⟨start, dir, node, s'⟩) := by
  unfold Session.fetchTurn
  simp only [h.err]
  split
  · exact .missed h
  · obtain ⟨hbuf, hs⟩ := fInput_alike env start HefsIndexNodeDirectory.size dir h
    rw [hbuf]
    split
    · exact .missed (hs.setErr _)
    · obtain ⟨found, node', t, t', hnode, hnode', ht⟩ := fetchNode_alike env
        (env.fInput s start HefsIndexNodeDirectory.size dir).1 f node hs
      rw [hnode, hnode']
      split
      · exact .found ht
      · split
        · exact .missed (ht.setErr _)
        · exact .next ht

theorem fetchLoop_alike (env : Session) (boot : Store) (f : File) (fuel start : Nat)
    (dir node : Store) (h : Alike s s') :
    Option.Rel (fun p q => q.1 = p.1 ∧ Alike p.2 q.2)
      (env.fetchLoop boot f fuel ⟨start, dir, node, s⟩)
      (env.fetchLoop boot f fuel ⟨start, dir, node, s'⟩) := by
  induction fuel generalizing start dir node s s' with
  | zero => exact .none
  | succ fuel ih =>
      simp only [Session.fetchLoop]
      rcases env.fetchTurn boot f ⟨start, dir, node, s⟩, env.fetchTurn boot f ⟨start, dir, node, s'⟩,
        fetchTurn_alike h with ⟨_, _, h | h | h⟩
      · exact .some ⟨rfl, h⟩
      · exact .some ⟨rfl, h⟩
      · exact ih _ _ _ h

/-- The lookup only reads. -/
theorem fetchSlices_bytes {fileName : List UInt8} {kind : UInt8} (n : Nat) :
    (env.fetchSlices dir fileName kind n node s).2.2.bytes = s.bytes := by
  induction n generalizing node s with
  | zero => rfl
  | succ n ih =>
      simp only [Session.fetchSlices]
      split
      · rfl
      · exact ih

theorem fetchNode_bytes (env : Session) (dir : Store) (f : File) (node : Store) (s : DriveState) : (env.fetchNode dir f node s).2.2.bytes = s.bytes := by
  unfold Session.fetchNode
  split
  · exact fetchSlices_bytes _
  · rfl

/-- The bytes of the disk after a turn. -/
def FetchTurn.bytes : FetchTurn → Store
  | .found _ s => s.bytes
  | .missed s => s.bytes
  | .next st => st.drive.bytes

theorem fetchTurn_bytes (env : Session) (boot : Store) (f : File) (st : Fetch) :
    (env.fetchTurn boot f st).bytes = st.drive.bytes := by
  unfold Session.fetchTurn
  split
  · rfl
  · simp only
    split
    · rfl
    · have hnode := fetchNode_bytes env
        (env.fInput st.drive st.start HefsIndexNodeDirectory.size st.dir).1 f st.node
        (env.fInput st.drive st.start HefsIndexNodeDirectory.size st.dir).2
      split
      · exact hnode
      · split
        · exact hnode
        · exact hnode

theorem fetchLoop_bytes {t : DriveState} (h : env.fetchLoop boot f fuel st = some (r, t)) :
    t.bytes = st.drive.bytes := by
  induction fuel generalizing st with
  | zero => cases h
  | succ fuel ih =>
      rw [← fetchTurn_bytes env boot f st]
      simp only [Session.fetchLoop] at h
      split at h
      · next hturn =>
          cases h
          rw [hturn]
          rfl
      · next hturn =>
          cases h
          rw [hturn]
          rfl
      · next hturn =>
          rw [hturn]
          exact ih h

/-- The loop is the lookup, with a bound on its turns. -/
theorem comesTo_iff :
    ComesTo env boot f st r ↔ ∃ fuel t, env.fetchLoop boot f fuel st = some (r, t) := by
  constructor
  · intro h
    induction h with
    | @found st node s hturn => exact ⟨1, s, by simp only [Session.fetchLoop, hturn]⟩
    | @missed st s hturn => exact ⟨1, s, by simp only [Session.fetchLoop, hturn]⟩
    | next hturn _ ih =>
        obtain ⟨fuel, t, hloop⟩ := ih
        exact ⟨fuel + 1, t, by simp only [Session.fetchLoop, hturn, hloop]⟩
  · rintro ⟨fuel, t, h⟩
    induction fuel generalizing st with
    | zero => cases h
    | succ fuel ih =>
        simp only [Session.fetchLoop] at h
        split at h
        · next hturn =>
            cases h
            exact .found hturn
        · next hturn =>
            cases h
            exact .missed hturn
        · next hturn => exact .next hturn (ih h)

theorem ComesTo.unique {r' : Option Store} (h : ComesTo env boot f st r)
    (h' : ComesTo env boot f st r') : r = r' := by
  induction h with
  | found hturn =>
      cases h' with
      | found hturn' =>
          cases hturn.symm.trans hturn'
          rfl
      | missed hturn' => cases hturn.symm.trans hturn'
      | next hturn' _ => cases hturn.symm.trans hturn'
  | missed hturn =>
      cases h' with
      | found hturn' => cases hturn.symm.trans hturn'
      | missed hturn' => rfl
      | next hturn' _ => cases hturn.symm.trans hturn'
  | next hturn _ ih =>
      cases h' with
      | found hturn' => cases hturn.symm.trans hturn'
      | missed hturn' => cases hturn.symm.trans hturn'
      | next hturn' hrest =>
          cases hturn.symm.trans hturn'
          exact ih hrest

/-! ## Answers -/

/-- The answer of a call that does nothing. -/
def LookupCall.no (m : Store) : LookupCall → Answer
  | .inodeExists => ⟨false, zeros, m⟩
  | .inodeManip block _ _ => ⟨false, block, m⟩

/-- What a call makes of what the lookup comes to. -/
def LookupCall.reply (env : Session) (s : DriveState) (call : LookupCall) : Option Store → Answer
  | none => call.no s.bytes
  | some start =>
      match call with
      | .inodeExists => ⟨true, zeros, s.bytes⟩
      | .inodeManip block blockSz isInput =>
          let r := env.manipNode s start block blockSz isInput
          ⟨r.1, r.2.1, r.2.2.bytes⟩

theorem answer_refused (h : Refused env mnt m f) :
    call.answer env fuel mnt ⟨m, e, 0⟩ f = some (call.no m) := by
  have hboot : env.fInput ⟨m, e, 0⟩ mnt.fLbaStart HefsBootNode.size env.bootMem =
      (env.bootNode mnt m, ⟨m, (env.outcome 0).err.getD e, 1⟩) := rfl
  by_cases hdir : kOpenHeFSFileNameLen < f.dir.length
  · cases call <;> simp only [LookupCall.answer, Session.iNodeExists, Session.iNodeManip, hdir, if_true] <;> rfl
  by_cases hname : kOpenHeFSFileNameLen < f.name.length
  · cases call <;>
      simp only [LookupCall.answer, Session.iNodeExists, Session.iNodeManip, hdir, hname, if_true,
        if_false] <;> rfl
  by_cases hvalid : bootValid (env.bootNode mnt m) = false
  · cases call <;>
      simp only [LookupCall.answer, Session.iNodeExists, Session.iNodeManip, hdir, hname, hboot, hvalid,
        if_true, if_false] <;> rfl
  have hfetch : ∀ s, env.hefsiFetchIn fuel (env.bootNode mnt m) s f = some (none, s) := by
    intro s
    have hrange := ((h.resolve_left hdir).resolve_left hname).resolve_left hvalid
    unfold Session.hefsiFetchIn
    by_cases hind : HefsBootNode.fEndIND.get (env.bootNode mnt m) <
        HefsBootNode.fStartIND.get (env.bootNode mnt m)
    · rw [if_pos hind]
    · rw [if_neg hind, if_pos (hrange.resolve_left hind)]
  cases call <;>
    simp only [LookupCall.answer, Session.iNodeExists, Session.iNodeManip, hdir, hname, hboot, hvalid,
      hfetch, if_false, Option.map_some] <;> rfl

theorem answer_accepted (h : ¬ Refused env mnt m f) :
    call.answer env fuel mnt ⟨m, e, 0⟩ f =
      (env.fetchLoop (env.bootNode mnt m) f fuel (env.fetchStart (env.bootNode mnt m)
        ⟨m, (env.outcome 0).err.getD e, 1⟩)).map fun r => call.reply env r.2 r.1 := by
  simp only [Refused, not_or, Bool.not_eq_false] at h
  obtain ⟨hdir, hname, hvalid, hind, hin⟩ := h
  have hboot : env.fInput ⟨m, e, 0⟩ mnt.fLbaStart HefsBootNode.size env.bootMem =
      (env.bootNode mnt m, ⟨m, (env.outcome 0).err.getD e, 1⟩) := rfl
  cases call with
  | inodeExists =>
      simp only [LookupCall.answer, Session.iNodeExists, Session.hefsiFetchIn, hboot, hdir, hname,
        hvalid, hind, hin, if_false, Bool.true_eq_false, Option.map_map]
      congr 1
      funext r
      rcases r with ⟨_ | _, _⟩ <;> rfl
  | inodeManip block blockSz isInput =>
      simp only [LookupCall.answer, Session.iNodeManip, Session.hefsiFetchIn, hboot, hdir, hname,
        hvalid, hind, hin, if_false, Bool.true_eq_false, Option.map_map]
      congr 1
      funext r
      rcases r with ⟨_ | _, _⟩ <;> rfl

/-- A call makes the same of a node in states that are alike. -/
theorem LookupCall.reply_alike (h : Alike s s') : call.reply env s' r = call.reply env s r := by
  cases r with
  | none => simp only [LookupCall.reply, h.bytes]
  | some start =>
      cases call with
      | inodeExists => simp only [LookupCall.reply, h.bytes]
      | inodeManip block blockSz isInput =>
          have hin := fInput_alike env (HefsIndexNode.fOffsetSliceHigh.get start * 2 ^ 32 +
            HefsIndexNode.fOffsetSliceLow.get start) blockSz block h
          simp only [LookupCall.reply, Session.manipNode, Session.fOutput]
          split
          · split
            · simp only [hin.1, hin.2.bytes]
            · split
              · simp only [h.bytes]
              · simp only [h.bytes, h.made]
          · simp only [h.bytes]

/-- Calls that begin alike have the same answers. -/
theorem sameAnswers_of_alike
    (h : Alike ⟨m, (env.outcome 0).err.getD e, 1⟩ ⟨m, (env.outcome 0).err.getD e', 1⟩) :
    SameAnswers env mnt m f call e e' := by
  have hanswer : ∀ fuel, call.answer env fuel mnt ⟨m, e', 0⟩ f =
      call.answer env fuel mnt ⟨m, e, 0⟩ f := by
    intro fuel
    by_cases hr : Refused env mnt m f
    · rw [answer_refused hr, answer_refused hr]
    · rw [answer_accepted hr, answer_accepted hr]
      unfold Session.fetchStart
      have hloop := fetchLoop_alike env (env.bootNode mnt m) f fuel
        (HefsBootNode.fStartIND.get (env.bootNode mnt m)) env.dirMem zeros h
      generalize env.fetchLoop _ _ _ ⟨_, _, _, ⟨m, (env.outcome 0).err.getD e, 1⟩⟩ = x at hloop ⊢
      generalize env.fetchLoop _ _ _ ⟨_, _, _, ⟨m, (env.outcome 0).err.getD e', 1⟩⟩ = y at hloop ⊢
      cases hloop with
      | none => rfl
      | some hsame => rw [Option.map_some, Option.map_some, hsame.1, LookupCall.reply_alike hsame.2]
  intro r
  simp only [ComesBack, hanswer]

/-- What a call that comes to `r` answers says no if and only if it has come to nothing it may use. -/
theorem LookupCall.reply_no_iff :
    (call.reply env s r).reply = false ↔ ∀ start, r = some start → call.Forbidden start := by
  cases r with
  | none => cases call <;> simp [LookupCall.reply, LookupCall.no]
  | some start =>
      cases call with
      | inodeExists => simp [LookupCall.reply, LookupCall.Forbidden]
      | inodeManip block blockSz isInput =>
          simp only [LookupCall.reply, Session.manipNode, LookupCall.Forbidden, Option.some.injEq,
            forall_eq']
          by_cases hused : HefsIndexNode.fOffsetSliceLow.get start ≠ 0 ∧
              HefsIndexNode.fHashPath.get start ≠ 0
          · rw [if_pos hused]
            cases isInput with
            | true => simp
            | false =>
                simp only [Bool.false_eq_true, if_false]
                by_cases hro : HefsIndexNode.fFlags.get start &&& kOpenHeFSFlagsReadOnly ≠ 0
                · rw [if_pos hro]
                  exact iff_of_true rfl ⟨trivial, hused.1, hused.2, hro⟩
                · rw [if_neg hro]
                  exact iff_of_false (by simp) fun h => hro h.2.2.2
          · rw [if_neg hused]
            exact iff_of_false (by simp) fun h => hused ⟨h.2.1, h.2.2.1⟩

/-- A call that is not refused comes back with what the lookup comes to. -/
theorem comesBack_iff (h : ¬ Refused env mnt m f) {x : Answer} :
    ComesBack env mnt m f call e x ↔
      ∃ fuel r t, env.fetchLoop (env.bootNode mnt m) f fuel (env.fetchStart (env.bootNode mnt m)
        ⟨m, (env.outcome 0).err.getD e, 1⟩) = some (r, t) ∧ call.reply env t r = x := by
  unfold ComesBack
  simp only [answer_accepted h, Option.map_eq_some_iff, Prod.exists]

theorem LookupCall.reply_of_no (h : (call.reply env s r).reply = false) :
    call.reply env s r = call.no s.bytes := by
  cases r with
  | none => rfl
  | some start =>
      cases call with
      | inodeExists => cases h
      | inodeManip block blockSz isInput =>
          have hforbid := LookupCall.reply_no_iff.mp h start rfl
          obtain ⟨rfl, hlow, hhash, hro⟩ := hforbid
          simp only [LookupCall.reply, Session.manipNode, hlow, hhash, ne_eq, not_false_eq_true,
            and_self, if_true, Bool.false_eq_true, if_false, hro]
          rfl

/-- With "disk is corrupted" left in the error code a call that is not refused answers no at once. -/
theorem comesBack_corrupted (h : ¬ Refused env mnt m f) (hset : (env.outcome 0).err = none)
    {x : Answer} :
    ComesBack env mnt m f call kErrorDiskIsCorrupted x ↔ x = call.no m := by
  rw [comesBack_iff h, hset, Option.getD_none]
  have hturn : env.fetchTurn (env.bootNode mnt m) f
      (env.fetchStart (env.bootNode mnt m) ⟨m, kErrorDiskIsCorrupted, 1⟩) =
        .missed ⟨m, kErrorDiskIsCorrupted, 1⟩ := by
    unfold Session.fetchTurn
    exact if_pos rfl
  constructor
  · rintro ⟨fuel, r, t, hloop, rfl⟩
    cases fuel with
    | zero => cases hloop
    | succ fuel =>
        simp only [Session.fetchLoop, hturn] at hloop
        cases hloop
        rfl
  · rintro rfl
    exact ⟨1, none, ⟨m, kErrorDiskIsCorrupted, 1⟩, by simp only [Session.fetchLoop, hturn], rfl⟩

/-- Without an error it answers no, and nothing else, if and only if the lookup is fruitless. -/
theorem comesBack_clear (h : ¬ Refused env mnt m f) (hset : (env.outcome 0).err = none) :
    (∀ x, ComesBack env mnt m f call kErrorSuccess x ↔ x = call.no m) ↔ Fruitless env mnt m f call := by
  rw [show (∀ x, ComesBack env mnt m f call kErrorSuccess x ↔ x = call.no m) ↔ _ from
    forall_congr' fun x => by rw [comesBack_iff h, hset, Option.getD_none]]
  constructor
  · intro hno
    obtain ⟨fuel, r, t, hloop, hreply⟩ := (hno (call.no m)).mpr rfl
    have hfalse : (call.reply env t r).reply = false := by
      rw [hreply]
      cases call <;> rfl
    exact ⟨r, comesTo_iff.mpr ⟨fuel, t, hloop⟩, LookupCall.reply_no_iff.mp hfalse⟩
  · rintro ⟨r, hcomes, hforbid⟩ x
    have hreply : ∀ t : DriveState, t.bytes = m → call.reply env t r = call.no m := by
      intro t ht
      rw [LookupCall.reply_of_no (LookupCall.reply_no_iff.mpr hforbid), ht]
    constructor
    · rintro ⟨fuel, r', t, hloop, rfl⟩
      obtain rfl := hcomes.unique (comesTo_iff.mpr ⟨fuel, t, hloop⟩)
      exact hreply t (fetchLoop_bytes hloop)
    · rintro rfl
      obtain ⟨fuel, t, hloop⟩ := comesTo_iff.mp hcomes
      exact ⟨fuel, r, t, hloop, hreply t (fetchLoop_bytes hloop)⟩

theorem SameAnswers.symm (h : SameAnswers env mnt m f call e e') :
    SameAnswers env mnt m f call e' e := fun r => (h r).symm

/-- Only the one error matters. -/
theorem sameAnswers_of_iff (h : e = kErrorDiskIsCorrupted ↔ e' = kErrorDiskIsCorrupted) :
    SameAnswers env mnt m f call e e' := by
  apply sameAnswers_of_alike
  refine ⟨rfl, rfl, ?_⟩
  cases (env.outcome 0).err with
  | none => exact h.symm
  | some _ => exact Iff.rfl

theorem sameAnswers_corrupted_iff (hr : ¬ Refused env mnt m f) (hset : (env.outcome 0).err = none)
    (he : e ≠ kErrorDiskIsCorrupted) :
    SameAnswers env mnt m f call kErrorDiskIsCorrupted e ↔ Fruitless env mnt m f call := by
  have hsuccess : SameAnswers env mnt m f call e kErrorSuccess :=
    sameAnswers_of_iff (iff_of_false he (by decide))
  rw [← comesBack_clear hr hset]
  refine forall_congr' fun x => ?_
  rw [comesBack_corrupted hr hset, hsuccess x]
  exact ⟨Iff.symm, Iff.symm⟩

/-- **The error code before a call** makes no difference if and only if both or none of the two is "disk is
corrupted", or the read of the boot node sets it, or the call is refused before the lookup, or the lookup
is fruitless anyway. -/
theorem sameAnswers_iff (env : Session) (mnt : DriveTrait) (m : Store) (f : File) (call : LookupCall)
    (e e' : Int) :
    SameAnswers env mnt m f call e e' ↔
      (e = kErrorDiskIsCorrupted ↔ e' = kErrorDiskIsCorrupted) ∨ (env.outcome 0).err ≠ none ∨
        Refused env mnt m f ∨ Fruitless env mnt m f call := by
  by_cases hiff : e = kErrorDiskIsCorrupted ↔ e' = kErrorDiskIsCorrupted
  · exact iff_of_true (sameAnswers_of_iff hiff) (.inl hiff)
  by_cases hset : (env.outcome 0).err = none
  swap
  · refine iff_of_true (sameAnswers_of_alike ?_) (.inr (.inl hset))
    obtain ⟨v, hv⟩ := Option.ne_none_iff_exists'.mp hset
    rw [hv]
    exact ⟨rfl, rfl, Iff.rfl⟩
  by_cases hr : Refused env mnt m f
  · refine iff_of_true (fun x => ?_) (.inr (.inr (.inl hr)))
    simp only [ComesBack, answer_refused hr]
  simp only [hiff, hset, hr, ne_eq, not_true_eq_false, false_or]
  by_cases he : e = kErrorDiskIsCorrupted
  · subst he
    exact sameAnswers_corrupted_iff hr hset fun he' => hiff (iff_of_true rfl he')
  · have he' : e' = kErrorDiskIsCorrupted := by
      by_contra he'
      exact hiff (iff_of_false he he')
    subst he'
    rw [← sameAnswers_corrupted_iff hr hset he]
    exact ⟨SameAnswers.symm, SameAnswers.symm⟩

end

/-! ## A drive that moves everything and says nothing -/

/-- Every packet is moved as a whole, and the error code is left alone, as by the drivers of ATA. -/
def Session.Quiet (env : Session) : Prop := ∀ n, env.outcome n = ⟨fun _ => true, none⟩

section
variable {env : Session} {boot dir node node' m : Store} {f : File} {s : DriveState} {mnt : DriveTrait}
  {d : Disk} {lba sz n fuel start : Nat} {buf : Store}

theorem Session.Quiet.fInput (hq : env.Quiet) :
    env.fInput s lba sz buf = (blit buf 0 sz (slice s.bytes lba), { s with made := s.made + 1 }) := by
  unfold Session.fInput
  rw [hq]
  refine Prod.ext (funext fun i => ?_) rfl
  show (if i < sz ∧ true = true then s.bytes (lba + i) else buf i) =
    blit buf 0 sz (slice s.bytes lba) i
  by_cases hi : i < sz
  · rw [blit_apply_of_mem (Nat.zero_le i) (by omega), Nat.sub_zero]
    exact if_pos ⟨hi, rfl⟩
  · rw [blit_apply_of_notMem (by omega)]
    exact if_neg fun h => hi h.1

/-- The two are one record. -/
def SameRecord (a b : Store) : Prop := ∀ i < 512, a i = b i

theorem SameRecord.get (h : SameRecord node node') {g : Field} (hg : g.off + g.width ≤ 512) :
    g.get node = g.get node' :=
  Field.get_congr fun i hi => h _ (by omega)

theorem sameRecord_blit (lba : Nat) : SameRecord (blit buf 0 512 (slice m lba)) (slice m lba) := by
  intro i hi
  rw [blit_apply_of_mem (Nat.zero_le i) (by omega), Nat.sub_zero]

/-- The slice leads to an index node of the file. -/
def fits (d : Disk) (dir : Store) (f : File) (index : Nat) : Bool :=
  hashPath f.name = HefsIndexNode.fHashPath.get (d.fInput ((fINSlices index).get dir)) &&
    HefsIndexNode.fKind.get (d.fInput ((fINSlices index).get dir)) = f.kind.toNat

/-- The loop over the slices finds the first that fits. -/
theorem Session.Quiet.fetchSlices (hq : env.Quiet) (f : File) (node : Store)
    (hdir : SameRecord dir (d.fInput start)) (hs : s.bytes = d.bytes) (hn : n ≤ kOpenHeFSSliceCount) :
    ∃ found node' t, env.fetchSlices dir f.name f.kind n node s = (found, node', t) ∧
      t.bytes = s.bytes ∧ t.err = s.err ∧
      ((found = false ∧ (List.range' (kOpenHeFSSliceCount - n) n).find?
          (fits d (d.fInput start) f) = none) ∨
        ∃ index, found = true ∧ (List.range' (kOpenHeFSSliceCount - n) n).find?
            (fits d (d.fInput start) f) = some index ∧
          SameRecord node' (d.fInput ((fINSlices index).get (d.fInput start)))) := by
  induction n generalizing node s with
  | zero => exact ⟨false, node, s, rfl, rfl, rfl, .inl ⟨rfl, rfl⟩⟩
  | succ n ih =>
      have hslice : (fINSlices (kOpenHeFSSliceCount - (n + 1))).get dir =
          (fINSlices (kOpenHeFSSliceCount - (n + 1))).get (d.fInput start) :=
        hdir.get (by simp only [fINSlices, kOpenHeFSSliceCount] at hn ⊢; omega)
      have hnext : kOpenHeFSSliceCount - (n + 1) + 1 = kOpenHeFSSliceCount - n := by omega
      have hnode : SameRecord (blit node 0 HefsIndexNode.size (slice s.bytes
          ((fINSlices (kOpenHeFSSliceCount - (n + 1))).get (d.fInput start))))
          (d.fInput ((fINSlices (kOpenHeFSSliceCount - (n + 1))).get (d.fInput start))) := by
        rw [hs]
        exact sameRecord_blit _
      rw [Session.fetchSlices, hq.fInput, hslice, List.range'_succ, hnext, List.find?_cons]
      simp only [hnode.get (g := HefsIndexNode.fHashPath) (by decide),
        hnode.get (g := HefsIndexNode.fKind) (by decide)]
      cases hfits : fits d (d.fInput start) f (kOpenHeFSSliceCount - (n + 1)) with
      | true =>
          simp only [fits, Bool.and_eq_true, decide_eq_true_eq] at hfits
          rw [if_pos hfits]
          exact ⟨_, _, _, rfl, rfl, rfl, .inr ⟨_, rfl, rfl, hnode⟩⟩
      | false =>
          simp only [fits, Bool.and_eq_false_iff, decide_eq_false_iff_not, ← not_and_or] at hfits
          rw [if_neg hfits]
          exact ih _ hs (by omega)

/-- A turn of the loop does what a look at the record says. -/
inductive SameTurn (d : Disk) (boot : Store) (start : Nat) : FetchTurn → Visit Store → Prop
  | found {node a : Store} {t : DriveState} :
      t.bytes = d.bytes → SameRecord node a → SameTurn d boot start (.found node t) (.found a)
  | stop {t : DriveState} : t.bytes = d.bytes → SameTurn d boot start (.missed t) .stop
  | leave {t : DriveState} :
      t.bytes = d.bytes → HefsBootNode.fEndIND.get boot ≤ nextStart start →
        SameTurn d boot start (.missed t) .next
  | next {dir node : Store} {t : DriveState} :
      t.bytes = d.bytes → t.err ≠ kErrorDiskIsCorrupted →
        ¬ HefsBootNode.fEndIND.get boot ≤ nextStart start →
        SameTurn d boot start (.next ⟨nextStart start, dir, node, t⟩) .next

/-- A record that does not have the file. -/
theorem SameTurn.passes (hs : s.bytes = d.bytes) (herr : s.err ≠ kErrorDiskIsCorrupted) :
    SameTurn d boot start
      (if HefsBootNode.fEndIND.get boot ≤ nextStart start then
        .missed (s.setErr kErrorFileNotFound)
      else .next ⟨nextStart start, dir, node, s⟩) .next := by
  split
  · next hleave => exact .leave hs hleave
  · next hleave => exact .next hs herr hleave

theorem Session.Quiet.fetchTurn (hq : env.Quiet) (boot : Store) (f : File) (start : Nat)
    (dir node : Store) (hs : s.bytes = d.bytes) (herr : s.err ≠ kErrorDiskIsCorrupted) :
    SameTurn d boot start (env.fetchTurn boot f ⟨start, dir, node, s⟩)
      (fetchVisit d f.dir f.name f.kind start) := by
  have hdir : SameRecord (blit dir 0 HefsIndexNodeDirectory.size (slice s.bytes start))
      (d.fInput start) := by
    rw [hs]
    exact sameRecord_blit _
  have hhash := hdir.get (g := fHashPath) (by decide)
  unfold Session.fetchTurn fetchVisit
  rw [if_neg herr]
  simp only [hq.fInput, hhash]
  by_cases hzero : fHashPath.get (d.fInput start) = 0
  · rw [if_pos hzero, if_pos hzero]
    exact .stop hs
  rw [if_neg hzero, if_neg hzero]
  simp only [Session.fetchNode, hhash]
  by_cases hname : hashPath f.dir = fHashPath.get (d.fInput start)
  · rw [if_pos hname, if_pos hname]
    obtain ⟨found, node', t, hslices, ht, hterr, hfind⟩ :=
      Session.Quiet.fetchSlices (s := { s with made := s.made + 1 }) hq f node hdir hs (Nat.le_refl _)
    have hslice : sliceOfFile d (d.fInput start) f.name f.kind =
        (List.range' 0 kOpenHeFSSliceCount).find? (fits d (d.fInput start) f) := by
      rw [sliceOfFile, firstSlice, List.range_eq_range']
      rfl
    rw [Nat.sub_self] at hfind
    rw [hslices, hslice]
    rcases hfind with ⟨rfl, hnone⟩ | ⟨index, rfl, hsome, hsame⟩
    · rw [hnone]
      simp only [Bool.false_eq_true, if_false]
      exact .passes (ht.trans hs) (hterr ▸ herr)
    · rw [hsome]
      exact .found (ht.trans hs) hsame
  · rw [if_neg hname, if_neg hname]
    simp only [Bool.false_eq_true, if_false]
    exact .passes hs herr

/-- On such a drive the loop is that of a lookup without outcomes. -/
theorem Session.Quiet.fetchLoop (hq : env.Quiet) (boot : Store) (f : File) (fuel start : Nat)
    (dir node : Store) (hs : s.bytes = d.bytes) (herr : s.err ≠ kErrorDiskIsCorrupted) :
    Option.Rel (fun p q => p.2.bytes = d.bytes ∧ Option.Rel SameRecord p.1 q)
      (env.fetchLoop boot f fuel ⟨start, dir, node, s⟩)
      (scan nextStart (fun start => HefsBootNode.fEndIND.get boot ≤ start)
        (fetchVisit d f.dir f.name f.kind) fuel start) := by
  induction fuel generalizing start dir node s with
  | zero => exact .none
  | succ fuel ih =>
      have hturn := hq.fetchTurn boot f start dir node hs herr
      rw [Session.fetchLoop, scan]
      generalize env.fetchTurn boot f ⟨start, dir, node, s⟩ = x at hturn ⊢
      generalize fetchVisit d f.dir f.name f.kind start = y at hturn ⊢
      cases hturn with
      | found ht hsame => exact .some ⟨ht, .some hsame⟩
      | stop ht => exact .some ⟨ht, .none⟩
      | leave ht hleave =>
          simp only [hleave, decide_true, if_true]
          exact .some ⟨ht, .none⟩
      | next ht hterr hleave =>
          simp only [hleave, decide_false, Bool.false_eq_true, if_false]
          exact ih _ _ _ ht hterr

/-- The lookup, from the boot node of the disk. -/
theorem Session.Quiet.hefsiFetchIn (hq : env.Quiet) (lba n : Nat) (f : File) :
    Option.Rel (fun p q => p.2.bytes = d.bytes ∧ Option.Rel SameRecord p.1 q)
      (env.hefsiFetchIn scanFuel (blit env.bootMem 0 HefsBootNode.size (slice d.bytes lba))
        ⟨d.bytes, d.errGlobal, n⟩ f)
      (Detail.hefsiFetchIn (d.fInput lba) d f.dir f.name f.kind) := by
  have hget : ∀ g : Field, g.off + g.width ≤ HefsBootNode.size →
      g.get (blit env.bootMem 0 HefsBootNode.size (slice d.bytes lba)) = g.get (d.fInput lba) := by
    intro g hg
    refine Field.get_congr fun i hi => ?_
    rw [blit_apply_of_mem (Nat.zero_le _) (by omega), Nat.sub_zero]
    rfl
  have hend := hget HefsBootNode.fEndIND (by decide)
  unfold Session.hefsiFetchIn Detail.hefsiFetchIn Session.fetchStart
  simp only [hend, hget HefsBootNode.fStartIND (by decide), hget HefsBootNode.fEndIN (by decide),
    hget HefsBootNode.fStartIN (by decide)]
  split
  · exact .some ⟨rfl, .none⟩
  · split
    · exact .some ⟨rfl, .none⟩
    · split
      · next herr =>
          obtain ⟨fuel, hfuel⟩ : ∃ k, scanFuel = k + 1 := ⟨2 ^ 64 - 1, rfl⟩
          have hturn : env.fetchTurn (blit env.bootMem 0 HefsBootNode.size (slice d.bytes lba)) f
              ⟨HefsBootNode.fStartIND.get (d.fInput lba), env.dirMem, zeros,
                ⟨d.bytes, d.errGlobal, n⟩⟩ = .missed ⟨d.bytes, d.errGlobal, n⟩ := by
            unfold Session.fetchTurn
            exact if_pos herr
          rw [hfuel, Session.fetchLoop, hturn]
          exact .some ⟨rfl, .none⟩
      · next herr =>
          have hloop := hq.fetchLoop (s := ⟨d.bytes, d.errGlobal, n⟩)
            (blit env.bootMem 0 HefsBootNode.size (slice d.bytes lba)) f scanFuel
            (HefsBootNode.fStartIND.get (d.fInput lba)) env.dirMem zeros rfl herr
          rw [hend] at hloop
          exact hloop

theorem bootValid_blit (boot : Store) (lba : Nat) :
    bootValid (blit boot 0 HefsBootNode.size (slice m lba)) = bootValid (slice m lba) := by
  have hbyte : ∀ i < HefsBootNode.size,
      blit boot 0 HefsBootNode.size (slice m lba) i = slice m lba i := by
    intro i hi
    rw [blit_apply_of_mem (Nat.zero_le i) (by omega), Nat.sub_zero]
  refine bootValid_congr (fun i hi => hbyte i (Nat.lt_trans hi (by decide))) ?_
  exact Field.get_congr fun i hi => hbyte _
    (Nat.lt_of_lt_of_le (Nat.add_lt_add_left hi _) (by decide))

/-- What is made of two related lookups is the same when it is the same of any two related results. -/
theorem map_eq_of_rel {α β γ : Type} {R : α → β → Prop} {x : Option α} {y : Option β} {F : α → γ} {G : β → γ}
    (h : Option.Rel R x y) (hsame : ∀ p q, R p q → F p = G q) : x.map F = y.map G := by
  cases h with
  | none => rfl
  | some hpq => exact congrArg some (hsame _ _ hpq)

/-- **On such a drive** `INodeExists` is that of a disk without outcomes. -/
theorem Session.Quiet.iNodeExists (hq : env.Quiet) (mnt : DriveTrait) (d : Disk) (f : File) :
    (env.iNodeExists scanFuel mnt ⟨d.bytes, d.errGlobal, 0⟩ f).map Prod.fst =
      (HeFileSystemParser.iNodeExists mnt d f.dir f.name f.kind).map Prod.fst := by
  have hvalid : bootValid (blit env.bootMem 0 HefsBootNode.size (slice d.bytes mnt.fLbaStart)) =
      bootValid (d.fInput mnt.fLbaStart) := bootValid_blit _ _
  have hfetch := hq.hefsiFetchIn (d := d) mnt.fLbaStart 1 f
  unfold Session.iNodeExists HeFileSystemParser.iNodeExists
  simp only [hq.fInput, hvalid]
  split
  · rfl
  · split
    · rfl
    · split
      · rfl
      · simp only [Option.map_map]
        refine map_eq_of_rel hfetch ?_
        rintro ⟨r, t⟩ q ⟨-, hsame⟩
        cases hsame with
        | none => rfl
        | some _ => rfl

theorem Session.Quiet.fOutput_bytes (hq : env.Quiet) :
    (env.fOutput s lba sz buf).bytes = blit s.bytes lba sz buf := by
  funext x
  simp only [Session.fOutput, hq s.made, and_true]
  rfl

/-- And so is `INodeManip` with `is_input` off. -/
theorem Session.Quiet.iNodeManip (hq : env.Quiet) (mnt : DriveTrait) (d : Disk) (f : File)
    (block : Store) (blockSz : Nat) :
    (env.iNodeManip scanFuel mnt ⟨d.bytes, d.errGlobal, 0⟩ block blockSz f false).map
        (fun r => (r.1, r.2.2.bytes)) =
      (HeFileSystemParser.iNodeManip mnt d block blockSz f.dir f.name f.kind).map
        (fun r => (r.1, r.2.bytes)) := by
  have hvalid : bootValid (blit env.bootMem 0 HefsBootNode.size (slice d.bytes mnt.fLbaStart)) =
      bootValid (d.fInput mnt.fLbaStart) := bootValid_blit _ _
  have hfetch := hq.hefsiFetchIn (d := d) mnt.fLbaStart 1 f
  unfold Session.iNodeManip HeFileSystemParser.iNodeManip
  simp only [hq.fInput, hvalid]
  split
  · rfl
  · split
    · rfl
    · split
      · rfl
      · simp only [Option.map_map]
        refine map_eq_of_rel hfetch ?_
        rintro ⟨r, t⟩ q ⟨ht, hsame⟩
        have ht : t.bytes = d.bytes := ht
        cases hsame with
        | none =>
            simp only [Function.comp_apply, Disk.setErr_bytes]
            rw [show (t.setErr kErrorFileNotFound).bytes = d.bytes from ht]
        | some h =>
            simp only [Function.comp_apply, Session.manipNode,
              h.get (g := HefsIndexNode.fOffsetSliceLow) (by decide),
              h.get (g := HefsIndexNode.fOffsetSliceHigh) (by decide),
              h.get (g := HefsIndexNode.fHashPath) (by decide),
              h.get (g := HefsIndexNode.fFlags) (by decide)]
            split
            · simp only [Bool.false_eq_true, if_false]
              split
              · rw [ht]
              · rw [hq.fOutput_bytes, ht]
                rfl
            · rw [ht]

/-- A call of `INodeExists` comes back with what it does on a disk without outcomes. -/
theorem Session.Quiet.comesBack_exists {reply : Bool} {d' : Disk} (hq : env.Quiet)
    (h : HeFileSystemParser.iNodeExists mnt d f.dir f.name f.kind = some (reply, d')) :
    ∃ r, ComesBack env mnt d.bytes f .inodeExists d.errGlobal r ∧ r.reply = reply := by
  have hexists := hq.iNodeExists mnt d f
  rw [h, Option.map_some] at hexists
  obtain ⟨p, hp, rfl⟩ := Option.map_eq_some_iff.mp hexists
  refine ⟨⟨p.1, zeros, p.2.bytes⟩, ⟨scanFuel, ?_⟩, rfl⟩
  rw [LookupCall.answer, hp]
  rfl

end

/-- The drive of a build for ATA, on which every transfer succeeds. -/
def ataSession : Session := ⟨fun _ => ⟨fun _ => true, none⟩, zeros, zeros⟩

/-- With "disk is corrupted" left over from before, the file `/a` of a fresh drive is not found. -/
theorem file_hidden_by_error :
    ∃ d₁ d₂ d₃ r r', format gibDrive blankDisk 0x50 [] = some (true, d₁) ∧
      createINode gibDrive d₁ 0 [0x2F] [0x61] 0 = some (true, d₂) ∧
      createINode gibDrive d₂ 0 [0x2F] [0x62] 0 = some (true, d₃) ∧
      ComesBack ataSession gibDrive d₃.bytes ⟨[0x2F], [0x61], 0⟩ .inodeExists kErrorSuccess r ∧
      ComesBack ataSession gibDrive d₃.bytes ⟨[0x2F], [0x61], 0⟩ .inodeExists kErrorDiskIsCorrupted r' ∧
      r.reply = true ∧ r'.reply = false := by
  have hq : ataSession.Quiet := fun _ => rfl
  obtain ⟨d₁, d₂, d₃, hformat, ha, hb, h, herr, a, hn, -, -, -⟩ :=
    two_files gibDrive_roomy blankDisk_blank 0x50 [] (by decide) gib_bounds.1
      (by rw [gib_bounds.2]; decide) (by rw [gib_bounds.2]; decide) (by rw [gib_bounds.2]; decide)
  obtain ⟨r, hback, hr⟩ :=
    hq.comesBack_exists (exists_node gibDrive_roomy h (by rw [herr]; decide) hn)
  have hmissed : HeFileSystemParser.iNodeExists gibDrive (d₃.setErr kErrorDiskIsCorrupted) [0x2F] [0x61] 0 =
      some (false, (d₃.setErr kErrorDiskIsCorrupted).setErr kErrorFileNotFound) := by
    have hin : (d₃.setErr kErrorDiskIsCorrupted).fInput gibDrive.fLbaStart = bootRec gibDrive d₃.bytes :=
      rfl
    have hvalid : bootValid (bootRec gibDrive d₃.bytes) ≠ false := by simp [h.shape.boot.valid]
    have hfetch : hefsiFetchIn (bootRec gibDrive d₃.bytes) (d₃.setErr kErrorDiskIsCorrupted) [0x2F]
        [0x61] 0 = some none := by
      unfold hefsiFetchIn
      simp only [Disk.setErr_errGlobal, if_true, ite_self]
    unfold HeFileSystemParser.iNodeExists
    rw [if_neg (by decide), if_neg (by decide), hin, if_neg hvalid, hfetch, Option.map_some]
  obtain ⟨r', hback', hr'⟩ :=
    hq.comesBack_exists (f := ⟨[0x2F], [0x61], 0⟩) hmissed
  rw [herr] at hback
  exact ⟨d₁, d₂, d₃, r, r', hformat, ha, hb, hback, hback', hr, hr'⟩

end NeKernel.FS
