import NeKernel.Lib.Loops

/-!
# Reading a file in the boot loader

`BootFileReader::ReadAll` asks the firmware for a chunk at a time until it has counted as many bytes as
the file has. It counts the size the firmware leaves in `bufSize`, whatever the status, and asks for that
size the next time. So a read that is too short makes all that follow as short; a read of no bytes is
repeated for ever; a size that comes with an error is counted as if the bytes were there; and the last
chunk is asked for whole, past the end of what was allocated, when the file does not end with it.
-/

namespace NeKernel.BootKit

open StateTransition Loops

/-! ## The firmware -/

/-- What a `Read` answers: some bytes of the file, at most `count`; the size that a buffer needs; or an
error that leaves a size. -/
inductive ReadOutcome where
  | success (count : UInt64)
  | bufferTooSmall (needed : UInt64)
  | deviceError (left : UInt64)

/-- The firmware: the length of the file, whether `GetInfo` gives it, what `AllocatePool` gives, and what
the `n`-th `Read` answers when it is asked for a size. -/
structure Firmware where
  fileSize : UInt64
  getInfo : Bool
  allocatePool : UInt64 → Option UInt64
  read : Nat → UInt64 → ReadOutcome

/-- The loop between two reads: what it asks for and has counted, how many reads there have been, how much
of the file they have read, and which byte of the file lies at an offset of the blob, if one does. -/
structure ReadState where
  bufSize : UInt64
  szCnt : UInt64
  calls : Nat
  position : Nat
  blob : Nat → Option Nat

/-- A read that succeeds: it gives no more than it is asked for and than the file has left. -/
def readCount (fw : Firmware) (st : ReadState) (count : UInt64) : Nat :=
  min count.toNat (min st.bufSize.toNat (fw.fileSize.toNat - st.position))

/-- `mFile->Read`, into the blob at `szCnt`: the status is `kBufferTooSmall`, and the size it leaves. -/
def fileRead (fw : Firmware) (st : ReadState) : Bool × ReadState :=
  match fw.read st.calls st.bufSize with
  | .success count =>
      let n := readCount fw st count
      (false,
        { st with
          bufSize := UInt64.ofNat n
          calls := st.calls + 1
          position := st.position + n
          blob := fun x => if st.szCnt.toNat ≤ x ∧ x < st.szCnt.toNat + n then
            some (st.position + (x - st.szCnt.toNat)) else st.blob x })
  | .bufferTooSmall needed => (true, { st with bufSize := needed, calls := st.calls + 1 })
  | .deviceError left => (false, { st with bufSize := left, calls := st.calls + 1 })

/-! ## ReadAll -/

inductive ErrorCode where
  | kOperationOkay
  | kNotSupported
  deriving DecidableEq

structure BootFileReader where
  mErrorCode : ErrorCode
  mBlob : UInt64
  mSizeFile : UInt64

/-- One turn of the loop. -/
def turn (fw : Firmware) (chunkToRead readUntil : UInt64) (st : ReadState) : Option ReadState :=
  if st.szCnt < readUntil then
    let res := fileRead fw st
    let st := { res.2 with szCnt := st.szCnt + res.2.bufSize }
    some (if res.1 then { st with bufSize := chunkToRead } else st)
  else none

/-- The loop before its first turn. -/
def start (chunkToRead : UInt64) : ReadState := ⟨chunkToRead, 0, 0, 0, fun _ => none⟩

/-- `ReadAll` up to its loop: there is nothing to read, no memory, or a blob for `readUntil` bytes. -/
inductive Prologue where
  | notSupported
  | outOfMemory
  | reading (readUntil mBlob : UInt64)

def prologue (fw : Firmware) (self : BootFileReader) (readUntil outAddress : UInt64) : Prologue :=
  let readUntil := if fw.getInfo then fw.fileSize else readUntil
  if readUntil = 0 then .notSupported
  else if self.mBlob = 0 then
    if outAddress = 0 then
      match fw.allocatePool readUntil with
      | some mBlob => .reading readUntil mBlob
      | none => .outOfMemory
    else .reading readUntil outAddress
  else .reading readUntil self.mBlob

/-- `ReadAll` behind its loop. -/
def epilogue (mBlob : UInt64) (st : ReadState) : BootFileReader := ⟨.kOperationOkay, mBlob, st.szCnt⟩

/-- The blob holds the file. -/
def HoldsFile (fw : Firmware) (st : ReadState) : Prop :=
  ∀ x < fw.fileSize.toNat, st.blob x = some x

/-- The loop does what it is for: it ends, it asks for no byte behind the last one that was allocated, and
when it ends the blob holds the file and the size is that of the file. -/
structure LoopRight (fw : Firmware) (chunkToRead readUntil mBlob : UInt64) : Prop where
  ends : Halts (turn fw chunkToRead readUntil) (start chunkToRead)
  inside : ∀ st, Reaches (turn fw chunkToRead readUntil) (start chunkToRead) st →
    st.szCnt < readUntil → st.szCnt.toNat + st.bufSize.toNat ≤ readUntil.toNat
  holds : ∀ st ∈ eval (turn fw chunkToRead readUntil) (start chunkToRead),
    (epilogue mBlob st).mSizeFile = fw.fileSize ∧ HoldsFile fw st

/-- `ReadAll` is right if its loop is, where it comes to it: elsewhere the error code is not
`kOperationOkay`, or the boot loader stops. -/
def ReadAllRight (fw : Firmware) (self : BootFileReader) (readUntil chunkToRead outAddress : UInt64) :
    Prop :=
  ∀ until' mBlob, prologue fw self readUntil outAddress = .reading until' mBlob →
    LoopRight fw chunkToRead until' mBlob

/-! ## Good reads -/

variable {fw : Firmware} {self : BootFileReader} {chunkToRead readUntil outAddress mBlob : UInt64}
  {st st' : ReadState}

/-- The read that comes next is good: it is asked for no more than is left, and it reads something. -/
structure GoodRead (fw : Firmware) (readUntil : UInt64) (st : ReadState) : Prop where
  room : st.szCnt.toNat + st.bufSize.toNat ≤ readUntil.toNat
  success : ∃ count, fw.read st.calls st.bufSize = .success count ∧ 0 < readCount fw st count

/-- All reads of the loop are good. -/
def GoodReads (fw : Firmware) (chunkToRead readUntil : UInt64) : Prop :=
  ∀ st, Reaches (turn fw chunkToRead readUntil) (start chunkToRead) st → st.szCnt < readUntil →
    GoodRead fw readUntil st

/-- What has been counted has been read, and is where it belongs. -/
structure OnTrack (fw : Firmware) (readUntil : UInt64) (st : ReadState) : Prop where
  counted : st.szCnt.toNat = st.position
  inside : st.position ≤ readUntil.toNat
  placed : ∀ x < st.position, st.blob x = some x

/-- **A good read** stays on track and comes closer to the end. -/
theorem OnTrack.turn (htrack : OnTrack fw readUntil st) (hgood : st.szCnt < readUntil →
    GoodRead fw readUntil st) (hturn : turn fw chunkToRead readUntil st = some st') :
    OnTrack fw readUntil st' ∧ readUntil.toNat - st'.position < readUntil.toNat - st.position := by
  rw [BootKit.turn] at hturn
  split at hturn
  · next hlt =>
      obtain ⟨hroom, count, hread, hpos⟩ := hgood hlt
      have hleft : readCount fw st count ≤ st.bufSize.toNat :=
        (Nat.min_le_right _ _).trans (Nat.min_le_left _ _)
      have hend := UInt64.toNat_lt readUntil
      have hcounted := htrack.counted
      simp only [fileRead, hread, Bool.false_eq_true, if_false] at hturn
      cases hturn
      refine ⟨⟨?_, ?_, fun x hx => ?_⟩, ?_⟩
      · show (st.szCnt + UInt64.ofNat (readCount fw st count)).toNat = st.position + readCount fw st count
        rw [UInt64.toNat_add, UInt64.toNat_ofNat', Nat.mod_eq_of_lt (a := readCount fw st count) (by omega),
          Nat.mod_eq_of_lt (by omega), hcounted]
      · show st.position + readCount fw st count ≤ readUntil.toNat
        omega
      · show (if st.szCnt.toNat ≤ x ∧ x < st.szCnt.toNat + readCount fw st count then
          some (st.position + (x - st.szCnt.toNat)) else st.blob x) = some x
        have hx' : x < st.position + readCount fw st count := hx
        split
        · congr 1
          omega
        · exact htrack.placed x (by omega)
      · show readUntil.toNat - (st.position + readCount fw st count) < _
        omega
  · cases hturn

theorem onTrack_start : OnTrack fw readUntil (start chunkToRead) :=
  ⟨rfl, Nat.zero_le _, fun _ hx => absurd hx (Nat.not_lt_zero _)⟩

/-- **Good reads of the whole file** are right. -/
theorem GoodReads.right (hgood : GoodReads fw chunkToRead readUntil) (hsize : readUntil = fw.fileSize) :
    LoopRight fw chunkToRead readUntil mBlob := by
  have hinv : ∀ st, Reaches (turn fw chunkToRead readUntil) (start chunkToRead) st →
      OnTrack fw readUntil st := fun st hreach =>
    reaches_inv hreach onTrack_start fun a b hr htrack hturn => (htrack.turn (hgood a hr) hturn).1
  refine ⟨?_, fun st hreach hlt => (hgood st hreach hlt).room, fun st hst => ?_⟩
  · exact halts_of_measure (fun st => readUntil.toNat - st.position) fun a b hr hturn =>
      ((hinv a hr).turn (hgood a hr) hturn).2
  · obtain ⟨hreach, hnone⟩ := mem_eval.mp hst
    have htrack := hinv st hreach
    have hend : ¬ st.szCnt < readUntil := fun hlt => by
      rw [turn, if_pos hlt] at hnone
      cases hnone
    have hle : readUntil.toNat ≤ st.szCnt.toNat := UInt64.le_iff_toNat_le.mp (UInt64.not_lt.mp hend)
    have hcounted := htrack.counted
    have hinside := htrack.inside
    subst hsize
    refine ⟨UInt64.toNat_inj.mp (show st.szCnt.toNat = fw.fileSize.toNat by omega), fun x hx => ?_⟩
    exact htrack.placed x (by omega)

/-! ## Reads that are not good -/

/-- What a firmware answers to a read of a buffer of `readUntil` bytes: a buffer that is too small needs
more than it has, in what is left of the address space, and an error leaves no more than was asked for. -/
structure Lawful (fw : Firmware) (readUntil : UInt64) : Prop where
  needed : ∀ n bufSize needed, fw.read n bufSize = .bufferTooSmall needed →
    bufSize < needed ∧ readUntil.toNat + needed.toNat < 2 ^ 64
  left : ∀ n bufSize left, fw.read n bufSize = .deviceError left → left ≤ bufSize

/-- More has been counted than read, or nothing more will be. -/
def Lost (readUntil : UInt64) (st : ReadState) : Prop :=
  st.position < st.szCnt.toNat ∨
    st.position = st.szCnt.toNat ∧ st.bufSize = 0 ∧ st.szCnt < readUntil

/-- The bytes in the blob have been read. -/
def Read (st : ReadState) : Prop := ∀ x y, st.blob x = some y → y < st.position

theorem Read.turn (hread : Read st) (hturn : turn fw chunkToRead readUntil st = some st') : Read st' := by
  rw [BootKit.turn] at hturn
  split at hturn
  · cases hturn
    intro x y hxy
    cases hout : fw.read st.calls st.bufSize with
    | success count =>
        simp only [fileRead, hout, Bool.false_eq_true, if_false] at hxy ⊢
        split at hxy
        · cases hxy
          omega
        · have := hread x y hxy
          omega
    | bufferTooSmall needed =>
        simp only [fileRead, hout, if_true] at hxy ⊢
        exact hread x y hxy
    | deviceError left =>
        simp only [fileRead, hout, Bool.false_eq_true, if_false] at hxy ⊢
        exact hread x y hxy
  · cases hturn

/-- What a read that is asked for no more than is left does to the position and the count, in a lawful
firmware: it moves both by what it reads, or it leaves the position and counts the size. -/
inductive Moves (fw : Firmware) (st st' : ReadState) : Prop where
  | read (count : UInt64) (hout : fw.read st.calls st.bufSize = .success count)
    (hposition : st'.position = st.position + readCount fw st count)
    (hcount : st'.szCnt.toNat = st.szCnt.toNat + readCount fw st count)
    (hsize : st'.bufSize.toNat = readCount fw st count)
  | counted (size : UInt64) (hout : ∀ count, fw.read st.calls st.bufSize ≠ .success count)
    (hposition : st'.position = st.position) (hcount : st'.szCnt.toNat = st.szCnt.toNat + size.toNat)
    (hsize : size = 0 → st'.bufSize = 0)

theorem turn_moves (hfw : Lawful fw readUntil) (hlt : st.szCnt < readUntil)
    (hroom : st.szCnt.toNat + st.bufSize.toNat ≤ readUntil.toNat)
    (hturn : turn fw chunkToRead readUntil st = some st') : Moves fw st st' := by
  have hend := UInt64.toNat_lt readUntil
  have hlt' : st.szCnt.toNat < readUntil.toNat := UInt64.lt_iff_toNat_lt.mp hlt
  rw [turn, if_pos hlt] at hturn
  cases hout : fw.read st.calls st.bufSize with
  | success count =>
      have hleft : readCount fw st count ≤ st.bufSize.toNat :=
        (Nat.min_le_right _ _).trans (Nat.min_le_left _ _)
      have hcount : (UInt64.ofNat (readCount fw st count)).toNat = readCount fw st count := by
        rw [UInt64.toNat_ofNat', Nat.mod_eq_of_lt (by omega)]
      simp only [fileRead, hout, Bool.false_eq_true, if_false] at hturn
      cases hturn
      refine .read count hout rfl ?_ hcount
      show (st.szCnt + UInt64.ofNat (readCount fw st count)).toNat = _
      rw [UInt64.toNat_add, hcount, Nat.mod_eq_of_lt (by omega)]
  | bufferTooSmall needed =>
      obtain ⟨hmore, hspace⟩ := hfw.needed _ _ _ hout
      simp only [fileRead, hout, if_true] at hturn
      cases hturn
      refine .counted needed (fun count habs => by rw [hout] at habs; cases habs) rfl ?_ fun hzero => ?_
      · show (st.szCnt + needed).toNat = _
        rw [UInt64.toNat_add, Nat.mod_eq_of_lt (by omega)]
      · subst hzero
        exact absurd hmore (UInt64.not_lt.mpr UInt64.zero_le)
  | deviceError left =>
      have hle : left.toNat ≤ st.bufSize.toNat := UInt64.le_iff_toNat_le.mp (hfw.left _ _ _ hout)
      simp only [fileRead, hout, Bool.false_eq_true, if_false] at hturn
      cases hturn
      refine .counted left (fun count habs => by rw [hout] at habs; cases habs) rfl ?_ id
      show (st.szCnt + left).toNat = _
      rw [UInt64.toNat_add, Nat.mod_eq_of_lt (by omega)]

/-- Such a read gets on, or it stands still and will from now on, or it counts what it has not read. -/
theorem Moves.cases (hmoves : Moves fw st st') :
    (∃ count, fw.read st.calls st.bufSize = .success count ∧ 0 < readCount fw st count ∧
      st'.position = st.position + readCount fw st count ∧
      st'.szCnt.toNat = st.szCnt.toNat + readCount fw st count) ∨
    (st'.position = st.position ∧ st'.szCnt = st.szCnt ∧ st'.bufSize = 0) ∨
    st'.position = st.position ∧ st.szCnt.toNat < st'.szCnt.toNat := by
  cases hmoves with
  | read count hout hposition hcount hsize =>
      rcases Nat.eq_zero_or_pos (readCount fw st count) with hnone | hpos
      · rw [hnone, Nat.add_zero] at hposition hcount
        have hstop : st'.bufSize = 0 := UInt64.toNat_inj.mp (hsize.trans hnone)
        exact .inr (.inl ⟨hposition, UInt64.toNat_inj.mp hcount, hstop⟩)
      · exact .inl ⟨count, hout, hpos, hposition, hcount⟩
  | counted size hout hposition hcount hsize =>
      by_cases hzero : size = 0
      · rw [hzero, UInt64.toNat_zero, Nat.add_zero] at hcount
        exact .inr (.inl ⟨hposition, UInt64.toNat_inj.mp hcount, hsize hzero⟩)
      · have hpos : size.toNat ≠ 0 := fun h => hzero (UInt64.toNat_inj.mp h)
        exact .inr (.inr ⟨hposition, by omega⟩)

/-- **A loop that is lost** stays so, if it asks for no more than is left. -/
theorem Moves.lost (hmoves : Moves fw st st') (hlost : Lost readUntil st) : Lost readUntil st' := by
  rcases hmoves.cases with ⟨count, -, hpos, hposition, hcount⟩ | ⟨hposition, hcount, hstop⟩ |
    ⟨hposition, hmore⟩
  · rcases hlost with hgap | ⟨-, hzero, -⟩
    · exact .inl (by omega)
    · -- a buffer of no bytes reads none
      have hbuf : st.bufSize.toNat = 0 := congrArg UInt64.toNat hzero
      have hle : readCount fw st count ≤ st.bufSize.toNat :=
        (Nat.min_le_right _ _).trans (Nat.min_le_left _ _)
      omega
  · rcases hlost with hgap | ⟨hsame, -, hlt⟩
    · rw [Lost, hposition, hcount]
      exact .inl hgap
    · rw [Lost, hposition, hcount]
      exact .inr ⟨hsame, hstop, hlt⟩
  · rcases hlost with hgap | ⟨hsame, -, -⟩ <;> exact .inl (by omega)

/-- A read that is on track and is not good loses the track. -/
theorem Moves.lost_of_not_good (hmoves : Moves fw st st') (hsame : st.position = st.szCnt.toNat)
    (hlt : st.szCnt < readUntil)
    (hbad : ¬ ∃ count, fw.read st.calls st.bufSize = .success count ∧ 0 < readCount fw st count) :
    Lost readUntil st' := by
  rcases hmoves.cases with ⟨count, hout, hpos, -, -⟩ | ⟨hposition, hcount, hstop⟩ |
    ⟨hposition, hmore⟩
  · exact absurd ⟨count, hout, hpos⟩ hbad
  · rw [Lost, hposition, hcount]
    exact .inr ⟨hsame, hstop, hlt⟩
  · exact .inl (by omega)

/-- A loop that is right is never lost. -/
theorem LoopRight.not_lost (hright : LoopRight fw chunkToRead readUntil mBlob)
    (hfw : Lawful fw readUntil) (hreach : Reaches (turn fw chunkToRead readUntil) (start chunkToRead) st) :
    ¬ Lost readUntil st := by
  intro hlost
  obtain ⟨t, ht⟩ := hright.ends
  obtain ⟨hsize, hholds⟩ := hright.holds t ht
  have hrun : Reaches (turn fw chunkToRead readUntil) st t := (mem_eval.mp (reaches_eval hreach ▸ ht)).1
  have hlostEnd : Lost readUntil t := reaches_inv hrun hlost fun a b hsa hlost hturn => by
    by_cases hlt : a.szCnt < readUntil
    · exact (turn_moves hfw hlt (hright.inside a (hreach.trans hsa) hlt) hturn).lost hlost
    · rw [turn, if_neg hlt] at hturn
      cases hturn
  have hread : Read t := reaches_inv (mem_eval.mp ht).1
    (fun x y hxy => by cases hxy) fun a b _ hread hturn => hread.turn hturn
  rcases hlostEnd with hgap | ⟨-, -, hlt⟩
  · -- the byte at the position has not been read
    have hsize' : t.szCnt = fw.fileSize := hsize
    rw [hsize'] at hgap
    exact Nat.lt_irrefl _ (hread _ _ (hholds t.position hgap))
  · have hnone := (mem_eval.mp ht).2
    rw [turn, if_pos hlt] at hnone
    cases hnone

/-- **A loop that is right** reads the whole file in good reads. -/
theorem LoopRight.good (hright : LoopRight fw chunkToRead readUntil mBlob) (hfw : Lawful fw readUntil) :
    readUntil = fw.fileSize ∧ GoodReads fw chunkToRead readUntil := by
  have hnext : ∀ st, Reaches (turn fw chunkToRead readUntil) (start chunkToRead) st →
      st.position = st.szCnt.toNat → st.szCnt < readUntil → GoodRead fw readUntil st := by
    intro st hreach hsame hlt
    refine ⟨hright.inside st hreach hlt, ?_⟩
    by_contra hbad
    obtain ⟨st', hturn⟩ : ∃ st', turn fw chunkToRead readUntil st = some st' :=
      ⟨_, by rw [turn, if_pos hlt]⟩
    exact hright.not_lost hfw (reaches_turn hreach hturn)
      ((turn_moves hfw hlt (hright.inside st hreach hlt) hturn).lost_of_not_good hsame hlt hbad)
  have htrack : ∀ st, Reaches (turn fw chunkToRead readUntil) (start chunkToRead) st →
      OnTrack fw readUntil st := fun st hreach =>
    reaches_inv hreach onTrack_start fun a b hr htrack hturn =>
      (htrack.turn (hnext a hr htrack.counted.symm) hturn).1
  refine ⟨?_, fun st hreach hlt => hnext st hreach (htrack st hreach).counted.symm hlt⟩
  obtain ⟨t, ht⟩ := hright.ends
  obtain ⟨hreach, hnone⟩ := mem_eval.mp ht
  have hge : ¬ t.szCnt < readUntil := fun hlt => by
    rw [turn, if_pos hlt] at hnone
    cases hnone
  have hle := UInt64.le_iff_toNat_le.mp (UInt64.not_lt.mp hge)
  have hcounted := (htrack t hreach).counted
  have hinside := (htrack t hreach).inside
  rw [← (hright.holds t ht).1]
  exact UInt64.toNat_inj.mp (show readUntil.toNat = t.szCnt.toNat by omega)

/-- `ReadAll` comes to its loop, for the whole file, and every read of the loop is good. -/
def AllGood (fw : Firmware) (self : BootFileReader) (readUntil chunkToRead outAddress : UInt64) : Prop :=
  ∀ until' mBlob, prologue fw self readUntil outAddress = .reading until' mBlob →
    until' = fw.fileSize ∧ GoodReads fw chunkToRead until'

/-- **`ReadAll` is right** when its loop, if it comes to it, is for the whole file and every read of it is
good; and with a lawful firmware only then. -/
theorem readAll_right_iff (fw : Firmware) (self : BootFileReader)
    (readUntil chunkToRead outAddress : UInt64) :
    (AllGood fw self readUntil chunkToRead outAddress →
      ReadAllRight fw self readUntil chunkToRead outAddress) ∧
    ((∀ until' mBlob, prologue fw self readUntil outAddress = .reading until' mBlob → Lawful fw until') →
      (ReadAllRight fw self readUntil chunkToRead outAddress ↔
        AllGood fw self readUntil chunkToRead outAddress)) := by
  have hright : AllGood fw self readUntil chunkToRead outAddress →
      ReadAllRight fw self readUntil chunkToRead outAddress := fun hgood until' mBlob hbegin => by
    obtain ⟨hsize, hreads⟩ := hgood until' mBlob hbegin
    exact hreads.right hsize
  refine ⟨hright, fun hfw => ⟨fun h until' mBlob hbegin => ?_, hright⟩⟩
  exact (h until' mBlob hbegin).good (hfw until' mBlob hbegin)

/-! ## A firmware that reads what it can -/

/-- Every read gives what it is asked for, as far as the file has it. -/
def Full (fw : Firmware) : Prop := ∀ n bufSize, fw.read n bufSize = .success bufSize

theorem Full.lawful (hfull : Full fw) : Lawful fw readUntil where
  needed := fun n bufSize needed h => by
    rw [hfull] at h
    cases h
  left := fun n bufSize left h => by
    rw [hfull] at h
    cases h

/-- A whole chunk is read. -/
theorem Full.turn (hfull : Full fw) (htrack : OnTrack fw fw.fileSize st) (hbuf : st.bufSize = chunkToRead)
    (hroom : st.szCnt.toNat + chunkToRead.toNat ≤ fw.fileSize.toNat)
    (hturn : turn fw chunkToRead fw.fileSize st = some st') :
    st'.bufSize = chunkToRead ∧ st'.szCnt.toNat = st.szCnt.toNat + chunkToRead.toNat := by
  have hcounted := htrack.counted
  have hend := UInt64.toNat_lt fw.fileSize
  have hall : readCount fw st chunkToRead = chunkToRead.toNat := by
    rw [readCount, hbuf]
    omega
  rw [BootKit.turn] at hturn
  split at hturn
  · have hread : fw.read st.calls chunkToRead = .success chunkToRead := hfull _ _
    simp only [fileRead, hbuf, hread, hall, UInt64.ofNat_toNat, Bool.false_eq_true, if_false] at hturn
    cases hturn
    refine ⟨rfl, ?_⟩
    show (st.szCnt + chunkToRead).toNat = _
    rw [UInt64.toNat_add, Nat.mod_eq_of_lt (by omega)]
  · cases hturn

/-- A loop that reads whole chunks. -/
structure Chunked (fw : Firmware) (chunkToRead : UInt64) (st : ReadState) : Prop where
  track : OnTrack fw fw.fileSize st
  buf : st.bufSize = chunkToRead
  whole : chunkToRead.toNat ∣ st.szCnt.toNat

theorem Chunked.turn (hfull : Full fw) (hchunked : Chunked fw chunkToRead st)
    (hgood : st.szCnt < fw.fileSize → GoodRead fw fw.fileSize st)
    (hturn : turn fw chunkToRead fw.fileSize st = some st') : Chunked fw chunkToRead st' := by
  have hlt : st.szCnt < fw.fileSize := by
    by_contra hge
    rw [BootKit.turn, if_neg hge] at hturn
    cases hturn
  have hroom := (hgood hlt).room
  rw [hchunked.buf] at hroom
  obtain ⟨hbuf, hcount⟩ := hfull.turn hchunked.track hchunked.buf hroom hturn
  refine ⟨(hchunked.track.turn hgood hturn).1, hbuf, ?_⟩
  rw [hcount]
  exact Nat.dvd_add hchunked.whole (Nat.dvd_refl _)

theorem chunked_start : Chunked fw chunkToRead (start chunkToRead) :=
  ⟨onTrack_start, rfl, Nat.dvd_zero _⟩

/-- **With such a firmware** the loop is right exactly when the file is a whole number of chunks. -/
theorem Full.right_iff (hfull : Full fw) (hsize : fw.fileSize ≠ 0) :
    LoopRight fw chunkToRead fw.fileSize mBlob ↔ chunkToRead.toNat ∣ fw.fileSize.toNat := by
  constructor
  · intro hright
    obtain ⟨-, hgood⟩ := hright.good hfull.lawful
    obtain ⟨t, ht⟩ := hright.ends
    have hchunked : Chunked fw chunkToRead t := reaches_inv (mem_eval.mp ht).1 chunked_start
      fun a b hr hchunked hturn => hchunked.turn hfull (hgood a hr) hturn
    rw [← (hright.holds t ht).1]
    exact hchunked.whole
  · intro hdvd
    have hpos : 0 < fw.fileSize.toNat :=
      Nat.pos_of_ne_zero fun hzero => hsize (UInt64.toNat_inj.mp hzero)
    have hchunk : 0 < chunkToRead.toNat := Nat.pos_of_dvd_of_pos hdvd hpos
    -- a whole chunk is left where anything is
    have hgood : ∀ st, Chunked fw chunkToRead st → st.szCnt < fw.fileSize →
        GoodRead fw fw.fileSize st := fun st hchunked hlt => by
      have hlt' : st.szCnt.toNat < fw.fileSize.toNat := UInt64.lt_iff_toNat_lt.mp hlt
      have hleft : chunkToRead.toNat ≤ fw.fileSize.toNat - st.szCnt.toNat :=
        Nat.le_of_dvd (by omega) (Nat.dvd_sub hdvd hchunked.whole)
      have hcounted := hchunked.track.counted
      refine ⟨by rw [hchunked.buf]; omega, st.bufSize, hfull _ _, ?_⟩
      rw [readCount, hchunked.buf]
      omega
    have hinv : ∀ st, Reaches (BootKit.turn fw chunkToRead fw.fileSize) (start chunkToRead) st →
        Chunked fw chunkToRead st := fun st hreach =>
      reaches_inv hreach chunked_start fun a b _ hchunked hturn =>
        hchunked.turn hfull (hgood a hchunked) hturn
    exact GoodReads.right (fun st hreach hlt => hgood st (hinv st hreach) hlt) rfl

/-- A file in a firmware that reads what it can, and a reader that has just been made. -/
def fileOf (fileSize : UInt64) : Firmware := ⟨fileSize, true, fun _ => some 0x100000, fun _ => .success⟩
def newReader : BootFileReader := ⟨.kOperationOkay, 0, 0⟩

/-- Eight bytes are read in two chunks of four. -/
theorem readAll_right_iff_eight : AllGood (fileOf 8) newReader 0 4 0 ∧
    ReadAllRight (fileOf 8) newReader 0 4 0 := by
  have hfull : Full (fileOf 8) := fun _ _ => rfl
  have hiff := readAll_right_iff (fileOf 8) newReader 0 4 0
  have hgood : AllGood (fileOf 8) newReader 0 4 0 := by
    intro until' mBlob hbegin
    cases hbegin
    have hright : LoopRight (fileOf 8) 4 (fileOf 8).fileSize 0x100000 :=
      (hfull.right_iff (by decide)).mpr (by decide)
    exact hright.good hfull.lawful
  exact ⟨(hiff.2 fun _ _ _ => hfull.lawful).mp (hiff.1 hgood), hiff.1 hgood⟩

/-- Five bytes are not: the second chunk ends behind the file. -/
theorem last_chunk_outside : ¬ ReadAllRight (fileOf 5) newReader 0 4 0 := by
  intro hright
  have hfull : Full (fileOf 5) := fun _ _ => rfl
  exact absurd ((hfull.right_iff (by decide)).mp (hright 5 0x100000 rfl)) (by decide)

end NeKernel.BootKit
