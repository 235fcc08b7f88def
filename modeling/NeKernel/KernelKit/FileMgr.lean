import Mathlib.Data.List.Basic
import NeKernel.Lib.ByteStore
import NeKernel.NeKit.Config

/-!
# File streams

`FileStream` over the file system that is mounted. A manager is what it does to the state `σ` of
its file system; a node is the manager's description of an open file, which seeking, reading and
writing may change, so each hands it back. `none` is an operation that does not return. Pointers
that may be null are options, a name is the list of its characters before the terminating zero.

A stream takes what it may do from its mode string, by a table of prefixes (`fileRestrict_eq`).
-/

namespace NeKernel.KernelKit

open ByteStore

/-! ## Mode strings -/

/-- `rt_string_cmp`: the difference of the first characters that differ among `size`. -/
def rtStringCmp (src cmp : List UInt8) (size : Nat) : Int :=
  match (List.range size).find? fun i => src.getD i 0 ≠ cmp.getD i 0 with
  | some i => (src.getD i 0).toInt8.toInt - (cmp.getD i 0).toInt8.toInt
  | none => 0

def kRestrictR : List UInt8 := [0x72]
def kRestrictRB : List UInt8 := [0x72, 0x62]
def kRestrictW : List UInt8 := [0x77]
def kRestrictWR : List UInt8 := [0x72, 0x77]
def kRestrictWRB : List UInt8 := [0x72, 0x77, 0x62]
def kRestrictMax : Nat := 5

def kFileMgrRestrictRead : Nat := 100
def kFileMgrRestrictReadBinary : Nat := 101
def kFileMgrRestrictWrite : Nat := 102
def kFileMgrRestrictWriteBinary : Nat := 104
def kFileMgrRestrictReadWrite : Nat := 105
def kFileMgrRestrictReadWriteBinary : Nat := 107

/-- `FILEMGR_RESTRICT`. -/
structure FilemgrRestrict where
  fRestrict : List UInt8
  fMappedTo : Nat

def kRestrictList : List FilemgrRestrict := [
  ⟨kRestrictR, kFileMgrRestrictRead⟩,
  ⟨kRestrictRB, kFileMgrRestrictReadBinary⟩,
  ⟨kRestrictWRB, kFileMgrRestrictReadWriteBinary⟩,
  ⟨kRestrictW, kFileMgrRestrictWrite⟩,
  ⟨kRestrictWR, kFileMgrRestrictReadWrite⟩]

/-- The loop of the constructor: the first entry the mode string begins with. -/
def fileRestrict (restrictType : List UInt8) : Nat :=
  match (kRestrictList.take kRestrictMax).find? fun e =>
    rtStringCmp restrictType e.fRestrict e.fRestrict.length == 0 with
  | some e => e.fMappedTo
  | none => kFileMgrRestrictReadBinary

/-- What the checks of `Write` let pass. -/
def mayWrite (fFileRestrict : Nat) : Bool :=
  fFileRestrict == kFileMgrRestrictReadWrite || fFileRestrict == kFileMgrRestrictReadWriteBinary ||
    fFileRestrict == kFileMgrRestrictWrite || fFileRestrict == kFileMgrRestrictWriteBinary

/-- What the checks of `Read` let pass. -/
def mayRead (fFileRestrict : Nat) : Bool :=
  fFileRestrict == kFileMgrRestrictReadWrite || fFileRestrict == kFileMgrRestrictReadWriteBinary ||
    fFileRestrict == kFileMgrRestrictRead || fFileRestrict == kFileMgrRestrictReadBinary

/-! ## Managers and streams -/

/-- What `FileStream` uses of an `IFilesystemMgr`. The two with a name are the overloads that take
one. -/
structure IFilesystemMgr (σ Node : Type) where
  openNode (path r : List UInt8) : σ → Option (Option Node × σ)
  seek (node : Option Node) (off : Nat) : σ → Option (Bool × Option Node × σ)
  write (node : Option Node) (data : Option Store) (flags : Int) (size : Nat) :
    σ → Option (Option Node × σ)
  read (node : Option Node) (flags : Int) (sz : Nat) : σ → Option (Option Store × Option Node × σ)
  writeNamed (name : Option (List UInt8)) (node : Option Node) (data : Option Store) (flags : Int)
    (size : Nat) : σ → Option (Option Node × σ)
  readNamed (name : Option (List UInt8)) (node : Option Node) (flags : Int) (sz : Nat) :
    σ → Option (Option Store × Option Node × σ)

/-- `ErrorOrAny`. -/
structure ErrorOrAny where
  mRef : Option Store
  mId : Int

/-- `HasError`: the codes of the kernel are positive. -/
def ErrorOrAny.hasError (e : ErrorOrAny) : Bool := e.mId < kErrorSuccess

def kFileReadAll : Int := 101
def kFileReadChunk : Int := 102

structure FileStream (Node : Type) where
  fFile : Option Node
  fFileRestrict : Nat

namespace FileStream

variable {σ Node : Type} (man : IFilesystemMgr σ Node)

/-- The constructor. -/
def construct (path restrictType : List UInt8) (s : σ) : Option (FileStream Node × σ) :=
  (man.openNode path restrictType s).map fun r => (⟨r.1, fileRestrict restrictType⟩, r.2)

/-- `Write` at an offset: the count it returns, and what the stream and the file system become. -/
def write (file : FileStream Node) (offset : Nat) (data : Option Store) (len : Nat) (s : σ) :
    Option (Int × FileStream Node × σ) :=
  if mayWrite file.fFileRestrict = false then some (0, file, s)
  else if data.isNone then some (0, file, s)
  else
    (man.seek file.fFile offset s).bind fun r =>
      (man.write r.2.1 data 0 len r.2.2).map fun w =>
        (int64 len, { file with fFile := w.1 }, w.2)

/-- `Write` with a name. -/
def writeNamed (file : FileStream Node) (name : Option (List UInt8)) (data : Option Store)
    (len : Nat) (s : σ) : Option (Int × FileStream Node × σ) :=
  if mayWrite file.fFileRestrict = false then some (0, file, s)
  else if data.isNone then some (0, file, s)
  else
    (man.writeNamed name file.fFile data 0 len s).map fun w =>
      (int64 len, { file with fFile := w.1 }, w.2)

/-- `Read` at an offset. -/
def read (file : FileStream Node) (offset sz : Nat) (s : σ) :
    Option (ErrorOrAny × FileStream Node × σ) :=
  if mayRead file.fFileRestrict = false then some (⟨none, kErrorInvalidData⟩, file, s)
  else
    (man.seek file.fFile offset s).bind fun r =>
      (man.read r.2.1 kFileReadChunk sz r.2.2).map fun w =>
        (⟨w.1, kErrorSuccess⟩, { file with fFile := w.2.1 }, w.2.2)

/-- `Read` with a name. -/
def readNamed (file : FileStream Node) (name : Option (List UInt8)) (sz : Nat) (s : σ) :
    Option (ErrorOrAny × FileStream Node × σ) :=
  if mayRead file.fFileRestrict = false then some (⟨none, kErrorInvalidData⟩, file, s)
  else
    (man.readNamed name file.fFile kFileReadAll sz s).map fun w =>
      (⟨w.1, kErrorSuccess⟩, { file with fFile := w.2.1 }, w.2.2)

variable {man} {file file' : FileStream Node} {offset len : Nat} {data : Option Store} {s s' : σ}
  {n : Int}

/-- A stream that may not write leaves everything as it is. -/
theorem write_refused (h : mayWrite file.fFileRestrict = false) :
    write man file offset data len s = some (0, file, s) := by
  rw [write, if_pos h]

/-- A write that reaches the manager reports the length it was given, whatever the manager has
done with it. -/
theorem write_reports (h : mayWrite file.fFileRestrict = true) (hdata : data ≠ none)
    (hw : write man file offset data len s = some (n, file', s')) : n = int64 len := by
  rw [write, if_neg (by simp [h]), if_neg (by simpa using hdata)] at hw
  obtain ⟨r, -, hw⟩ := Option.bind_eq_some_iff.mp hw
  obtain ⟨w, -, hw⟩ := Option.map_eq_some_iff.mp hw
  exact (Prod.mk.inj hw).1.symm

end FileStream

/-! ## What a mode string lets a stream do -/

theorem char_sub_eq_zero {a b : UInt8} : a.toInt8.toInt - b.toInt8.toInt = 0 ↔ a = b := by
  rw [sub_eq_zero, Int8.toInt_inj]
  constructor
  · intro h
    simpa using congrArg Int8.toUInt8 h
  · exact fun h => congrArg UInt8.toInt8 h

/-- The first character, when it is not the terminator. -/
theorem getD_zero_iff {mode : List UInt8} {c : UInt8} (hc : c ≠ 0) :
    mode.getD 0 0 = c ↔ mode.head? = some c := by
  cases mode with
  | nil => simp [hc.symm]
  | cons a mode => simp

/-- The comparison with an entry of one character. -/
theorem rtStringCmp_one {mode : List UInt8} {c : UInt8} (hc : c ≠ 0) :
    rtStringCmp mode [c] 1 = 0 ↔ mode.head? = some c := by
  have hfind : (List.range 1).find? (fun i => mode.getD i 0 ≠ [c].getD i 0) =
      if mode.getD 0 0 = c then none else some 0 := by simp
  rw [← getD_zero_iff hc, rtStringCmp, hfind]
  by_cases h : mode.getD 0 0 = c
  · simp only [h, if_true]
  · simp only [h, if_false, iff_false]
    exact fun h' => h (char_sub_eq_zero.mp h')

/-- A mode string that does not begin like the entry does not match it. -/
theorem rtStringCmp_ne {mode cmp : List UInt8} {c : UInt8} (hc : c ≠ 0)
    (h : mode.head? ≠ some c) : rtStringCmp mode (c :: cmp) (c :: cmp).length ≠ 0 := by
  have hne : mode.getD 0 0 ≠ c := fun hd => h ((getD_zero_iff hc).mp hd)
  have hfind : (List.range (c :: cmp).length).find?
      (fun i => mode.getD i 0 ≠ (c :: cmp).getD i 0) = some 0 := by
    rw [List.length_cons, List.range_succ_eq_map, List.find?_cons_of_pos]
    simpa using hne
  rw [rtStringCmp, hfind]
  exact fun h' => hne (char_sub_eq_zero.mp h')

/-- **What the table comes to**: the entry `"r"` stands in front of every other that begins with
`r`, so a mode is for reading if it begins with `r`, and for writing if it begins with `w`. -/
theorem fileRestrict_eq (mode : List UInt8) :
    fileRestrict mode =
      if mode.head? = some 0x72 then kFileMgrRestrictRead
      else if mode.head? = some 0x77 then kFileMgrRestrictWrite
      else kFileMgrRestrictReadBinary := by
  have matches_one : ∀ c : UInt8, c ≠ 0 →
      (rtStringCmp mode [c] 1 == 0) = decide (mode.head? = some c) := by
    intro c hc
    apply Bool.eq_iff_iff.mpr
    rw [beq_iff_eq, decide_eq_true_eq]
    exact rtStringCmp_one hc
  have hr : (rtStringCmp mode kRestrictR kRestrictR.length == 0) = _ :=
    matches_one 0x72 (by decide)
  have hw : (rtStringCmp mode kRestrictW kRestrictW.length == 0) = _ :=
    matches_one 0x77 (by decide)
  have htake : kRestrictList.take kRestrictMax = kRestrictList := rfl
  rw [fileRestrict, htake, kRestrictList, List.find?, hr]
  by_cases h : mode.head? = some 0x72
  · rw [if_pos h, decide_eq_true h]
  · -- the other entries that begin with `r` do not match either
    have hother : ∀ cmp : List UInt8,
        (rtStringCmp mode (0x72 :: cmp) (0x72 :: cmp).length == 0) = false :=
      fun cmp => beq_eq_false_iff_ne.mpr (rtStringCmp_ne (by decide) h)
    have hrb : (rtStringCmp mode kRestrictRB kRestrictRB.length == 0) = false := hother _
    have hwrb : (rtStringCmp mode kRestrictWRB kRestrictWRB.length == 0) = false := hother _
    have hwr : (rtStringCmp mode kRestrictWR kRestrictWR.length == 0) = false := hother _
    rw [if_neg h, decide_eq_false h]
    simp only [List.find?, hrb, hwrb, hw, hwr]
    by_cases h' : mode.head? = some 0x77
    · rw [if_pos h', decide_eq_true h']
    · rw [if_neg h', decide_eq_false h']

/-- A stream may write exactly when its mode begins with `w`. -/
theorem mayWrite_iff (mode : List UInt8) :
    mayWrite (fileRestrict mode) = true ↔ mode.head? = some 0x77 := by
  rw [fileRestrict_eq]
  split
  · next h => simp [h, mayWrite, kFileMgrRestrictRead, kFileMgrRestrictReadWrite,
      kFileMgrRestrictReadWriteBinary, kFileMgrRestrictWrite, kFileMgrRestrictWriteBinary]
  · split
    · next h => simp [h, mayWrite]
    · next h => simp [h, mayWrite, kFileMgrRestrictReadBinary, kFileMgrRestrictReadWrite,
        kFileMgrRestrictReadWriteBinary, kFileMgrRestrictWrite, kFileMgrRestrictWriteBinary]

/-- A stream may read exactly when it may not write. -/
theorem mayRead_eq (mode : List UInt8) :
    mayRead (fileRestrict mode) = !mayWrite (fileRestrict mode) := by
  rw [fileRestrict_eq]
  split
  · rfl
  · split <;> rfl

end NeKernel.KernelKit
