import NeKernel.FSKit.NeFS
import NeKernel.KernelKit.PE32Reads
import NeKernel.KernelKit.PEFReads

/-!
# Looking symbols up in a PE32+ blob

`FindSectionByName` and `FindSymbol`, with every read of the blob checked. The section table, the data
directory, the export directory with its three tables, and every string in them are followed as the
blob has them: unlike in `LoadImage`, nothing is compared with the length of the blob. So a lookup
stays inside exactly when the tables it comes by do (`reads_inside_iff`).
-/

namespace NeKernel.KernelKit

open ByteStore CheckedReads
open NeFS (CString)

/-! ## Layout -/

def kPeSignature : Nat := 0x00004550

namespace LDRExecHeader

def signature : Field := ⟨0, 4⟩

end LDRExecHeader

namespace LDRDataDirectory

def size : Nat := 8
def virtualAddress : Field := ⟨0, 4⟩
def dirSize : Field := ⟨4, 4⟩

end LDRDataDirectory

namespace LDRExportDirectory

def size : Nat := 40
def numberOfNames : Field := ⟨24, 4⟩
def addressOfFunctions : Field := ⟨28, 4⟩
def addressOfNames : Field := ⟨32, 4⟩
def addressOfNameOrdinal : Field := ⟨36, 4⟩

end LDRExportDirectory

def kPETypeText : Int := 100
def kPETypeData : Int := 101
def kPETypeBSS : Int := 102

/-- `".text"`. -/
def kTextSection : List UInt8 := [0x2E, 0x74, 0x65, 0x78, 0x74]

/-- `".data"`. -/
def kDataSection : List UInt8 := [0x2E, 0x64, 0x61, 0x74, 0x61]

/-- `".bss"`. -/
def kBSSSection : List UInt8 := [0x2E, 0x62, 0x73, 0x73]

/-- The section that `FindSymbol` asks for first. -/
def sectionOfKind (kind : Int) : Option CString :=
  if kind = kPETypeData then some ⟨kDataSection, by simp [kDataSection]⟩
  else if kind = kPETypeBSS then some ⟨kBSSSection, by simp [kBSSSection]⟩
  else if kind = kPETypeText then some ⟨kTextSection, by simp [kTextSection]⟩
  else none

/-! ## The lookups -/

/-- The loop of `FindSectionByName` over `count` headers at `secs`: the offset of the first one that
has the name. -/
def namedSection (b : Blob) (name : CString) (secs count : Nat) : Checked (Option Nat) :=
  search (fun i => do
    let sect := secs + i * LDRSectionHeader.size
    if ← b.equals sect name.chars then return some sect else return none) count 0

/-- `PE32Loader::FindSectionByName`; `none` is a null name, or no section. -/
def findSectionByName (exec : PE32Loader) (name : Option CString) : Checked (Option Nat) :=
  match name with
  | none => return none
  | some name =>
    if exec.fBad then return none
    else do
      let header ← ldrFindExecHeaderChecked exec.image
      let opt ← ldrFindOptExecHeaderChecked exec.image
      match header, opt with
      | some header, some opt =>
        if (← exec.image.field header LDRExecHeader.machine) ≠ kPeMachineAMD64 then return none
        else if (← exec.image.field header LDRExecHeader.signature) ≠ kPeSignature then return none
        else if (← exec.image.field header LDRExecHeader.numberOfSections) < 1 then return none
        else if (← exec.image.field opt LDROptionalHeader.subsystem) ≠ kNeKernelPESubsystem then
          return none
        else do
          let secs := opt + (← exec.image.field header LDRExecHeader.sizeOfOptionalHeader)
          let count ← exec.image.field header LDRExecHeader.numberOfSections
          namedSection exec.image name secs count
      | _, _ => return none

/-- Export `i` in the loop of `FindSymbol`, the tables being at `names`, `ordinals` and `functions`:
the offset of the symbol, if the export has the name. -/
def exportStep (b : Blob) (name : CString) (names ordinals functions i : Nat) :
    Checked (Option Nat) := do
  let exportedName ← b.word (names + 4 * i) 4
  if ← b.equals exportedName name.chars then
    let ordinal ← b.word (ordinals + 2 * i) 2
    let rva ← b.word (functions + 4 * ordinal) 4
    return some rva
  else return none

/-- The tail of `FindSymbol`, behind the optional header at `opt`. -/
def findExport (b : Blob) (name : CString) (opt : Nat) : Checked (Option Nat) := do
  let dir := opt + LDROptionalHeader.size
  let exportDir ← b.field dir LDRDataDirectory.virtualAddress
  if exportDir = 0 then return none
  else if (← b.field dir LDRDataDirectory.dirSize) = 0 then return none
  else do
    let names ← b.field exportDir LDRExportDirectory.addressOfNames
    let ordinals ← b.field exportDir LDRExportDirectory.addressOfNameOrdinal
    let functions ← b.field exportDir LDRExportDirectory.addressOfFunctions
    let count ← b.field exportDir LDRExportDirectory.numberOfNames
    search (exportStep b name names ordinals functions) count 0

/-- `PE32Loader::FindSymbol`: the offset of the symbol in the blob. -/
def findPeSymbol (exec : PE32Loader) (name : Option CString) (kind : Int) : Checked (Option Nat) :=
  match name with
  | none => return none
  | some name =>
    if exec.fBad then return none
    else
      match sectionOfKind kind with
      | none => return none
      | some sectionName => do
        match ← findSectionByName exec (some sectionName) with
        | none => return none
        | some sec =>
          if (← exec.image.word sec 8) = 0 then return none
          else
            match ← ldrFindOptExecHeaderChecked exec.image with
            | none => return none
            | some opt => findExport exec.image name opt

/-! ## Where the tables lie -/

/-- The header of section `i`. -/
def PE32Loader.sectionOffset (exec : PE32Loader) (i : Nat) : Nat :=
  exec.sectOff + i * LDRSectionHeader.size

/-- The name of section `i` is `name`. -/
def PE32Loader.Named (exec : PE32Loader) (name : CString) (i : Nat) : Prop :=
  StandsAt exec.blob (exec.sectionOffset i) name.chars

/-- Section `i` is looked at: no earlier one has the name. -/
def PE32Loader.Reached (exec : PE32Loader) (name : CString) (i : Nat) : Prop :=
  i < exec.numberOfSections ∧ ∀ j < i, ¬ exec.Named name j

/-- Every section name that is looked at ends inside the blob, unless the signature is wrong and none
is. -/
def PE32Loader.NamesEnd (exec : PE32Loader) (name : CString) : Prop :=
  LDRExecHeader.signature.get exec.header = kPeSignature →
    ∀ i, exec.Reached name i → exec.image.Terminated (exec.sectionOffset i)

/-- The section with the name is found, as number `i`. -/
def PE32Loader.FoundAt (exec : PE32Loader) (name : CString) (i : Nat) : Prop :=
  LDRExecHeader.signature.get exec.header = kPeSignature ∧ exec.Reached name i ∧ exec.Named name i

/-- The tables of an export directory, as offsets. -/
structure ExportTables where
  names : Nat
  ordinals : Nat
  functions : Nat
  count : Nat

/-- The tables of the export directory at `dir`. -/
def exportTables (blob : Store) (dir : Nat) : ExportTables where
  names := LDRExportDirectory.addressOfNames.get (slice blob dir)
  ordinals := LDRExportDirectory.addressOfNameOrdinal.get (slice blob dir)
  functions := LDRExportDirectory.addressOfFunctions.get (slice blob dir)
  count := LDRExportDirectory.numberOfNames.get (slice blob dir)

namespace ExportTables

/-- The name of export `i`, as an offset. -/
def nameAt (t : ExportTables) (blob : Store) (i : Nat) : Nat := getLE blob (t.names + 4 * i) 4

/-- The ordinal of export `i`. -/
def ordinalAt (t : ExportTables) (blob : Store) (i : Nat) : Nat := getLE blob (t.ordinals + 2 * i) 2

/-- The entry of the function table for export `i`. -/
def functionAt (t : ExportTables) (blob : Store) (i : Nat) : Nat :=
  t.functions + 4 * t.ordinalAt blob i

/-- Export `i` has the name. -/
def Exports (t : ExportTables) (blob : Store) (name : CString) (i : Nat) : Prop :=
  StandsAt blob (t.nameAt blob i) name.chars

/-- All that is read for export `i` is inside the blob, and so is the symbol if it has the name. -/
structure EntryInside (t : ExportTables) (b : Blob) (name : CString) (i : Nat) : Prop where
  name_le : t.names + 4 * i + 4 ≤ b.len
  terminated : b.Terminated (t.nameAt b.bytes i)
  ordinal_le : t.Exports b.bytes name i → t.ordinals + 2 * i + 2 ≤ b.len
  function_le : t.Exports b.bytes name i → t.functionAt b.bytes i + 4 ≤ b.len
  symbol_lt : t.Exports b.bytes name i → getLE b.bytes (t.functionAt b.bytes i) 4 < b.len

/-- Every export that is looked at is inside the blob. -/
def Inside (t : ExportTables) (b : Blob) (name : CString) : Prop :=
  ∀ i < t.count, (∀ j < i, ¬ t.Exports b.bytes name j) → t.EntryInside b name i

end ExportTables

/-- The first data directory. -/
def dataDirectory : Nat := optOffset + LDROptionalHeader.size

/-- The data directory is inside the blob as far as it is read, and so are the export directory it
names and, in that, every export that is looked at. -/
def ExportsInside (b : Blob) (name : CString) : Prop :=
  dataDirectory + 4 ≤ b.len ∧
    let exportDir := LDRDataDirectory.virtualAddress.get (slice b.bytes dataDirectory)
    (exportDir ≠ 0 → dataDirectory + LDRDataDirectory.size ≤ b.len ∧
      (LDRDataDirectory.dirSize.get (slice b.bytes dataDirectory) ≠ 0 →
        exportDir + LDRExportDirectory.size ≤ b.len ∧
          (exportTables b.bytes exportDir).Inside b name))

/-- What a lookup of a section needs of the blob. -/
def SectionTableInside (exec : PE32Loader) (name : Option CString) : Prop :=
  ∀ n, name = some n → exec.NamesEnd n

/-- What a lookup of a symbol needs of the blob: what the lookup of the section needs, and if that is
found its first eight bytes and the exports. -/
def SymbolTablesInside (exec : PE32Loader) (name : Option CString) (kind : Int) : Prop :=
  ∀ n sect, name = some n → sectionOfKind kind = some sect →
    exec.NamesEnd sect ∧ ∀ i, exec.FoundAt sect i →
      exec.sectionOffset i + 8 ≤ exec.fCachedBlobSz ∧ ExportsInside exec.image n

/-! ## A lookup stays inside where its tables do -/

variable {exec : PE32Loader} {b : Blob} {name : CString} {P : Option Nat → Prop}

/-- The loop over the section names. -/
theorem returns_namedSection {secs count : Nat} : Returns (namedSection b name secs count) P ↔
    (∀ i < count, (∀ j < i, ¬ StandsAt b.bytes (secs + j * LDRSectionHeader.size) name.chars) →
      b.Terminated (secs + i * LDRSectionHeader.size) ∧
        (StandsAt b.bytes (secs + i * LDRSectionHeader.size) name.chars →
          P (some (secs + i * LDRSectionHeader.size)))) ∧
    ((∀ i < count, ¬ StandsAt b.bytes (secs + i * LDRSectionHeader.size) name.chars) → P none) := by
  have hstep : ∀ i (Q : Option Nat → Prop),
      Returns (do
        let sect := secs + i * LDRSectionHeader.size
        if ← b.equals sect name.chars then return some sect else return none) Q ↔
      b.Terminated (secs + i * LDRSectionHeader.size) ∧
        Q (if StandsAt b.bytes (secs + i * LDRSectionHeader.size) name.chars then
          some (secs + i * LDRSectionHeader.size) else none) := by
    intro i Q
    rw [returns_bind, Blob.returns_equals name.noNul]
    refine and_congr_right fun _ => ?_
    by_cases h : StandsAt b.bytes (secs + i * LDRSectionHeader.size) name.chars
    · simp [h]
    · simp [h]
  rw [namedSection, returns_search hstep]
  simp only [Nat.zero_le, Nat.zero_add, forall_const, ite_eq_right_iff, reduceCtorEq, imp_false,
    Option.ite_none_right_eq_some, Option.some.injEq, and_imp, forall_apply_eq_imp_iff]

/-- The loop over the exports. -/
theorem returns_exports (t : ExportTables) {R : Nat → Prop} :
    (Returns (search (exportStep b name t.names t.ordinals t.functions) t.count 0) fun r =>
      ∀ rva, r = some rva → R rva) ↔
    ∀ i < t.count, (∀ j < i, ¬ t.Exports b.bytes name j) →
      t.names + 4 * i + 4 ≤ b.len ∧ b.Terminated (t.nameAt b.bytes i) ∧
        (t.Exports b.bytes name i → t.ordinals + 2 * i + 2 ≤ b.len ∧
          t.functionAt b.bytes i + 4 ≤ b.len ∧ R (getLE b.bytes (t.functionAt b.bytes i) 4)) := by
  have hstep : ∀ i (Q : Option Nat → Prop),
      Returns (exportStep b name t.names t.ordinals t.functions i) Q ↔
      (t.names + 4 * i + 4 ≤ b.len ∧ b.Terminated (t.nameAt b.bytes i) ∧
        (t.Exports b.bytes name i → t.ordinals + 2 * i + 2 ≤ b.len ∧
          t.functionAt b.bytes i + 4 ≤ b.len)) ∧
      Q (if StandsAt b.bytes (t.nameAt b.bytes i) name.chars then
        some (getLE b.bytes (t.functionAt b.bytes i) 4) else none) := by
    intro i Q
    simp only [exportStep, returns_bind, Blob.returns_word, Blob.returns_equals name.noNul,
      returns_ite, returns_pure, decide_eq_true_eq, ExportTables.Exports, ExportTables.functionAt,
      ExportTables.ordinalAt, ExportTables.nameAt]
    -- the tables behind the names are read for the name that matches only
    by_cases h : StandsAt b.bytes (getLE b.bytes (t.names + 4 * i) 4) name.chars
    · simp only [h, forall_const, not_true_eq_false, false_imp_iff, and_true, if_true, and_assoc]
    · simp only [h, false_imp_iff, not_false_eq_true, forall_const, true_and, and_true, if_false,
        and_assoc]
  rw [returns_search hstep]
  simp only [Nat.zero_le, Nat.zero_add, forall_const, ite_eq_right_iff, reduceCtorEq, imp_false,
    Option.ite_none_right_eq_some, Option.some.injEq, and_imp, forall_apply_eq_imp_iff]
  constructor
  · rintro ⟨h, -⟩ i hi hno
    obtain ⟨⟨hname, hterm, htables⟩, hR⟩ := h i hi hno
    exact ⟨hname, hterm, fun he => ⟨(htables he).1, (htables he).2, hR he _ rfl⟩⟩
  · intro h
    refine ⟨fun i hi hno => ?_, fun _ _ hf => hf.elim⟩
    obtain ⟨hname, hterm, htables⟩ := h i hi hno
    exact ⟨⟨hname, hterm, fun he => ⟨(htables he).1, (htables he).2.1⟩⟩,
      fun he rva hrva => hrva ▸ (htables he).2.2⟩

/-- The loop over the exports stays inside where the tables do. -/
theorem returns_exportTables (t : ExportTables) :
    (Returns (search (exportStep b name t.names t.ordinals t.functions) t.count 0) fun r =>
      ∀ rva, r = some rva → rva < b.len) ↔ t.Inside b name := by
  rw [returns_exports]
  refine forall₃_congr fun i _ _ => ⟨fun h => ?_, fun h => ?_⟩
  · exact ⟨h.1, h.2.1, fun he => (h.2.2 he).1, fun he => (h.2.2 he).2.1, fun he => (h.2.2 he).2.2⟩
  · exact ⟨h.name_le, h.terminated, fun he => ⟨h.ordinal_le he, h.function_le he, h.symbol_lt he⟩⟩

/-- The exports behind the optional header. -/
theorem returns_findExport : (Returns (findExport b name optOffset) fun r =>
    ∀ rva, r = some rva → rva < b.len) ↔ ExportsInside b name := by
  have hdir : optOffset + LDROptionalHeader.size = dataDirectory := rfl
  simp only [findExport, returns_bind, Blob.returns_field, returns_ite, returns_pure, hdir,
    reduceCtorEq, false_imp_iff, implies_true, true_and]
  refine and_congr Iff.rfl (imp_congr_right fun _ => and_congr Iff.rfl (imp_congr_right fun _ => ?_))
  -- of the four fields of the export directory the ordinals are the last
  generalize LDRDataDirectory.virtualAddress.get (slice b.bytes dataDirectory) = dir
  have hloop : _ ↔ (exportTables b.bytes dir).Inside b name := returns_exportTables _
  constructor
  · rintro ⟨-, hlast, -, -, hexports⟩
    exact ⟨hlast, hloop.mp hexports⟩
  · rintro ⟨hlast, hexports⟩
    simp only [LDRExportDirectory.size] at hlast
    refine ⟨?_, hlast, ?_, ?_, hloop.mpr hexports⟩
    · simp only [LDRExportDirectory.addressOfNames]
      omega
    · simp only [LDRExportDirectory.addressOfFunctions]
      omega
    · simp only [LDRExportDirectory.numberOfNames]
      omega

/-- A lookup of a section in a headed blob. -/
theorem Headed.returns_findSection (h : Headed exec) (hok : exec.fBad = false) :
    Returns (findSectionByName exec (some name)) P ↔
      exec.NamesEnd name ∧ (∀ i, exec.FoundAt name i → P (some (exec.sectionOffset i))) ∧
        ((∀ i, ¬ exec.FoundAt name i) → P none) := by
  obtain ⟨⟨hcount, hopt⟩, -⟩ := fields_inside
  have hsig : LDRExecHeader.signature.Inside LDRExecHeader.size := by decide
  have hmachine : LDRExecHeader.machine.Inside LDRExecHeader.size := by decide
  have hsub : LDROptionalHeader.subsystem.Inside LDROptionalHeader.size := by decide
  have hbad : ¬ exec.fBad = true := by
    rw [hok]
    exact Bool.noConfusion
  have hfind : Returns (findSectionByName exec (some name)) P ↔
      (LDRExecHeader.signature.get exec.header ≠ kPeSignature → P none) ∧
      (LDRExecHeader.signature.get exec.header = kPeSignature →
        Returns (namedSection exec.image name exec.sectOff exec.numberOfSections) P) := by
    simp only [findSectionByName, if_neg hbad, h.execHeader, h.optHeader, returns_bind, returns_ok,
      h.returns_header hmachine, h.returns_header hsig, h.returns_header hcount,
      h.returns_header hopt, h.returns_opt hsub, returns_ite, returns_pure, h.machine, h.subsystem,
      ne_eq, not_true_eq_false, false_imp_iff, true_and, forall_const, not_not]
    refine and_congr_right fun _ => imp_congr_right fun _ => ?_
    by_cases h0 : exec.numberOfSections < 1
    · -- without a section the loop is empty
      have hnone : Returns (namedSection exec.image name exec.sectOff exec.numberOfSections) P ↔
          P none := by
        rw [Nat.lt_one_iff.mp h0]
        exact returns_pure
      rw [hnone]
      exact ⟨fun hP => hP.1 h0, fun hP => ⟨fun _ => hP, fun hno => absurd h0 hno⟩⟩
    · exact ⟨fun hP => hP.2 h0, fun hP => ⟨fun hlt => absurd hlt h0, fun _ => hP⟩⟩
  rw [hfind, returns_namedSection]
  by_cases hs : LDRExecHeader.signature.get exec.header = kPeSignature
  · constructor
    · rintro ⟨-, hP⟩
      obtain ⟨hnames, hnone⟩ := hP hs
      refine ⟨fun _ i hi => (hnames i hi.1 hi.2).1, fun i hi => ?_, fun hno => ?_⟩
      · exact (hnames i hi.2.1.1 hi.2.1.2).2 hi.2.2
      · refine hnone fun i hi => ?_
        induction i using Nat.strong_induction_on with
        | h i ih => exact fun hnamed => hno i ⟨hs, ⟨hi, fun j hj => ih j hj (by omega)⟩, hnamed⟩
    · rintro ⟨hend, hfound, hnone⟩
      refine ⟨fun hne => absurd hs hne, fun _ => ⟨fun i hi hno => ?_, fun hno => ?_⟩⟩
      · exact ⟨hend hs i ⟨hi, hno⟩, fun hnamed => hfound i ⟨hs, ⟨hi, hno⟩, hnamed⟩⟩
      · exact hnone fun i hi => hno i hi.2.1.1 hi.2.2
  · constructor
    · rintro ⟨hP, -⟩
      exact ⟨fun h => absurd h hs, fun i hi => absurd hi.1 hs, fun _ => hP hs⟩
    · rintro ⟨-, -, hP⟩
      exact ⟨fun _ => hP fun i hi => hs hi.1, fun h => absurd h hs⟩

/-! ## The lookups as a whole -/

/-- A lookup of a section reads inside the blob, and the header it returns is inside. -/
def SectionLookupInside (exec : PE32Loader) (name : Option CString) : Prop :=
  Returns (findSectionByName exec name) fun r => ∀ sect, r = some sect → sect < exec.fCachedBlobSz

/-- A lookup of a symbol reads inside the blob, and the symbol it returns is inside. -/
def SymbolLookupInside (exec : PE32Loader) (name : Option CString) (kind : Int) : Prop :=
  Returns (findPeSymbol exec name kind) fun r => ∀ rva, r = some rva → rva < exec.fCachedBlobSz

theorem Headed.sectionLookup_iff (h : Headed exec) (hok : exec.fBad = false)
    (name : Option CString) : SectionLookupInside exec name ↔ SectionTableInside exec name := by
  cases name with
  | none =>
      refine iff_of_true (returns_pure.mpr fun _ h => ?_) fun _ h => ?_
      · cases h
      · cases h
  | some name =>
      rw [SectionLookupInside, h.returns_findSection hok]
      constructor
      · rintro ⟨hend, -⟩ n hn
        cases hn
        exact hend
      · intro hend
        refine ⟨hend name rfl, fun i hi sect hsect => ?_, fun _ _ h => ?_⟩
        · -- the terminator of its name is behind it
          obtain ⟨k, hk, -⟩ := hend name rfl hi.1 i hi.2.1
          cases hsect
          exact (Nat.le_add_right _ _).trans_lt hk
        · cases h

/-- A section name of `FindSymbol` is no null pointer when its first eight bytes are read as one. -/
theorem sectionOfKind_head {kind : Int} {sect : CString} (hs : sectionOfKind kind = some sect)
    {m : Store} {off : Nat} (h : StandsAt m off sect.chars) : getLE m off 8 ≠ 0 := by
  intro h0
  have hfirst := getLE_eq_zero_iff.mp h0 0 (by decide)
  unfold sectionOfKind at hs
  have hdot : m off = 0x2E := by
    split at hs
    · cases hs
      exact (standsAt_cons.mp h).1
    · split at hs
      · cases hs
        exact (standsAt_cons.mp h).1
      · split at hs
        · cases hs
          exact (standsAt_cons.mp h).1
        · cases hs
  rw [Nat.add_zero, hdot] at hfirst
  exact absurd hfirst (by decide)

/-- What `FindSymbol` does with the section it has found. -/
theorem Headed.returns_foundSection (h : Headed exec) {i : Nat} {sect : CString} {kind : Int}
    (hs : sectionOfKind kind = some sect) (hi : exec.Named sect i) :
    (Returns (do
        if (← exec.image.word (exec.sectionOffset i) 8) = 0 then return none
        else
          match ← ldrFindOptExecHeaderChecked exec.image with
          | none => return none
          | some opt => findExport exec.image name opt) fun r =>
      ∀ rva, r = some rva → rva < exec.fCachedBlobSz) ↔
    exec.sectionOffset i + 8 ≤ exec.fCachedBlobSz ∧ ExportsInside exec.image name := by
  have hne : getLE exec.image.bytes (exec.sectionOffset i) 8 ≠ 0 := sectionOfKind_head hs hi
  rw [returns_bind, Blob.returns_word, if_neg hne, returns_bind, h.optHeader, returns_ok]
  exact and_congr_right fun _ => returns_findExport

theorem Headed.symbolLookup_iff (h : Headed exec) (hok : exec.fBad = false)
    (name : Option CString) (kind : Int) :
    SymbolLookupInside exec name kind ↔ SymbolTablesInside exec name kind := by
  have hbad : ¬ exec.fBad = true := by
    rw [hok]
    exact Bool.noConfusion
  have hnone : Returns (return none) fun r => ∀ rva, r = some rva → rva < exec.fCachedBlobSz :=
    returns_pure.mpr fun _ h => by cases h
  cases name with
  | none => exact iff_of_true hnone fun _ _ h => by cases h
  | some name =>
      rw [SymbolLookupInside, findPeSymbol, if_neg hbad]
      cases hs : sectionOfKind kind with
      | none =>
          refine iff_of_true hnone fun _ sect _ h => ?_
          rw [hs] at h
          cases h
      | some sect =>
          rw [returns_bind, h.returns_findSection hok]
          constructor
          · rintro ⟨hend, hfound, -⟩ n sect' hn hs'
            cases hn
            obtain rfl : sect = sect' := Option.some.inj (hs.symm.trans hs')
            exact ⟨hend, fun i hi => (h.returns_foundSection hs hi.2.2).mp (hfound i hi)⟩
          · intro hall
            obtain ⟨hend, hfound⟩ := hall name sect rfl hs
            exact ⟨hend, fun i hi => (h.returns_foundSection hs hi.2.2).mpr (hfound i hi),
              fun _ => hnone⟩

/-- **Nothing bounds the lookups but the blob itself.** The constructor of the PEF loader stays inside
the blob exactly when the container reaches as far as `Count`, or as far as an `Abi` that is not the
right one. In a blob that the PE32+ constructor accepts the lookups of sections and symbols stay
inside exactly when the tables they come by do. -/
theorem reads_inside_iff (blob : Store) (len : Nat) :
    ((Returns (pefLoaderChecked ⟨blob, len⟩) fun _ => True) ↔ ContainerReached ⟨blob, len⟩) ∧
      (pe32Bad blob len = false → ∀ name,
        (SectionLookupInside (pe32Loader blob len) name ↔
          SectionTableInside (pe32Loader blob len) name) ∧
        ∀ kind, SymbolLookupInside (pe32Loader blob len) name kind ↔
          SymbolTablesInside (pe32Loader blob len) name kind) := by
  refine ⟨?_, fun hok name => ?_⟩
  · exact ⟨containerReached_of_returns, fun h => ⟨_, pefLoaderChecked_eq h, trivial⟩⟩
  · have h : Headed (pe32Loader blob len) := headed_of_accepted hok 0
    exact ⟨h.sectionLookup_iff hok name, h.symbolLookup_iff hok name⟩

/-- `twoSections` with a signature, the names `.text` and `.data` and the exports `start` at 384 and
`table` at 400. The export directory is at 336, and its tables are at 408, 416 and 424. -/
def exportBlob : Store :=
  let named := putLE (blit (blit twoSections 256 8 fun i => kTextSection.getD i 0)
    296 8 fun i => kDataSection.getD i 0) 128 4 kPeSignature
  let listed := blit (blit named
    248 8 (LDRDataDirectory.virtualAddress.set 336 <| LDRDataDirectory.dirSize.set 40 zeros))
    336 40 (LDRExportDirectory.numberOfNames.set 2 <| LDRExportDirectory.addressOfFunctions.set 408 <|
      LDRExportDirectory.addressOfNames.set 416 <| LDRExportDirectory.addressOfNameOrdinal.set 424 zeros)
  let tables := putWords (putWords (putWords listed 408 4 (fun i => [384, 400].getD i 0) 2)
    416 4 (fun i => [428, 434].getD i 0) 2) 424 2 (fun i => i) 2
  blit tables 428 12 fun i =>
    [0x73, 0x74, 0x61, 0x72, 0x74, 0, 0x74, 0x61, 0x62, 0x6C, 0x65, 0].getD i 0

/-- `"table"`. -/
def kTableName : CString := ⟨[0x74, 0x61, 0x62, 0x6C, 0x65], by simp⟩

theorem reads_inside_iff_exports : pe32Bad exportBlob 440 = false ∧
    (findPeSymbol (pe32Loader exportBlob 440) (some kTableName) kPETypeData).toOption =
      some (some 400) ∧
    SymbolTablesInside (pe32Loader exportBlob 440) (some kTableName) kPETypeData := by
  have hok : pe32Bad exportBlob 440 = false := by decide +kernel
  have hfound : (findPeSymbol (pe32Loader exportBlob 440) (some kTableName) kPETypeData).toOption =
      some (some 400) := by decide +kernel
  have hin : SymbolLookupInside (pe32Loader exportBlob 440) (some kTableName) kPETypeData := by
    rw [SymbolLookupInside]
    generalize findPeSymbol (pe32Loader exportBlob 440) (some kTableName) kPETypeData = x at hfound
    cases x with
    | ok r =>
        obtain rfl : r = some 400 := Option.some.inj hfound
        exact returns_ok.mpr fun rva h => Option.some.inj h ▸ (by decide : 400 < 440)
    | error e => cases hfound
  have hiff := ((reads_inside_iff exportBlob 440).2 hok (some kTableName)).2 kPETypeData
  exact ⟨hok, hfound, hiff.mp hin⟩

/-- An image with a signature and one section, whose header is at 248 and whose name is empty. -/
def signedBlob : Store := putLE (sampleExec 0x40000000).blob 128 4 kPeSignature

/-- `".text"` as a name. -/
def kTextName : CString := ⟨kTextSection, by simp [kTextSection]⟩

/-- A PEF blob that ends in front of the end of `Abi`, and a PE32+ blob that ends in front of its
section table and is accepted. -/
theorem lookups_leave_the_blob : ¬ (∀ b : Blob, Returns (pefLoaderChecked b) fun _ => True) ∧
    ¬ ∀ blob len, pe32Bad blob len = false → ∀ name,
      SectionLookupInside (pe32Loader blob len) name := by
  refine ⟨fun h => ?_, fun h => ?_⟩
  · exact absurd (containerReached_of_returns (h ⟨zeros, 20⟩)).1 (by decide)
  · have hok : pe32Bad signedBlob 248 = false := rfl
    have hheaded : Headed (pe32Loader signedBlob 248) := headed_of_accepted hok 0
    have hin := (hheaded.sectionLookup_iff hok (some kTextName)).mp (h signedBlob 248 hok _)
    have hreached : (pe32Loader signedBlob 248).Reached kTextName 0 :=
      ⟨by decide, fun j hj => absurd hj (Nat.not_lt_zero j)⟩
    obtain ⟨k, hk, -⟩ := hin kTextName rfl rfl 0 hreached
    have hat : (pe32Loader signedBlob 248).sectionOffset 0 = 248 := rfl
    rw [hat] at hk
    exact absurd hk (Nat.not_lt.mpr (Nat.le_add_right 248 k))

end NeKernel.KernelKit
