import NeKernel.KernelKit.SectionsKept
import NeKernel.Lib.CheckedReads

/-!
# What the PEF loader reads

`pef_read_container`, `pef_find_section` and the constructor again, with every read of the blob
and every difference and product checked. Whatever the blob holds and however short it is,
`pef_find_section` comes to its end without reading behind the blob and finds what the unchecked loop
finds (`pefFindSectionChecked_eq`).
-/

namespace NeKernel.KernelKit

open ByteStore CheckedReads

/-- `pef_read_container` of a blob that is there: the container it copies, on `YES`. -/
def pefReadContainerChecked (b : Blob) : Checked (Option Store) :=
  if b.len < PEFContainer.size then return none
  else do
    let out ← b.block 0 PEFContainer.size
    if pefMagicEq out kPefMagic = false ∧ pefMagicEq out kPefMagicFat = false then return none
    else if PEFContainer.abi.get out ≠ kPefAbi then return none
    else if PEFContainer.count.get out < 1 ∨ PEFContainer.count.get out > kPefMaxSections then
      return none
    else do
      let room ← sub b.len PEFContainer.size
      if PEFContainer.count.get out > room / PEFCommandHeader.size then return none
      else return some out

/-- The checks on the content of a section, which stands in the file. -/
def contentOkChecked (len tableSz : Nat) (out : Store) : Checked Bool :=
  if PEFCommandHeader.offset.get out > len then return false
  else do
    let rest ← sub len (PEFCommandHeader.offset.get out)
    if PEFCommandHeader.offsetSize.get out > rest then return false
    else do
      let table ← add 64 PEFContainer.size tableSz
      return !decide (PEFCommandHeader.offset.get out < table)

/-- The checks of `pef_find_section` on a header of the right name and kind. -/
def sectionOkChecked (len tableSz : Nat) (isFat : Bool) (out : Store) : Checked Bool :=
  if PEFCommandHeader.cpu.get out ≠ kPefArchAMD64 ∧ isFat = false then return false
  else if PEFCommandHeader.vmSize.get out < 1 ∨ PEFCommandHeader.vmSize.get out > kPefMaxImageSz then
    return false
  else if PEFCommandHeader.vmAddress.get out < kPefBaseOrigin then return false
  else do
    let above ← sub (PEFCommandHeader.vmAddress.get out) kPefBaseOrigin
    let room ← sub kPefMaxImageSz (PEFCommandHeader.vmSize.get out)
    if above > room then return false
    else if PEFCommandHeader.offsetSize.get out > PEFCommandHeader.vmSize.get out then return false
    else if PEFCommandHeader.offsetSize.get out > 0 then contentOkChecked len tableSz out
    else return true

/-- Header `i` in the loop of `pef_find_section`: `none` goes on, and otherwise the loop returns, with
the header on `YES`. -/
def headerStep (b : Blob) (name : List UInt8) (kind : Int) (isFat : Bool) (tableSz i : Nat) :
    Checked (Option (Option Store)) := do
  let entry ← mul 64 i PEFCommandHeader.size
  let off ← add 64 PEFContainer.size entry
  let out ← b.block off PEFCommandHeader.size
  if (PEFCommandHeader.kind.get out : Int) ≠ kind ∨ pefNameEq out name = false then return none
  else do
    let good ← sectionOkChecked b.len tableSz isFat out
    return some (if good then some out else none)

/-- `pef_find_section`; `kind` is signed and wider than the field. -/
def pefFindSectionChecked (b : Blob) (name : List UInt8) (kind : Int) : Checked (Option Store) := do
  match ← pefReadContainerChecked b with
  | none => return none
  | some container =>
    let isFat := pefMagicEq container kPefMagicFat
    let tableSz ← mul 64 (PEFContainer.count.get container) PEFCommandHeader.size
    let r ← search (headerStep b name kind isFat tableSz) (PEFContainer.count.get container) 0
    return r.join

/-- `PEFLoader::PEFLoader` on a blob that is there, up to `fBad`. Nothing is checked against the length
of the blob. -/
def pefLoaderChecked (b : Blob) : Checked Bool := do
  if (← b.field 0 PEFContainer.abi) ≠ kPefAbi then return true
  else if (← b.field 0 PEFContainer.count) < 3 then return true
  else do
    let cpu ← b.field 0 PEFContainer.cpu
    let isPlain ← if cpu = kPefArchAMD64 then b.startsWith (kPefMagic ++ [0]) 0 else pure false
    if isPlain then return false
    else do
      let isFat ← b.startsWith (kPefMagicFat ++ [0]) 0
      return !isFat

/-! ## The checked loop is the loop -/

variable {b : Blob} {hdr out : Store} {name : List UInt8} {kind : Int} {len tableSz n i : Nat}
  {isFat : Bool}

theorem slice_zero (m : Store) : slice m 0 = m := by
  funext i
  rw [slice_apply, Nat.zero_add]

theorem pefReadContainer_iff : pefReadContainer b.bytes b.len = true ↔
    PEFContainer.size ≤ b.len ∧
      ¬ (pefMagicEq b.bytes kPefMagic = false ∧ pefMagicEq b.bytes kPefMagicFat = false) ∧
      PEFContainer.abi.get b.bytes = kPefAbi ∧ 1 ≤ PEFContainer.count.get b.bytes ∧
      PEFContainer.count.get b.bytes ≤ kPefMaxSections ∧
      PEFContainer.count.get b.bytes ≤ (b.len - PEFContainer.size) / PEFCommandHeader.size := by
  simp only [pefReadContainer, Bool.and_eq_true, Bool.or_eq_true, decide_eq_true_eq, beq_iff_eq,
    and_assoc, not_and_or, Bool.not_eq_false]

/-- The headers behind the container are inside the blob. -/
theorem pefReadContainer_table (h : pefReadContainer b.bytes b.len = true) :
    PEFContainer.count.get b.bytes ≤ kPefMaxSections ∧
      PEFContainer.size + PEFContainer.count.get b.bytes * PEFCommandHeader.size ≤ b.len := by
  obtain ⟨hsize, -, -, -, hmax, hcount⟩ := pefReadContainer_iff.mp h
  rw [Nat.le_div_iff_mul_le (by decide)] at hcount
  exact ⟨hmax, by omega⟩

theorem pefReadContainerChecked_eq : pefReadContainerChecked b =
    .ok (if pefReadContainer b.bytes b.len then some b.bytes else none) := by
  rw [← returns_eq]
  simp only [pefReadContainerChecked, returns_ite, returns_pure, returns_bind, Blob.returns_block,
    slice_zero, returns_sub]
  by_cases h : pefReadContainer b.bytes b.len = true
  · rw [if_pos h]
    obtain ⟨hsize, hmagic, habi, hmin, hmax, hcount⟩ := pefReadContainer_iff.mp h
    have hcount' := Nat.not_lt.mpr hcount
    refine ⟨fun hlt => absurd hsize (Nat.not_le.mpr hlt), fun _ => ⟨by omega, fun h => absurd h hmagic,
      fun _ => ⟨fun h => absurd habi h, fun _ => ⟨fun h => by omega, fun _ => ⟨hsize, fun h => ?_,
        fun _ => rfl⟩⟩⟩⟩⟩
    exact absurd h hcount'
  · rw [if_neg h]
    refine ⟨fun _ => rfl, fun hsize => ⟨by omega, fun _ => rfl, fun hmagic => ⟨fun _ => rfl,
      fun habi => ⟨fun _ => rfl, fun hcount => ⟨by omega, fun _ => rfl, fun hroom => ?_⟩⟩⟩⟩⟩
    refine absurd (pefReadContainer_iff.mpr ⟨by omega, hmagic, not_not.mp habi, by omega, by omega, ?_⟩) h
    exact Nat.not_lt.mp hroom

theorem contentOkChecked_eq (htable : PEFContainer.size + tableSz < 2 ^ 64) :
    contentOkChecked len tableSz out = .ok (decide
      (PEFCommandHeader.offset.get out ≤ len ∧
        PEFCommandHeader.offsetSize.get out ≤ len - PEFCommandHeader.offset.get out ∧
        PEFContainer.size + tableSz ≤ PEFCommandHeader.offset.get out)) := by
  rw [← returns_eq]
  simp only [contentOkChecked, returns_ite, returns_pure, returns_bind, returns_sub, returns_add]
  grind

theorem sectionOkChecked_eq (htable : PEFContainer.size + tableSz < 2 ^ 64) :
    sectionOkChecked len tableSz isFat out = .ok (decide (SectionOk len tableSz isFat out)) := by
  rw [← returns_eq]
  simp only [sectionOkChecked, returns_ite, returns_pure, returns_bind, returns_sub,
    contentOkChecked_eq htable, returns_ok]
  -- each check that fails is a conjunct of `SectionOk` that does, and each that passes is kept
  refine ⟨fun hcpu => ?_, fun hcpu => ⟨fun hsize => ?_, fun hsize => ⟨fun hbase => ?_, fun hbase =>
    ⟨by omega, by omega, fun hroom => ?_, fun hroom => ⟨fun hfile => ?_, fun hfile =>
      ⟨fun hsome => ?_, fun hnone => ?_⟩⟩⟩⟩⟩⟩
  · refine (decide_eq_false fun h => ?_).symm
    rcases h.1 with h | h
    · exact hcpu.1 h
    · exact Bool.noConfusion (h.symm.trans hcpu.2)
  · refine (decide_eq_false fun h => ?_).symm
    obtain ⟨-, hmin, hmax, -⟩ := h
    omega
  · refine (decide_eq_false fun h => ?_).symm
    exact absurd h.2.2.2.1 (Nat.not_le.mpr hbase)
  · refine (decide_eq_false fun h => ?_).symm
    exact absurd h.2.2.2.2.1 (Nat.not_le.mpr hroom)
  · refine (decide_eq_false fun h => ?_).symm
    exact absurd h.2.2.2.2.2.1 (Nat.not_le.mpr hfile)
  · rw [not_and_or, not_not, Bool.not_eq_false] at hcpu
    refine decide_eq_decide.mpr ⟨fun h => ?_, fun h => h.2.2.2.2.2.2 hsome⟩
    exact ⟨hcpu, by omega, by omega, by omega, by omega, by omega,
      fun _ => h⟩
  · rw [not_and_or, not_not, Bool.not_eq_false] at hcpu
    refine (decide_eq_true ?_).symm
    exact ⟨hcpu, by omega, by omega, by omega, by omega, by omega,
      fun h => absurd h hnone⟩

/-- The header in front of which the loop stands. -/
theorem headerStep_eq (htable : PEFContainer.size + tableSz < 2 ^ 64)
    (hentry : PEFContainer.size + (i + 1) * PEFCommandHeader.size ≤ b.len)
    (hi : i < kPefMaxSections) :
    headerStep b name kind isFat tableSz i = .ok
      (if (PEFCommandHeader.kind.get (headerAt b.bytes i) : Int) ≠ kind ∨
          pefNameEq (headerAt b.bytes i) name = false then none
        else some (if SectionOk b.len tableSz isFat (headerAt b.bytes i) then
          some (headerAt b.bytes i) else none)) := by
  have hoff : i * PEFCommandHeader.size < 2 ^ 64 ∧
      PEFContainer.size + i * PEFCommandHeader.size < 2 ^ 64 ∧
      PEFContainer.size + i * PEFCommandHeader.size + PEFCommandHeader.size ≤ b.len := by
    simp only [kPefMaxSections, PEFContainer.size, PEFCommandHeader.size] at *
    omega
  rw [← returns_eq]
  simp only [headerStep, returns_bind, returns_mul, returns_add, Blob.returns_block, returns_ite,
    returns_pure, sectionOkChecked_eq htable, returns_ok, decide_eq_true_eq]
  refine ⟨hoff.1, hoff.2.1, hoff.2.2, fun h => (if_pos h).symm, fun h => (if_neg h).symm⟩

/-- The checked loop from header `i` on is the loop. -/
theorem search_headerStep (hread : pefReadContainer b.bytes b.len = true)
    (hn : i + n = PEFContainer.count.get b.bytes) :
    Returns (search (headerStep b name kind (pefMagicEq b.bytes kPefMagicFat)
        (PEFContainer.count.get b.bytes * PEFCommandHeader.size)) n i) fun r =>
      r.join = if kind < 0 then none else pefFindFrom b.bytes b.len name kind.toNat n i := by
  obtain ⟨hmax, htable⟩ := pefReadContainer_table hread
  have hsmall : PEFContainer.size + PEFContainer.count.get b.bytes * PEFCommandHeader.size <
      2 ^ 64 := by
    simp only [kPefMaxSections, PEFContainer.size, PEFCommandHeader.size] at *
    omega
  induction n generalizing i with
  | zero =>
      rw [search, returns_pure, pefFindFrom]
      split <;> rfl
  | succ n ih =>
      have hentry : PEFContainer.size + (i + 1) * PEFCommandHeader.size ≤ b.len := by
        have hle : i + 1 ≤ PEFContainer.count.get b.bytes := by omega
        have := Nat.mul_le_mul_right PEFCommandHeader.size hle
        omega
      have hi : i < kPefMaxSections := by omega
      rw [search, returns_bind, headerStep_eq hsmall hentry hi, returns_ok]
      -- the field is never negative, and the conversion of `kind` loses nothing otherwise
      have hkind : 0 ≤ kind → ((PEFCommandHeader.kind.get (headerAt b.bytes i) : Int) ≠ kind ↔
          PEFCommandHeader.kind.get (headerAt b.bytes i) ≠ kind.toNat) := by omega
      by_cases hgo : (PEFCommandHeader.kind.get (headerAt b.bytes i) : Int) ≠ kind ∨
          pefNameEq (headerAt b.bytes i) name = false
      · rw [if_pos hgo]
        refine Returns.mono (ih (by omega)) fun r hr => ?_
        rw [hr]
        by_cases hneg : kind < 0
        · rw [if_pos hneg, if_pos hneg]
        · rw [hkind (by omega)] at hgo
          rw [if_neg hneg, if_neg hneg, pefFindFrom]
          exact (if_pos hgo).symm
      · have hneg : ¬ kind < 0 := by omega
        rw [if_neg hgo]
        rw [hkind (by omega)] at hgo
        refine returns_pure.mpr ?_
        rw [if_neg hneg, pefFindFrom]
        exact (if_neg hgo).symm

/-- **`pef_find_section` stays inside the blob**, none of its sums, products and differences wraps,
and it finds what the unchecked function finds. -/
theorem pefFindSectionChecked_eq : pefFindSectionChecked b name kind =
    .ok (if kind < 0 then none else pefFindSection b.bytes b.len name kind.toNat) := by
  rw [← returns_eq]
  simp only [pefFindSectionChecked, pefReadContainerChecked_eq, returns_bind, returns_ok,
    pefFindSection]
  by_cases hread : pefReadContainer b.bytes b.len = true
  · obtain ⟨hmax, htable⟩ := pefReadContainer_table hread
    rw [if_pos hread]
    simp only [returns_bind, returns_mul, returns_pure, if_pos hread]
    refine ⟨?_, search_headerStep hread (Nat.zero_add _)⟩
    simp only [kPefMaxSections, PEFCommandHeader.size] at *
    omega
  · rw [if_neg hread, if_neg hread]
    simp only [returns_pure, ite_self]

/-! ## What a header that is found says -/

/-- What the header of a section promises of a blob of `len` bytes. -/
structure SectionFits (blob : Store) (len : Nat) (hdr : Store) : Prop where
  some_bytes : 1 ≤ PEFCommandHeader.vmSize.get hdr
  size_le : PEFCommandHeader.vmSize.get hdr ≤ kPefMaxImageSz
  noWrap : PEFCommandHeader.vmAddress.get hdr + PEFCommandHeader.vmSize.get hdr < 2 ^ 64
  inWindow : Set.Ico (PEFCommandHeader.vmAddress.get hdr)
    (PEFCommandHeader.vmAddress.get hdr + PEFCommandHeader.vmSize.get hdr) ⊆ imageWindow
  file_le : PEFCommandHeader.offsetSize.get hdr ≤ PEFCommandHeader.vmSize.get hdr
  contentNoWrap : 0 < PEFCommandHeader.offsetSize.get hdr →
    PEFCommandHeader.offset.get hdr + PEFCommandHeader.offsetSize.get hdr < 2 ^ 64
  pastTable : 0 < PEFCommandHeader.offsetSize.get hdr →
    PEFContainer.size + PEFContainer.count.get blob * PEFCommandHeader.size ≤
      PEFCommandHeader.offset.get hdr
  content_le : 0 < PEFCommandHeader.offsetSize.get hdr →
    PEFCommandHeader.offset.get hdr + PEFCommandHeader.offsetSize.get hdr ≤ len

theorem sectionFits_of_ok {blob : Store} (hlen : len < 2 ^ 64)
    (h : SectionOk len (PEFContainer.count.get blob * PEFCommandHeader.size) isFat hdr) :
    SectionFits blob len hdr := by
  obtain ⟨-, hmin, hmax, hbase, hroom, hfile, hcontent⟩ := h
  have hwindow : PEFCommandHeader.vmAddress.get hdr + PEFCommandHeader.vmSize.get hdr ≤
      kPefBaseOrigin + kPefMaxImageSz := by omega
  refine ⟨hmin, hmax, hwindow.trans_lt (by decide), ?_, hfile, fun h0 => ?_, fun h0 => ?_,
    fun h0 => ?_⟩
  · exact Set.Ico_subset_Ico hbase hwindow
  · obtain ⟨hoff, hend, -⟩ := hcontent h0
    omega
  · exact (hcontent h0).2.2
  · obtain ⟨hoff, hend, -⟩ := hcontent h0
    omega

theorem pefFindSection_fits {blob : Store} {kind : Nat} (hlen : len < 2 ^ 64)
    (h : pefFindSection blob len name kind = some hdr) : SectionFits blob len hdr := by
  unfold pefFindSection at h
  split at h
  · exact sectionFits_of_ok hlen (pefFindFrom_ok h)
  · cases h

/-- **What is found fits.** For every blob, name and kind `pef_find_section` comes to its end inside the
blob, and a header it gives fits the image window and the blob. -/
theorem pefFindSection_sound (b : Blob) (hlen : b.len < 2 ^ 64) (name : List UInt8) (kind : Int) :
    Returns (pefFindSectionChecked b name kind) fun r =>
      ∀ hdr, r = some hdr → SectionFits b.bytes b.len hdr := by
  rw [pefFindSectionChecked_eq, returns_ok]
  intro hdr hfound
  split at hfound
  · cases hfound
  · exact pefFindSection_fits hlen hfound

theorem pefFindSection_sound_sample : ∃ hdr,
    pefFindSectionChecked ⟨(sampleImage 0x40001000).blob, 979⟩ (kCodePrefix ++ kPefStart) kPefCode =
      .ok (some hdr) ∧ SectionFits (sampleImage 0x40001000).blob 979 hdr := by
  obtain ⟨r, hr, hfits⟩ := pefFindSection_sound ⟨(sampleImage 0x40001000).blob, 979⟩ (by decide)
    (kCodePrefix ++ kPefStart) kPefCode
  obtain rfl : r = some (headerAt (sampleImage 0x40001000).blob 0) := by
    rw [pefFindSectionChecked_eq] at hr
    exact (Except.ok.inj hr).symm
  exact ⟨_, hr, hfits _ rfl⟩

/-! ## What the constructor reads -/

/-- The container reaches as far as the constructor looks: to the end of `Abi`, and with the right
one to the end of `Count`. -/
def ContainerReached (b : Blob) : Prop :=
  PEFContainer.abi.off + PEFContainer.abi.width ≤ b.len ∧
    (PEFContainer.abi.get b.bytes = kPefAbi →
      PEFContainer.count.off + PEFContainer.count.width ≤ b.len)

theorem fullMagicEq_eq {blob : Store} {want : List UInt8} (h : want.length = 4) :
    fullMagicEq blob want = decide (LiesAt blob 0 (want ++ [0])) := by
  obtain ⟨a, b, c, d, rfl⟩ : ∃ a b c d, want = [a, b, c, d] := by
    match want, h with
    | [a, b, c, d], _ => exact ⟨a, b, c, d, rfl⟩
  simp only [fullMagicEq, pefMagicEq, kPefMagicLen, List.cons_append, List.nil_append, liesAt_cons,
    liesAt_nil, Bool.decide_and]
  simp [List.range_succ, Bool.and_assoc, beq_eq_decide]

theorem containerReached_of_returns {P : Bool → Prop} (h : Returns (pefLoaderChecked b) P) :
    ContainerReached b := by
  simp only [pefLoaderChecked, returns_bind, Blob.returns_field, returns_ite, returns_pure,
    slice_zero, Nat.zero_add] at h
  obtain ⟨habi, -, hcount⟩ := h
  exact ⟨habi, fun heq => (hcount (not_not.mpr heq)).1⟩

/-- Where the container reaches far enough, the constructor sets `fBad` as the unchecked one. -/
theorem pefLoaderChecked_eq (h : ContainerReached b) :
    pefLoaderChecked b = .ok (pefLoader b.bytes b.len).fBad := by
  have hplain : fullMagicEq b.bytes kPefMagic = _ := fullMagicEq_eq rfl
  have hfat : fullMagicEq b.bytes kPefMagicFat = _ := fullMagicEq_eq rfl
  obtain ⟨habi, hcount⟩ := h
  rw [← returns_eq]
  simp only [pefLoaderChecked, returns_bind, Blob.returns_field, returns_ite, returns_pure,
    slice_zero, Nat.zero_add, pefLoader]
  refine ⟨habi, fun hne => by simp [hne], fun heq => ?_⟩
  rw [not_not] at heq
  have hreach : 53 ≤ b.len := hcount heq
  refine ⟨hreach, fun hlt => by simp [Nat.not_le.mpr hlt], fun hge => ?_⟩
  have hmagic : ∀ want : List UInt8, want.length = 4 → 0 + (want ++ [0]).length ≤ b.len := by
    intro want hwant
    rw [List.length_append, hwant, List.length_singleton]
    omega
  have h3 : 3 ≤ PEFContainer.count.get b.bytes := by omega
  refine ⟨by simp only [PEFContainer.cpu]; omega, fun hcpu => ?_, fun hcpu => ?_⟩
  · rw [Blob.returns_startsWith (hmagic _ rfl), ← hplain, Blob.returns_startsWith (hmagic _ rfl),
      ← hfat]
    cases fullMagicEq b.bytes kPefMagic <;> simp [heq, h3, hcpu]
  · rw [Blob.returns_startsWith (hmagic _ rfl), ← hfat]
    simp [heq, h3, hcpu]

end NeKernel.KernelKit
