import NeKernel.FSKit.NeFS

/-!
# The ACPI tables

`ACPIFactoryInterface::Find` looks a table up by its signature. Its first test is the wrong way round: it
leaves with an error when there is a root pointer, and without one the third test does the same. So the
search behind the tests is never reached (`find_error`), and what `Find` says is right when there is
nothing to be found (`find_right_iff`).
-/

namespace NeKernel.HALKit.ACPI

open ByteStore
open NeFS (CString)

/-! ## The tables -/

/-- The `SDT` header is packed: the signature, the length, the revision. -/
def sizeofSDT : Nat := 36

def sdtLength : Field := ⟨4, 4⟩
def sdtRevision : Field := ⟨8, 1⟩

/-- The addresses in `RSDP`. -/
def rsdtAddress : Field := ⟨36, 4⟩
def xsdtAddress : Field := ⟨40, 8⟩

def kMinACPIVer : Nat := 2

def cAcpiSignatureLength : Nat := 4

/-- `AddressArr[index]` of the table at `xsdt`: the code takes the entries to be of 32 bits. -/
def addressArr (xsdt index : Nat) : Nat := xsdt + sizeofSDT + 4 * index

/-- The table at `sdt` has the signature. -/
def hasSignature (mem : Store) (sdt : Nat) (signature : CString) : Bool :=
  (List.range cAcpiSignatureLength).all fun i => mem (sdt + i) = signature.bytes i

/-- The search, with `left` entries to go. It notes the addresses of the entries it reads. -/
def findFrom (mem : Store) (xsdt : Nat) (signature : CString) :
    Nat → Nat → Except Int Nat × List Nat
  | 0, _ => (.error (-kErrorInvalidData), [])
  | left + 1, index =>
      let sdt := getLE mem (addressArr xsdt index) 4
      if sdt ≠ 0 ∧ hasSignature mem sdt signature = true then (.ok sdt, [addressArr xsdt index])
      else
        let rest := findFrom mem xsdt signature left (index + 1)
        (rest.1, addressArr xsdt index :: rest.2)

/-- `ACPIFactoryInterface::Find`: the table or an error, and the addresses of the entries that are read.
The number of entries is a difference of a `UInt32` and a `size_t`. -/
def find (mem : Store) (fRsdp : Nat) (signature : Option CString) : Except Int Nat × List Nat :=
  if fRsdp ≠ 0 then (.error (-kErrorInvalidData), [])
  else
    match signature with
    | none => (.error (-kErrorInvalidData), [])
    | some signature =>
        if signature.bytes 0 = 0 then (.error (-kErrorInvalidData), [])
        else if fRsdp = 0 ∨ sdtRevision.get (slice mem fRsdp) < kMinACPIVer then
          (.error (-kErrorInvalidData), [])
        else
          let xsdt := rsdtAddress.get (slice mem fRsdp)
          if xsdt = 0 then (.error (-kErrorInvalidData), [])
          else
            let num := int64 (u64 (sdtLength.get (slice mem xsdt) + 2 ^ 64 - sizeofSDT) / 8 : Nat)
            if num < 1 then (.error (-kErrorInvalidData), [])
            else findFrom mem xsdt signature num.toNat 0

/-- **Find fails**, whatever it is given. -/
theorem find_error (mem : Store) (fRsdp : Nat) (signature : Option CString) :
    find mem fRsdp signature = (.error (-kErrorInvalidData), []) := by
  unfold find
  split
  · rfl
  · next hnull =>
      cases signature with
      | none => rfl
      | some signature =>
          simp only
          split
          · rfl
          · rw [if_pos (.inl (not_not.mp hnull))]

/-! ## What there is to be found -/

/-- The `i`-th entry of the XSDT, an address of 64 bits. -/
def entry (mem : Store) (xsdt i : Nat) : Nat := getLE mem (xsdt + sizeofSDT + 8 * i) 8

/-- The `i`-th entry lies inside the table, is not null, and its table has the signature. -/
structure Matches (mem : Store) (xsdt : Nat) (signature : CString) (i : Nat) : Prop where
  inside : sizeofSDT + 8 * (i + 1) ≤ sdtLength.get (slice mem xsdt)
  notNull : entry mem xsdt i ≠ 0
  signature : ∀ k < cAcpiSignatureLength, mem (entry mem xsdt i + k) = signature.bytes k

/-- The first such entry comes back, or an error if there is none, and what is read lies inside the
table. -/
structure FindRight (mem : Store) (fRsdp xsdt : Nat) (signature : CString) : Prop where
  found : ∀ table, (find mem fRsdp (some signature)).1 = .ok table →
    ∃ i, Matches mem xsdt signature i ∧ table = entry mem xsdt i ∧ ∀ j < i, ¬ Matches mem xsdt signature j
  missing : ∀ err, (find mem fRsdp (some signature)).1 = .error err → ∀ i, ¬ Matches mem xsdt signature i
  reads : ∀ a ∈ (find mem fRsdp (some signature)).2,
    xsdt + sizeofSDT ≤ a ∧ a + 4 ≤ xsdt + sdtLength.get (slice mem xsdt)

/-- **The search is right** exactly when no entry of the table has the signature. -/
theorem find_right_iff (mem : Store) (fRsdp xsdt : Nat) (signature : CString) :
    FindRight mem fRsdp xsdt signature ↔ ∀ i, ¬ Matches mem xsdt signature i := by
  constructor
  · intro h
    exact h.missing (-kErrorInvalidData) (by rw [find_error])
  · intro hnone
    refine ⟨fun table hfound => ?_, fun err _ => hnone, fun a ha => ?_⟩
    · rw [find_error] at hfound
      cases hfound
    · rw [find_error] at ha
      cases ha

/-- `"APIC"`. -/
def apicMag : CString := ⟨[0x41, 0x50, 0x49, 0x43], by simp⟩

/-- A root pointer of revision 2 at `0x1000`, its XSDT at `0x2000` with one entry, and the table it
names. -/
def oneTable : Store :=
  let mem := putLE zeros (0x1000 + 8) 1 2
  let mem := putLE (putLE mem (0x1000 + 36) 4 0x2000) (0x1000 + 40) 8 0x2000
  let mem := putLE (putLE mem (0x2000 + 4) 4 44) (0x2000 + 36) 8 0x3000
  putLE mem 0x3000 4 0x43495041

/-- The table is there and is not found. -/
theorem table_not_found :
    sdtRevision.get (slice oneTable 0x1000) = kMinACPIVer ∧
      xsdtAddress.get (slice oneTable 0x1000) = 0x2000 ∧ Matches oneTable 0x2000 apicMag 0 ∧
      ¬ FindRight oneTable 0x1000 0x2000 apicMag := by
  have hmatch : Matches oneTable 0x2000 apicMag 0 :=
    ⟨by decide +kernel, by decide +kernel, by decide +kernel⟩
  refine ⟨by decide +kernel, by decide +kernel, hmatch, fun h => ?_⟩
  exact h.missing (-kErrorInvalidData) (by rw [find_error]) 0 hmatch

end NeKernel.HALKit.ACPI
