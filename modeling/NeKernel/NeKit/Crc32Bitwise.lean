import NeKernel.NeKit.Crc32

/-!
# The checksum, bit by bit

`ke_calculate_crc32` as it is called, with a pointer, a signed length and signed characters. Its
table is the table of the reflected CRC-32 polynomial (`kChecksumPolys_isTable`), hence the checksum
is CRC-32 (`keCalculateCrc32_bitwise`). A character above `0x7F` is sign-extended before it meets the
register; only its low byte is used.
-/

namespace NeKernel

open ByteStore

/-! ## The call -/

/-- A `Char` in arithmetic with a `UInt32`: it is signed. -/
def charWord (c : UInt8) : UInt32 := UInt32.ofBitVec (c.toBitVec.signExtend 32)

/-- The loop of `ke_calculate_crc32`, with `n` bytes to go from `i` on. -/
def crc32Loop (inp : Store) : Nat → Nat → UInt32 → UInt32
  | 0, _, crc => crc
  | n + 1, i, crc =>
    crc32Loop inp n (i + 1)
      ((crc >>> 8) ^^^ kChecksumPolys.getD ((crc ^^^ charWord (inp i)) &&& 0xff).toNat 0)

/-- `ke_calculate_crc32`; `none` is a null pointer, and a negative length is no byte. -/
def keCalculateCrc32At (inp : Option Store) (len : Int32) : UInt32 :=
  match inp with
  | none => ~~~ 0
  | some inp => ~~~ crc32Loop inp len.toInt.toNat 0 0xffffffff

/-! ## Signed characters -/

/-- The table index does not see the sign. -/
theorem index_charWord (crc : UInt32) (c : UInt8) :
    (crc ^^^ charWord c) &&& 0xff = (crc ^^^ c.toUInt32) &&& 0xff := by
  apply UInt32.toBitVec_inj.mp
  apply BitVec.eq_of_getLsbD_eq
  intro i hi
  have hmask : (0xff : UInt32).toBitVec.getLsbD i = decide (i < 8) := by
    have hff : (0xff : UInt32).toBitVec = BitVec.ofNat 32 (2 ^ 8 - 1) := rfl
    rw [hff, BitVec.getLsbD_ofNat, Nat.testBit_two_pow_sub_one]
    simp [hi]
  have hsign : (charWord c).toBitVec = c.toBitVec.signExtend 32 := rfl
  rw [UInt32.toBitVec_and, UInt32.toBitVec_and, BitVec.getLsbD_and, BitVec.getLsbD_and, hmask]
  by_cases h8 : i < 8
  · simp only [UInt32.toBitVec_xor, UInt8.toBitVec_toUInt32, hsign, BitVec.getLsbD_xor,
      BitVec.getLsbD_signExtend, BitVec.getLsbD_setWidth, if_pos h8]
  · simp [h8]

theorem crc32Loop_eq (inp : Store) (n i : Nat) (crc : UInt32) :
    crc32Loop inp n i crc = ((List.range' i n).map inp).foldl crc32Round crc := by
  induction n generalizing i crc with
  | zero => rfl
  | succ n ih =>
      rw [crc32Loop, index_charWord, ih, List.range'_succ, List.map_cons, List.foldl_cons,
        crc32Round]

/-- The call and the loop over unsigned bytes agree. -/
theorem keCalculateCrc32At_some (inp : Store) (len : Int32) :
    keCalculateCrc32At (some inp) len = keCalculateCrc32 inp len.toInt.toNat := by
  rw [keCalculateCrc32At, keCalculateCrc32, crc32Loop_eq, List.range_eq_range']

/-! ## CRC-32 -/

/-- The reflected polynomial. -/
def kCrc32Polynomial : BitVec 32 := 0xEDB88320#32

/-- CRC-32 of a byte string, bit by bit. -/
def crc32Bitwise (bs : List UInt8) : UInt32 :=
  UInt32.ofBitVec
    ((bs.map UInt8.toBitVec).foldl (Crc.byteStep kCrc32Polynomial) 0xFFFFFFFF#32 ^^^ 0xFFFFFFFF#32)

set_option maxRecDepth 10000 in
theorem kChecksumPolys_eq : kChecksumPolys = (List.range 256).map fun i =>
    UInt32.ofBitVec ((Crc.bitStep kCrc32Polynomial)^[8] (BitVec.ofNat 32 i)) := by decide +kernel

/-- **The seed table is the table of the polynomial.** -/
theorem kChecksumPolys_isTable : Crc.IsTable kCrc32Polynomial kChecksumPoly := by
  intro i
  have hi : i.toNat < 256 := i.isLt
  have hword : BitVec.ofNat 32 i.toNat = i.setWidth 32 := BitVec.ofNat_toNat 32 i
  rw [kChecksumPoly, kChecksumPolys_eq, List.getD_eq_getElem _ _ (by simpa using hi),
    List.getElem_map, List.getElem_range, hword]

/-- The bytes of a string in memory. -/
def bytesOf (bs : List UInt8) : Store := fun i => bs.getD i 0

theorem map_bytesOf (bs : List UInt8) : (List.range bs.length).map (bytesOf bs) = bs := by
  apply List.ext_getElem
  · rw [List.length_map, List.length_range]
  · intro i h₁ h₂
    rw [List.getElem_map, List.getElem_range, bytesOf, List.getD_eq_getElem _ _ h₂]

/-- **`ke_calculate_crc32` is CRC-32.** -/
theorem keCalculateCrc32_bitwise (bs : List UInt8) (hlen : bs.length < 2 ^ 31) :
    keCalculateCrc32At (some (bytesOf bs)) (Int32.ofNat bs.length) = crc32Bitwise bs := by
  have hcount : (Int32.ofNat bs.length).toInt.toNat = bs.length := by
    rw [Int32.toInt_ofNat_of_lt hlen, Int.toNat_natCast]
  have hstep : Crc.step kChecksumPoly = Crc.byteStep kCrc32Polynomial := by
    funext c b
    exact Crc.step_eq_byteStep kChecksumPolys_isTable c b
  apply UInt32.toBitVec_inj.mp
  rw [keCalculateCrc32At_some, hcount, keCalculateCrc32, map_bytesOf, UInt32.toBitVec_not,
    foldl_crc32Round_toBitVec, hstep, crc32Bitwise, ← BitVec.xor_allOnes]
  rfl

/-- The check value of CRC-32, and a string with bytes above `0x7F`. -/
theorem keCalculateCrc32_bitwise_check :
    crc32Bitwise [0x31, 0x32, 0x33, 0x34, 0x35, 0x36, 0x37, 0x38, 0x39] = 0xCBF43926 ∧
      keCalculateCrc32At (some (bytesOf [0x80, 0xFF])) 2 = crc32Bitwise [0x80, 0xFF] :=
  ⟨by decide +kernel, keCalculateCrc32_bitwise [0x80, 0xFF] (by decide)⟩

end NeKernel
