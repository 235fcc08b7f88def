import NeKernel.Lib.CheckedReads
import NeKernel.Lib.Numerals
import NeKernel.NeKit.AsciiUtils

/-!
# Numbers as strings

`rt_to_string` divides a number by the base until nothing is left of it. The digits it finds stand in the
buffer with the last one first, so it turns them round when their number is known.

    value ──do─▶ last digit .. first digit, 0 ──for─▶ first digit .. last digit, 0

The string is the numeral of the value, whatever the value and the base (`rtToString_right`).
-/

namespace NeKernel.NeKit

open ByteStore WordCopy CheckedReads Numerals

/-- `0123456789ABCDEF`. -/
def kDigits : List UInt8 :=
  [0x30, 0x31, 0x32, 0x33, 0x34, 0x35, 0x36, 0x37, 0x38, 0x39, 0x41, 0x42, 0x43, 0x44, 0x45, 0x46]

/-- `rt_to_char`. The table has its terminator behind the last digit. -/
def rtToChar (value base : Nat) : UInt8 := kDigits.getD (value % base) 0

/-- The `do` loop of `rt_to_string`, with the `i` it ends with; `none` if it has not come to an end. -/
def rtToStringLoop (str base : Nat) : Nat → Nat → Nat → Store → Option (Nat × Store)
  | 0, _, _, _ => none
  | fuel + 1, value, i, m =>
    if value / base ≠ 0 then
      rtToStringLoop str base fuel (value / base) (i + 1) (fill m (str + i) 1 (rtToChar value base))
    else some (i + 1, fill m (str + i) 1 (rtToChar value base))

/-- `rt_to_string`. Behind the check the base is the same number as an `UInt64`. -/
def rtToString (m : Store) (str value : Nat) (base : Int) : Option (Bool × Store) :=
  if str = 0 ∨ base < 2 ∨ base > 16 then some (false, m)
  else
    (rtToStringLoop str base.toNat 64 value 0 m).map fun (i, m) =>
      (true, turnRound str i (fill m (str + i) 1 0))

/-! ## What the string is to be -/

/-- The digit that a character stands for. -/
def digitOf (c : UInt8) : Nat := kDigits.idxOf c

/-- At most 64 digits of the base that read back to the value, the first of them not zero unless it is
the only one. -/
structure NumeralString (base value : Nat) (text : List UInt8) : Prop where
  nonempty : text ≠ []
  length : text.length ≤ 64
  digits : ∀ c ∈ text, digitOf c < base
  lead : text.head? = some 0x30 → value = 0 ∧ text.length = 1
  reads : Numerals.value base (text.map digitOf) = value

variable {m : Store} {str value base i fuel : Nat} {l : List UInt8}

/-! ## The digits -/

theorem digitOf_char : ∀ d < 16, digitOf (kDigits.getD d 0) = d := by decide

theorem rtToChar_of_lt (h : value < base) : rtToChar value base = kDigits.getD value 0 := by
  rw [rtToChar, Nat.mod_eq_of_lt h]

/-- **A numeral in characters** is such a string. -/
theorem numeralString (hb : 1 < base) (hb' : base ≤ 16) (hv : value < 2 ^ 64) :
    NumeralString base value ((numeral base value).map (kDigits.getD · 0)) := by
  have hinv : ∀ d < base, digitOf (kDigits.getD d 0) = d := fun d hd => digitOf_char d (by omega)
  have hcanon := canonical_numeral (n := value) hb
  have hpow : value < base ^ 64 := hv.trans_le (Nat.pow_le_pow_left hb 64)
  refine ⟨by simpa using hcanon.nonempty, ?_, fun c hc => ?_, fun hlead => ?_, ?_⟩
  · rw [List.length_map]
    exact length_numeral_le hb (by decide) hpow
  · obtain ⟨d, hd, rfl⟩ := List.mem_map.mp hc
    have hlt := hcanon.digits d hd
    rwa [hinv d hlt]
  · rw [List.head?_map, Option.map_eq_some_iff] at hlead
    obtain ⟨d, hd, hzero⟩ := hlead
    have hd0 : d = 0 := by
      rw [← hinv d (hcanon.digits d (List.mem_of_mem_head? hd)), hzero]
      rfl
    have hone : numeral base value = [0] := hcanon.lead (hd0 ▸ hd)
    refine ⟨?_, by rw [hone]; rfl⟩
    rw [← value_numeral (b := base) (n := value), hone, value_singleton]
  · rw [map_digit_numeral hb hinv, value_numeral]

/-! ## The loops -/

/-- **The loop** writes the digits from the last one on, and no more turns are needed than the value has
bits. -/
theorem rtToStringLoop_eq (str : Nat) (hb : 1 < base) (hfuel : 0 < fuel) (hv : value < 2 ^ fuel) :
    ∃ m', rtToStringLoop str base fuel value i m = some (i + (numeral base value).length, m') ∧
      LiesAt m' (str + i) ((numeral base value).map (kDigits.getD · 0)).reverse ∧
      OnlyAt m m' (str + i) (numeral base value).length := by
  induction fuel generalizing value i m with
  | zero => exact absurd hfuel (Nat.lt_irrefl 0)
  | succ fuel ih =>
      rw [rtToStringLoop, numeral_rec hb]
      by_cases hlt : value < base
      · rw [if_neg (not_not.mpr (Nat.div_eq_of_lt hlt)), if_pos hlt, rtToChar_of_lt hlt]
        refine ⟨_, rfl, ?_, OnlyAt.blit (Nat.le_refl _) (Nat.le_refl _)⟩
        exact liesAt_cons.mpr ⟨by rw [fill_one_apply, if_pos rfl], liesAt_nil⟩
      · obtain ⟨hdiv, hbits, hfuel'⟩ := div_bits hb (Nat.le_of_not_lt hlt) hv
        obtain ⟨m', hloop, hlies, honly⟩ := ih (i := i + 1)
          (m := fill m (str + i) 1 (rtToChar value base)) hfuel' hbits
        rw [if_pos hdiv.ne', if_neg hlt, hloop, List.length_append, List.length_singleton]
        refine ⟨m', by rw [Nat.add_assoc, Nat.add_comm 1], ?_, fun x hx => ?_⟩
        · rw [List.map_append, List.reverse_append]
          refine liesAt_cons.mpr ⟨?_, hlies⟩
          rw [honly (str + i) (.inl (by omega)), fill_one_apply, if_pos rfl]
          rfl
        · rw [honly x (by omega), fill_one_apply, if_neg (by omega)]

/-- Characters that are turned round. -/
theorem liesAt_turnRound (h : LiesAt m str l.reverse) : LiesAt (turnRound str l.length m) str l := by
  intro i hi
  have hback := h (l.length - 1 - i) (by rw [List.length_reverse]; omega)
  rw [turnRound_eq, blit_apply_add hi, hback, List.getD_eq_getElem?_getD, List.getD_eq_getElem?_getD,
    List.getElem?_reverse (by omega), show l.length - 1 - (l.length - 1 - i) = i by omega]

/-- **The string** is written with its terminator, and nothing else is. -/
theorem rtToString_eq (hstr : str ≠ 0) (hb : 1 < base) (hb' : base ≤ 16) (hv : value < 2 ^ 64) :
    ∃ m', rtToString m str value base = some (true, m') ∧
      StandsAt m' str ((numeral base value).map (kDigits.getD · 0)) ∧
      OnlyAt m m' str ((numeral base value).length + 1) := by
  obtain ⟨m₁, hloop, hlies, honly⟩ :=
    rtToStringLoop_eq (i := 0) (m := m) str hb (by decide : 0 < 64) hv
  rw [Nat.add_zero] at hlies honly
  rw [Nat.zero_add] at hloop
  set text := (numeral base value).map (kDigits.getD · 0) with htext
  have hlen : (numeral base value).length = text.length := (List.length_map _).symm
  rw [hlen] at hloop honly ⊢
  have hcheck : ¬ (str = 0 ∨ (base : Int) < 2 ∨ (base : Int) > 16) := by omega
  refine ⟨turnRound str text.length (fill m₁ (str + text.length) 1 0), ?_, ⟨?_, ?_⟩, fun x hx => ?_⟩
  · rw [rtToString, if_neg hcheck, Int.toNat_natCast, hloop]
    rfl
  · apply liesAt_turnRound
    intro j hj
    rw [List.length_reverse] at hj
    rw [fill_one_apply, if_neg (by omega)]
    exact hlies j (by rwa [List.length_reverse])
  · rw [turnRound_eq, blit_apply_of_notMem (by omega), fill_one_apply, if_pos rfl]
  · rw [turnRound_eq, blit_apply_of_notMem (by omega), fill_one_apply, if_neg (by omega),
      honly x (by omega)]

/-! ## The function -/

/-- For every value and base, `rt_to_string` comes back with the numeral in the buffer. -/
theorem rtToString_right {base : Int} (hstr : str ≠ 0) (hvalue : value < 2 ^ 64) (hbase : 2 ≤ base)
    (hbase' : base ≤ 16) : ∃ m' text, rtToString m str value base = some (true, m') ∧
      StandsAt m' str text ∧ NumeralString base.toNat value text ∧
      OnlyAt m m' str (text.length + 1) := by
  obtain ⟨b, rfl⟩ := Int.eq_ofNat_of_zero_le (show 0 ≤ base by omega)
  obtain ⟨m', heq, hstands, honly⟩ :=
    rtToString_eq (m := m) hstr (by omega : 1 < b) (by omega) hvalue
  refine ⟨m', _, heq, hstands, numeralString (by omega) (by omega) hvalue, ?_⟩
  rwa [List.length_map]

theorem rtToString_max : ∃ m' text, rtToString zeros 0x1000 (2 ^ 64 - 1) 2 = some (true, m') ∧
    StandsAt m' 0x1000 text ∧ NumeralString 2 (2 ^ 64 - 1) text ∧
    OnlyAt zeros m' 0x1000 (text.length + 1) :=
  rtToString_right (by decide) (by decide) (by decide) (by decide)

end NeKernel.NeKit
