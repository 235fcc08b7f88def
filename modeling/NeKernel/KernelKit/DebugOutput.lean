import NeKernel.NeKit.ToString

/-!
# Numbers on the terminal

`number` and `hex_number` print a number digit by digit. The digits in front are those of the quotient,
which is passed on as a `Long`, and at every level it is the magnitude that is divided.

    number(x) ──▶ _write_number(|x| / 10) ──▶ .. ──▶ digit of |x| % 10

So a sign is never printed. The least `Long` has no magnitude, and its remainder is negative: where the base
divides it this does not show, and else a question mark is printed as a number (`writeNumber_min`).
-/

namespace NeKernel.KernelKit

open Numerals NeKit

/-- A `Long` as an `UInt64`. -/
def uint64 (x : Int) : Nat := (x % 2 ^ 64).toNat

/-- `x > 0 ? x : -x`. The negation wraps. -/
def magnitude (x : Int) : Int := if x > 0 then x else int64 (-x)

/-- `_write_number` of a base, with what it prints; `none` if the calls have not come to an end. What it
does to `y` after the calls is not looked at. -/
def writeDigits (base : Nat) (kNumbers : List UInt8) : Nat → Int → Option (List UInt8)
  | 0, _ => none
  | fuel + 1, x => do
    let y := uint64 ((magnitude x).tdiv base)
    let h := uint64 ((magnitude x).tmod base)
    let front ← if y ≠ 0 then writeDigits base kNumbers fuel (int64 y) else some []
    -- what is no digit of the base is answered with a question mark, as its code
    if h > base then return front ++ (← writeDigits base kNumbers fuel 0x3F)
    return front ++ kNumbers[h]?.toList

/-- `_write_number`. -/
def writeNumber (x : Int) : Option (List UInt8) :=
  writeDigits 10 [0x30, 0x31, 0x32, 0x33, 0x34, 0x35, 0x36, 0x37, 0x38, 0x39] 64 x

/-- `_write_number_hex`. -/
def writeNumberHex (x : Int) : Option (List UInt8) :=
  writeDigits 16 [0x30, 0x31, 0x32, 0x33, 0x34, 0x35, 0x36, 0x37, 0x38, 0x39, 0x41, 0x42, 0x43, 0x44,
    0x45, 0x46] 64 x

/-- `hex_number`. -/
def hexNumber (x : Int) : Option (List UInt8) := (writeNumberHex x).map ([0x30, 0x78] ++ ·)

/-- `number`. -/
def number (x : Int) : Option (List UInt8) := writeNumber x

/-! ## What is to be printed -/

/-- The digits of a number, and what stands in front of them. -/
def digitsText (front : List UInt8) (base n : Nat) : List UInt8 :=
  front ++ (numeral base n).map (kDigits.getD · 0)

/-- The numeral of a number, with its sign. -/
def numeralText (front : List UInt8) (base : Nat) (v : Int) : List UInt8 :=
  (if v < 0 then [0x2D] else []) ++ digitsText front base v.natAbs

/-- The number that a text is read as. -/
def readText (front : List UInt8) (base : Nat) (text : List UInt8) : Int :=
  if text.head? = some 0x2D then -(value base ((text.drop (front.length + 1)).map digitOf))
  else value base ((text.drop front.length).map digitOf)

/-- A 64-bit value, signed or not. -/
def Value (v : Int) : Prop := -2 ^ 63 ≤ v ∧ v < 2 ^ 64

instance (v : Int) : Decidable (Value v) := inferInstanceAs (Decidable (_ ∧ _))

/-- The numeral of the value is printed, and it reads back to the value. -/
structure PrintsNumeral (print : Int → Option (List UInt8)) (front : List UInt8) (base : Nat)
    (v : Int) : Prop where
  text : print (int64 v) = some (numeralText front base v)
  reads : (print (int64 v)).map (readText front base) = some v

/-- What is printed tells two values apart. -/
def TellsApart (print : Int → Option (List UInt8)) (v w : Int) : Prop :=
  v ≠ w → print (int64 v) ≠ print (int64 w)

/-- The number whose digits `number` prints. -/
def numberShown (x : Int) : Nat := if x = -2 ^ 63 then 92233720368547758063 else x.natAbs

variable {base fuel n n' : Nat} {x v w : Int} {kNumbers front : List UInt8}

/-! ## One call -/

theorem magnitude_eq (h₁ : -2 ^ 63 < x) (h₂ : x < 2 ^ 63) : magnitude x = x.natAbs := by
  unfold magnitude
  split
  · omega
  · rw [int64_of_small (by omega) (by omega)]
    omega

theorem uint64_natCast (h : n < 2 ^ 64) : uint64 n = n := by
  unfold uint64
  omega

/-- **A `Long` with a magnitude** is printed as the numeral of it. -/
theorem writeDigits_eq (hb : 1 < base) (hb' : base ≤ 16)
    (htable : ∀ d < base, kNumbers[d]? = some (kDigits.getD d 0)) (hfuel : 0 < fuel)
    (h₁ : -2 ^ 63 < x) (h₂ : x < 2 ^ 63) (hx : x.natAbs < 2 ^ fuel) :
    writeDigits base kNumbers fuel x =
      some ((numeral base x.natAbs).map (kDigits.getD · 0)) := by
  induction fuel generalizing x with
  | zero => exact absurd hfuel (Nat.lt_irrefl 0)
  | succ fuel ih =>
      set n := x.natAbs with hn
      have hmod : n % base < base := Nat.mod_lt n (by omega)
      have hdiv : n / base ≤ n := Nat.div_le_self n base
      have hy : uint64 ((magnitude x).tdiv base) = n / base := by
        rw [magnitude_eq h₁ h₂, ← hn, ← Int.ofNat_tdiv, uint64_natCast (by omega)]
      have hh : uint64 ((magnitude x).tmod base) = n % base := by
        rw [magnitude_eq h₁ h₂, ← hn, ← Int.ofNat_tmod, uint64_natCast (by omega)]
      simp only [writeDigits, hy, hh, if_neg (Nat.not_lt.mpr hmod.le), htable _ hmod]
      rw [numeral_rec hb]
      by_cases hlt : n < base
      · rw [if_neg (not_not.mpr (Nat.div_eq_of_lt hlt)), if_pos hlt, Nat.mod_eq_of_lt hlt]
        rfl
      · obtain ⟨hpos, hbits, hfuel'⟩ := div_bits hb (Nat.le_of_not_lt hlt) hx
        have hfront := ih (x := int64 (n / base : Nat)) hfuel'
        rw [int64_of_small (by omega) (by omega), Int.natAbs_natCast] at hfront
        rw [if_pos hpos.ne', if_neg hlt, int64_of_small (by omega) (by omega),
          hfront (by omega) (by omega) hbits, List.map_append]
        rfl

/-- The least `Long` in decimal. -/
theorem writeNumber_min : writeNumber (-2 ^ 63) =
    some ((numeral 10 92233720368547758063).map (kDigits.getD · 0)) := by decide +kernel

/-- The least `Long` in hexadecimal, which divides evenly. -/
theorem writeNumberHex_min : writeNumberHex (-2 ^ 63) =
    some ((numeral 16 (2 ^ 63)).map (kDigits.getD · 0)) := by decide +kernel

/-! ## What is printed -/

theorem int64_bounds : -2 ^ 63 ≤ int64 v ∧ int64 v < 2 ^ 63 := by
  unfold int64
  omega

/-- **What `number` prints**, for every `Long`. -/
theorem number_eq (h₁ : -2 ^ 63 ≤ x) (h₂ : x < 2 ^ 63) :
    number x = some (digitsText [] 10 (numberShown x)) := by
  rw [number, numberShown, digitsText, List.nil_append]
  by_cases hmin : x = -2 ^ 63
  · rw [if_pos hmin, hmin]
    exact writeNumber_min
  · rw [if_neg hmin]
    exact writeDigits_eq (by decide) (by decide) (by decide) (by decide) (by omega) h₂ (by omega)

/-- **What `hex_number` prints**, for every `Long`. -/
theorem hexNumber_eq (h₁ : -2 ^ 63 ≤ x) (h₂ : x < 2 ^ 63) :
    hexNumber x = some (digitsText [0x30, 0x78] 16 x.natAbs) := by
  rw [hexNumber, Option.map_eq_some_iff]
  refine ⟨_, ?_, rfl⟩
  by_cases hmin : x = -2 ^ 63
  · rw [hmin]
    exact writeNumberHex_min
  · exact writeDigits_eq (by decide) (by decide) (by decide) (by decide) (by omega) h₂ (by omega)

/-! ## What is read -/

section

variable (hb : 1 < base) (hb' : base ≤ 16)

include hb hb'

theorem digitsText_inj : digitsText front base n = digitsText front base n' ↔ n = n' := by
  rw [digitsText, digitsText, List.append_cancel_left_eq]
  exact map_numeral_inj hb fun d hd => digitOf_char d (by omega)

/-- No sign stands in front of the digits. -/
theorem head_digitsText (hfront : front.head? ≠ some 0x2D) :
    (digitsText front base n).head? ≠ some 0x2D := by
  have hdigit : ∀ d < 16, kDigits.getD d 0 ≠ 0x2D := by decide
  cases front with
  | cons c front => exact hfront
  | nil =>
      rw [digitsText, List.nil_append, List.head?_map, Ne, Option.map_eq_some_iff]
      rintro ⟨d, hd, hminus⟩
      have hlt := (canonical_numeral hb).digits d (List.mem_of_mem_head? hd)
      exact hdigit d (by omega) hminus

/-- Digits read back to their number. -/
theorem readText_digitsText (hfront : front.head? ≠ some 0x2D) :
    readText front base (digitsText front base n) = n := by
  rw [readText, if_neg (head_digitsText hb hb' hfront), digitsText, List.drop_left,
    map_digit_numeral hb fun d hd => digitOf_char d (by omega), value_numeral]

/-- Digits alone are the numeral of their number only. -/
theorem digitsText_eq_numeralText (hfront : front.head? ≠ some 0x2D) :
    digitsText front base n = numeralText front base v ↔ (n : Int) = v := by
  rw [numeralText]
  by_cases hneg : v < 0
  · rw [if_pos hneg]
    refine iff_of_false (fun h => ?_) (by omega)
    exact head_digitsText hb hb' hfront (congrArg List.head? h)
  · rw [if_neg hneg, List.nil_append, digitsText_inj hb hb']
    omega

variable {print : Int → Option (List UInt8)} {shown : Int → Nat}
  (hprint : ∀ x, -2 ^ 63 ≤ x → x < 2 ^ 63 → print x = some (digitsText front base (shown x)))

include hprint

/-- **A print of digits alone** is right for the value with these digits. -/
theorem printsNumeral_iff (hfront : front.head? ≠ some 0x2D) :
    PrintsNumeral print front base v ↔ (shown (int64 v) : Int) = v := by
  have heq := hprint (int64 v) int64_bounds.1 int64_bounds.2
  constructor
  · intro h
    have htext := heq.symm.trans h.text
    exact (digitsText_eq_numeralText hb hb' hfront).mp (Option.some.inj htext)
  · intro h
    constructor
    · rw [heq, (digitsText_eq_numeralText hb hb' hfront).mpr h]
    · rw [heq, Option.map_some, readText_digitsText hb hb' hfront, h]

theorem tellsApart_iff : TellsApart print v w ↔ v ≠ w → shown (int64 v) ≠ shown (int64 w) := by
  rw [TellsApart, hprint _ int64_bounds.1 int64_bounds.2, hprint _ int64_bounds.1 int64_bounds.2,
    Ne, Ne, Option.some.injEq, digitsText_inj hb hb']

end

/-! ## The two functions -/

/-- `number` prints the numeral of the values that are not negative as a `Long`, and `hex_number` that of
`2 ^ 63` as well. Values are told apart unless they are equal or opposite in 64 bits. -/
theorem numbers_right_iff (hv : Value v) (hw : Value w) :
    (PrintsNumeral number [] 10 v ↔ 0 ≤ v ∧ v < 2 ^ 63) ∧
    (PrintsNumeral hexNumber [0x30, 0x78] 16 v ↔ 0 ≤ v ∧ v ≤ 2 ^ 63) ∧
    (TellsApart number v w ↔ v = w ∨ (v - w) % 2 ^ 64 ≠ 0 ∧ (v + w) % 2 ^ 64 ≠ 0) ∧
    (TellsApart hexNumber v w ↔ v = w ∨ (v - w) % 2 ^ 64 ≠ 0 ∧ (v + w) % 2 ^ 64 ≠ 0) := by
  have hnumber : ∀ x, -2 ^ 63 ≤ x → x < 2 ^ 63 → _ := fun x => number_eq
  have hhex : ∀ x, -2 ^ 63 ≤ x → x < 2 ^ 63 → _ := fun x => hexNumber_eq
  unfold Value at hv hw
  refine ⟨?_, ?_, ?_, ?_⟩
  · rw [printsNumeral_iff (by decide) (by decide) hnumber (by decide), numberShown]
    unfold int64
    split <;> omega
  · rw [printsNumeral_iff (by decide) (by decide) hhex (by decide)]
    unfold int64
    omega
  · rw [tellsApart_iff (by decide) (by decide) hnumber, numberShown, numberShown]
    unfold int64
    split <;> split <;> omega
  · rw [tellsApart_iff (by decide) (by decide) hhex]
    unfold int64
    omega

theorem numbers_right_top :
    (PrintsNumeral number [] 10 (2 ^ 63) ↔ (0 : Int) ≤ 2 ^ 63 ∧ (2 : Int) ^ 63 < 2 ^ 63) ∧
    (PrintsNumeral hexNumber [0x30, 0x78] 16 (2 ^ 63) ↔
      (0 : Int) ≤ 2 ^ 63 ∧ (2 : Int) ^ 63 ≤ 2 ^ 63) ∧
    (TellsApart number (2 ^ 63) (-5) ↔
      (2 : Int) ^ 63 = -5 ∨ (2 ^ 63 - -5 : Int) % 2 ^ 64 ≠ 0 ∧ (2 ^ 63 + -5 : Int) % 2 ^ 64 ≠ 0) ∧
    (TellsApart hexNumber (2 ^ 63) (-5) ↔
      (2 : Int) ^ 63 = -5 ∨ (2 ^ 63 - -5 : Int) % 2 ^ 64 ≠ 0 ∧ (2 ^ 63 + -5 : Int) % 2 ^ 64 ≠ 0) :=
  numbers_right_iff (by decide) (by decide)

/-- The sign of an error code is not printed, and of an address in the upper half its distance to the top
is. -/
theorem number_negative :
    Value (-kErrorProcessFault) ∧ ¬ PrintsNumeral number [] 10 (-kErrorProcessFault) ∧
      ¬ TellsApart number kErrorProcessFault (-kErrorProcessFault) ∧
      Value 0xFFFF800000000000 ∧ ¬ PrintsNumeral hexNumber [0x30, 0x78] 16 0xFFFF800000000000 := by
  refine ⟨by decide, fun h => absurd h.text (by decide +kernel), fun h => ?_, by decide,
    fun h => absurd h.text (by decide +kernel)⟩
  exact h (by decide) (by decide +kernel)

end NeKernel.KernelKit
