import Mathlib.Data.Nat.Digits.Lemmas

/-!
# Numerals

The digits of a number with the most significant one first, which are those of `Nat.digits` turned
round, but for zero, which has one digit. A division finds the last one first (`numeral_rec`), reading
them back is one pass from the left (`value_numeral`), and no zero stands in front (`canonical_numeral`).
-/

namespace Numerals

/-- The number that a row of digits is read as. -/
def value (b : Nat) (l : List Nat) : Nat := l.foldl (fun v d => v * b + d) 0

/-- The numeral of `n`. -/
def numeral (b n : Nat) : List Nat := if n = 0 then [0] else (Nat.digits b n).reverse

/-- Digits of the base, and no leading zero where there is more than one. -/
structure Canonical (b : Nat) (l : List Nat) : Prop where
  nonempty : l ≠ []
  digits : ∀ d ∈ l, d < b
  lead : l.head? = some 0 → l = [0]

variable {b n n' k d : Nat} {l : List Nat}

@[simp] theorem value_append_digit : value b (l ++ [d]) = value b l * b + d := by
  rw [value, List.foldl_append]
  rfl

@[simp] theorem value_singleton : value b [d] = d := by
  rw [← List.nil_append [d], value_append_digit, value, List.foldl_nil, Nat.zero_mul, Nat.zero_add]

theorem value_eq_ofDigits : value b l = Nat.ofDigits b l.reverse := by
  rw [Nat.ofDigits_eq_foldr, List.foldr_reverse, value]
  congr
  funext v d
  rw [Nat.mul_comm, Nat.add_comm]
  rfl

@[simp] theorem numeral_zero : numeral b 0 = [0] := rfl

theorem numeral_of_pos (hn : n ≠ 0) : numeral b n = (Nat.digits b n).reverse := if_neg hn

/-- **The last digit is the remainder**, and the ones before it are those of the quotient. -/
theorem numeral_rec (hb : 1 < b) :
    numeral b n = if n < b then [n] else numeral b (n / b) ++ [n % b] := by
  by_cases hn : n = 0
  · subst hn
    rw [if_pos (by omega), numeral_zero]
  · rw [numeral_of_pos hn]
    by_cases hlt : n < b
    · rw [if_pos hlt, Nat.digits_of_lt b n hn hlt, List.reverse_singleton]
    · have hdiv : n / b ≠ 0 := (Nat.div_pos (Nat.le_of_not_lt hlt) (by omega)).ne'
      rw [if_neg hlt, numeral_of_pos hdiv, Nat.digits_eq_cons_digits_div hb hn, List.reverse_cons]

/-- **The round trip.** -/
@[simp] theorem value_numeral : value b (numeral b n) = n := by
  by_cases hn : n = 0
  · subst hn
    simp [value]
  · rw [numeral_of_pos hn, value_eq_ofDigits, List.reverse_reverse, Nat.ofDigits_digits]

theorem numeral_inj : numeral b n = numeral b n' ↔ n = n' := by
  constructor
  · intro h
    rw [← value_numeral (b := b) (n := n), h, value_numeral]
  · exact fun h => h ▸ rfl

theorem canonical_numeral (hb : 1 < b) : Canonical b (numeral b n) := by
  by_cases hn : n = 0
  · subst hn
    exact ⟨List.cons_ne_nil _ _, by simp; omega, fun _ => rfl⟩
  · rw [numeral_of_pos hn]
    have hne : Nat.digits b n ≠ [] := Nat.digits_ne_nil_iff_ne_zero.mpr hn
    refine ⟨by simpa using hne, fun d hd => ?_, fun hlead => ?_⟩
    · exact Nat.digits_lt_base hb (List.mem_reverse.mp hd)
    · rw [List.head?_reverse, List.getLast?_eq_getLast_of_ne_nil hne, Option.some.injEq] at hlead
      exact absurd hlead (Nat.getLast_digit_ne_zero b hn)

theorem length_numeral_le (hb : 1 < b) (hk : 0 < k) (h : n < b ^ k) : (numeral b n).length ≤ k := by
  by_cases hn : n = 0
  · subst hn
    exact hk
  · rw [numeral_of_pos hn, List.length_reverse]
    exact (Nat.digits_length_le_iff hb n).mpr h

/-- A number with more than one digit loses a bit at least with the last of them. -/
theorem div_bits (hb : 1 < b) (hge : b ≤ n) (h : n < 2 ^ (k + 1)) :
    0 < n / b ∧ n / b < 2 ^ k ∧ 0 < k := by
  have hpos : 0 < n / b := Nat.div_pos hge (by omega)
  have hlt : n / b < 2 ^ k := by
    apply Nat.div_lt_of_lt_mul
    calc n < 2 ^ k * 2 := by rwa [← Nat.pow_succ]
      _ ≤ 2 ^ k * b := Nat.mul_le_mul_left _ hb
      _ = b * 2 ^ k := Nat.mul_comm _ _
  refine ⟨hpos, hlt, Nat.pos_of_ne_zero ?_⟩
  rintro rfl
  exact absurd hlt (Nat.not_lt.mpr hpos)

/-! ## Digits as characters -/

variable {α : Type*} {char : Nat → α} {digit : α → Nat}

/-- Characters that can be told apart give the digits back. -/
theorem map_digit_numeral (hb : 1 < b) (hinv : ∀ d < b, digit (char d) = d) :
    ((numeral b n).map char).map digit = numeral b n := by
  rw [List.map_map, List.map_congr_left (g := id), List.map_id]
  exact fun d hd => hinv d ((canonical_numeral hb).digits d hd)

theorem map_numeral_inj (hb : 1 < b) (hinv : ∀ d < b, digit (char d) = d) :
    (numeral b n).map char = (numeral b n').map char ↔ n = n' := by
  constructor
  · intro h
    have hdigits := congrArg (List.map digit) h
    rw [map_digit_numeral hb hinv, map_digit_numeral hb hinv] at hdigits
    exact numeral_inj.mp hdigits
  · exact fun h => h ▸ rfl

end Numerals
