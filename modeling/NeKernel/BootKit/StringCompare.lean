import NeKernel.NeKit.AsciiUtils

/-!
# Comparing strings

The boot loader has a `strncmp`, which returns the difference of the first bytes that differ, and a
`strcmp`, which returns where they are. So the latter cannot tell the order of two strings, and strings
that differ in the first byte are the same to it. The `strcmp` of the kernel is blind for what is behind
the end of its first argument, and its characters are signed. `strcmp_right_iff` says which strings the
two get right.
-/

namespace NeKernel.BootKit

open ByteStore CStrings

/-! ## The boot loader's -/

/-- The loop of `strncmp` and what comes after it, with `left` rounds to go until `max_len`. -/
def strncmpFrom (whatToCheck whatToCheckRight : Store) : Nat → Nat → Int
  | 0, _ => 0
  | left + 1, i =>
    if whatToCheck i = whatToCheckRight i then
      if whatToCheck i = 0 then 0 else strncmpFrom whatToCheck whatToCheckRight left (i + 1)
    else (whatToCheck i).toNat - (whatToCheckRight i).toNat

/-- `strncmp`. -/
def strncmp (a b : CString) (maxLen : Nat) : Int := strncmpFrom a.bytes b.bytes maxLen 0

/-- The loop of `strcmp`; `none` if it has not come to an end. -/
def strcmpFrom (whatToCheck whatToCheckRight : Store) : Nat → Nat → Option Int
  | 0, _ => none
  | fuel + 1, len =>
    if whatToCheck len = whatToCheckRight len then
      if whatToCheck len = 0 then some 0 else strcmpFrom whatToCheck whatToCheckRight fuel (len + 1)
    else some (int32 len)

/-- `strcmp`. -/
def strcmp (a b : CString) : Option Int := strcmpFrom a.bytes b.bytes (a.len + 1) 0

variable {a b : CString} {l r : Store} {i k n maxLen : Nat}

/-- Equal bytes that are not the end are passed. -/
theorem strncmpFrom_skip (h : ∀ j < k, l (i + j) = r (i + j)) (hne : ∀ j < k, l (i + j) ≠ 0) :
    strncmpFrom l r (n + k) i = strncmpFrom l r n (i + k) := by
  induction k generalizing i with
  | zero => rfl
  | succ k ih =>
      have heq : l i = r i := h 0 (Nat.succ_pos k)
      have hchar : ¬ l i = 0 := hne 0 (Nat.succ_pos k)
      have hshift : ∀ j, i + 1 + j = i + (j + 1) := fun j => by omega
      rw [← Nat.add_assoc, strncmpFrom, if_pos heq, if_neg hchar, ih, hshift]
      · exact fun j hj => hshift j ▸ h (j + 1) (Nat.succ_lt_succ hj)
      · exact fun j hj => hshift j ▸ hne (j + 1) (Nat.succ_lt_succ hj)

theorem strcmpFrom_skip (h : ∀ j < k, l (i + j) = r (i + j)) (hne : ∀ j < k, l (i + j) ≠ 0) :
    strcmpFrom l r (n + k) i = strcmpFrom l r n (i + k) := by
  induction k generalizing i with
  | zero => rfl
  | succ k ih =>
      have heq : l i = r i := h 0 (Nat.succ_pos k)
      have hchar : ¬ l i = 0 := hne 0 (Nat.succ_pos k)
      have hshift : ∀ j, i + 1 + j = i + (j + 1) := fun j => by omega
      rw [← Nat.add_assoc, strcmpFrom, if_pos heq, if_neg hchar, ih, hshift]
      · exact fun j hj => hshift j ▸ h (j + 1) (Nat.succ_lt_succ hj)
      · exact fun j hj => hshift j ▸ hne (j + 1) (Nat.succ_lt_succ hj)

/-- `strncmp` of strings that differ, with a bound behind the place where they do. -/
theorem strncmp_differ (h : a.DifferAt b k) (hk : k < maxLen) :
    strncmp a b maxLen = (a.bytes k).toNat - (b.bytes k).toNat := by
  obtain ⟨n, rfl⟩ : ∃ n, maxLen = n + 1 + k := ⟨maxLen - 1 - k, by omega⟩
  rw [strncmp, strncmpFrom_skip, Nat.zero_add, strncmpFrom, if_neg h.differ]
  · exact fun j hj => by rw [Nat.zero_add]; exact h.before j hj
  · exact fun j hj => by rw [Nat.zero_add]; exact h.noNul_before hj

theorem strncmp_same (h : a.Same b) (hlen : a.len < maxLen) : strncmp a b maxLen = 0 := by
  obtain ⟨n, rfl⟩ : ∃ n, maxLen = n + 1 + a.len := ⟨maxLen - 1 - a.len, by omega⟩
  rw [strncmp, strncmpFrom_skip, Nat.zero_add, strncmpFrom, if_pos (h.bytes_eq (Nat.le_refl _)),
    if_pos a.nul]
  · exact fun j hj => by rw [Nat.zero_add]; exact h.2 j hj
  · exact fun j hj => by rw [Nat.zero_add]; exact a.noNul j hj

/-- The loop of `strcmp` ends where the bytes differ. -/
theorem strcmpFrom_differ (hk : k ≤ n) (hsame : ∀ j < k, l j = r j) (hne : ∀ j < k, l j ≠ 0)
    (hdiffer : l k ≠ r k) : strcmpFrom l r (n + 1) 0 = some (int32 k) := by
  obtain ⟨m, hm⟩ : ∃ m, n + 1 = m + 1 + k := ⟨n - k, by omega⟩
  rw [hm, strcmpFrom_skip, Nat.zero_add, strcmpFrom, if_neg hdiffer]
  · exact fun j hj => by rw [Nat.zero_add]; exact hsame j hj
  · exact fun j hj => by rw [Nat.zero_add]; exact hne j hj

/-- Or at the end of both strings. -/
theorem strcmpFrom_same (hsame : ∀ j ≤ n, l j = r j) (hne : ∀ j < n, l j ≠ 0) (hnul : l n = 0) :
    strcmpFrom l r (n + 1) 0 = some 0 := by
  rw [Nat.add_comm, strcmpFrom_skip (k := n), Nat.zero_add, strcmpFrom, if_pos (hsame n (Nat.le_refl n)),
    if_pos hnul]
  · exact fun j hj => by rw [Nat.zero_add]; exact hsame j hj.le
  · exact fun j hj => by rw [Nat.zero_add]; exact hne j hj

/-- **The boot loader's `strcmp`** returns where the strings differ. -/
theorem strcmp_differ (h : a.DifferAt b k) : strcmp a b = some (int32 k) :=
  strcmpFrom_differ h.left h.before (fun _ hj => h.noNul_before hj) h.differ

theorem strcmp_same (h : a.Same b) : strcmp a b = some 0 :=
  strcmpFrom_same (fun _ hj => h.bytes_eq hj) a.noNul a.nul

/-! ## What a comparison is for -/

/-- A comparison gets two strings right: it returns zero when they are the same and then only, numbers
of opposite signs for the two orders when they are not, and the sign that `strncmp` has. -/
structure Compares (cmp : CString → CString → Option Int) (a b : CString) : Prop where
  zero_iff : cmp a b = some 0 ↔ a.Same b
  opposite : ¬ a.Same b → ∃ v w, cmp a b = some v ∧ cmp b a = some w ∧ v.sign = -w.sign
  sign : ∀ maxLen, a.len < maxLen → b.len < maxLen →
    ∃ v, cmp a b = some v ∧ v.sign = (strncmp a b maxLen).sign

/-- The strings differ before either ends, in two bytes that are both below `0x80` or both not. -/
def DifferInside (a b : CString) : Prop :=
  ∃ k, a.DifferAt b k ∧ a.bytes k ≠ 0 ∧ b.bytes k ≠ 0 ∧ (a.bytes k < 0x80 ↔ b.bytes k < 0x80)

theorem charValue_eq (c : UInt8) :
    NeKit.charValue c = if c.toNat < 128 then (c.toNat : Int) else c.toNat - 256 := by
  have hlt := c.toNat_lt
  have hmod : NeKit.charValue c = (c.toNat : Int).bmod (2 ^ 8) := by
    rw [NeKit.charValue, Int8.toInt, UInt8.toBitVec_toInt8, BitVec.toInt_eq_toNat_bmod]
    rfl
  rw [hmod, Int.bmod_def]
  split <;> split <;> omega

/-- Signed characters are ordered like the bytes when they are on one side of `0x80`. -/
theorem charValue_sign_iff {c d : UInt8} (hne : c ≠ d) :
    (NeKit.charValue c - NeKit.charValue d).sign = ((c.toNat : Int) - d.toNat).sign ↔
      (c < 0x80 ↔ d < 0x80) := by
  have hne' : c.toNat ≠ d.toNat := fun h => hne (UInt8.toNat_inj.mp h)
  have hc := c.toNat_lt
  have hd := d.toNat_lt
  rw [charValue_eq, charValue_eq]
  simp only [UInt8.lt_iff_toNat_lt, show (0x80 : UInt8).toNat = 128 from rfl]
  have hsign : ∀ x : Int, (0 < x ∧ x.sign = 1) ∨ (x = 0 ∧ x.sign = 0) ∨ (x < 0 ∧ x.sign = -1) := by
    intro x
    rcases Int.lt_trichotomy x 0 with h | h | h
    · exact .inr (.inr ⟨h, Int.sign_eq_neg_one_of_neg h⟩)
    · exact .inr (.inl ⟨h, by rw [h]; rfl⟩)
    · exact .inl ⟨h, Int.sign_eq_one_of_pos h⟩
  have hbytes := hsign ((c.toNat : Int) - d.toNat)
  by_cases h₁ : c.toNat < 128 <;> by_cases h₂ : d.toNat < 128
  · rw [if_pos h₁, if_pos h₂]
    exact iff_of_true rfl (iff_of_true h₁ h₂)
  · rw [if_pos h₁, if_neg h₂]
    have hchars := hsign ((c.toNat : Int) - (d.toNat - 256))
    exact iff_of_false (by omega) (fun h => h₂ (h.mp h₁))
  · rw [if_neg h₁, if_pos h₂]
    have hchars := hsign ((c.toNat : Int) - 256 - d.toNat)
    exact iff_of_false (by omega) (fun h => h₁ (h.mpr h₂))
  · rw [if_neg h₁, if_neg h₂, show (c.toNat : Int) - 256 - (d.toNat - 256) = c.toNat - d.toNat by omega]
    exact iff_of_true rfl (iff_of_false h₁ h₂)

/-- Strings that are the same are got right by a comparison that returns zero for them. -/
theorem Compares.of_same {cmp : CString → CString → Option Int} (h : a.Same b)
    (hcmp : cmp a b = some 0) : Compares cmp a b where
  zero_iff := iff_of_true hcmp h
  opposite := fun hne => absurd h hne
  sign := fun _ hlen _ => ⟨0, hcmp, by rw [strncmp_same h hlen]⟩

theorem kernel_right_iff (a b : CString) :
    Compares NeKit.strcmp a b ↔ a.Same b ∨ DifferInside a b := by
  rcases CString.same_or_differAt a b with hsame | ⟨k, hk⟩
  · exact iff_of_true (.of_same hsame (NeKit.strcmp_same hsame)) (.inl hsame)
  · have hbound : a.len < a.len + b.len + 1 ∧ b.len < a.len + b.len + 1 := by omega
    have hinside : k < a.len + b.len + 1 := by
      have hleft := hk.left
      omega
    have hnat := strncmp_differ hk hinside
    constructor
    · intro h
      -- a prefix is taken for the same string, in one order or in the other
      have ha : a.bytes k ≠ 0 := fun hend =>
        hk.not_same (h.zero_iff.mp (NeKit.strcmp_prefix hk hend))
      have hb : b.bytes k ≠ 0 := by
        intro hend
        obtain ⟨v, w, hv, hw, hopp⟩ := h.opposite hk.not_same
        rw [NeKit.strcmp_prefix hk.symm hend] at hw
        obtain rfl := Option.some.inj hw
        have hzero : v = 0 := Int.sign_eq_zero_iff_zero.mp hopp
        exact hk.not_same (h.zero_iff.mp (hzero ▸ hv))
      obtain ⟨v, hv, hsign⟩ := h.sign _ hbound.1 hbound.2
      rw [NeKit.strcmp_inside hk ha] at hv
      obtain rfl := Option.some.inj hv
      rw [hnat, charValue_sign_iff hk.differ] at hsign
      exact .inr ⟨k, hk, ha, hb, hsign⟩
    · rintro (hsame | ⟨k', hk', ha, hb, hside⟩)
      · exact absurd hsame hk.not_same
      · obtain rfl := hk.unique hk'
        have hcmp := NeKit.strcmp_inside hk ha
        have hback := NeKit.strcmp_inside hk.symm hb
        have hsign := (charValue_sign_iff hk.differ).mpr hside
        refine ⟨iff_of_false ?_ hk.not_same, fun _ => ⟨_, _, hcmp, hback, ?_⟩, ?_⟩
        · intro hzero
          rw [Option.some.inj (hcmp.symm.trans hzero), Int.sign_zero, eq_comm,
            Int.sign_eq_zero_iff_zero] at hsign
          exact hk.differ (UInt8.toNat_inj.mp (by omega))
        · rw [← Int.sign_neg, Int.neg_sub]
        · intro maxLen hlen _
          exact ⟨_, hcmp, by rw [hsign, strncmp_differ hk (by have := hk.left; omega)]⟩

theorem boot_right_iff (a b : CString) : Compares strcmp a b ↔ a.Same b := by
  constructor
  · intro h
    rcases CString.same_or_differAt a b with hsame | ⟨k, hk⟩
    · exact hsame
    · -- both orders return the same number
      obtain ⟨v, w, hv, hw, hopp⟩ := h.opposite hk.not_same
      rw [strcmp_differ hk] at hv
      rw [strcmp_differ hk.symm] at hw
      obtain rfl := Option.some.inj hv
      obtain rfl := Option.some.inj hw
      have hzero : int32 k = 0 := Int.sign_eq_zero_iff_zero.mp (by omega)
      exact h.zero_iff.mp (hzero ▸ strcmp_differ hk)
  · exact fun h => .of_same h (strcmp_same h)

/-- **Which strings are compared right**: by the kernel those that are the same or differ inside both on
one side of `0x80`, by the boot loader those that are the same. -/
theorem strcmp_right_iff (a b : CString) :
    (Compares NeKit.strcmp a b ↔ a.Same b ∨ DifferInside a b) ∧
      (Compares strcmp a b ↔ a.Same b) :=
  ⟨kernel_right_iff a b, boot_right_iff a b⟩

/-- A string of the characters of a list. -/
def literal (chars : List UInt8) (h : ∀ i < chars.length, chars.getD i 0 ≠ 0) : CString where
  bytes := fun i => chars.getD i 0
  len := chars.length
  noNul := h
  nul := by rw [List.getD_eq_getElem?_getD, List.getElem?_eq_none (Nat.le_refl _)]; rfl

def stringA : CString := literal [0x61] (by decide)
def stringB : CString := literal [0x62] (by decide)
def stringAB : CString := literal [0x61, 0x62] (by decide)

/-- `a` and `ab` are the same to the kernel, `a` and `b` to the boot loader. -/
theorem strcmp_misses : NeKit.strcmp stringA stringAB = some 0 ∧ strcmp stringA stringB = some 0 ∧
    ¬ ∀ a b, Compares NeKit.strcmp a b ∧ Compares strcmp a b := by
  refine ⟨by decide, by decide, fun h => ?_⟩
  have hsame := (h stringA stringAB).1.zero_iff.mp (by decide)
  exact absurd hsame.1 (by decide)

end NeKernel.BootKit
