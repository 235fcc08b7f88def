import Mathlib.Tactic.Ring
import Mathlib.Data.Nat.Basic

/-!
# Byte stores

A flat byte-addressed store and the three things programs do with one: copy a run of bytes to
an address (`blit`), look at the store from an address on (`slice`), and read or write a
little-endian word (`getLE`, `putLE`). A packed C structure held in memory is a store too: its
fields are words at fixed offsets, so the same lemmas serve for memory, for a buffer and for
the contents of a drive.

Every write is a `blit`, hence one pair of frame lemmas (`getLE_blit_of_disjoint`,
`getLE_blit_inside`) settles what any later read sees.
-/

namespace ByteStore

/-- A byte-addressed store. -/
abbrev Store := Nat → UInt8

/-- The all-zero store. -/
def zeros : Store := fun _ => 0

/-- The store seen from address `a` on. -/
def slice (m : Store) (a : Nat) : Store := fun i => m (a + i)

/-- Copy the first `n` bytes of `src` into `m` at address `a`. -/
def blit (m : Store) (a n : Nat) (src : Store) : Store :=
  fun x => if a ≤ x ∧ x < a + n then src (x - a) else m x

/-- Set the `n` bytes at `a` to `b`. -/
def fill (m : Store) (a n : Nat) (b : UInt8) : Store := blit m a n (fun _ => b)

/-- The little-endian bytes of `v`. -/
def leBytes (v : Nat) : Store := fun i => UInt8.ofNat (v / 256 ^ i)

/-- Read the `n`-byte little-endian word at `a`. -/
def getLE (m : Store) (a : Nat) : Nat → Nat
  | 0 => 0
  | n + 1 => (m a).toNat + 256 * getLE m (a + 1) n

/-- Write `v` as the `n`-byte little-endian word at `a`; what does not fit is cut off. -/
def putLE (m : Store) (a n v : Nat) : Store := blit m a n (leBytes v)

/-- Write `n` consecutive `w`-byte words from `a` on, the `i`-th of them `f i`. -/
def putWords (m : Store) (a w : Nat) (f : Nat → Nat) : Nat → Store
  | 0 => m
  | n + 1 => putLE (putWords m a w f n) (a + w * n) w (f n)

/-- The two stores hold the same `n` bytes at `a`. -/
def AgreeOn (m m' : Store) (a n : Nat) : Prop := ∀ x, a ≤ x → x < a + n → m x = m' x

/-- The two stores differ in the `n` bytes at `a` at most. -/
def OnlyAt (m m' : Store) (a n : Nat) : Prop := ∀ x, x < a ∨ a + n ≤ x → m' x = m x

variable {m m' src src' : Store} {a b n k v w : Nat}

/-! ## Copies -/

theorem slice_apply (i : Nat) : slice m a i = m (a + i) := rfl

theorem blit_apply_of_mem {x : Nat} (h₁ : a ≤ x) (h₂ : x < a + n) :
    blit m a n src x = src (x - a) := if_pos ⟨h₁, h₂⟩

theorem blit_apply_of_notMem {x : Nat} (h : x < a ∨ a + n ≤ x) : blit m a n src x = m x := by
  apply if_neg
  omega

/-- Only the first `n` bytes of the source matter. -/
theorem blit_congr (h : ∀ i < n, src i = src' i) : blit m a n src = blit m a n src' := by
  funext x
  unfold blit
  split
  · next hx => exact h _ (by omega)
  · rfl

/-- Writing back what is there changes nothing. -/
theorem blit_self (h : ∀ i < n, src i = m (a + i)) : blit m a n src = m := by
  funext x
  unfold blit
  split
  · next hx => rw [h _ (by omega), show a + (x - a) = x by omega]
  · rfl

@[simp] theorem slice_blit_same_apply {i : Nat} (h : i < n) :
    slice (blit m a n src) a i = src i := by
  rw [slice_apply, blit_apply_of_mem (by omega) (by omega), Nat.add_sub_cancel_left]

theorem blit_apply_add {i : Nat} (h : i < n) : blit m a n src (a + i) = src i :=
  slice_blit_same_apply h

/-- A copy over an equal range hides the earlier one. -/
theorem blit_blit_same : blit (blit m a n src) a n src' = blit m a n src' := by
  funext x
  unfold blit
  split <;> rfl

/-- A copy does not disturb bytes it does not cover. -/
theorem AgreeOn.blit (h : a + n ≤ b ∨ b + k ≤ a) : AgreeOn (blit m b k src) m a n := by
  intro x h₁ h₂
  exact blit_apply_of_notMem (by omega)

theorem AgreeOn.trans {m'' : Store} (h : AgreeOn m m' a n) (h' : AgreeOn m' m'' a n) :
    AgreeOn m m'' a n := fun x h₁ h₂ => (h x h₁ h₂).trans (h' x h₁ h₂)

theorem AgreeOn.symm (h : AgreeOn m m' a n) : AgreeOn m' m a n :=
  fun x h₁ h₂ => (h x h₁ h₂).symm

theorem AgreeOn.mono (h : AgreeOn m m' b k) (h₁ : b ≤ a) (h₂ : a + n ≤ b + k) :
    AgreeOn m m' a n := fun x hx hx' => h x (by omega) (by omega)

theorem OnlyAt.refl : OnlyAt m m a n := fun _ _ => rfl

theorem OnlyAt.trans {m'' : Store} (h : OnlyAt m m' a n) (h' : OnlyAt m' m'' a n) :
    OnlyAt m m'' a n := fun x hx => (h' x hx).trans (h x hx)

theorem OnlyAt.blit (h₁ : a ≤ b) (h₂ : b + k ≤ a + n) : OnlyAt m (blit m b k src) a n := by
  intro x hx
  exact blit_apply_of_notMem (by omega)

theorem OnlyAt.putLE (h₁ : a ≤ b) (h₂ : b + k ≤ a + n) : OnlyAt m (putLE m b k v) a n :=
  OnlyAt.blit h₁ h₂

/-- What is written elsewhere leaves a range alone. -/
theorem OnlyAt.agreeOn (h : OnlyAt m m' a n) (hd : b + k ≤ a ∨ a + n ≤ b) :
    AgreeOn m' m b k := fun x h₁ h₂ => h x (by omega)

/-! ## Words -/

@[simp] theorem getLE_zero : getLE m a 0 = 0 := rfl

theorem getLE_succ : getLE m a (n + 1) = (m a).toNat + 256 * getLE m (a + 1) n := rfl

/-- A word depends on its own bytes only. -/
theorem getLE_congr (h : ∀ i < n, m (a + i) = m' (b + i)) : getLE m a n = getLE m' b n := by
  induction n generalizing a b with
  | zero => rfl
  | succ n ih =>
      have h₀ : m a = m' b := by simpa using h 0 (by omega)
      have hs : getLE m (a + 1) n = getLE m' (b + 1) n := by
        apply ih
        intro i hi
        have := h (i + 1) (by omega)
        rwa [show a + (i + 1) = a + 1 + i by omega, show b + (i + 1) = b + 1 + i by omega] at this
      rw [getLE_succ, getLE_succ, h₀, hs]

theorem AgreeOn.getLE_eq (h : AgreeOn m m' a n) : getLE m a n = getLE m' a n :=
  getLE_congr fun i hi => h (a + i) (by omega) (by omega)

theorem OnlyAt.getLE_eq (h : OnlyAt m m' a n) (hd : b + k ≤ a ∨ a + n ≤ b) :
    getLE m' b k = getLE m b k := (h.agreeOn hd).getLE_eq

theorem getLE_lt : getLE m a n < 256 ^ n := by
  induction n generalizing a with
  | zero => simp
  | succ n ih =>
      have h₁ : (m a).toNat < 256 := (m a).toNat_lt
      have h₂ : getLE m (a + 1) n < 256 ^ n := ih
      rw [getLE_succ, Nat.pow_succ]
      omega

/-- A word of two parts. -/
theorem getLE_add {j : Nat} : getLE m a (n + j) = getLE m a n + 256 ^ n * getLE m (a + n) j := by
  induction n generalizing a with
  | zero => rw [Nat.zero_add, getLE_zero, Nat.zero_add, Nat.pow_zero, Nat.one_mul, Nat.add_zero]
  | succ n ih =>
      rw [Nat.succ_add, getLE_succ, ih, getLE_succ, Nat.pow_succ, Nat.mul_comm (256 ^ n) 256,
        Nat.mul_assoc, Nat.mul_add, Nat.add_assoc a 1 n, Nat.add_comm 1 n, Nat.add_assoc]

/-- A part of a word. -/
theorem getLE_part {j : Nat} : getLE m a (k + n + j) / 256 ^ k % 256 ^ n = getLE m (a + k) n := by
  rw [Nat.add_assoc, getLE_add, Nat.add_mul_div_left _ _ (Nat.pow_pos (by decide)),
    Nat.div_eq_of_lt getLE_lt, Nat.zero_add, getLE_add, Nat.add_mul_mod_self_left,
    Nat.mod_eq_of_lt getLE_lt]

/-- Equal words have equal bytes. -/
theorem getLE_inj (h : getLE m a n = getLE m' b n) : ∀ i < n, m (a + i) = m' (b + i) := by
  induction n generalizing a b with
  | zero => intro i hi; omega
  | succ n ih =>
      have h₁ : (m a).toNat < 256 := (m a).toNat_lt
      have h₂ : (m' b).toNat < 256 := (m' b).toNat_lt
      rw [getLE_succ, getLE_succ] at h
      intro i hi
      cases i with
      | zero =>
          apply UInt8.toNat_inj.mp
          simp only [Nat.add_zero]
          omega
      | succ i =>
          have hrest : getLE m (a + 1) n = getLE m' (b + 1) n := by omega
          have := ih hrest i (by omega)
          rwa [show a + 1 + i = a + (i + 1) by omega, show b + 1 + i = b + (i + 1) by omega] at this

@[simp] theorem getLE_slice : getLE (slice m b) a n = getLE m (b + a) n :=
  getLE_congr fun i _ => by rw [slice_apply, Nat.add_assoc]

@[simp] theorem getLE_zeros : getLE zeros a n = 0 := by
  induction n generalizing a with
  | zero => rfl
  | succ n ih => rw [getLE_succ, ih]; rfl

/-- A word is zero exactly when its bytes are. -/
theorem getLE_eq_zero_iff : getLE m a n = 0 ↔ ∀ i < n, m (a + i) = 0 := by
  constructor
  · intro h i hi
    have hzeros : getLE m a n = getLE zeros 0 n := by rw [h, getLE_zeros]
    exact getLE_inj hzeros i hi
  · intro h
    have hzeros : getLE m a n = getLE zeros 0 n := getLE_congr fun i hi => h i hi
    rw [hzeros, getLE_zeros]

theorem getLE_leBytes (i : Nat) : getLE (leBytes v) i n = v / 256 ^ i % 256 ^ n := by
  induction n generalizing i with
  | zero => simp [Nat.mod_one]
  | succ n ih =>
      have hb : (leBytes v i).toNat = v / 256 ^ i % 256 := by
        simp [leBytes, UInt8.toNat_ofNat']
      rw [getLE_succ, ih, hb, Nat.pow_succ, Nat.pow_succ, ← Nat.div_div_eq_div_mul,
        Nat.mul_comm (256 ^ n) 256, Nat.mod_mul]

theorem getLE_blit_of_disjoint (h : a + n ≤ b ∨ b + k ≤ a) :
    getLE (blit m b k src) a n = getLE m a n := (AgreeOn.blit h).getLE_eq

theorem getLE_blit_inside (h₁ : b ≤ a) (h₂ : a + n ≤ b + k) :
    getLE (blit m b k src) a n = getLE src (a - b) n :=
  getLE_congr fun i hi => by
    rw [blit_apply_of_mem (by omega) (by omega), show a + i - b = a - b + i by omega]

theorem getLE_putLE_same : getLE (putLE m a n v) a n = v % 256 ^ n := by
  rw [putLE, getLE_blit_inside (Nat.le_refl _) (Nat.le_refl _), Nat.sub_self, getLE_leBytes]
  simp

theorem getLE_putLE_of_disjoint (h : a + n ≤ b ∨ b + k ≤ a) :
    getLE (putLE m b k v) a n = getLE m a n := getLE_blit_of_disjoint h

theorem putLE_apply_of_notMem {x : Nat} (h : x < a ∨ a + n ≤ x) : putLE m a n v x = m x :=
  blit_apply_of_notMem h

/-- Writing the word that is there changes nothing. -/
theorem putLE_getLE_self (h : v % 256 ^ n = getLE m a n) : putLE m a n v = m := by
  apply blit_self
  have : getLE (leBytes v) 0 n = getLE m a n := by rw [getLE_leBytes]; simpa using h
  intro i hi
  simpa using getLE_inj this i hi

/-- The bytes of a word are the bytes it was read from. -/
theorem leBytes_getLE {i : Nat} (h : i < n) : leBytes (getLE m a n) i = m (a + i) := by
  have hself : putLE m a n (getLE m a n) (a + i) = m (a + i) :=
    congrFun (putLE_getLE_self (Nat.mod_eq_of_lt getLE_lt)) (a + i)
  rwa [putLE, blit_apply_of_mem (by omega) (by omega), Nat.add_sub_cancel_left] at hself

/-- Words that differ in the lowest byte only have the same bytes above it. -/
theorem leBytes_succ_congr {i : Nat} (h : v / 256 = w / 256) :
    leBytes v (i + 1) = leBytes w (i + 1) := by
  unfold leBytes
  rw [Nat.pow_succ', ← Nat.div_div_eq_div_mul, ← Nat.div_div_eq_div_mul, h]

/-- A run of words covers its range and nothing else. -/
theorem onlyAt_putWords {f : Nat → Nat} : OnlyAt m (putWords m a w f n) a (w * n) := by
  induction n with
  | zero => exact .refl
  | succ n ih =>
      have hstep : w * (n + 1) = w * n + w := Nat.mul_succ w n
      intro x hx
      rw [putWords, putLE_apply_of_notMem (by omega)]
      exact ih x (by omega)

/-- Each word of a run reads back as it was written. -/
theorem getLE_putWords {f : Nat → Nat} {i : Nat} (hi : i < n) :
    getLE (putWords m a w f n) (a + w * i) w = f i % 256 ^ w := by
  induction n with
  | zero => omega
  | succ n ih =>
      rw [putWords]
      by_cases hin : i = n
      · rw [hin, getLE_putLE_same]
      · have hle : w * i + w ≤ w * n := by
          rw [← Nat.mul_succ]
          exact Nat.mul_le_mul_left w (by omega)
        rw [getLE_putLE_of_disjoint (by omega)]
        exact ih (by omega)

@[simp] theorem getLE_fill_zero_inside (h₁ : b ≤ a) (h₂ : a + n ≤ b + k) :
    getLE (fill m b k 0) a n = 0 := by
  rw [fill, getLE_blit_inside h₁ h₂]
  exact getLE_zeros

end ByteStore
