import NeKernel.Lib.ByteStore

/-!
# Loops over words

Copying and filling a range word by word. A counting loop is `forLoop`, and its rule is an invariant
over the number of rounds done (`forLoop_inv`). A copy that goes up is the copy of the whole range
when the target does not lie behind the source inside the range (`copyUp_eq`), one that goes down
when it does not lie before it (`copyDown_eq`); the width of the words does not matter. Bytes that are
exchanged from both ends to the middle turn a range round (`turnRound_eq`).
-/

namespace WordCopy

open ByteStore

variable {σ : Type*}

/-! ## Counting loops -/

/-- `for (i = 0; i < n; ++i) body`. -/
def forLoop (body : Nat → σ → σ) : Nat → σ → σ
  | 0, s => s
  | n + 1, s => body n (forLoop body n s)

/-- **The loop rule**: what holds before the first round and is kept by every round holds at the
end. -/
theorem forLoop_inv {body : Nat → σ → σ} {I : Nat → σ → Prop} {n : Nat} {s : σ} (h₀ : I 0 s)
    (hs : ∀ i < n, ∀ s, I i s → I (i + 1) (body i s)) : I n (forLoop body n s) := by
  induction n with
  | zero => exact h₀
  | succ n ih => exact hs n (Nat.lt_succ_self n) _ (ih fun i hi => hs i (Nat.lt_succ_of_lt hi))

/-- Only the rounds that are done matter. -/
theorem forLoop_congr {body body' : Nat → σ → σ} {n : Nat} {s : σ}
    (h : ∀ i < n, ∀ s, body i s = body' i s) : forLoop body n s = forLoop body' n s := by
  induction n with
  | zero => rfl
  | succ n ih =>
      rw [forLoop, forLoop, ih fun i hi => h i (Nat.lt_succ_of_lt hi), h n (Nat.lt_succ_self n)]

variable {m src src' : Store} {a b d s k n w v : Nat}

/-! ## Ranges next to each other -/

/-- Two copies that continue each other are one. -/
theorem blit_append (hb : b = a + n) (h : ∀ i < k, src' i = src (n + i)) :
    blit (blit m a n src) b k src' = blit m a (n + k) src := by
  subst hb
  funext x
  unfold blit
  by_cases hx : a + n ≤ x ∧ x < a + n + k
  · rw [if_pos hx, if_pos (by omega), h _ (by omega), show n + (x - (a + n)) = x - a by omega]
  · rw [if_neg hx]
    by_cases hx' : a ≤ x ∧ x < a + n
    · rw [if_pos hx', if_pos (by omega)]
    · rw [if_neg hx', if_neg (by omega)]

/-- So are two copies of which the second lies in front. -/
theorem blit_prepend (hb : a = b + k) (h : ∀ i < n, src i = src' (k + i)) :
    blit (blit m a n src) b k src' = blit m b (k + n) src' := by
  subst hb
  funext x
  unfold blit
  by_cases hx : b ≤ x ∧ x < b + k
  · rw [if_pos hx, if_pos (by omega)]
  · rw [if_neg hx]
    by_cases hx' : b + k ≤ x ∧ x < b + k + n
    · rw [if_pos hx', if_pos (by omega), h _ (by omega), show k + (x - (b + k)) = x - b by omega]
    · rw [if_neg hx', if_neg (by omega)]

theorem blit_zero : blit m a 0 src = m := blit_self fun _ hi => absurd hi (Nat.not_lt_zero _)

/-! ## Copies -/

/-- A word that is read and written is copied. -/
theorem putLE_getLE : putLE m a w (getLE src b w) = blit m a w (slice src b) :=
  blit_congr fun _ hi => leBytes_getLE hi

/-- A source that a copy has not reached is as before. -/
theorem slice_blit_apart {i : Nat} (h : b + i < a ∨ a + n ≤ b + i) :
    slice (blit m a n src) b i = slice m b i := blit_apply_of_notMem h

/-- Copy `n` words, first one first. -/
def copyUp (w d s n : Nat) : Store → Store :=
  forLoop (fun i m => putLE m (d + w * i) w (getLE m (s + w * i) w)) n

/-- Copy `n` words out of memory that is not written. -/
def copyFrom (w : Nat) (src : Store) (d s n : Nat) : Store → Store :=
  forLoop (fun i m => putLE m (d + w * i) w (getLE src (s + w * i) w)) n

/-- Copy `n` words that end at `d` and `s`, last one first. -/
def copyDown (w d s n : Nat) : Store → Store :=
  forLoop (fun i m => putLE m (d - w * (i + 1)) w (getLE m (s - w * (i + 1)) w)) n

/-- A copy writes its target only. -/
theorem copyUp_onlyAt : OnlyAt m (copyUp w d s n m) d (w * n) := by
  refine forLoop_inv (I := fun k m' => OnlyAt m m' d (w * k)) .refl fun i _ m' h => ?_
  intro x hx
  have hstep : w * (i + 1) = w * i + w := Nat.mul_succ w i
  rw [putLE_apply_of_notMem (by omega)]
  exact h x (by omega)

/-- Nothing can go wrong with a source that is not written. -/
theorem copyFrom_eq : copyFrom w src d s n m = blit m d (w * n) (slice src s) := by
  refine forLoop_inv (I := fun k m' => m' = blit m d (w * k) (slice src s)) ?_ fun i _ m' hm' => ?_
  · rw [Nat.mul_zero, blit_zero]
  · subst hm'
    rw [putLE_getLE, Nat.mul_succ]
    apply blit_append rfl
    intro j _
    rw [slice_apply, slice_apply, Nat.add_assoc]

/-- **Copying up** is right when the target does not begin inside the source. -/
theorem copyUp_eq (h : d ≤ s ∨ s + w * n ≤ d) :
    copyUp w d s n m = blit m d (w * n) (slice m s) := by
  refine forLoop_inv (I := fun k m' => m' = blit m d (w * k) (slice m s)) ?_ fun i hi m' hm' => ?_
  · rw [Nat.mul_zero, blit_zero]
  · have hle : w * i + w ≤ w * n := by
      rw [← Nat.mul_succ]
      exact Nat.mul_le_mul_left w hi
    subst hm'
    rw [putLE_getLE, Nat.mul_succ]
    apply blit_append rfl
    intro j hj
    rw [slice_blit_apart (by omega), slice_apply, slice_apply, Nat.add_assoc]

/-- **Copying up a target behind the source** repeats the bytes between the two. -/
theorem copyUp_ahead (h : s < d) :
    copyUp 1 d s n m = blit m d n fun i => m (s + i % (d - s)) := by
  refine forLoop_inv (I := fun k m' => m' = blit m d k fun i => m (s + i % (d - s))) ?_
    fun i _ m' hm' => ?_
  · rw [blit_zero]
  · subst hm'
    rw [putLE_getLE, Nat.one_mul]
    apply blit_append rfl
    intro j hj
    obtain rfl : j = 0 := by omega
    rw [slice_apply]
    by_cases hin : i < d - s
    · rw [blit_apply_of_notMem (by omega), Nat.add_zero, Nat.add_zero, Nat.mod_eq_of_lt hin]
    · -- the byte that is read was written `d - s` rounds ago
      rw [blit_apply_of_mem (by omega) (by omega),
        show s + i + 0 - d = i - (d - s) by omega, Nat.add_zero, ← Nat.mod_eq_sub_mod (by omega)]

/-- **Copying down** is right when the target does not end inside the source. -/
theorem copyDown_eq (h : s ≤ d) (hs : w * n ≤ s) :
    copyDown w d s n m = blit m (d - w * n) (w * n) (slice m (s - w * n)) := by
  refine forLoop_inv
    (I := fun k m' => m' = blit m (d - w * k) (w * k) (slice m (s - w * k))) ?_ fun i hi m' hm' => ?_
  · rw [Nat.mul_zero, blit_zero]
  · have hle : w * i + w ≤ w * n := by
      rw [← Nat.mul_succ]
      exact Nat.mul_le_mul_left w hi
    subst hm'
    rw [putLE_getLE, Nat.mul_succ, Nat.add_comm (w * i) w]
    have hjoin : ∀ j < w * i,
        slice m (s - w * i) j = slice m (s - (w + w * i)) (w + j) := by
      intro j hj
      rw [slice_apply, slice_apply, show s - (w + w * i) + (w + j) = s - w * i + j by omega]
    rw [← blit_prepend (show d - w * i = d - (w + w * i) + w by omega) hjoin]
    apply blit_congr
    intro j hj
    rw [slice_blit_apart (by omega)]

/-! ## Fills -/

/-- Fill `n` words. -/
def fillUp (w d v n : Nat) : Store → Store :=
  forLoop (fun i m => putLE m (d + w * i) w v) n

/-- **Filling with words** repeats the bytes of the word. -/
theorem fillUp_eq :
    fillUp w d v n m = blit m d (w * n) fun x => leBytes v (x % w) := by
  refine forLoop_inv (I := fun k m' => m' = blit m d (w * k) fun x => leBytes v (x % w)) ?_
    fun i _ m' hm' => ?_
  · rw [Nat.mul_zero, blit_zero]
  · subst hm'
    rw [putLE, Nat.mul_succ]
    apply blit_append rfl
    intro j hj
    rw [Nat.mul_add_mod, Nat.mod_eq_of_lt hj]

/-- A fill with bytes. -/
theorem fillUp_bytes : fillUp 1 d v n m = fill m d n (UInt8.ofNat v) := by
  rw [fillUp_eq, Nat.one_mul, fill]
  apply blit_congr
  intro i _
  rw [Nat.mod_one, leBytes, Nat.pow_zero, Nat.div_one]

/-! ## Turning a range round -/

/-- Exchange the bytes at `x` and `y`. -/
def swap (m : Store) (x y : Nat) : Store := fill (fill m x 1 (m y)) y 1 (m x)

theorem fill_one_apply {x y : Nat} {c : UInt8} : fill m x 1 c y = if y = x then c else m y := by
  by_cases h : y = x
  · rw [if_pos h, fill, blit_apply_of_mem (by omega) (by omega)]
  · rw [if_neg h, fill, blit_apply_of_notMem (by omega)]

theorem swap_apply {x y z : Nat} :
    swap m x y z = if z = y then m x else if z = x then m y else m z := by
  rw [swap, fill_one_apply, fill_one_apply]

/-- Exchange the first with the last of `n` bytes, the second with the last but one, and so on. -/
def turnRound (a n : Nat) : Store → Store :=
  forLoop (fun j m => swap m (a + j) (a + (n - j - 1))) (n / 2)

/-- **Half the exchanges turn the range round**; a byte in the middle stays. -/
theorem turnRound_eq : turnRound a n m = blit m a n fun i => m (a + (n - 1 - i)) := by
  have hinv : ∀ x, turnRound a n m x =
      if a ≤ x ∧ x < a + n ∧ (x < a + n / 2 ∨ a + n - n / 2 ≤ x) then m (a + (n - 1 - (x - a)))
      else m x := by
    -- after `k` rounds both ends are turned round, `k` bytes deep
    refine forLoop_inv (I := fun k (m' : Store) => ∀ x, m' x =
      if a ≤ x ∧ x < a + n ∧ (x < a + k ∨ a + n - k ≤ x) then m (a + (n - 1 - (x - a)))
      else m x) (fun x => ?_) fun i hi m' hm' x => ?_
    · rw [if_neg (by omega)]
    · have hfront : m' (a + i) = m (a + i) := by rw [hm', if_neg (by omega)]
      have hback : m' (a + (n - i - 1)) = m (a + (n - i - 1)) := by rw [hm', if_neg (by omega)]
      rw [swap_apply, hfront, hback, hm']
      by_cases hx : x = a + (n - i - 1)
      · rw [if_pos hx, if_pos (by omega), show n - 1 - (x - a) = i by omega]
      · rw [if_neg hx]
        by_cases hx' : x = a + i
        · rw [if_pos hx', if_pos (by omega), show n - 1 - (x - a) = n - i - 1 by omega]
        · rw [if_neg hx']
          exact if_congr (by omega) rfl rfl
  funext x
  rw [hinv]
  by_cases hx : a ≤ x ∧ x < a + n
  · rw [blit_apply_of_mem hx.1 hx.2]
    by_cases hturned : x < a + n / 2 ∨ a + n - n / 2 ≤ x
    · rw [if_pos ⟨hx.1, hx.2, hturned⟩]
    · rw [if_neg fun h => hturned h.2.2, show a + (n - 1 - (x - a)) = x by omega]
  · rw [blit_apply_of_notMem (by omega), if_neg fun h => hx ⟨h.1, h.2.1⟩]

end WordCopy
