import Mathlib.Data.List.Basic
import Mathlib.Logic.Function.Iterate

/-!
# Table-driven checksums

A 32-bit checksum kept in a register that takes one byte at a time: shift the register down by a
byte and fold in the table word that the outgoing byte and the new one select. Nothing is assumed
of the table except that its words have pairwise different top bytes, which every table of an
invertible generator has.

Two facts follow. The register never forgets (`step_inj_left`), and four consecutive bytes are
read back from it exactly (`fold_window_inj`): of two messages that differ in at most four
consecutive bytes only equal ones have equal checksums.

The table of a generator holds what eight steps of one bit make of its indices. Steps of one bit
are linear (`bitStep_xor`), so a byte folded in with that table is a byte folded in bit by bit
(`step_eq_byteStep`).
-/

namespace Crc

variable {T : BitVec 8 → BitVec 32}

/-- The table word one step selects. -/
def index (c : BitVec 32) (b : BitVec 8) : BitVec 8 := c.setWidth 8 ^^^ b

/-- One byte into the register. -/
def step (T : BitVec 8 → BitVec 32) (c : BitVec 32) (b : BitVec 8) : BitVec 32 :=
  (c >>> 8) ^^^ T (index c b)

/-- The words of the table are told apart by their top bytes. -/
def TopInjective (T : BitVec 8 → BitVec 32) : Prop := ∀ i j, T i >>> 24 = T j >>> 24 → i = j

/-- The top byte of the register is the top byte of the table word just folded in. -/
theorem step_top (c : BitVec 32) (b : BitVec 8) : step T c b >>> 24 = T (index c b) >>> 24 := by
  have hzero : (c >>> 8) >>> 24 = 0#32 := by
    rw [← BitVec.shiftRight_add]
    exact BitVec.ushiftRight_eq_zero (by decide)
  rw [step, BitVec.ushiftRight_xor_distrib, hzero, BitVec.zero_xor]

/-- Registers that agree above their lowest `k` bytes after a step selected the same table word and
agreed above their lowest `k + 1` bytes before it. -/
theorem step_inj_above (hT : TopInjective T) {c c' : BitVec 32} {b b' : BitVec 8} {k : Nat}
    (hk : k ≤ 3) (h : step T c b >>> (8 * k) = step T c' b' >>> (8 * k)) :
    index c b = index c' b' ∧ c >>> (8 * (k + 1)) = c' >>> (8 * (k + 1)) := by
  have htop : step T c b >>> 24 = step T c' b' >>> 24 := by
    have := congrArg (fun x : BitVec 32 => x >>> (24 - 8 * k)) h
    simpa only [← BitVec.shiftRight_add, show 8 * k + (24 - 8 * k) = 24 by omega] using this
  have hi : index c b = index c' b' := by
    rw [step_top, step_top] at htop
    exact hT _ _ htop
  refine ⟨hi, ?_⟩
  rw [step, step, hi, BitVec.ushiftRight_xor_distrib, BitVec.ushiftRight_xor_distrib] at h
  rw [show 8 * (k + 1) = 8 + 8 * k by omega, BitVec.shiftRight_add, BitVec.shiftRight_add]
  exact (BitVec.xor_left_inj _).mp h

/-- From one register, different bytes give different table words. -/
theorem index_inj_right {c : BitVec 32} {b b' : BitVec 8} (h : index c b = index c b') : b = b' :=
  (BitVec.xor_right_inj _).mp h

/-- One byte is read from different registers as different registers. -/
theorem step_inj_left (hT : TopInjective T) {c c' : BitVec 32} {b : BitVec 8}
    (h : step T c b = step T c' b) : c = c' := by
  obtain ⟨hi, hup⟩ := step_inj_above hT (k := 0) (by omega) (by simpa using h)
  have hlow : c.setWidth 8 = c'.setWidth 8 := (BitVec.xor_left_inj b).mp hi
  apply BitVec.eq_of_getLsbD_eq
  intro i hi32
  by_cases h8 : i < 8
  · have := congrArg (fun x : BitVec 8 => x.getLsbD i) hlow
    simpa [h8] using this
  · have := congrArg (fun x : BitVec 32 => x.getLsbD (i - 8)) hup
    simpa [show 8 + (i - 8) = i by omega] using this

/-- The same bytes read from different registers leave them different. -/
theorem fold_inj_left (hT : TopInjective T) (bs : List (BitVec 8)) {c c' : BitVec 32}
    (h : bs.foldl (step T) c = bs.foldl (step T) c') : c = c' := by
  induction bs generalizing c c' with
  | nil => exact h
  | cons b bs ih => exact step_inj_left hT (ih h)

/-- **Four bytes fit the register**: from one register, four bytes leave four different bytes'
registers different. -/
theorem four_inj (hT : TopInjective T) {c : BitVec 32} {b₀ b₁ b₂ b₃ d₀ d₁ d₂ d₃ : BitVec 8}
    (h : step T (step T (step T (step T c b₀) b₁) b₂) b₃ =
      step T (step T (step T (step T c d₀) d₁) d₂) d₃) :
    b₀ = d₀ ∧ b₁ = d₁ ∧ b₂ = d₂ ∧ b₃ = d₃ := by
  -- going back through the steps, the register is known above one more byte each time
  obtain ⟨i₃, h₃⟩ := step_inj_above hT (k := 0) (by omega) (by simpa using h)
  obtain ⟨i₂, h₂⟩ := step_inj_above hT (k := 1) (by omega) h₃
  obtain ⟨i₁, h₁⟩ := step_inj_above hT (k := 2) (by omega) h₂
  obtain ⟨i₀, -⟩ := step_inj_above hT (k := 3) (by omega) h₁
  -- and going forward again, equal words from equal registers give equal bytes
  have e₀ : b₀ = d₀ := index_inj_right i₀
  subst e₀
  have e₁ : b₁ = d₁ := index_inj_right i₁
  subst e₁
  have e₂ : b₂ = d₂ := index_inj_right i₂
  subst e₂
  exact ⟨rfl, rfl, rfl, index_inj_right i₃⟩

/-- **Window rule.** Two messages that agree outside four consecutive bytes have equal checksums
only when they agree there too. -/
theorem fold_window_inj (hT : TopInjective T) (pre post w w' : List (BitVec 8)) (c : BitVec 32)
    (hw : w.length = 4) (hw' : w'.length = 4)
    (h : (pre ++ w ++ post).foldl (step T) c = (pre ++ w' ++ post).foldl (step T) c) : w = w' := by
  simp only [List.foldl_append] at h
  have h := fold_inj_left hT post h
  match w, w', hw, hw' with
  | [b₀, b₁, b₂, b₃], [d₀, d₁, d₂, d₃], _, _ =>
      obtain ⟨rfl, rfl, rfl, rfl⟩ := four_inj hT (by simpa using h)
      rfl

/-! ## Bit by bit -/

/-- One bit out of the register: shift it down, and fold in the generator when the bit is set. -/
def bitStep (g c : BitVec 32) : BitVec 32 := if c.getLsbD 0 then (c >>> 1) ^^^ g else c >>> 1

/-- One byte into the register, bit by bit. -/
def byteStep (g c : BitVec 32) (b : BitVec 8) : BitVec 32 := (bitStep g)^[8] (c ^^^ b.setWidth 32)

/-- The table of a generator. -/
def IsTable (g : BitVec 32) (T : BitVec 8 → BitVec 32) : Prop :=
  ∀ i, T i = (bitStep g)^[8] (i.setWidth 32)

variable {g : BitVec 32}

theorem xor_xor_cancel (a b p : BitVec 32) : a ^^^ p ^^^ (b ^^^ p) = a ^^^ b := by
  rw [BitVec.xor_comm b p, ← BitVec.xor_assoc, BitVec.xor_assoc a p p, BitVec.xor_self,
    BitVec.xor_zero]

/-- **A step of one bit is linear.** -/
theorem bitStep_xor (a b : BitVec 32) : bitStep g (a ^^^ b) = bitStep g a ^^^ bitStep g b := by
  unfold bitStep
  rw [BitVec.getLsbD_xor, BitVec.ushiftRight_xor_distrib]
  cases ha : a.getLsbD 0 <;> cases hb : b.getLsbD 0
  · rfl
  · exact BitVec.xor_assoc _ _ _
  · exact (BitVec.xor_assoc _ _ _).trans
      ((congrArg (a >>> 1 ^^^ ·) (BitVec.xor_comm _ _)).trans (BitVec.xor_assoc _ _ _).symm)
  · exact (xor_xor_cancel _ _ g).symm

theorem bitSteps_xor (n : Nat) (a b : BitVec 32) :
    (bitStep g)^[n] (a ^^^ b) = (bitStep g)^[n] a ^^^ (bitStep g)^[n] b := by
  induction n with
  | zero => rfl
  | succ n ih =>
      simp only [Function.iterate_succ_apply', ih, bitStep_xor]

/-- A register whose low bits are clear is only shifted down. -/
theorem bitSteps_clear {c : BitVec 32} {k : Nat} (h : ∀ i < k, c.getLsbD i = false) :
    (bitStep g)^[k] c = c >>> k := by
  induction k with
  | zero => exact (BitVec.ushiftRight_zero c).symm
  | succ k ih =>
      have hlow : (c >>> k).getLsbD 0 = false := by
        rw [BitVec.getLsbD_ushiftRight]
        exact h k (Nat.lt_succ_self k)
      rw [Function.iterate_succ_apply', ih fun i hi => h i (Nat.lt_succ_of_lt hi), bitStep, hlow,
        BitVec.shiftRight_add]
      exact if_neg fun hbit => Bool.noConfusion hbit

/-- A register is its low byte and what is above it. -/
theorem split_low (x : BitVec 32) :
    ∃ y, x = y ^^^ (x.setWidth 8).setWidth 32 ∧ (∀ i < 8, y.getLsbD i = false) ∧
      y >>> 8 = x >>> 8 := by
  refine ⟨x ^^^ (x.setWidth 8).setWidth 32, ?_, fun i hi => ?_, ?_⟩
  · rw [BitVec.xor_assoc, BitVec.xor_self, BitVec.xor_zero]
  · simp [hi, show i < 32 by omega]
  · apply BitVec.eq_of_getLsbD_eq
    intro i hi
    simp [BitVec.getLsbD_xor]

/-- **The table does eight bits at once.** -/
theorem step_eq_byteStep (hT : IsTable g T) (c : BitVec 32) (b : BitVec 8) :
    step T c b = byteStep g c b := by
  obtain ⟨y, hsplit, hclear, hshift⟩ := split_low (c ^^^ b.setWidth 32)
  -- the low byte selects the table word, the rest is shifted down
  have hindex : (c ^^^ b.setWidth 32).setWidth 8 = index c b := by
    rw [BitVec.setWidth_xor, index]
    simp
  have hhigh : (b.setWidth 32 : BitVec 32) >>> 8 = 0#32 := by
    apply BitVec.eq_of_getLsbD_eq
    intro i hi
    simp
  have hc : y >>> 8 = c >>> 8 := by
    rw [hshift, BitVec.ushiftRight_xor_distrib, hhigh, BitVec.xor_zero]
  rw [byteStep, hsplit, bitSteps_xor, bitSteps_clear hclear, hindex, hc, ← hT, step]

end Crc
