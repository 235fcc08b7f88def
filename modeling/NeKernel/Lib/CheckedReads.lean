import NeKernel.Lib.Records

/-!
# Computations on a blob, with every read checked

A blob is the first `len` bytes of a memory that goes on behind them. A computation on it is
written with reads that stop at the first byte outside and with sums and differences that stop
where machine words would wrap, so that coming to an end says that neither happened.

`Returns x P` is total correctness: `x` comes to an end with a value of `P`. The rules below compute
it backwards through a computation; the loop that looks for the first index of a kind is
`search`, with one rule (`returns_search`).
-/

namespace CheckedReads

open ByteStore

/-- The first `len` bytes of a memory. -/
structure Blob where
  bytes : Store
  len : Nat

/-- What stops a computation. -/
inductive Fault where
  | outside (off width : Nat)
  | wraps

abbrev Checked (α : Type) := Except Fault α

variable {α β : Type} {x y : Checked α} {f : α → Checked β} {P P' : α → Prop} {Q : β → Prop}

/-- The computation comes to an end, with a value of `P`. -/
def Returns (x : Checked α) (P : α → Prop) : Prop := ∃ a, x = .ok a ∧ P a

theorem Returns.mono (h : Returns x P) (hP : ∀ a, P a → P' a) : Returns x P' := by
  obtain ⟨a, ha, hp⟩ := h
  exact ⟨a, ha, hP a hp⟩

@[simp] theorem returns_ok {a : α} : Returns (.ok a) P ↔ P a := by
  constructor
  · rintro ⟨b, hb, hp⟩
    cases hb
    exact hp
  · exact fun h => ⟨a, rfl, h⟩

@[simp] theorem returns_pure {a : α} : Returns (pure a) P ↔ P a := returns_ok

@[simp] theorem returns_error {e : Fault} : ¬ Returns (.error e : Checked α) P := by
  rintro ⟨a, ha, -⟩
  cases ha

@[simp] theorem returns_bind : Returns (x >>= f) Q ↔ Returns x fun a => Returns (f a) Q := by
  cases x with
  | ok a =>
      rw [returns_ok]
      exact Iff.rfl
  | error e => exact iff_of_false returns_error returns_error

theorem returns_ite {c : Prop} [Decidable c] :
    Returns (if c then x else y) P ↔ (c → Returns x P) ∧ (¬ c → Returns y P) := by
  by_cases h : c
  · simp [h]
  · simp [h]

/-- A computation is the value it comes to. -/
theorem returns_eq {a : α} : Returns x (· = a) ↔ x = .ok a := by
  constructor
  · rintro ⟨b, hb, rfl⟩
    exact hb
  · exact fun h => ⟨a, h, rfl⟩

/-! ## Sums and differences -/

/-- `a + b` in words of `w` bits. -/
def add (w a b : Nat) : Checked Nat := if a + b < 2 ^ w then .ok (a + b) else .error .wraps

/-- `a - b` in unsigned words. -/
def sub (a b : Nat) : Checked Nat := if b ≤ a then .ok (a - b) else .error .wraps

/-- `a * b` in words of `w` bits. -/
def mul (w a b : Nat) : Checked Nat := if a * b < 2 ^ w then .ok (a * b) else .error .wraps

variable {w a b : Nat} {R : Nat → Prop}

@[simp] theorem returns_add : Returns (add w a b) R ↔ a + b < 2 ^ w ∧ R (a + b) := by
  unfold add
  split <;> simp [*]

@[simp] theorem returns_sub : Returns (sub a b) R ↔ b ≤ a ∧ R (a - b) := by
  unfold sub
  split <;> simp [*]

@[simp] theorem returns_mul : Returns (mul w a b) R ↔ a * b < 2 ^ w ∧ R (a * b) := by
  unfold mul
  split <;> simp [*]

/-! ## Reads -/

namespace Blob

/-- The byte at `off`. -/
def byte (b : Blob) (off : Nat) : Checked UInt8 :=
  if off < b.len then .ok (b.bytes off) else .error (.outside off 1)

/-- The little-endian word of `n` bytes at `off`. -/
def word (b : Blob) (off n : Nat) : Checked Nat :=
  if off + n ≤ b.len then .ok (getLE b.bytes off n) else .error (.outside off n)

/-- A field of the record at `off`. -/
def field (b : Blob) (off : Nat) (f : Field) : Checked Nat := b.word (off + f.off) f.width

/-- A copy of the `n` bytes at `off`. -/
def block (b : Blob) (off n : Nat) : Checked Store :=
  if off + n ≤ b.len then .ok (slice b.bytes off) else .error (.outside off n)

/-- The characters up to the terminator, with `n` bytes of the blob left. -/
def charsFrom (b : Blob) : Nat → Nat → Checked (List UInt8)
  | 0, off => .error (.outside off 1)
  | n + 1, off =>
    if b.bytes off = 0 then .ok [] else do return b.bytes off :: (← b.charsFrom n (off + 1))

/-- The string at `off`. -/
def cstring (b : Blob) (off : Nat) : Checked (List UInt8) := b.charsFrom (b.len - off) off

/-- Whether the characters at `off` are those of `l`; the first that differs is the last read. -/
def startsWith (b : Blob) : List UInt8 → Nat → Checked Bool
  | [], _ => return true
  | c :: l, off => do
    if (← b.byte off) = c then b.startsWith l (off + 1) else return false

/-- A terminator stands at `off` or behind it, inside the blob. -/
def Terminated (b : Blob) (off : Nat) : Prop := ∃ k, off + k < b.len ∧ b.bytes (off + k) = 0

variable {b : Blob} {off n : Nat} {fl : Field} {l : List UInt8}

@[simp] theorem returns_byte {R : UInt8 → Prop} :
    Returns (b.byte off) R ↔ off < b.len ∧ R (b.bytes off) := by
  unfold byte
  split <;> simp [*]

@[simp] theorem returns_word {R : Nat → Prop} :
    Returns (b.word off n) R ↔ off + n ≤ b.len ∧ R (getLE b.bytes off n) := by
  unfold word
  split <;> simp [*]

@[simp] theorem returns_field {R : Nat → Prop} : Returns (b.field off fl) R ↔
    off + fl.off + fl.width ≤ b.len ∧ R (fl.get (slice b.bytes off)) := by
  rw [field, returns_word, Field.get_slice]

/-- A field of a record that is in the blob can be read. -/
theorem returns_fieldInside {R : Nat → Prop} (hfl : fl.Inside n) (hrec : off + n ≤ b.len) :
    Returns (b.field off fl) R ↔ R (fl.get (slice b.bytes off)) := by
  have hlast : fl.off + fl.width ≤ n := hfl
  rw [returns_field, and_iff_right (by omega)]

@[simp] theorem returns_block {R : Store → Prop} :
    Returns (b.block off n) R ↔ off + n ≤ b.len ∧ R (slice b.bytes off) := by
  unfold block
  split <;> simp [*]

end Blob

/-- The characters of `l` stand at `off`. -/
def LiesAt (m : Store) (off : Nat) (l : List UInt8) : Prop :=
  ∀ i < l.length, m (off + i) = l.getD i 0

instance (m : Store) (off : Nat) (l : List UInt8) : Decidable (LiesAt m off l) :=
  inferInstanceAs (Decidable (∀ i < l.length, _))

/-- The string `l` and its terminator stand at `off`. -/
def StandsAt (m : Store) (off : Nat) (l : List UInt8) : Prop :=
  LiesAt m off l ∧ m (off + l.length) = 0

@[simp] theorem liesAt_nil {m : Store} {off : Nat} : LiesAt m off [] :=
  fun _ hi => absurd hi (Nat.not_lt_zero _)

theorem liesAt_cons {m : Store} {off : Nat} {c : UInt8} {l : List UInt8} :
    LiesAt m off (c :: l) ↔ m off = c ∧ LiesAt m (off + 1) l := by
  constructor
  · refine fun h => ⟨h 0 (Nat.succ_pos _), fun i hi => ?_⟩
    have := h (i + 1) (Nat.succ_lt_succ hi)
    rwa [Nat.add_assoc, Nat.add_comm 1 i]
  · rintro ⟨hc, h⟩ i hi
    cases i with
    | zero => exact hc
    | succ i =>
        have := h i (Nat.lt_of_succ_lt_succ hi)
        rwa [Nat.add_assoc, Nat.add_comm 1 i] at this

theorem standsAt_cons {m : Store} {off : Nat} {c : UInt8} {l : List UInt8} :
    StandsAt m off (c :: l) ↔ m off = c ∧ StandsAt m (off + 1) l := by
  rw [StandsAt, StandsAt, liesAt_cons, and_assoc, List.length_cons, Nat.add_comm l.length,
    ← Nat.add_assoc]

instance (m : Store) (off : Nat) (l : List UInt8) : Decidable (StandsAt m off l) :=
  inferInstanceAs (Decidable (_ ∧ _))

/-- One string at most stands at a place. -/
theorem standsAt_unique {m : Store} {off : Nat} {l l' : List UInt8} (hl : ∀ c ∈ l, c ≠ 0)
    (hl' : ∀ c ∈ l', c ≠ 0) (h : StandsAt m off l) (h' : StandsAt m off l') : l = l' := by
  induction l generalizing off l' with
  | nil =>
      cases l' with
      | nil => rfl
      | cons c' l' =>
          have hc := (standsAt_cons.mp h').1
          exact absurd (hc.symm.trans h.2) (hl' c' List.mem_cons_self)
  | cons c l ih =>
      obtain ⟨hc, hrest⟩ := standsAt_cons.mp h
      cases l' with
      | nil => exact absurd (hc.symm.trans h'.2) (hl c List.mem_cons_self)
      | cons c' l' =>
          obtain ⟨hc', hrest'⟩ := standsAt_cons.mp h'
          rw [← hc, ← hc', ih (fun b hb => hl b (List.mem_cons_of_mem _ hb))
            (fun b hb => hl' b (List.mem_cons_of_mem _ hb)) hrest hrest']

namespace Blob

variable {b : Blob} {off n : Nat} {l : List UInt8}

/-- A comparison with the characters at `off`, when the blob has as many. -/
theorem returns_startsWith (h : off + l.length ≤ b.len) {R : Bool → Prop} :
    Returns (b.startsWith l off) R ↔ R (decide (LiesAt b.bytes off l)) := by
  induction l generalizing off with
  | nil => simp [startsWith]
  | cons c l ih =>
      rw [List.length_cons] at h
      simp only [startsWith, returns_bind, returns_byte, returns_ite, returns_pure, liesAt_cons,
        ih (show off + 1 + l.length ≤ b.len by omega)]
      by_cases hc : b.bytes off = c
      · simp only [hc, true_and, forall_const, not_true_eq_false, false_imp_iff, and_true]
        exact and_iff_right (by omega)
      · simp only [hc, false_and, false_imp_iff, true_and, not_false_eq_true, forall_const,
          decide_false]
        exact and_iff_right (by omega)

theorem charsFrom_ok (h : b.charsFrom n off = .ok l) :
    (∀ c ∈ l, c ≠ 0) ∧ StandsAt b.bytes off l ∧ l.length < n := by
  induction n generalizing off l with
  | zero => cases h
  | succ n ih =>
      rw [charsFrom] at h
      by_cases h0 : b.bytes off = 0
      · rw [if_pos h0] at h
        cases h
        exact ⟨by simp, ⟨liesAt_nil, h0⟩, Nat.succ_pos n⟩
      · rw [if_neg h0] at h
        obtain ⟨t, ht, hl⟩ := returns_bind.mp (returns_eq.mpr h)
        rw [returns_pure] at hl
        obtain ⟨hne, hstands, hlen⟩ := ih ht
        subst hl
        exact ⟨List.forall_mem_cons.mpr ⟨h0, hne⟩, standsAt_cons.mpr ⟨rfl, hstands⟩,
          Nat.succ_lt_succ hlen⟩

theorem charsFrom_of_standsAt (hne : ∀ c ∈ l, c ≠ 0) (h : StandsAt b.bytes off l)
    (hlen : l.length < n) : b.charsFrom n off = .ok l := by
  induction l generalizing off n with
  | nil =>
      obtain ⟨n, rfl⟩ : ∃ k, n = k + 1 := ⟨n - 1, by simp at hlen; omega⟩
      exact if_pos h.2
  | cons c l ih =>
      obtain ⟨n, rfl⟩ : ∃ k, n = k + 1 := ⟨n - 1, by simp at hlen; omega⟩
      obtain ⟨hc, hstands⟩ := standsAt_cons.mp h
      obtain ⟨hc0, hne⟩ := List.forall_mem_cons.mp hne
      rw [charsFrom, if_neg (hc ▸ hc0), ih hne hstands (Nat.lt_of_succ_lt_succ hlen), hc]
      rfl

/-- **A string is read** where it stands with its terminator inside the blob. -/
theorem cstring_eq_iff : b.cstring off = .ok l ↔
    (∀ c ∈ l, c ≠ 0) ∧ StandsAt b.bytes off l ∧ off + l.length < b.len := by
  constructor
  · intro h
    obtain ⟨hne, hstands, hlen⟩ := charsFrom_ok h
    exact ⟨hne, hstands, by omega⟩
  · rintro ⟨hne, hstands, hlen⟩
    exact charsFrom_of_standsAt hne hstands (by omega)

/-- The characters up to the first terminator. -/
theorem charsFrom_of_terminated {k : Nat} (hk : k < n) (h0 : b.bytes (off + k) = 0) :
    ∃ l, b.charsFrom n off = .ok l := by
  induction k generalizing off n with
  | zero =>
      obtain ⟨n, rfl⟩ : ∃ m, n = m + 1 := ⟨n - 1, by omega⟩
      exact ⟨[], if_pos h0⟩
  | succ k ih =>
      obtain ⟨n, rfl⟩ : ∃ m, n = m + 1 := ⟨n - 1, by omega⟩
      by_cases hoff : b.bytes off = 0
      · exact ⟨[], if_pos hoff⟩
      · obtain ⟨l, hl⟩ := ih (Nat.lt_of_succ_lt_succ hk)
          (by rwa [Nat.add_assoc, Nat.add_comm 1 k] : b.bytes (off + 1 + k) = 0)
        refine ⟨b.bytes off :: l, ?_⟩
        rw [charsFrom, if_neg hoff, hl]
        rfl

/-- A string can be read exactly where a terminator follows inside the blob. -/
theorem terminated_iff : b.Terminated off ↔ ∃ l, b.cstring off = .ok l := by
  constructor
  · rintro ⟨k, hk, h0⟩
    exact charsFrom_of_terminated (by omega) h0
  · rintro ⟨l, hl⟩
    obtain ⟨-, hstands, hlen⟩ := cstring_eq_iff.mp hl
    exact ⟨l.length, hlen, hstands.2⟩

/-- Whether the string at `off` is `name`. -/
def equals (b : Blob) (off : Nat) (name : List UInt8) : Checked Bool := do
  return (← b.cstring off) == name

/-- A comparison reads the string to its end, whichever way it comes out. -/
theorem returns_equals {name : List UInt8} (hname : ∀ c ∈ name, c ≠ 0) {R : Bool → Prop} :
    Returns (b.equals off name) R ↔ b.Terminated off ∧ R (decide (StandsAt b.bytes off name)) := by
  have hval : ∀ l, b.cstring off = .ok l → (l == name) = decide (StandsAt b.bytes off name) := by
    intro l hl
    obtain ⟨hne, hstands, -⟩ := cstring_eq_iff.mp hl
    rw [Bool.eq_iff_iff, beq_iff_eq, decide_eq_true_iff]
    exact ⟨fun h => h ▸ hstands, fun h => standsAt_unique hne hname hstands h⟩
  unfold equals
  rw [returns_bind, terminated_iff]
  constructor
  · rintro ⟨l, hl, hR⟩
    exact ⟨⟨l, hl⟩, hval l hl ▸ returns_pure.mp hR⟩
  · rintro ⟨⟨l, hl⟩, hR⟩
    exact ⟨l, hl, returns_pure.mpr (hval l hl ▸ hR)⟩

end Blob

/-! ## The first index of a kind -/

/-- The loop over `i .. i + n` that ends with the first index `step` answers at. -/
def search (step : Nat → Checked (Option α)) : Nat → Nat → Checked (Option α)
  | 0, _ => return none
  | n + 1, i => do
    match ← step i with
    | some a => return some a
    | none => search step n (i + 1)

/-- **The rule of the search**, for steps that come to an end under `pre` and then answer `out`: every
index is looked at unless an earlier one has an answer. -/
theorem returns_search {step : Nat → Checked (Option α)} {pre : Nat → Prop} {out : Nat → Option α}
    {P : Option α → Prop} {n i : Nat}
    (hstep : ∀ j (Q : Option α → Prop), Returns (step j) Q ↔ pre j ∧ Q (out j)) :
    Returns (search step n i) P ↔
      (∀ j, i ≤ j → j < i + n → (∀ k, i ≤ k → k < j → out k = none) →
        pre j ∧ ∀ a, out j = some a → P (some a)) ∧
      ((∀ j, i ≤ j → j < i + n → out j = none) → P none) := by
  induction n generalizing i with
  | zero =>
      rw [search, returns_pure]
      exact ⟨fun h => ⟨fun j h₁ h₂ => absurd h₂ (Nat.not_lt.mpr h₁), fun _ => h⟩,
        fun h => h.2 fun j h₁ h₂ => absurd h₂ (Nat.not_lt.mpr h₁)⟩
  | succ n ih =>
      have hfirst : ∀ k, i ≤ k → k < i → out k = none := fun k h₁ h₂ => by omega
      rw [search, returns_bind, hstep]
      -- the first step answers, or the rest of the search does
      cases hout : out i with
      | some a =>
          rw [returns_pure]
          constructor
          · rintro ⟨hpre, hP⟩
            refine ⟨fun j hij hj hno => ?_, fun hno => ?_⟩
            · rcases Nat.eq_or_lt_of_le hij with rfl | hlt
              · exact ⟨hpre, fun a' ha' => Option.some.inj (hout.symm.trans ha') ▸ hP⟩
              · exact absurd (hout.symm.trans (hno i le_rfl hlt)) (Option.some_ne_none a)
            · exact absurd (hout.symm.trans (hno i le_rfl (by omega))) (Option.some_ne_none a)
          · rintro ⟨hrest, -⟩
            obtain ⟨hpre, hP⟩ := hrest i le_rfl (by omega) hfirst
            exact ⟨hpre, hP a hout⟩
      | none =>
          rw [ih]
          constructor
          · rintro ⟨hpre, hrest, hend⟩
            refine ⟨fun j hij hj hno => ?_, fun hno => hend fun j hij hj => hno j (by omega) (by omega)⟩
            rcases Nat.eq_or_lt_of_le hij with rfl | hlt
            · exact ⟨hpre, fun a ha => absurd (ha.symm.trans hout) (Option.some_ne_none a)⟩
            · exact hrest j hlt (by omega) fun k hk hkj => hno k (by omega) hkj
          · rintro ⟨hrest, hend⟩
            have hmore : ∀ k, i ≤ k → (i < k → out k = none) → out k = none := by
              intro k hk h
              rcases Nat.eq_or_lt_of_le hk with rfl | hlt
              · exact hout
              · exact h hlt
            refine ⟨(hrest i le_rfl (by omega) hfirst).1, fun j hij hj hno => ?_, fun hno => ?_⟩
            · exact hrest j (by omega) (by omega) fun k hk hkj => hmore k hk fun hlt => hno k hlt hkj
            · exact hend fun j hij hj => hmore j hij fun hlt => hno j hlt (by omega)

end CheckedReads
