import Mathlib.Data.List.GetD
import NeKernel.Lib.CheckedReads
import NeKernel.Lib.Runs
import NeKernel.NeKit.AsciiUtils

/-!
# The string class

A `KBasicString` is a buffer, its size, and the place where the next append goes. What has been appended
stands at the front of the buffer with a zero behind it, so that there is room for one character less
than the size says.

    KBasicString(Sz) ──▶ fData, fDataSz, fCur ──operator+=──▶ CData()

A string made of a C string has the size of its characters alone. An append of a C string asks for no
room, and one of another string only whether that one is longer than the whole buffer. How far `fCur`
goes is read off the operand after the copy. A run is right as long as it starts with a size and every
operand fits and does not lie in the buffer (`strings_right`).
-/

namespace NeKernel.NeKit

open ByteStore WordCopy CheckedReads Runs

/-- `KBasicString<Char>`. The buffer lies in memory. -/
structure KBasicString where
  fData : Nat
  fDataSz : Nat
  fCur : Nat

/-- What an operation leaves. -/
structure KResult where
  str : KBasicString
  mem : Store
  /-- The addresses that an append has written. -/
  writes : List Nat := []
  /-- The buffers given back. -/
  freed : List Nat := []

/-- `oe_string_len`; `none` if there is no zero up to the end of the address space. -/
def oeStringLen (m : Store) (str : Nat) : Option Nat :=
  if str = 0 then some 0 else rtStringLenFrom (slice m str) (2 ^ 64 - str) 0

/-- The address of `lhs[rhs_i + cur]`, where `cur` is an `Int32`. -/
def appendPlace (lhs : Nat) (cur : Int) (i : Nat) : Nat := ((lhs + i + cur) % 2 ^ 64).toNat

/-- The loop of `ort_string_append`. -/
def appendLoop (lhs rhs : Nat) (cur : Int) (szRhs : Nat) : Store → Store :=
  forLoop (fun i m => putLE m (appendPlace lhs cur i) 1 (getLE m (rhs + i) 1)) szRhs

/-- `ort_string_append`, with the addresses it writes. -/
def ortStringAppend (m : Store) (lhs rhs : Nat) (cur : Int) : Option (List Nat × Store) :=
  (oeStringLen m rhs).map fun szRhs =>
    ((List.range szRhs).map (appendPlace lhs cur), appendLoop lhs rhs cur szRhs m)

namespace KBasicString

/-- `operator+=(const CharKind*)`. -/
def appendChars (s : KBasicString) (rhs : Nat) (m : Store) : Option KResult :=
  match ortStringAppend m s.fData rhs (int32 s.fCur) with
  | none => none
  | some (writes, m) =>
      (oeStringLen m rhs).map fun len =>
        { str := { s with fCur := u64 (s.fCur + len) }, mem := m, writes := writes }

/-- `operator+=(const KBasicString&)`. Behind its check it is the other one, word by word. -/
def appendString (s rhs : KBasicString) (m : Store) : Option KResult :=
  match oeStringLen m rhs.fData with
  | none => none
  | some len => if len > s.fDataSz then some { str := s, mem := m } else s.appendChars rhs.fData m

/-- `KBasicString(const SizeT)`, on the block that `new` gives. `MUST_PASS` stops a debug build only. The
branch for a `new` that gives null is left out, here and in the constructors below. -/
def ofSize (debug : Bool) (block sz : Nat) (m : Store) : Option KResult :=
  if debug ∧ ¬ sz > 1 then none
  else some { str := ⟨block, sz, 0⟩, mem := fill m block sz 0 }

/-- `KBasicString(const CharKind*)`. -/
def ofString (block data : Nat) (m : Store) : Option KResult :=
  match oeStringLen m data with
  | none => none
  | some len => appendChars ⟨block, len, 0⟩ data (fill m block len 0)

end KBasicString

/-- `KStringBuilder::Construct`. `ErrorOr` and `Ref` take what they are given by value: the copies share
the buffer of `*view`, and each gives it back. -/
def kStringBuilderConstruct (debug : Bool) (block data : Nat) (m : Store) :
    Option (Except Int KResult) :=
  if data = 0 ∨ m data = 0 then some (.error (-kErrorInvalidData))
  else
    match oeStringLen m data with
    | none => none
    | some len =>
        match KBasicString.ofSize debug block len m with
        | none => none
        | some view =>
            (view.str.appendChars data view.mem).map fun r => .ok { r with freed := [block, block] }

/-! ## Runs -/

inductive Construction where
  | ofSize (sz : Nat)
  | ofString (data : Nat)
  | construct (data : Nat)

/-- The string that is made, if one is. -/
def Construction.run (debug : Bool) (block : Nat) (m : Store) : Construction → Option KResult
  | .ofSize sz => KBasicString.ofSize debug block sz m
  | .ofString data => KBasicString.ofString block data m
  | .construct data => (kStringBuilderConstruct debug block data m).bind Except.toOption

inductive Append where
  | chars (rhs : Nat)
  | string (rhs : KBasicString)

/-- Where the characters of the operand are. -/
def Append.rhs : Append → Nat
  | .chars rhs => rhs
  | .string rhs => rhs.fData

def Append.run : Append → KBasicString → Store → Option KResult
  | .chars rhs, s, m => s.appendChars rhs m
  | .string rhs, s, m => s.appendString rhs m

/-- The characters of the string at an address. -/
def charsOf (m : Store) (str : Nat) : List UInt8 :=
  match oeStringLen m str with
  | none => []
  | some len => (List.range len).map fun i => m (str + i)

/-- What a construction is to leave in the string. -/
def Construction.text (m : Store) : Construction → List UInt8
  | .ofSize _ => []
  | .ofString data => charsOf m data
  | .construct data => charsOf m data

/-- A string in memory, and what has been appended to it. -/
structure Built where
  str : KBasicString
  mem : Store
  text : List UInt8

/-- An address in the buffer. -/
def KBasicString.Inside (s : KBasicString) (x : Nat) : Prop := s.fData ≤ x ∧ x < s.fData + s.fDataSz

/-- The appended characters have room, and their zero too. -/
def Built.HasRoom (w : Built) (a : Append) : Prop :=
  w.text.length + (charsOf w.mem a.rhs).length < w.str.fDataSz

instance (w : Built) (a : Append) : Decidable (w.HasRoom a) := inferInstanceAs (Decidable (_ < _))

/-- The string with what an append leaves, and the text there is to be. -/
def Built.after (w : Built) (a : Append) (r : KResult) : Built :=
  { str := r.str, mem := r.mem
    text := if w.HasRoom a then w.text ++ charsOf w.mem a.rhs else w.text }

/-- An append, or a change of memory that leaves the buffer alone. -/
inductive Event where
  | append (a : Append)
  | elsewhere (mem : Store)

inductive Step : Built → Event → Built → Prop
  | append {w : Built} {a : Append} {r : KResult} (h : a.run w.str w.mem = some r) :
      Step w (.append a) (w.after a r)
  | elsewhere {w : Built} {mem : Store} (h : ∀ x, w.str.Inside x → mem x = w.mem x) :
      Step w (.elsewhere mem) { w with mem := mem }

/-! ## What a string is -/

/-- The place for the next append is in the buffer, and `CData()` is the text. -/
structure Built.Holds (w : Built) : Prop where
  cur : w.str.fCur < w.str.fDataSz
  noNul : ∀ c ∈ w.text, c ≠ 0
  stands : StandsAt w.mem w.str.fData w.text
  inside : w.text.length < w.str.fDataSz

/-- The append comes back and has written in the buffer only. The string holds what it is to hold, and
without room it is unchanged. -/
structure AppendRight (w : Built) (a : Append) (r : KResult) : Prop where
  returns : a.run w.str w.mem = some r
  inside : ∀ x ∈ r.writes, w.str.Inside x
  holds : (w.after a r).Holds
  unchanged : ¬ w.HasRoom a → r.str = w.str ∧ ∀ x, w.str.Inside x → r.mem x = w.mem x

/-- The operand lies outside the buffer, with its zero. -/
def Elsewhere (w : Built) (a : Append) (len : Nat) : Prop :=
  a.rhs + len < w.str.fData ∨ w.str.fData + w.str.fDataSz ≤ a.rhs

/-- Another string that is longer than the buffer. -/
def Append.Refused : Append → KBasicString → Nat → Prop
  | .chars _, _, _ => False
  | .string _, s, len => s.fDataSz < len

/-- There is room behind `fCur`, and `fCur` is an `Int32`. -/
def Fits (w : Built) (len : Nat) : Prop := w.str.fCur + len < w.str.fDataSz ∧ w.str.fCur < 2 ^ 31

/-- The operand is a string that is empty, or refused, or lies elsewhere and fits. -/
def Meets (w : Built) (a : Append) : Prop :=
  ∃ len, oeStringLen w.mem a.rhs = some len ∧
    (len = 0 ∨ a.Refused w.str len ∨ Elsewhere w a len ∧ Fits w len)

/-- The steps that a run is made of. -/
def Ok (w : Built) : Event → Prop
  | .append a => Meets w a
  | .elsewhere _ => True

variable {m m' : Store} {p n i lhs rhs block len : Nat} {cur : Int} {debug : Bool} {w : Built}
  {a : Append} {c : Construction} {r : KResult}

/-! ## One operand -/

/-- The length of a string is where its zero is. Null is a string without characters. -/
theorem oeStringLen_some : oeStringLen m p = some n ↔
    p = 0 ∧ n = 0 ∨ p ≠ 0 ∧ p + n < 2 ^ 64 ∧ (∀ i < n, m (p + i) ≠ 0) ∧ m (p + n) = 0 := by
  rw [oeStringLen]
  by_cases hp : p = 0
  · rw [if_pos hp, Option.some.injEq, eq_comm]
    exact ⟨fun h => .inl ⟨hp, h⟩, fun h => h.elim And.right fun h => absurd hp h.1⟩
  · rw [if_neg hp, rtStringLenFrom_some]
    constructor
    · rintro ⟨-, hlt, hbefore, hend⟩
      exact .inr ⟨hp, by omega, fun i hi => hbefore i (Nat.zero_le _) hi, hend⟩
    · rintro (⟨h, -⟩ | ⟨-, hlt, hbefore, hend⟩)
      · exact absurd h hp
      · exact ⟨Nat.zero_le _, by omega, fun i _ hi => hbefore i hi, hend⟩

/-- A string that is not written keeps its length. -/
theorem oeStringLen_congr (hlen : oeStringLen m p = some n) (h : ∀ i ≤ n, m' (p + i) = m (p + i)) :
    oeStringLen m' p = some n := by
  rw [oeStringLen_some] at hlen ⊢
  refine hlen.imp_right fun ⟨hp, hlt, hbefore, hend⟩ => ⟨hp, hlt, fun i hi => ?_, ?_⟩
  · rw [h i (Nat.le_of_lt hi)]
    exact hbefore i hi
  · rw [h n (Nat.le_refl _), hend]

theorem charsOf_eq (hlen : oeStringLen m p = some n) :
    charsOf m p = (List.range n).map fun i => m (p + i) := by
  rw [charsOf, hlen]

theorem length_charsOf (hlen : oeStringLen m p = some n) : (charsOf m p).length = n := by
  rw [charsOf_eq hlen, List.length_map, List.length_range]

theorem getD_charsOf (hlen : oeStringLen m p = some n) (hi : i < n) :
    (charsOf m p).getD i 0 = m (p + i) := by
  rw [charsOf_eq hlen, List.getD_eq_getElem?_getD, List.getElem?_map, List.getElem?_range hi]
  rfl

theorem charsOf_noNul (hlen : oeStringLen m p = some n) : ∀ c ∈ charsOf m p, c ≠ 0 := by
  intro c hc
  rw [charsOf_eq hlen, List.mem_map] at hc
  obtain ⟨i, hi, rfl⟩ := hc
  rw [List.mem_range] at hi
  rcases oeStringLen_some.mp hlen with ⟨-, rfl⟩ | ⟨-, -, hbefore, -⟩
  · exact absurd hi (Nat.not_lt_zero i)
  · exact hbefore i hi

/-! ## The copy -/

/-- In the buffer the index does not wrap. -/
theorem appendPlace_fits {s : KBasicString} (hcur : s.fCur < 2 ^ 31)
    (hspace : s.fData + s.fCur + i < 2 ^ 64) :
    appendPlace s.fData (int32 s.fCur) i = s.fData + s.fCur + i := by
  unfold appendPlace int32
  omega

/-- What fits is copied behind the text. -/
theorem appendLoop_fits {s : KBasicString} (hcur : s.fCur < 2 ^ 31)
    (hspace : s.fData + s.fCur + n ≤ 2 ^ 64)
    (happart : s.fData + s.fCur ≤ rhs ∨ rhs + n ≤ s.fData + s.fCur) :
    appendLoop s.fData rhs (int32 s.fCur) n m = blit m (s.fData + s.fCur) n (slice m rhs) := by
  have hloop : appendLoop s.fData rhs (int32 s.fCur) n m =
      copyUp 1 (s.fData + s.fCur) rhs n m := by
    refine forLoop_congr fun i hi m' => ?_
    rw [appendPlace_fits hcur (by omega), Nat.one_mul]
  rw [hloop, copyUp_eq (by rwa [Nat.one_mul]), Nat.one_mul]

/-- The first character goes to the first place, and no other goes there. -/
theorem appendLoop_first (hn : 0 < n) (hle : n < 2 ^ 64) :
    appendLoop lhs rhs cur n m (appendPlace lhs cur 0) = m rhs := by
  have hinv : n = 0 ∧ appendLoop lhs rhs cur n m = m ∨
      0 < n ∧ appendLoop lhs rhs cur n m (appendPlace lhs cur 0) = m rhs := by
    refine forLoop_inv (I := fun k m' => k = 0 ∧ m' = m ∨ 0 < k ∧ m' (appendPlace lhs cur 0) = m rhs)
      (.inl ⟨rfl, rfl⟩) fun i hi m' h => .inr ⟨Nat.succ_pos i, ?_⟩
    rw [putLE_getLE]
    rcases h with ⟨rfl, rfl⟩ | ⟨hpos, hfirst⟩
    · rw [blit_apply_of_mem (Nat.le_refl _) (Nat.lt_succ_self _), Nat.sub_self]
      rfl
    · rw [blit_apply_of_notMem, hfirst]
      unfold appendPlace
      omega
  rcases hinv with ⟨rfl, -⟩ | ⟨-, hfirst⟩
  · exact absurd hn (Nat.lt_irrefl 0)
  · exact hfirst

/-- An append of a string of `n` characters. -/
theorem appendChars_eq (s : KBasicString) (hlen : oeStringLen m rhs = some n) :
    s.appendChars rhs m =
      (oeStringLen (appendLoop s.fData rhs (int32 s.fCur) n m) rhs).map fun len =>
        { str := { s with fCur := u64 (s.fCur + len) }
          mem := appendLoop s.fData rhs (int32 s.fCur) n m
          writes := (List.range n).map (appendPlace s.fData (int32 s.fCur)) } := by
  rw [KBasicString.appendChars, ortStringAppend, hlen]
  rfl

theorem run_refused {s : KBasicString} (hlen : oeStringLen m a.rhs = some n)
    (h : a.Refused s n) : a.run s m = some { str := s, mem := m } := by
  cases a with
  | chars rhs => exact h.elim
  | string rhs =>
      rw [Append.run, KBasicString.appendString, show oeStringLen m rhs.fData = some n from hlen]
      exact if_pos h

theorem run_taken {s : KBasicString} (hlen : oeStringLen m a.rhs = some n)
    (h : ¬ a.Refused s n) : a.run s m = s.appendChars a.rhs m := by
  cases a with
  | chars rhs => rfl
  | string rhs =>
      rw [Append.run, KBasicString.appendString, show oeStringLen m rhs.fData = some n from hlen]
      exact if_neg h

/-- Without an end of the operand nothing comes back. -/
theorem run_unended {s : KBasicString} (hlen : oeStringLen m a.rhs = none) : a.run s m = none := by
  cases a with
  | chars rhs =>
      rw [Append.run, KBasicString.appendChars, ortStringAppend,
        show oeStringLen m rhs = none from hlen]
      rfl
  | string rhs =>
      rw [Append.run, KBasicString.appendString, show oeStringLen m rhs.fData = none from hlen]

/-! ## One append -/

/-- What a run keeps: the text is followed by zeros up to the end of the buffer, and the next append
goes to the first of them. -/
structure Built.Kept (w : Built) : Prop extends w.Holds where
  cur_eq : w.str.fCur = w.text.length
  blank : ∀ x, w.str.fData + w.text.length ≤ x → x < w.str.fData + w.str.fDataSz → w.mem x = 0
  space : w.str.fData + w.str.fDataSz ≤ 2 ^ 64

/-- An append that changes nothing is right where there is nothing to append or no room for it. -/
theorem Built.Kept.append_idle (hk : w.Kept) (hrun : a.run w.str w.mem = some { str := w.str, mem := w.mem })
    (hchars : charsOf w.mem a.rhs = [] ∨ ¬ w.HasRoom a) :
    ∃ r, AppendRight w a r ∧ (w.after a r).Kept := by
  have hafter : w.after a { str := w.str, mem := w.mem } = w := by
    rw [Built.after]
    rcases hchars with hnil | hroom
    · rw [hnil, List.append_nil, ite_self]
    · rw [if_neg hroom]
  refine ⟨_, ⟨hrun, List.forall_mem_nil _, ?_, fun _ => ⟨rfl, fun _ _ => rfl⟩⟩, ?_⟩
  · rw [hafter]
    exact hk.toHolds
  · rw [hafter]
    exact hk

/-- A string without characters leaves everything as it is. -/
theorem Built.Kept.run_empty (hk : w.Kept) (hlen : oeStringLen w.mem a.rhs = some 0) :
    a.run w.str w.mem = some { str := w.str, mem := w.mem } := by
  have hcur : u64 w.str.fCur = w.str.fCur := u64_of_lt (by have := hk.cur; have := hk.space; omega)
  have htaken : ¬ a.Refused w.str 0 := by
    cases a with
    | chars rhs => exact id
    | string rhs => exact Nat.not_lt_zero _
  rw [run_taken hlen htaken, appendChars_eq w.str hlen,
    show appendLoop w.str.fData a.rhs (int32 w.str.fCur) 0 w.mem = w.mem from rfl, hlen,
    Option.map_some, Nat.add_zero, hcur]
  rfl

/-- Characters that are copied behind a text and in front of a zero make one string with it. -/
theorem standsAt_blit {d : Nat} {text : List UInt8} (htext : StandsAt m d text)
    (hlen : oeStringLen m p = some n) (hzero : m (d + text.length + n) = 0) :
    StandsAt (blit m (d + text.length) n (slice m p)) d (text ++ charsOf m p) := by
  refine ⟨fun i hi => ?_, ?_⟩
  · rw [List.length_append, length_charsOf hlen] at hi
    by_cases htextual : i < text.length
    · rw [blit_apply_of_notMem (by omega), List.getD_append _ _ _ _ htextual]
      exact htext.1 i htextual
    · rw [show d + i = d + text.length + (i - text.length) by omega, blit_apply_add (by omega),
        List.getD_append_right _ _ _ _ (Nat.le_of_not_lt htextual), getD_charsOf hlen (by omega)]
      rfl
  · rw [List.length_append, length_charsOf hlen, blit_apply_of_notMem (by omega), ← Nat.add_assoc]
    exact hzero

/-- What an append of a string that fits leaves. -/
def Built.appended (w : Built) (a : Append) (n : Nat) : KResult where
  str := { w.str with fCur := w.str.fCur + n }
  mem := blit w.mem (w.str.fData + w.str.fCur) n (slice w.mem a.rhs)
  writes := (List.range n).map (appendPlace w.str.fData (int32 w.str.fCur))

theorem Built.Kept.run_fits (hk : w.Kept) (hlen : oeStringLen w.mem a.rhs = some n)
    (htaken : ¬ a.Refused w.str n) (helse : Elsewhere w a n) (hfits : Fits w n) :
    a.run w.str w.mem = some (w.appended a n) := by
  obtain ⟨hroom, hcur⟩ := hfits
  have hspace := hk.space
  have hloop : appendLoop w.str.fData a.rhs (int32 w.str.fCur) n w.mem =
      blit w.mem (w.str.fData + w.str.fCur) n (slice w.mem a.rhs) := by
    refine appendLoop_fits hcur (by omega) ?_
    rcases helse with hbelow | habove
    · exact .inr (by omega)
    · exact .inl (by omega)
  -- the operand is not written, so its length is read again as it was
  have hsame : oeStringLen (blit w.mem (w.str.fData + w.str.fCur) n (slice w.mem a.rhs)) a.rhs =
      some n := by
    refine oeStringLen_congr hlen fun i hi => blit_apply_of_notMem ?_
    rcases helse with hbelow | habove
    · exact .inl (by omega)
    · exact .inr (by omega)
  have hrun := (run_taken hlen htaken).trans (appendChars_eq w.str hlen)
  rw [hloop, hsame, Option.map_some, u64_of_lt (by omega)] at hrun
  exact hrun

theorem Built.Kept.after_fits (hk : w.Kept) (hlen : oeStringLen w.mem a.rhs = some n)
    (hhas : w.HasRoom a) : (w.after a (w.appended a n)).Kept := by
  have heq := hk.cur_eq
  have hroom : w.text.length + n < w.str.fDataSz := by
    rw [Built.HasRoom, length_charsOf hlen] at hhas
    exact hhas
  have hlength : (w.text ++ charsOf w.mem a.rhs).length = w.text.length + n := by
    rw [List.length_append, length_charsOf hlen]
  rw [Built.after, if_pos hhas, Built.appended, heq]
  refine ⟨⟨hroom, ?_, ?_, ?_⟩, ?_, ?_, hk.space⟩
  · rw [List.forall_mem_append]
    exact ⟨hk.noNul, charsOf_noNul hlen⟩
  · exact standsAt_blit hk.stands hlen (hk.blank _ (by omega) (by omega))
  · rw [hlength]
    exact hroom
  · rw [hlength]
  · intro x hx hx'
    rw [hlength] at hx
    dsimp only at hx hx' ⊢
    rw [blit_apply_of_notMem (by omega)]
    exact hk.blank x (by omega) hx'

/-- What fits is appended. -/
theorem Built.Kept.append_fits (hk : w.Kept) (hlen : oeStringLen w.mem a.rhs = some n)
    (htaken : ¬ a.Refused w.str n) (helse : Elsewhere w a n) (hfits : Fits w n) :
    ∃ r, AppendRight w a r ∧ (w.after a r).Kept := by
  have hroom := hfits.1
  have hspace := hk.space
  have heq := hk.cur_eq
  have hhas : w.HasRoom a := by
    rw [Built.HasRoom, length_charsOf hlen]
    omega
  have hkept := hk.after_fits hlen hhas
  refine ⟨_, ⟨hk.run_fits hlen htaken helse hfits, fun x hx => ?_, hkept.toHolds,
    fun hnot => absurd hhas hnot⟩, hkept⟩
  obtain ⟨i, hi, rfl⟩ := List.mem_map.mp hx
  rw [List.mem_range] at hi
  rw [appendPlace_fits hfits.2 (by omega), KBasicString.Inside]
  omega

/-- An append that meets the condition is right, and the next one finds what this one has found. -/
theorem Built.Kept.append (hk : w.Kept) (h : Meets w a) :
    ∃ r, AppendRight w a r ∧ (w.after a r).Kept := by
  obtain ⟨len, hlen, hcase⟩ := h
  by_cases hpos : len = 0
  · subst hpos
    refine hk.append_idle (hk.run_empty hlen) (.inl ?_)
    rw [charsOf_eq hlen, List.range_zero, List.map_nil]
  · by_cases hrefused : a.Refused w.str len
    · refine hk.append_idle (run_refused hlen hrefused) (.inr ?_)
      rw [Built.HasRoom, length_charsOf hlen]
      cases a with
      | chars rhs => exact hrefused.elim
      | string rhs =>
          have hlong : w.str.fDataSz < len := hrefused
          omega
    · obtain ⟨helse, hfits⟩ := (hcase.resolve_left hpos).resolve_left hrefused
      exact hk.append_fits hlen hrefused helse hfits

/-- Where an operand that lies elsewhere does not fit, the append is wrong: its first character goes to
the buffer all the same. -/
theorem Built.Kept.meets_of_right (hk : w.Kept) (hright : AppendRight w a r)
    (helse : ∀ len, oeStringLen w.mem a.rhs = some len → Elsewhere w a len)
    (hcur : w.str.fCur < 2 ^ 31) : Meets w a := by
  have hspace := hk.space
  have heq := hk.cur_eq
  cases hlen : oeStringLen w.mem a.rhs with
  | none =>
      have hreturns := hright.returns
      rw [run_unended hlen] at hreturns
      cases hreturns
  | some n =>
      refine ⟨n, hlen, ?_⟩
      by_cases hpos : n = 0
      · exact .inl hpos
      · by_cases hrefused : a.Refused w.str n
        · exact .inr (.inl hrefused)
        · refine .inr (.inr ⟨helse n hlen, ?_, hcur⟩)
          by_contra hfull
          have hplace : appendPlace w.str.fData (int32 w.str.fCur) 0 = w.str.fData + w.str.fCur :=
            appendPlace_fits hcur (by have := hk.cur; omega)
          obtain ⟨-, hnone⟩ | ⟨-, hend, hchars, -⟩ := oeStringLen_some.mp hlen
          · exact hpos hnone
          have hfirst : appendLoop w.str.fData a.rhs (int32 w.str.fCur) n w.mem
              (appendPlace w.str.fData (int32 w.str.fCur) 0) = w.mem a.rhs :=
            appendLoop_first (Nat.pos_of_ne_zero hpos) (by omega)
          have hmem : r.mem = appendLoop w.str.fData a.rhs (int32 w.str.fCur) n w.mem := by
            have hreturns := hright.returns
            rw [run_taken hlen hrefused, appendChars_eq w.str hlen, Option.map_eq_some_iff] at hreturns
            obtain ⟨len, -, rfl⟩ := hreturns
            rfl
          have hinside : w.str.Inside (w.str.fData + w.str.fCur) :=
            ⟨Nat.le_add_right _ _, Nat.add_lt_add_left hk.cur _⟩
          have hsame := (hright.unchanged (by
            rw [Built.HasRoom, length_charsOf hlen]
            omega)).2 _ hinside
          rw [hmem, ← hplace, hfirst, hplace, hk.blank (w.str.fData + w.str.fCur) (by omega) hinside.2] at hsame
          exact hchars 0 (Nat.pos_of_ne_zero hpos) hsame

/-! ## A run -/

theorem Step.kept {w' : Built} {e : Event} (hk : w.Kept) (hok : Ok w e) (hstep : Step w e w') :
    w'.Kept := by
  cases hstep with
  | append hrun =>
      obtain ⟨r, hright, hnext⟩ := hk.append hok
      obtain rfl := Option.some.inj (hrun.symm.trans hright.returns)
      exact hnext
  | @elsewhere mem hsame =>
      have hin : ∀ i ≤ w.text.length, mem (w.str.fData + i) = w.mem (w.str.fData + i) :=
        fun i hi => hsame _ ⟨Nat.le_add_right _ _, Nat.add_lt_add_left (by have := hk.inside; omega) _⟩
      refine ⟨⟨hk.cur, hk.noNul, ⟨fun i hi => ?_, ?_⟩, hk.inside⟩, hk.cur_eq, fun x hx hx' => ?_, hk.space⟩
      · dsimp only at hi ⊢
        rw [hin i (Nat.le_of_lt hi)]
        exact hk.stands.1 i hi
      · dsimp only
        rw [hin _ (Nat.le_refl _)]
        exact hk.stands.2
      · dsimp only at hx hx' ⊢
        rw [hsame x ⟨by omega, hx'⟩]
        exact hk.blank x hx hx'

/-- The string that a construction leaves, before the first append. -/
def Construction.start (c : Construction) (m : Store) (r : KResult) : Built :=
  { str := r.str, mem := r.mem, text := c.text m }

/-- The construction is from a size other than zero. -/
def Construction.FromSize (c : Construction) : Prop := ∃ sz, sz ≠ 0 ∧ c = .ofSize sz

/-- A string of a size begins with zeros. -/
theorem start_kept (hrun : c.run debug block m = some r) (hsize : c.FromSize)
    (hspace : block + r.str.fDataSz ≤ 2 ^ 64) : (c.start m r).Kept := by
  obtain ⟨sz, hsz, rfl⟩ := hsize
  rw [Construction.run, KBasicString.ofSize] at hrun
  split at hrun
  · cases hrun
  · cases hrun
    refine ⟨⟨Nat.pos_of_ne_zero hsz, List.forall_mem_nil _, ⟨liesAt_nil, ?_⟩, Nat.pos_of_ne_zero hsz⟩,
      rfl, fun x hx hx' => ?_, hspace⟩
    · change fill m block sz 0 (block + 0) = 0
      rw [fill, blit_apply_of_mem (Nat.le_add_right _ _) (by omega)]
    · change block ≤ x at hx
      change x < block + sz at hx'
      change fill m block sz 0 x = 0
      rw [fill, blit_apply_of_mem hx hx']

/-- An append leaves the size. -/
theorem appendChars_size {s : KBasicString} (h : s.appendChars rhs m = some r) :
    r.str.fDataSz = s.fDataSz := by
  cases hlen : oeStringLen m rhs with
  | none =>
      rw [KBasicString.appendChars, ortStringAppend, hlen] at h
      cases h
  | some n =>
      rw [appendChars_eq s hlen, Option.map_eq_some_iff] at h
      obtain ⟨_, -, rfl⟩ := h
      rfl

theorem ofString_size (h : KBasicString.ofString block p m = some r) :
    oeStringLen m p = some r.str.fDataSz := by
  rw [KBasicString.ofString] at h
  split at h
  · cases h
  · next len hlen =>
      rw [hlen, appendChars_size h]

theorem construct_size (h : kStringBuilderConstruct debug block p m = some (.ok r)) :
    oeStringLen m p = some r.str.fDataSz := by
  rw [kStringBuilderConstruct] at h
  split at h
  · cases h
  · split at h
    · cases h
    · next len hlen =>
        split at h
        · cases h
        · next view hview =>
            obtain ⟨r', happend, hr⟩ := Option.map_eq_some_iff.mp h
            cases hr
            rw [KBasicString.ofSize] at hview
            split at hview
            · cases hview
            · cases hview
              rw [hlen]
              exact congrArg some (appendChars_size happend).symm

/-- A string that is made of characters has the size of its text. -/
theorem start_full (hrun : c.run debug block m = some r) (hchars : ∀ sz, c ≠ .ofSize sz) :
    (c.start m r).text.length = (c.start m r).str.fDataSz := by
  cases c with
  | ofSize sz => exact absurd rfl (hchars sz)
  | ofString data => exact length_charsOf (ofString_size hrun)
  | construct data =>
      obtain ⟨made, hmade, hr⟩ := Option.bind_eq_some_iff.mp hrun
      cases made with
      | error code => cases hr
      | ok made =>
          cases hr
          exact length_charsOf (construct_size hmade)

/-- **Strings.** The string that a construction gives is right exactly when it is made from a size other
than zero. From there on it stays right, append after append, as long as every operand is empty, or is
refused, or lies elsewhere and fits; and one that lies elsewhere has to. -/
theorem strings_right (debug : Bool) (block : Nat) (m : Store) (c : Construction) (r : KResult)
    (hrun : c.run debug block m = some r) (hspace : block + r.str.fDataSz ≤ 2 ^ 64) :
    ((c.start m r).Holds ↔ c.FromSize) ∧
    (c.FromSize → ∀ w, Reach Step Ok (c.start m r) w → w.Holds ∧
      (∀ a, Meets w a → ∃ r', AppendRight w a r') ∧
      ∀ a r', (∀ len, oeStringLen w.mem a.rhs = some len → Elsewhere w a len) →
        w.str.fCur < 2 ^ 31 → AppendRight w a r' → Meets w a) := by
  refine ⟨⟨fun hholds => ?_, fun hsize => (start_kept hrun hsize hspace).toHolds⟩, fun hsize w hw => ?_⟩
  · by_cases hchars : ∀ sz, c ≠ .ofSize sz
    · exact absurd (start_full hrun hchars) (Nat.ne_of_lt hholds.inside)
    · obtain ⟨sz, hsz⟩ := not_forall.mp hchars
      obtain rfl := not_not.mp hsz
      refine ⟨sz, ?_, rfl⟩
      rintro rfl
      rw [Construction.run, KBasicString.ofSize] at hrun
      split at hrun
      · cases hrun
      · cases hrun
        exact Nat.not_lt_zero _ hholds.inside
  · have hkept : w.Kept := hw.inv (start_kept hrun hsize hspace) fun _ _ _ hk hok hstep =>
      hstep.kept hk hok
    refine ⟨hkept.toHolds, fun a hmeets => ?_, fun a r' helse hcur hright => ?_⟩
    · obtain ⟨r', hright, -⟩ := hkept.append hmeets
      exact ⟨r', hright⟩
    · exact hkept.meets_of_right hright helse hcur

/-- What `KBasicString(8)` leaves in a block at `0x2000`. -/
def eightBytes : KResult := { str := ⟨0x2000, 8, 0⟩, mem := fill zeros 0x2000 8 0 }

theorem strings_right_eight : ((Construction.ofSize 8).start zeros eightBytes).Holds ∧
    ∀ a, Meets ((Construction.ofSize 8).start zeros eightBytes) a →
      ∃ r', AppendRight ((Construction.ofSize 8).start zeros eightBytes) a r' := by
  have hsize : (Construction.ofSize 8).FromSize := ⟨8, by decide, rfl⟩
  obtain ⟨-, hruns⟩ := strings_right false 0x2000 zeros (.ofSize 8) eightBytes rfl (by decide)
  obtain ⟨hholds, happend, -⟩ := hruns hsize _ .init
  exact ⟨hholds, happend⟩

/-- The string `"a"` at `0x1000`. -/
def letterA : Store := fun x => if x = 0x1000 then 0x61 else 0

/-- The string made of it has no room for a zero. -/
theorem ofString_full : ∃ r, (Construction.ofString 0x1000).run false 0x2000 letterA = some r ∧
    ¬ ((Construction.ofString 0x1000).start letterA r).Holds := by
  have hlen : oeStringLen letterA 0x1000 = some 1 :=
    oeStringLen_some.mpr (.inr ⟨by decide, by decide, by decide, by decide⟩)
  have hfilled : oeStringLen (fill letterA 0x2000 1 0) 0x1000 = some 1 :=
    oeStringLen_some.mpr (.inr ⟨by decide, by decide, by decide, by decide⟩)
  have hcopied : oeStringLen (appendLoop 0x2000 0x1000 (int32 0) 1 (fill letterA 0x2000 1 0)) 0x1000 =
      some 1 :=
    oeStringLen_some.mpr (.inr ⟨by decide, by decide, by decide, by decide⟩)
  have hrun : (Construction.ofString 0x1000).run false 0x2000 letterA =
      some { str := ⟨0x2000, 1, u64 (0 + 1)⟩
             mem := appendLoop 0x2000 0x1000 (int32 0) 1 (fill letterA 0x2000 1 0)
             writes := (List.range 1).map (appendPlace 0x2000 (int32 0)) } := by
    rw [Construction.run, KBasicString.ofString, hlen]
    exact (appendChars_eq ⟨0x2000, 1, 0⟩ hfilled).trans (by rw [Nat.cast_zero, hcopied]; rfl)
  refine ⟨_, hrun, fun hholds => ?_⟩
  exact absurd (start_full hrun fun sz h => by cases h) (Nat.ne_of_lt hholds.inside)

end NeKernel.NeKit
