import NeKernel.FSKit.NeFS
import NeKernel.NeKit.KString

/-!
# The JSON reader

`AsciiJsonStreamReader::In` reads an object with an index, a flag that says whether a value is read, and
a write position in each of the two strings of the object it returns.

    {key:value} ──i──▶ key mode ──':' and blanks──▶ value mode ──'}' ','──▶ key mode

Behind the colon it goes to the first character that is no blank, and the loop's own step goes over that
one too. So a value loses its first character (`json_right`). What each character comes to is a list of
effects on the two strings (`effects`), of which the reader is a run (`readLoop_eq`). It asks for no
room, and the strings it writes to have given their buffers back when the object was made.
-/

namespace NeKernel.NeKit

open ByteStore CheckedReads WordCopy
open NeFS (CString)

def kNeJsonMaxLen : Nat := 8196

/-! ## The object -/

/-- `JsonObject<Char>`. -/
structure JsonObject where
  fUndefined : Bool
  fKey : KBasicString
  fValue : KBasicString

/-- `JsonObject(SizeT, SizeT)` on the blocks that `new` gives, with the buffers it gives back. -/
def JsonObject.make (debug : Bool) (block : Fin 4 → Nat) (lhsLen rhsLen : Nat) (m : Store) :
    Option (JsonObject × Store × List Nat) := do
  let fKey ← KBasicString.ofSize debug (block 0) lhsLen m
  let fValue ← KBasicString.ofSize debug (block 1) rhsLen fKey.mem
  let key ← KBasicString.ofSize debug (block 2) lhsLen fValue.mem
  let value ← KBasicString.ofSize debug (block 3) rhsLen key.mem
  -- the members are assigned the locals, buffers and all; then the locals end
  some (⟨false, key.str, value.str⟩, value.mem, [value.str.fData, key.str.fData])

/-! ## The reader -/

/-- One of the two strings. -/
inductive JsonPart where
  | key
  | value
  deriving DecidableEq

/-- The two write positions, the memory, and the indices that have been written. -/
structure JsonBuffers where
  keyLen : Nat := 0
  valueLen : Nat := 0
  mem : Store
  writes : List (JsonPart × Nat) := []

/-- `type.AsKey().Data()[key_len] = c`. -/
def JsonBuffers.putKey (obj : JsonObject) (c : UInt8) (b : JsonBuffers) : JsonBuffers :=
  { b with
    mem := fill b.mem (obj.fKey.fData + b.keyLen) 1 c
    writes := b.writes ++ [(.key, b.keyLen)] }

/-- `type.AsValue().Data()[value_len] = c`. -/
def JsonBuffers.putValue (obj : JsonObject) (c : UInt8) (b : JsonBuffers) : JsonBuffers :=
  { b with
    mem := fill b.mem (obj.fValue.fData + b.valueLen) 1 c
    writes := b.writes ++ [(.value, b.valueLen)] }

/-- The locals of `In`, and the places of the text that have been read. -/
structure JsonReader where
  i : Nat
  probeValue : Bool
  buf : JsonBuffers
  reads : List Nat

/-- The locals in front of the loop. The first character has been read, and then all of them by
`rt_string_len`. -/
def JsonReader.start (fullArray : CString) (m : Store) : JsonReader where
  i := 1
  probeValue := fullArray.bytes 0 = 0x5B
  buf := { mem := m }
  reads := 0 :: List.range (fullArray.length + 1)

def isBlank (c : UInt8) : Bool := c = 0x20 ∨ c = 0x09

def isBreak (c : UInt8) : Bool := c = 0x0D ∨ c = 0x0A

/-- `while (full_array[i] == ' ' || full_array[i] == '\t') ++i;` -/
def skipBlanks (text : CString) : Nat → Nat → Nat
  | 0, i => i
  | left + 1, i => if isBlank (text.bytes i) then skipBlanks text left (i + 1) else i

/-- The body of the loop and its `++i`, and whether the loop goes on. -/
def JsonReader.turn (obj : JsonObject) (text : CString) (startVal endVal : UInt8) (s : JsonReader) :
    JsonReader × Bool :=
  let c := text.bytes s.i
  let s := { s with reads := s.reads ++ [s.i] }
  if isBreak c then ({ s with i := s.i + 1 }, true)
  else if s.probeValue then
    if c = endVal ∨ c = 0x2C then
      ({ s with probeValue := false, buf := { s.buf with valueLen := s.buf.valueLen + 1 }
                i := s.i + 1 }, true)
    else if c = 0x27 then ({ s with buf := s.buf.putValue obj 0 }, false)
    else
      ({ s with buf := { s.buf.putValue obj c with valueLen := s.buf.valueLen + 1 }
                i := s.i + 1 }, true)
  else if startVal = 0x5B then ({ s with i := s.i + 1 }, true)
  else if c = 0x3A then
    let next := skipBlanks text text.length (s.i + 1)
    ({ s with buf := { s.buf.putKey obj 0 with keyLen := s.buf.keyLen + 1 }
              probeValue := true
              i := next + 1
              reads := s.reads ++ List.range' (s.i + 1) (next - s.i) }, true)
  else
    ({ s with buf := { s.buf.putKey obj c with keyLen := s.buf.keyLen + 1 }
              i := s.i + 1 }, true)

/-- The loop. A turn moves on, so that there are fewer of them than characters. -/
def readLoop (obj : JsonObject) (text : CString) (startVal endVal : UInt8) :
    Nat → JsonReader → JsonReader
  | 0, s => s
  | fuel + 1, s =>
      if s.i < text.length then
        match s.turn obj text startVal endVal with
        | (s, true) => readLoop obj text startVal endVal fuel s
        | (s, false) => s
      else s

/-- What `In` leaves. -/
structure JsonResult where
  obj : JsonObject
  mem : Store
  reads : List Nat
  writes : List (JsonPart × Nat)
  freed : List Nat

/-- `AsciiJsonStreamReader::In`. It does not come back where a `MUST_PASS` stops it. What is in `freed` is
given back in front of the writes. The return comes after them: where it copies the object, `type` ends there
and gives the same two buffers back again, which is left out. -/
def asciiJsonIn (debug : Bool) (block : Fin 4 → Nat) (fullArray : CString) (m : Store) :
    Option JsonResult :=
  let startVal := fullArray.bytes 0
  if startVal ≠ 0x7B ∧ startVal ≠ 0x5B then
    (JsonObject.make debug block 0 0 m).map fun r =>
      { obj := r.1, mem := r.2.1, reads := [0], writes := [], freed := r.2.2 }
  else
    let endVal : UInt8 := if startVal = 0x7B then 0x7D else 0x5D
    (JsonObject.make debug block kNeJsonMaxLen kNeJsonMaxLen m).map fun r =>
      let s := readLoop r.1 fullArray startVal endVal fullArray.length (.start fullArray r.2.1)
      let buf := s.buf.putValue r.1 0
      { obj := r.1, mem := buf.mem, reads := s.reads, writes := buf.writes, freed := r.2.2 }

/-! ## What a text says -/

/-- What a character comes to. -/
inductive Effect where
  | key (c : UInt8)
  | value (c : UInt8)
  /-- A place in the value that is passed. -/
  | gap
  /-- The end of a value that ends the reading. -/
  | quote

inductive Mode where
  | key
  | blanks
  | value

/-- What the characters come to, one after the other. -/
def effects (startVal endVal : UInt8) : Mode → List UInt8 → List Effect
  | _, [] => []
  | .key, c :: cs =>
      if isBreak c then effects startVal endVal .key cs
      else if startVal = 0x5B then effects startVal endVal .key cs
      else if c = 0x3A then .key 0 :: effects startVal endVal .blanks cs
      else .key c :: effects startVal endVal .key cs
  -- the first character that is no blank goes
  | .blanks, c :: cs =>
      if isBlank c then effects startVal endVal .blanks cs else effects startVal endVal .value cs
  | .value, c :: cs =>
      if isBreak c then effects startVal endVal .value cs
      else if c = endVal ∨ c = 0x2C then .gap :: effects startVal endVal .key cs
      else if c = 0x27 then [.quote]
      else .value c :: effects startVal endVal .value cs

/-- The text begins with a brace or a bracket. -/
def Opens (text : CString) : Prop := text.bytes 0 = 0x7B ∨ text.bytes 0 = 0x5B

/-- The effects of a text that opens. -/
def effectsOf (text : CString) : List Effect :=
  if text.bytes 0 = 0x7B then effects 0x7B 0x7D .key (text.chars.drop 1)
  else if text.bytes 0 = 0x5B then effects 0x5B 0x5D .value (text.chars.drop 1)
  else []

def Effect.inKey : Effect → Bool
  | .key _ => true
  | _ => false

def Effect.inValue : Effect → Bool
  | .value _ => true
  | .gap => true
  | _ => false

/-- There is room for what goes to the key, and for what goes to the value and a zero. -/
structure FitsJson (text : CString) : Prop where
  key : (effectsOf text).countP Effect.inKey ≤ kNeJsonMaxLen
  value : (effectsOf text).countP Effect.inValue < kNeJsonMaxLen

def JsonBuffers.takes (obj : JsonObject) (b : JsonBuffers) : Effect → JsonBuffers
  | .key c => { b.putKey obj c with keyLen := b.keyLen + 1 }
  | .value c => { b.putValue obj c with valueLen := b.valueLen + 1 }
  | .gap => { b with valueLen := b.valueLen + 1 }
  | .quote => b.putValue obj 0

variable {obj : JsonObject} {text : CString} {startVal endVal c : UInt8} {cs key value : List UInt8}
  {s : JsonReader} {b : JsonBuffers} {es : List Effect} {e : Effect} {i left fuel k : Nat}

/-! ## The reader and the text -/

/-- What is left of the text at an index. -/
theorem drop_eq (hi : i < text.length) : text.chars.drop i = text.bytes i :: text.chars.drop (i + 1) := by
  rw [CString.bytes, List.getD_eq_getElem _ _ hi, List.drop_eq_getElem_cons hi]

theorem bytes_length : text.bytes text.length = 0 := List.getD_eq_default _ _ (Nat.le_refl _)

/-- The blanks end in front of the terminator. -/
theorem skipBlanks_le (hi : i ≤ text.length) : skipBlanks text left i ≤ text.length := by
  induction left generalizing i with
  | zero => exact hi
  | succ left ih =>
      rw [skipBlanks]
      split
      · next hblank =>
          refine ih (Nat.lt_of_le_of_ne hi ?_)
          rintro rfl
          rw [bytes_length] at hblank
          exact absurd hblank (by decide)
      · exact hi

theorem le_skipBlanks : i ≤ skipBlanks text left i := by
  induction left generalizing i with
  | zero => exact Nat.le_refl _
  | succ left ih =>
      rw [skipBlanks]
      split
      · exact Nat.le_trans (Nat.le_succ i) ih
      · exact Nat.le_refl _

/-- Behind the blanks and one more character the value begins. -/
theorem effects_skipBlanks (left : Nat) (hleft : text.length ≤ i + left) :
    effects startVal endVal .blanks (text.chars.drop i) =
      effects startVal endVal .value (text.chars.drop (skipBlanks text left i + 1)) := by
  have hover : ∀ j, text.length ≤ j → text.chars.drop j = [] := fun j hj => List.drop_eq_nil_of_le hj
  induction left generalizing i with
  | zero =>
      rw [skipBlanks, hover i hleft, hover (i + 1) (Nat.le_succ_of_le hleft)]
      rfl
  | succ left ih =>
      by_cases hi : i < text.length
      · rw [drop_eq hi, effects, skipBlanks]
        by_cases hblank : isBlank (text.bytes i) = true
        · rw [if_pos hblank, if_pos hblank]
          exact ih (by omega)
        · rw [if_neg hblank, if_neg hblank]
      · have hle := Nat.le_of_not_lt hi
        have hnext : i ≤ skipBlanks text (left + 1) i := le_skipBlanks
        rw [hover i hle, hover _ (by omega)]
        rfl

/-- The mode that the flag stands for. -/
def modeOf (probeValue : Bool) : Mode := if probeValue then .value else .key

theorem effects_key (startVal endVal c : UInt8) (cs : List UInt8) : effects startVal endVal .key (c :: cs) =
    if isBreak c then effects startVal endVal .key cs
    else if startVal = 0x5B then effects startVal endVal .key cs
    else if c = 0x3A then .key 0 :: effects startVal endVal .blanks cs
    else .key c :: effects startVal endVal .key cs := by
  rw [effects]

theorem effects_value (startVal endVal c : UInt8) (cs : List UInt8) : effects startVal endVal .value (c :: cs) =
    if isBreak c then effects startVal endVal .value cs
    else if c = endVal ∨ c = 0x2C then .gap :: effects startVal endVal .key cs
    else if c = 0x27 then [.quote]
    else .value c :: effects startVal endVal .value cs := by
  rw [effects]

/-- A turn that goes on takes the effects of the characters it passes. -/
structure GoesOn (obj : JsonObject) (text : CString) (startVal endVal : UInt8) (s s' : JsonReader)
    (es : List Effect) : Prop where
  moves : s.i < s'.i
  effects : effects startVal endVal (modeOf s.probeValue) (text.chars.drop s.i) =
    es ++ effects startVal endVal (modeOf s'.probeValue) (text.chars.drop s'.i)
  buf : s'.buf = es.foldl (JsonBuffers.takes obj) s.buf

theorem turn_cases (obj : JsonObject) (startVal endVal : UInt8) (hi : s.i < text.length) :
    (∃ s' es, s.turn obj text startVal endVal = (s', true) ∧
      GoesOn obj text startVal endVal s s' es) ∨
    ∃ s', s.turn obj text startVal endVal = (s', false) ∧
      effects startVal endVal (modeOf s.probeValue) (text.chars.drop s.i) = [.quote] ∧
      s'.buf = s.buf.takes obj .quote := by
  obtain ⟨i, probeValue, buf, reads⟩ := s
  have hdrop : text.chars.drop i = text.bytes i :: text.chars.drop (i + 1) := drop_eq hi
  unfold JsonReader.turn
  dsimp only
  by_cases hbreak : isBreak (text.bytes i) = true
  · rw [if_pos hbreak]
    refine .inl ⟨_, [], rfl, Nat.lt_succ_self i, ?_, rfl⟩
    dsimp only
    cases probeValue with
    | true => rw [hdrop, modeOf, if_pos rfl, effects_value, if_pos hbreak, List.nil_append]
    | false => rw [hdrop, modeOf, if_neg Bool.false_ne_true, effects_key, if_pos hbreak, List.nil_append]
  rw [if_neg hbreak]
  cases probeValue with
  | true =>
      have hvalue := effects_value startVal endVal (text.bytes i) (text.chars.drop (i + 1))
      rw [← hdrop, if_neg hbreak] at hvalue
      rw [if_pos rfl]
      by_cases hend : text.bytes i = endVal ∨ text.bytes i = 0x2C
      · rw [if_pos hend] at hvalue ⊢
        exact .inl ⟨_, [.gap], rfl, Nat.lt_succ_self i, hvalue, rfl⟩
      · rw [if_neg hend] at hvalue ⊢
        by_cases hquote : text.bytes i = 0x27
        · rw [if_pos hquote] at hvalue ⊢
          exact .inr ⟨_, rfl, hvalue, rfl⟩
        · rw [if_neg hquote] at hvalue ⊢
          exact .inl ⟨_, [.value (text.bytes i)], rfl, Nat.lt_succ_self i, hvalue, rfl⟩
  | false =>
      have hkey := effects_key startVal endVal (text.bytes i) (text.chars.drop (i + 1))
      rw [← hdrop, if_neg hbreak] at hkey
      rw [if_neg Bool.false_ne_true]
      by_cases hbracket : startVal = 0x5B
      · rw [if_pos hbracket] at hkey ⊢
        exact .inl ⟨_, [], rfl, Nat.lt_succ_self i, hkey, rfl⟩
      · rw [if_neg hbracket] at hkey ⊢
        by_cases hcolon : text.bytes i = 0x3A
        · rw [if_pos hcolon, effects_skipBlanks text.length (by omega)] at hkey
          rw [if_pos hcolon]
          exact .inl ⟨_, [.key 0], rfl, Nat.lt_succ_of_lt le_skipBlanks, hkey, rfl⟩
        · rw [if_neg hcolon] at hkey ⊢
          exact .inl ⟨_, [.key (text.bytes i)], rfl, Nat.lt_succ_self i, hkey, rfl⟩

/-- **The loop** takes the effects of the characters that are left. -/
theorem readLoop_eq (hfuel : text.length ≤ s.i + fuel) :
    (readLoop obj text startVal endVal fuel s).buf =
      (effects startVal endVal (modeOf s.probeValue) (text.chars.drop s.i)).foldl
        (JsonBuffers.takes obj) s.buf := by
  have hover : ∀ j, text.length ≤ j → text.chars.drop j = [] := fun j hj => List.drop_eq_nil_of_le hj
  have hnil : ∀ mode, effects startVal endVal mode [] = [] := fun mode => by cases mode <;> rfl
  induction fuel generalizing s with
  | zero =>
      rw [readLoop, hover s.i hfuel, hnil]
      rfl
  | succ fuel ih =>
      rw [readLoop]
      by_cases hi : s.i < text.length
      · rw [if_pos hi]
        obtain ⟨s', es, hturn, hmoves, hes, hbuf⟩ | ⟨s', hturn, hes, hbuf⟩ :=
          turn_cases obj startVal endVal hi
        · rw [hturn, hes, List.foldl_append, ← hbuf]
          exact ih (by omega)
        · rw [hturn, hes]
          exact hbuf
      · rw [if_neg hi, hover _ (Nat.le_of_not_lt hi), hnil]
        rfl

/-- A turn reads up to the terminator at most. -/
theorem turn_reads (obj : JsonObject) (startVal endVal : UInt8) (hi : s.i < text.length)
    (hreads : ∀ j ∈ s.reads, j ≤ text.length) :
    ∀ j ∈ (s.turn obj text startVal endVal).1.reads, j ≤ text.length := by
  have hone : ∀ j ∈ s.reads ++ [s.i], j ≤ text.length := by
    rw [List.forall_mem_append, List.forall_mem_singleton]
    exact ⟨hreads, Nat.le_of_lt hi⟩
  unfold JsonReader.turn
  dsimp only
  split
  · exact hone
  · split
    · split
      · exact hone
      · split
        · exact hone
        · exact hone
    · split
      · exact hone
      · split
        · rw [List.forall_mem_append]
          refine ⟨hone, fun j hj => ?_⟩
          have hle : skipBlanks text text.length (s.i + 1) ≤ text.length := skipBlanks_le hi
          rw [List.mem_range'_1] at hj
          omega
        · exact hone

theorem readLoop_reads (hreads : ∀ j ∈ s.reads, j ≤ text.length) :
    ∀ j ∈ (readLoop obj text startVal endVal fuel s).reads, j ≤ text.length := by
  induction fuel generalizing s with
  | zero => exact hreads
  | succ fuel ih =>
      rw [readLoop]
      by_cases hi : s.i < text.length
      · rw [if_pos hi]
        have hturn := turn_reads obj startVal endVal hi hreads
        split
        · next s' hs' =>
            rw [hs'] at hturn
            exact ih hturn
        · next s' hs' =>
            rw [hs'] at hturn
            exact hturn
      · rw [if_neg hi]
        exact hreads

/-! ## The writes -/

/-- The write positions after some effects. -/
theorem foldl_lens : (es.foldl (JsonBuffers.takes obj) b).keyLen = b.keyLen + es.countP Effect.inKey ∧
    (es.foldl (JsonBuffers.takes obj) b).valueLen = b.valueLen + es.countP Effect.inValue := by
  induction es generalizing b with
  | nil => exact ⟨rfl, rfl⟩
  | cons e es ih =>
      obtain ⟨hkey, hvalue⟩ : _ ∧ _ := ih (b := b.takes obj e)
      rw [List.foldl_cons, List.countP_cons, List.countP_cons, hkey, hvalue]
      cases e with
      | key c => exact ⟨(Nat.add_right_comm _ _ _).trans (Nat.add_assoc _ _ _), rfl⟩
      | value c => exact ⟨rfl, (Nat.add_right_comm _ _ _).trans (Nat.add_assoc _ _ _)⟩
      | gap => exact ⟨rfl, (Nat.add_right_comm _ _ _).trans (Nat.add_assoc _ _ _)⟩
      | quote => exact ⟨rfl, rfl⟩

/-- The key has been written up to its position, and the value not behind its own. -/
structure Written (b : JsonBuffers) : Prop where
  key : ∀ k, (JsonPart.key, k) ∈ b.writes ↔ k < b.keyLen
  value : ∀ k, (JsonPart.value, k) ∈ b.writes → k ≤ b.valueLen

theorem Written.putValue (h : Written b) : Written (b.putValue obj c) where
  key k := by
    rw [JsonBuffers.putValue, List.mem_append, List.mem_singleton, h.key]
    exact or_iff_left fun heq => by cases heq
  value k hk := by
    rw [JsonBuffers.putValue, List.mem_append, List.mem_singleton] at hk
    rcases hk with hk | heq
    · exact h.value k hk
    · cases heq
      exact Nat.le_refl _

theorem Written.takes (h : Written b) (e : Effect) : Written (b.takes obj e) := by
  cases e with
  | key c =>
      refine ⟨fun k => ?_, fun k hk => ?_⟩
      · rw [JsonBuffers.takes, JsonBuffers.putKey, List.mem_append, List.mem_singleton, h.key,
          Prod.mk.injEq, and_iff_right rfl]
        exact Nat.lt_succ_iff_lt_or_eq.symm
      · rw [JsonBuffers.takes, JsonBuffers.putKey, List.mem_append, List.mem_singleton] at hk
        rcases hk with hk | heq
        · exact h.value k hk
        · cases heq
  | value c =>
      have hput : Written (b.putValue obj c) := h.putValue
      exact ⟨hput.key, fun k hk => Nat.le_succ_of_le (hput.value k hk)⟩
  | gap => exact ⟨h.key, fun k hk => Nat.le_succ_of_le (h.value k hk)⟩
  | quote => exact h.putValue

theorem Written.foldl (h : Written b) : Written (es.foldl (JsonBuffers.takes obj) b) := by
  induction es generalizing b with
  | nil => exact h
  | cons e es ih => exact ih (h.takes e)

/-- Whether all writes are in their buffers is a matter of the last ones. -/
theorem Written.inside_iff (h : Written b) {room : Nat} :
    (∀ w ∈ (b.putValue obj c).writes, w.2 < room) ↔ b.keyLen ≤ room ∧ b.valueLen < room := by
  have hput : Written (b.putValue obj c) := h.putValue
  constructor
  · intro hall
    refine ⟨?_, hall (.value, b.valueLen) ?_⟩
    · by_contra hlong
      have hwritten := (hput.key room).mpr (Nat.lt_of_not_le hlong)
      exact Nat.lt_irrefl room (hall (.key, room) hwritten)
    · exact List.mem_append_right _ (List.mem_singleton_self _)
  · rintro ⟨hkey, hvalue⟩ ⟨part, k⟩ hw
    cases part with
    | key => exact Nat.lt_of_lt_of_le ((hput.key k).mp hw) hkey
    | value => exact Nat.lt_of_le_of_lt (hput.value k hw) hvalue

/-! ## The object -/

/-- The strings of the object that is made, where one is. -/
theorem make_eq {debug : Bool} {block : Fin 4 → Nat} {lhsLen rhsLen : Nat} {m : Store}
    {r : JsonObject × Store × List Nat} (h : JsonObject.make debug block lhsLen rhsLen m = some r) :
    r.1.fKey = ⟨block 2, lhsLen, 0⟩ ∧ r.1.fValue = ⟨block 3, rhsLen, 0⟩ ∧
      r.2.2 = [block 3, block 2] ∧
      ∃ m', r.2.1 = fill (fill m' (block 2) lhsLen 0) (block 3) rhsLen 0 := by
  simp only [JsonObject.make, KBasicString.ofSize, Option.bind_eq_bind, Option.bind_eq_some_iff,
    Option.ite_none_left_eq_some, Option.some.injEq] at h
  obtain ⟨fKey, ⟨-, rfl⟩, fValue, ⟨-, rfl⟩, key, ⟨-, rfl⟩, value, ⟨-, rfl⟩, rfl⟩ := h
  exact ⟨rfl, rfl, rfl, _, rfl⟩

/-! ## A key and a value -/

/-- Quotes, braces, brackets, comma, colon and line breaks, and the terminator. -/
def reserved : List UInt8 := [0, 0x22, 0x27, 0x7B, 0x7D, 0x5B, 0x5D, 0x2C, 0x3A, 0x0D, 0x0A]

/-- The characters of a key or a value: none that is reserved, and no blank in front. -/
structure Plain (l : List UInt8) : Prop where
  chars : ∀ c ∈ l, c ∉ reserved
  front : ∀ c ∈ l.head?, isBlank c = false

/-- `{key:value}`. -/
def keyValueText (key value : List UInt8) (hkey : Plain key) (hvalue : Plain value) : CString where
  chars := 0x7B :: (key ++ 0x3A :: (value ++ [0x7D]))
  noNul c hc := by
    rw [List.mem_cons, List.mem_append, List.mem_cons, List.mem_append, List.mem_singleton] at hc
    rintro rfl
    rcases hc with hc | hc | hc | hc | hc
    · cases hc
    · exact hkey.chars 0 hc List.mem_cons_self
    · cases hc
    · exact hvalue.chars 0 hc List.mem_cons_self
    · cases hc

/-- A plain character stands for itself. -/
theorem plain_char (h : c ∉ reserved) :
    isBreak c = false ∧ c ≠ 0x3A ∧ ¬ (c = 0x7D ∨ c = 0x2C) ∧ c ≠ 0x27 := by
  simp only [reserved, List.mem_cons, List.not_mem_nil, or_false, not_or] at h
  refine ⟨decide_eq_false ?_, by tauto, by tauto, by tauto⟩
  tauto

theorem effects_plainKey (hkey : ∀ c ∈ key, c ∉ reserved) :
    effects 0x7B 0x7D .key (key ++ 0x3A :: cs) =
      key.map Effect.key ++ Effect.key 0 :: effects 0x7B 0x7D .blanks cs := by
  induction key with
  | nil => rw [List.nil_append, effects_key, if_neg (by decide), if_neg (by decide), if_pos rfl]; rfl
  | cons c key ih =>
      rw [List.forall_mem_cons] at hkey
      obtain ⟨hbreak, hcolon, -, -⟩ := plain_char hkey.1
      rw [List.cons_append, effects_key, if_neg (Bool.eq_false_iff.mp hbreak), if_neg (by decide),
        if_neg hcolon, ih hkey.2]
      rfl

theorem effects_plainValue (hvalue : ∀ c ∈ value, c ∉ reserved) :
    effects 0x7B 0x7D .value (value ++ [0x7D]) = value.map Effect.value ++ [Effect.gap] := by
  induction value with
  | nil => rfl
  | cons c value ih =>
      rw [List.forall_mem_cons] at hvalue
      obtain ⟨hbreak, -, hend, hquote⟩ := plain_char hvalue.1
      rw [List.cons_append, effects_value, if_neg (Bool.eq_false_iff.mp hbreak), if_neg hend,
        if_neg hquote, ih hvalue.2]
      rfl

/-- Of a value, all but its first character. -/
theorem effects_keyValue (hkey : Plain key) (hvalue : Plain value) :
    effects 0x7B 0x7D .key (key ++ 0x3A :: (value ++ [0x7D])) =
      key.map Effect.key ++ Effect.key 0 :: (value.tail.map Effect.value ++
        if value = [] then [] else [Effect.gap]) := by
  rw [effects_plainKey hkey.chars]
  cases value with
  | nil => rfl
  | cons c value =>
      have hfront : isBlank c = false := hvalue.front c rfl
      rw [List.cons_append, effects, if_neg (Bool.eq_false_iff.mp hfront),
        effects_plainValue fun c hc => hvalue.chars c (List.mem_cons_of_mem _ hc)]
      rfl

/-- A character in front of others. -/
theorem blit_fill {m : Store} {a n : Nat} (c : UInt8) (cs : List UInt8) :
    blit (fill m a 1 c) (a + 1) n (fun i => cs.getD i 0) =
      blit m a (1 + n) fun i => (c :: cs).getD i 0 := by
  have hone : fill m a 1 c = blit m a 1 fun i => (c :: cs).getD i 0 :=
    blit_congr fun i hi => by
      obtain rfl : i = 0 := Nat.lt_one_iff.mp hi
      rfl
  rw [hone]
  exact blit_append rfl fun i _ => by
    rw [Nat.add_comm 1 i]
    rfl

theorem foldl_key : ((key.map Effect.key).foldl (JsonBuffers.takes obj) b).mem =
      blit b.mem (obj.fKey.fData + b.keyLen) key.length (fun i => key.getD i 0) ∧
    ((key.map Effect.key).foldl (JsonBuffers.takes obj) b).keyLen = b.keyLen + key.length ∧
    ((key.map Effect.key).foldl (JsonBuffers.takes obj) b).valueLen = b.valueLen := by
  induction key generalizing b with
  | nil => exact ⟨blit_zero.symm, rfl, rfl⟩
  | cons c key ih =>
      rw [List.map_cons, List.foldl_cons, ih.1, ih.2.1, ih.2.2, List.length_cons,
        Nat.add_comm key.length 1]
      exact ⟨blit_fill c key, Nat.add_assoc _ _ _, rfl⟩

theorem foldl_value : ((value.map Effect.value).foldl (JsonBuffers.takes obj) b).mem =
      blit b.mem (obj.fValue.fData + b.valueLen) value.length (fun i => value.getD i 0) ∧
    ((value.map Effect.value).foldl (JsonBuffers.takes obj) b).valueLen = b.valueLen + value.length := by
  induction value generalizing b with
  | nil => exact ⟨blit_zero.symm, rfl⟩
  | cons c value ih =>
      rw [List.map_cons, List.foldl_cons, ih.1, ih.2, List.length_cons, Nat.add_comm value.length 1]
      exact ⟨blit_fill c value, Nat.add_assoc _ _ _⟩

/-- What is written to both buffers, one after the other, is what stands in them. -/
theorem standsAt_parts {m : Store} {kd vd n room : Nat} {rest : List UInt8} (hkey : key.length < room)
    (hrest : rest.length ≤ n) (hn : n < room) (hapart : kd + room ≤ vd ∨ vd + room ≤ kd)
    (hzero : ∀ x, vd ≤ x → x < vd + room → m x = 0) :
    StandsAt (fill (blit (fill (blit m kd key.length fun i => key.getD i 0) (kd + key.length) 1 0) vd
        rest.length fun i => rest.getD i 0) (vd + n) 1 0) kd key ∧
      StandsAt (fill (blit (fill (blit m kd key.length fun i => key.getD i 0) (kd + key.length) 1 0) vd
        rest.length fun i => rest.getD i 0) (vd + n) 1 0) vd rest := by
  refine ⟨⟨fun i hi => ?_, ?_⟩, fun i hi => ?_, ?_⟩
  · rw [fill, blit_apply_of_notMem (by omega), blit_apply_of_notMem (by omega), fill,
      blit_apply_of_notMem (by omega), blit_apply_add hi]
  · rw [fill, blit_apply_of_notMem (by omega), blit_apply_of_notMem (by omega), fill,
      blit_apply_of_mem (Nat.le_refl _) (Nat.lt_succ_self _)]
  · rw [fill, blit_apply_of_notMem (by omega), blit_apply_add hi]
  · by_cases hlast : n = rest.length
    · rw [hlast, fill, blit_apply_of_mem (Nat.le_refl _) (Nat.lt_succ_self _)]
    · -- the zero is the one that the buffer has begun with
      rw [fill, blit_apply_of_notMem (by omega), blit_apply_of_notMem (by omega), fill,
        blit_apply_of_notMem (by omega), blit_apply_of_notMem (by omega)]
      exact hzero _ (Nat.le_add_right _ _) (by omega)

/-! ## A text -/

/-- What `In` writes to the strings of an object. -/
def written (obj : JsonObject) (text : CString) (m : Store) : JsonBuffers :=
  ((effectsOf text).foldl (JsonBuffers.takes obj) { mem := m }).putValue obj 0

/-- The writes are in their buffers exactly when there is room for what the text says. -/
theorem written_inside_iff {m : Store} :
    (∀ w ∈ (written obj text m).writes, w.2 < kNeJsonMaxLen) ↔ FitsJson text := by
  have hbegin : Written { mem := m } := ⟨fun k => iff_of_false List.not_mem_nil (Nat.not_lt_zero k),
    fun k hk => absurd hk List.not_mem_nil⟩
  have hread : Written ((effectsOf text).foldl (JsonBuffers.takes obj) { mem := m }) := hbegin.foldl
  obtain ⟨hkey, hvalue⟩ :
      ((effectsOf text).foldl (JsonBuffers.takes obj) { mem := m }).keyLen =
          0 + (effectsOf text).countP Effect.inKey ∧
        ((effectsOf text).foldl (JsonBuffers.takes obj) { mem := m }).valueLen =
          0 + (effectsOf text).countP Effect.inValue := foldl_lens
  rw [Nat.zero_add] at hkey hvalue
  rw [written, hread.inside_iff, hkey, hvalue]
  exact ⟨fun h => ⟨h.1, h.2⟩, fun h => ⟨h.key, h.value⟩⟩

/-- A text that does not open says nothing. -/
theorem fitsJson_other (hother : ¬ Opens text) : FitsJson text := by
  rw [Opens, not_or] at hother
  have hnone : effectsOf text = [] := by rw [effectsOf, if_neg hother.1, if_neg hother.2]
  constructor
  · rw [hnone]
    exact Nat.zero_le _
  · rw [hnone]
    decide

theorem start_reads {m : Store} : ∀ j ∈ (JsonReader.start text m).reads, j ≤ text.length := by
  rw [JsonReader.start, List.forall_mem_cons]
  exact ⟨Nat.zero_le _, fun j hj => Nat.le_of_lt_succ (List.mem_range.mp hj)⟩

/-- A text that opens is read, effect by effect, into the object that is made. -/
theorem asciiJsonIn_opens {debug : Bool} {block : Fin 4 → Nat} {m : Store}
    {made : JsonObject × Store × List Nat} (hopens : Opens text)
    (hmade : JsonObject.make debug block kNeJsonMaxLen kNeJsonMaxLen m = some made) :
    ∃ reads : List Nat, (∀ j ∈ reads, j ≤ text.length) ∧
      asciiJsonIn debug block text m = some
        { obj := made.1, mem := (written made.1 text made.2.1).mem, reads := reads
          writes := (written made.1 text made.2.1).writes, freed := made.2.2 } := by
  have hnot : ¬ (text.bytes 0 ≠ 0x7B ∧ text.bytes 0 ≠ 0x5B) := fun h => hopens.elim h.1 h.2
  have hloop : ∀ startVal endVal,
      (readLoop made.1 text startVal endVal text.length (.start text made.2.1)).buf =
        (effects startVal endVal (modeOf (text.bytes 0 = 0x5B)) (text.chars.drop 1)).foldl
          (JsonBuffers.takes made.1) { mem := made.2.1 } :=
    fun startVal endVal => readLoop_eq (Nat.le_add_left _ _)
  unfold asciiJsonIn
  dsimp only
  rw [if_neg hnot, hmade, Option.map_some]
  refine ⟨(readLoop made.1 text (text.bytes 0) (if text.bytes 0 = 0x7B then 0x7D else 0x5D) text.length
    (.start text made.2.1)).reads, readLoop_reads start_reads, ?_⟩
  rw [hloop, written, effectsOf]
  by_cases hbrace : text.bytes 0 = 0x7B
  · rw [hbrace, if_pos rfl, if_pos rfl]
    rfl
  · have hbracket : text.bytes 0 = 0x5B := hopens.resolve_left hbrace
    rw [hbracket, if_neg (by decide), if_neg (by decide), if_pos rfl]
    rfl

theorem asciiJsonIn_other {debug : Bool} {block : Fin 4 → Nat} {m : Store} (hother : ¬ Opens text) :
    asciiJsonIn debug block text m = (JsonObject.make debug block 0 0 m).map fun r =>
      { obj := r.1, mem := r.2.1, reads := [0], writes := [], freed := r.2.2 } := by
  rw [Opens, not_or] at hother
  exact if_pos hother

/-- The writes of a plain text. The zero of the value is put where a value with its first character
would end. -/
theorem written_keyValue (obj : JsonObject) (m : Store) (hkey : Plain key) (hvalue : Plain value) :
    (written obj (keyValueText key value hkey hvalue) m).mem =
      fill (blit (fill (blit m obj.fKey.fData key.length fun i => key.getD i 0)
        (obj.fKey.fData + key.length) 1 0) obj.fValue.fData value.tail.length
          fun i => value.tail.getD i 0) (obj.fValue.fData + value.length) 1 0 := by
  have heffects : effectsOf (keyValueText key value hkey hvalue) =
      key.map Effect.key ++ Effect.key 0 :: (value.tail.map Effect.value ++
        if value = [] then [] else [Effect.gap]) :=
    (if_pos rfl).trans (effects_keyValue hkey hvalue)
  rw [written, heffects, List.foldl_append, List.foldl_cons, List.foldl_append]
  -- the key
  obtain ⟨hmem₁, hkey₁, hvalue₁⟩ :
      ((key.map Effect.key).foldl (JsonBuffers.takes obj) { mem := m }).mem =
          blit m obj.fKey.fData key.length (fun i => key.getD i 0) ∧
        ((key.map Effect.key).foldl (JsonBuffers.takes obj) { mem := m }).keyLen = key.length ∧
        ((key.map Effect.key).foldl (JsonBuffers.takes obj) { mem := m }).valueLen = 0 := by
    obtain ⟨hmem, hkey, hvalue⟩ := foldl_key
    exact ⟨hmem, hkey.trans (Nat.zero_add _), hvalue⟩
  generalize (key.map Effect.key).foldl (JsonBuffers.takes obj) { mem := m } = b₁ at *
  -- its zero, and the value
  obtain ⟨hmem₂, hvalue₂⟩ :
      ((value.tail.map Effect.value).foldl (JsonBuffers.takes obj) (b₁.takes obj (.key 0))).mem =
          blit (fill b₁.mem (obj.fKey.fData + b₁.keyLen) 1 0) (obj.fValue.fData + b₁.valueLen)
            value.tail.length (fun i => value.tail.getD i 0) ∧
        ((value.tail.map Effect.value).foldl (JsonBuffers.takes obj)
          (b₁.takes obj (.key 0))).valueLen = b₁.valueLen + value.tail.length := foldl_value
  generalize (value.tail.map Effect.value).foldl (JsonBuffers.takes obj) (b₁.takes obj (.key 0)) = b₂ at *
  -- the place that is passed, and the last zero
  rw [hmem₁, hkey₁, hvalue₁, Nat.add_zero] at hmem₂
  rw [hvalue₁, Nat.zero_add] at hvalue₂
  cases value with
  | nil =>
      rw [if_pos rfl, List.foldl_nil, JsonBuffers.putValue, hmem₂, hvalue₂]
      rfl
  | cons c value =>
      rw [if_neg (List.cons_ne_nil c value), List.foldl_cons, List.foldl_nil, JsonBuffers.takes,
        JsonBuffers.putValue, hmem₂, hvalue₂]
      rfl

/-- The buffers of the two strings have nothing in common. -/
def BlocksApart (block : Fin 4 → Nat) : Prop :=
  block 2 + kNeJsonMaxLen ≤ block 3 ∨ block 3 + kNeJsonMaxLen ≤ block 2

/-- What `In` reads from a plain text: the key, and the value without its first character. -/
theorem asciiJsonIn_keyValue (debug : Bool) {block : Fin 4 → Nat} (m : Store)
    (hapart : BlocksApart block) (hkey : Plain key) (hvalue : Plain value)
    (hkeyLen : key.length < kNeJsonMaxLen) (hvalueLen : value.length < kNeJsonMaxLen) :
    ∃ r, asciiJsonIn debug block (keyValueText key value hkey hvalue) m = some r ∧
      StandsAt r.mem r.obj.fKey.fData key ∧ StandsAt r.mem r.obj.fValue.fData value.tail := by
  obtain ⟨made, hmade⟩ : ∃ made,
      JsonObject.make debug block kNeJsonMaxLen kNeJsonMaxLen m = some made := by
    have hsize : ¬ (debug = true ∧ ¬ kNeJsonMaxLen > 1) := fun h => h.2 (by decide)
    simp only [JsonObject.make, KBasicString.ofSize, if_neg hsize, Option.bind_eq_bind, Option.bind_some]
    exact ⟨_, rfl⟩
  obtain ⟨hfKey, hfValue, -, m', hmem⟩ := make_eq hmade
  obtain ⟨reads, -, hin⟩ := asciiJsonIn_opens (.inl rfl : Opens (keyValueText key value hkey hvalue)) hmade
  refine ⟨_, hin, ?_⟩
  dsimp only
  rw [written_keyValue, hfKey, hfValue]
  refine standsAt_parts hkeyLen ?_ hvalueLen hapart fun x hx hx' => ?_
  · rw [List.length_tail]
    exact Nat.sub_le _ _
  · rw [hmem, fill, blit_apply_of_mem hx hx']

/-! ## What the reader is for -/

/-- The buffer that is written has not been given back. -/
def JsonResult.Live (r : JsonResult) (w : JsonPart × Nat) : Prop :=
  (match w.1 with | .key => r.obj.fKey.fData | .value => r.obj.fValue.fData) ∉ r.freed

/-- The strings are this key and this value. -/
def JsonResult.Holds (r : JsonResult) (key value : List UInt8) : Prop :=
  StandsAt r.mem r.obj.fKey.fData key ∧ StandsAt r.mem r.obj.fValue.fData value

theorem Plain.noNul (h : Plain key) : ∀ c ∈ key, c ≠ 0 := by
  rintro c hc rfl
  exact h.chars 0 hc List.mem_cons_self

/-- What `In` reads from a plain text is right where the value has no first character. -/
theorem keyValue_right_iff (debug : Bool) {block : Fin 4 → Nat} (m : Store)
    (hapart : BlocksApart block) (hkey : Plain key) (hvalue : Plain value)
    (hkeyLen : key.length < kNeJsonMaxLen) (hvalueLen : value.length < kNeJsonMaxLen) :
    ∃ r, asciiJsonIn debug block (keyValueText key value hkey hvalue) m = some r ∧
      (r.Holds key value ↔ value = []) := by
  obtain ⟨r, hin, hkeyAt, hvalueAt⟩ :=
    asciiJsonIn_keyValue debug m hapart hkey hvalue hkeyLen hvalueLen
  refine ⟨r, hin, fun h => ?_, ?_⟩
  · have htail : value.tail = value := standsAt_unique
      (fun c hc => hvalue.noNul c (List.mem_of_mem_tail hc)) hvalue.noNul hvalueAt h.2
    cases value with
    | nil => rfl
    | cons c value => exact absurd htail.symm (List.cons_ne_self c value)
  · rintro rfl
    exact ⟨hkeyAt, hvalueAt⟩

/-- **The JSON reader.** It reads no byte behind the terminator of a text. Its writes are inside the two
buffers exactly when what goes to the key and to the value fits, and they are to buffers in use exactly
when there are none: a text that opens is written to buffers that have been given back. Of a plain key
and value it gives the key, and the value exactly when that is empty. -/
theorem json_right (debug : Bool) (block : Fin 4 → Nat) (m : Store) :
    (∀ text r, asciiJsonIn debug block text m = some r →
      (∀ j ∈ r.reads, j ≤ text.length) ∧
      ((∀ w ∈ r.writes, w.2 < kNeJsonMaxLen) ↔ FitsJson text) ∧
      ((∀ w ∈ r.writes, r.Live w) ↔ ¬ Opens text)) ∧
    (BlocksApart block → ∀ key value (hkey : Plain key) (hvalue : Plain value),
      key.length < kNeJsonMaxLen → value.length < kNeJsonMaxLen →
      ∃ r, asciiJsonIn debug block (keyValueText key value hkey hvalue) m = some r ∧
        (r.Holds key value ↔ value = [])) := by
  refine ⟨fun text r hin => ?_, fun hapart key value hkey hvalue =>
    keyValue_right_iff debug m hapart hkey hvalue⟩
  by_cases hopens : Opens text
  · cases hmade : JsonObject.make debug block kNeJsonMaxLen kNeJsonMaxLen m with
    | none =>
        have hnot : ¬ (text.bytes 0 ≠ 0x7B ∧ text.bytes 0 ≠ 0x5B) := fun h => hopens.elim h.1 h.2
        unfold asciiJsonIn at hin
        dsimp only at hin
        rw [if_neg hnot, hmade] at hin
        cases hin
    | some made =>
        obtain ⟨reads, hreads, hin'⟩ := asciiJsonIn_opens hopens hmade
        obtain rfl := Option.some.inj (hin'.symm.trans hin)
        obtain ⟨-, hfValue, hfreed, -⟩ := make_eq hmade
        refine ⟨hreads, written_inside_iff, iff_of_false (fun hlive => ?_) (not_not.mpr hopens)⟩
        refine hlive (.value, _) (List.mem_append_right _ (List.mem_singleton_self _)) ?_
        dsimp only
        rw [hfValue, hfreed]
        exact List.mem_cons_self
  · rw [asciiJsonIn_other hopens] at hin
    obtain ⟨made, -, rfl⟩ := Option.map_eq_some_iff.mp hin
    exact ⟨List.forall_mem_singleton.mpr (Nat.zero_le _),
      iff_of_true (List.forall_mem_nil _) (fitsJson_other hopens),
      iff_of_true (List.forall_mem_nil _) hopens⟩

/-- Blocks of the object, one behind the other. -/
def jsonBlocks (i : Fin 4) : Nat := 0x10000 * (i + 1)

theorem jsonBlocks_apart : BlocksApart jsonBlocks := .inl (by decide)

theorem plain_letter (c : UInt8) (hc : 0x61 ≤ c ∧ c ≤ 0x7A) : Plain [c] := by
  have hall : ∀ i : Fin 256, 0x61 ≤ UInt8.ofFin i ∧ UInt8.ofFin i ≤ 0x7A →
      UInt8.ofFin i ∉ reserved ∧
        isBlank (UInt8.ofFin i) = false := by decide +kernel
  obtain ⟨hchar, hblank⟩ := hall c.toFin hc
  refine ⟨List.forall_mem_singleton.mpr hchar, fun d hd => ?_⟩
  obtain rfl : c = d := Option.some.inj hd
  exact hblank

theorem plain_nil : Plain [] := ⟨List.forall_mem_nil _, fun _ h => nomatch h⟩

/-- `{k:}`. -/
theorem json_right_empty : ∃ r, asciiJsonIn false jsonBlocks
    (keyValueText [0x6B] [] (plain_letter 0x6B (by decide)) plain_nil) zeros = some r ∧
      (∀ j ∈ r.reads, j ≤ 4) ∧ r.Holds [0x6B] [] := by
  obtain ⟨hsafe, hparse⟩ := json_right false jsonBlocks zeros
  obtain ⟨r, hin, hholds⟩ := hparse jsonBlocks_apart [0x6B] [] (plain_letter 0x6B (by decide)) plain_nil
    (by decide) (by decide)
  exact ⟨r, hin, (hsafe _ r hin).1, hholds.mpr rfl⟩

/-- Of `{k:v}` the value is not `"v"`. -/
theorem value_loses_first : ∃ r, asciiJsonIn false jsonBlocks
    (keyValueText [0x6B] [0x76] (plain_letter 0x6B (by decide)) (plain_letter 0x76 (by decide)))
      zeros = some r ∧ ¬ r.Holds [0x6B] [0x76] := by
  obtain ⟨r, hin, hholds⟩ := keyValue_right_iff false zeros jsonBlocks_apart
    (plain_letter 0x6B (by decide)) (plain_letter 0x76 (by decide)) (by decide) (by decide)
  exact ⟨r, hin, fun h => List.cons_ne_nil _ _ (hholds.mp h)⟩

end NeKernel.NeKit
