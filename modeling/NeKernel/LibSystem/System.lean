import NeKernel.Lib.WordCopy
import NeKernel.NeKit.Config

/-!
# Copying and filling memory

`MmCopyMemory` and `MmFillMemory` of the system library. Both have a path that goes word by word and
then does the bytes that are left. For a copy that has to go down, the bytes left are those in
front; the code copies the last ones again instead. That path is right when nothing is left, and
otherwise only by luck (`mmCopyMemory_iff`). All other paths are right (`copies_straight`), and so is
every fill (`mmFillMemory_fills`).
-/

namespace NeKernel.LibSystem

open ByteStore WordCopy

/-! ## `MmCopyMemory` -/

/-- The address of `p[i]` for elements of `w` bytes. -/
def elemAt (p w i : Nat) : Nat := u64 (p + w * i)

/-- The index `-1 - i`, a `SizeT`. -/
def back (i : Nat) : Nat := u64 (2 ^ 64 - 1 - i)

/-- `for (i = 0; i < n; ++i) d[idx] = s[idx];` for elements of `w` bytes. -/
def copyElems (w d s : Nat) (idx : Nat → Nat) (n : Nat) : Store → Store :=
  forLoop (fun i m => putLE m (elemAt d w (idx i)) w (getLE m (elemAt s w (idx i)) w)) n

/-- The copy that goes down; `rd` and `rs` are the ends of the ranges. -/
def copyBackward (rd rs len : Nat) (m : Store) : Store :=
  if len ≥ 8 ∧ rs % 8 = 0 ∧ rd % 8 = 0 then
    -- the bytes left over are counted from the ends again
    copyElems 1 rd rs back (len % 8) (copyElems 8 rd rs back (len / 8) m)
  else copyElems 1 rd rs back len m

/-- The copy that goes up. -/
def copyForward (d s len : Nat) (m : Store) : Store :=
  if len ≥ 8 ∧ s % 8 = 0 ∧ d % 8 = 0 then
    copyElems 1 d s (fun i => len / 8 * 8 + i) (len % 8)
      (copyElems 8 d s (fun i => i) (len / 8) m)
  else copyElems 1 d s (fun i => i) len m

/-- `MmCopyMemory`, with the pointer it returns. -/
def mmCopyMemory (m : Store) (dest src len : Nat) : Nat × Store :=
  if len = 0 ∨ dest = 0 ∨ src = 0 then (0, m)
  else if dest = src then (dest, m)
  else if dest > src ∧ dest < u64 (src + len) then
    (dest, copyBackward (u64 (dest + len)) (u64 (src + len)) len m)
  else (dest, copyForward dest src len m)

/-! ## `MmFillMemory` -/

/-- `pattern`: the byte in each of the eight places. -/
def fillPattern (value : UInt8) : UInt64 :=
  let pattern := value.toUInt64
  let pattern := pattern ||| (pattern <<< 8)
  let pattern := pattern ||| (pattern <<< 16)
  pattern ||| (pattern <<< 32)

/-- `for (i = 0; i < n; ++i) d[idx] = v;` for elements of `w` bytes. -/
def fillElems (w d : Nat) (idx : Nat → Nat) (v n : Nat) : Store → Store :=
  forLoop (fun i m => putLE m (elemAt d w (idx i)) w v) n

/-- `MmFillMemory`, with the pointer it returns. -/
def mmFillMemory (m : Store) (dest len : Nat) (value : UInt8) : Nat × Store :=
  if len = 0 ∨ dest = 0 then (0, m)
  else if len ≥ 8 ∧ dest % 8 = 0 then
    (dest, fillElems 1 dest (fun i => len / 8 * 8 + i) value.toNat (len % 8)
      (fillElems 8 dest (fun i => i) (fillPattern value).toNat (len / 8) m))
  else (dest, fillElems 1 dest (fun i => i) value.toNat len m)

/-! ## The loops -/

variable {m : Store} {dest src len w d s p n o i e : Nat} {value : UInt8}

theorem elemAt_eq (h : p + w * i < 2 ^ 64) : elemAt p w i = p + w * i := u64_of_lt h

/-- An element so far before the end of a range. -/
theorem elemAt_back (hw : w = 1 ∨ w = 8) (he : e ≤ 2 ^ 64) (hi : w * (i + 1) ≤ e) :
    elemAt (u64 e) w (back i) = e - w * (i + 1) := by
  rcases hw with rfl | rfl <;> simp only [elemAt, back, u64] <;> omega

/-- The rounds of a loop stay below its end. -/
theorem round_lt (hw : 0 < w) (hi : i < n) (h : p + w * n ≤ e) : p + w * i < e := by
  have hle : w * i + w ≤ w * n := by
    rw [← Nat.mul_succ]
    exact Nat.mul_le_mul_left w hi
  omega

theorem copyElems_up (hw : 0 < w) (hd : d + w * n ≤ 2 ^ 64) (hs : s + w * n ≤ 2 ^ 64) :
    copyElems w d s (fun i => i) n = copyUp w d s n := by
  funext m
  refine forLoop_congr fun i hi m' => ?_
  rw [elemAt_eq (round_lt hw hi hd), elemAt_eq (round_lt hw hi hs)]

/-- The bytes behind the words. -/
theorem copyElems_rest (hd : d + o + n ≤ 2 ^ 64) (hs : s + o + n ≤ 2 ^ 64) :
    copyElems 1 d s (fun i => o + i) n = copyUp 1 (d + o) (s + o) n := by
  funext m
  refine forLoop_congr fun i hi m' => ?_
  simp only
  rw [elemAt_eq (by omega), elemAt_eq (by omega), Nat.one_mul, Nat.one_mul, Nat.add_assoc,
    Nat.add_assoc]

theorem copyElems_down (hw : w = 1 ∨ w = 8) (hd : d ≤ 2 ^ 64) (hs : s ≤ 2 ^ 64) (hdn : w * n ≤ d)
    (hsn : w * n ≤ s) : copyElems w (u64 d) (u64 s) back n = copyDown w d s n := by
  funext m
  refine forLoop_congr fun i hi m' => ?_
  have hle : w * (i + 1) ≤ w * n := Nat.mul_le_mul_left w hi
  rw [elemAt_back hw hd (hle.trans hdn), elemAt_back hw hs (hle.trans hsn)]

/-! ## What is copied -/

/-- The copy goes down by words and leaves bytes over. -/
def Skewed (dest src len : Nat) : Prop :=
  src < dest ∧ dest < src + len ∧ 8 ≤ len ∧ (src + len) % 8 = 0 ∧ (dest + len) % 8 = 0 ∧
    len % 8 ≠ 0

instance (dest src len : Nat) : Decidable (Skewed dest src len) := inferInstanceAs (Decidable (_ ∧ _))

theorem copyForward_eq (hd : dest + len ≤ 2 ^ 64) (hs : src + len ≤ 2 ^ 64)
    (hapart : dest ≤ src ∨ src + len ≤ dest) :
    copyForward dest src len m = blit m dest len (slice m src) := by
  have hsplit : 8 * (len / 8) + len % 8 = len := Nat.div_add_mod len 8
  unfold copyForward
  split
  · rw [copyElems_up (by decide) (by omega) (by omega), copyElems_rest (by omega) (by omega),
      copyUp_eq (by omega), copyUp_eq (by omega), Nat.one_mul]
    conv_rhs => rw [← hsplit]
    apply blit_append (by omega)
    intro i hi
    rw [slice_blit_apart (by omega), slice_apply, slice_apply]
    congr 1
    omega
  · rw [copyElems_up (by decide) (by omega) (by omega), copyUp_eq (by omega), Nat.one_mul]

/-- Going down is right when no byte is left over. -/
theorem copyBackward_eq (hd : dest + len ≤ 2 ^ 64) (hlt : src < dest)
    (h : len ≥ 8 → (src + len) % 8 = 0 → (dest + len) % 8 = 0 → len % 8 = 0) :
    copyBackward (u64 (dest + len)) (u64 (src + len)) len m =
      blit m dest len (slice m src) := by
  unfold copyBackward
  split
  · next hwords =>
      have hrem : len % 8 = 0 := by
        simp only [u64] at hwords
        exact h hwords.1 (by omega) (by omega)
      have hlen : 8 * (len / 8) = len := by omega
      rw [hrem, copyElems_down (.inr rfl) hd (by omega) (by omega) (by omega),
        copyDown_eq (by omega) (by omega), hlen, Nat.add_sub_cancel, Nat.add_sub_cancel]
      rfl
  · rw [copyElems_down (.inl rfl) hd (by omega) (by omega) (by omega),
      copyDown_eq (by omega) (by omega), Nat.one_mul, Nat.add_sub_cancel, Nat.add_sub_cancel]

/-- **A copy that is not skewed is right.** -/
theorem copies_straight (hdest : dest ≠ 0) (hsrc : src ≠ 0) (hd : dest + len ≤ 2 ^ 64)
    (hs : src + len ≤ 2 ^ 64) (h : ¬ Skewed dest src len) :
    (mmCopyMemory m dest src len).2 = blit m dest len (slice m src) := by
  unfold mmCopyMemory
  split
  · next h0 =>
      obtain rfl : len = 0 := by omega
      exact blit_zero.symm
  · split
    · next heq =>
        rw [heq]
        exact (blit_self fun _ _ => rfl).symm
    · split
      · next hdown =>
          rw [u64_of_lt (by omega)] at hdown
          refine copyBackward_eq hd hdown.1 fun hlen hrs hrd => ?_
          by_contra hrem
          exact h ⟨hdown.1, hdown.2, hlen, hrs, hrd, hrem⟩
      · next hup =>
          refine copyForward_eq hd hs ?_
          by_contra hno
          refine hup ⟨by omega, ?_⟩
          rw [u64_of_lt (by omega)]
          omega

/-- What a skewed copy does: the words, and then the last bytes once more. -/
theorem copies_skewed (hsrc : src ≠ 0) (hd : dest + len ≤ 2 ^ 64) (h : Skewed dest src len) :
    (mmCopyMemory m dest src len).2 =
      blit (blit m (dest + len % 8) (len - len % 8) (slice m (src + len % 8)))
        (dest + len - len % 8) (len % 8)
        (slice (blit m (dest + len % 8) (len - len % 8) (slice m (src + len % 8)))
          (src + len - len % 8)) := by
  obtain ⟨hlt, hin, hlen, hrs, hrd, hrem⟩ := h
  have hsplit : 8 * (len / 8) + len % 8 = len := Nat.div_add_mod len 8
  have hwords : 8 * (len / 8) = len - len % 8 := by omega
  have hu : u64 (src + len) = src + len := u64_of_lt (by omega)
  have hgo : len ≥ 8 ∧ u64 (src + len) % 8 = 0 ∧ u64 (dest + len) % 8 = 0 := by
    simp only [u64]
    omega
  have hfrom : ∀ a, a + len - (len - len % 8) = a + len % 8 := fun a => by omega
  rw [mmCopyMemory, if_neg fun h0 => hsrc (by omega), if_neg (by omega),
    if_pos (by rw [hu]; exact ⟨hlt, hin⟩), copyBackward, if_pos hgo]
  simp only
  rw [copyElems_down (.inr rfl) hd (by omega) (by omega) (by omega),
    copyElems_down (.inl rfl) hd (by omega) (by omega) (by omega),
    copyDown_eq (by omega) (by omega), copyDown_eq (by omega) (by omega), hwords, Nat.one_mul,
    hfrom, hfrom]

/-- The bytes a skewed copy gets wrong are right already: those it leaves out, and those it copies
once more after they have been written over. -/
def Lucky (m : Store) (dest src len : Nat) : Prop :=
  (∀ i < len % 8, m (dest + i) = m (src + i)) ∧
  ∀ x, src + len - len % 8 ≤ x → x < src + len → dest + len % 8 ≤ x →
    m (x - (dest - src)) = m x

/-- **A skewed copy is right only by luck.** -/
theorem copies_lucky (hsrc : src ≠ 0) (hd : dest + len ≤ 2 ^ 64) (h : Skewed dest src len) :
    (mmCopyMemory m dest src len).2 = blit m dest len (slice m src) ↔ Lucky m dest src len := by
  rw [copies_skewed hsrc hd h]
  unfold Lucky
  obtain ⟨hlt, hin, hlen, -, -, hrem⟩ := h
  have hr : len % 8 < 8 ∧ 8 + len % 8 ≤ len := by omega
  generalize len % 8 = r at *
  -- the source bytes that are copied once more, after the words
  have hagain : ∀ x, src + len - r ≤ x → x < src + len →
      blit m (dest + r) (len - r) (slice m (src + r)) x =
        if dest + r ≤ x then m (x - (dest - src)) else m x := by
    intro x h₁ h₂
    split
    · next hx =>
        rw [blit_apply_of_mem hx (by omega), slice_apply]
        congr 1
        omega
    · next hx => rw [blit_apply_of_notMem (by omega)]
  constructor
  · intro heq
    refine ⟨fun i hi => ?_, fun x h₁ h₂ hx => ?_⟩
    · have := congrFun heq (dest + i)
      rw [blit_apply_of_notMem (by omega), blit_apply_of_notMem (by omega),
        blit_apply_of_mem (by omega) (by omega), slice_apply, Nat.add_sub_cancel_left] at this
      exact this
    · have := congrFun heq (x + (dest - src))
      rw [blit_apply_of_mem (by omega) (by omega), blit_apply_of_mem (by omega) (by omega),
        slice_apply, slice_apply,
        show src + len - r + (x + (dest - src) - (dest + len - r)) = x by omega,
        show src + (x + (dest - src) - dest) = x by omega, hagain x h₁ h₂, if_pos hx] at this
      exact this
  · rintro ⟨hfirst, hlast⟩
    funext y
    by_cases htail : dest + len - r ≤ y ∧ y < dest + len
    · have hsame := hagain (y - (dest - src)) (by omega) (by omega)
      rw [blit_apply_of_mem htail.1 (by omega), blit_apply_of_mem (by omega) (by omega),
        slice_apply, slice_apply,
        show src + len - r + (y - (dest + len - r)) = y - (dest - src) by omega,
        show src + (y - dest) = y - (dest - src) by omega, hsame]
      split
      · next hx => exact hlast _ (by omega) (by omega) hx
      · rfl
    · rw [blit_apply_of_notMem (by omega)]
      by_cases hhead : dest ≤ y ∧ y < dest + r
      · rw [blit_apply_of_notMem (by omega), blit_apply_of_mem hhead.1 (by omega), slice_apply]
        have := hfirst (y - dest) (by omega)
        rwa [show dest + (y - dest) = y by omega] at this
      · by_cases hmid : dest + r ≤ y ∧ y < dest + len
        · rw [blit_apply_of_mem hmid.1 (by omega), blit_apply_of_mem (by omega) hmid.2,
            slice_apply, slice_apply]
          congr 1
          omega
        · rw [blit_apply_of_notMem (by omega), blit_apply_of_notMem (by omega)]

/-- The copy is right. -/
def CopiesRight (m : Store) (dest src len : Nat) : Prop :=
  (mmCopyMemory m dest src len).2 = blit m dest len (slice m src)

/-- **When `MmCopyMemory` copies**: always, but for a skewed copy, which needs luck. -/
theorem mmCopyMemory_iff (m : Store) (hdest : dest ≠ 0) (hsrc : src ≠ 0)
    (hd : dest + len ≤ 2 ^ 64) (hs : src + len ≤ 2 ^ 64) :
    CopiesRight m dest src len ↔ ¬ Skewed dest src len ∨ Lucky m dest src len := by
  by_cases h : Skewed dest src len
  · rw [CopiesRight, copies_lucky hsrc hd h]
    exact ⟨.inr, fun hor => hor.resolve_left (not_not.mpr h)⟩
  · exact iff_of_true (copies_straight hdest hsrc hd hs h) (.inl h)

/-- Nine bytes, eight bytes up. -/
theorem mmCopyMemory_iff_nine : Skewed 0x100F 0x1007 9 ∧
    ¬ Lucky (fun x => UInt8.ofNat x) 0x100F 0x1007 9 ∧
    ¬ CopiesRight (fun x => UInt8.ofNat x) 0x100F 0x1007 9 := by
  have hluck : ¬ Lucky (fun x => UInt8.ofNat x) 0x100F 0x1007 9 :=
    fun h => absurd (h.1 0 (by decide)) (by decide)
  refine ⟨by decide, hluck, fun h => ?_⟩
  rcases (mmCopyMemory_iff _ (by decide) (by decide) (by decide) (by decide)).mp h with hno | hl
  · exact hno (by decide)
  · exact hluck hl

/-- The first byte of the target keeps its old value. -/
theorem first_byte_kept : ¬ ∀ m dest src len, dest ≠ 0 → src ≠ 0 → dest + len ≤ 2 ^ 64 →
    src + len ≤ 2 ^ 64 → CopiesRight m dest src len := by
  intro h
  have hnine : CopiesRight (fun x => UInt8.ofNat x) 0x100F 0x1007 9 :=
    h _ _ _ _ (by decide) (by decide) (by decide) (by decide)
  have hbyte := congrFun hnine 0x100F
  exact absurd hbyte (by decide)

/-! ## What is filled -/

theorem fillElems_up (hw : 0 < w) (hd : d + w * n ≤ 2 ^ 64) (v : Nat) :
    fillElems w d (fun i => i) v n = fillUp w d v n := by
  funext m
  refine forLoop_congr fun i hi m' => ?_
  rw [elemAt_eq (round_lt hw hi hd)]

theorem fillElems_rest (hd : d + o + n ≤ 2 ^ 64) (v : Nat) :
    fillElems 1 d (fun i => o + i) v n = fillUp 1 (d + o) v n := by
  funext m
  refine forLoop_congr fun i hi m' => ?_
  simp only
  rw [elemAt_eq (by omega), Nat.one_mul, Nat.one_mul, Nat.add_assoc]

/-- Every byte of the pattern is the value. -/
theorem leBytes_fillPattern (value : UInt8) {i : Nat} (hi : i < 8) :
    leBytes (fillPattern value).toNat i = value := by
  have hall : ∀ (n : Fin 256) (i : Fin 8),
      leBytes (fillPattern (UInt8.ofNat n)).toNat i = UInt8.ofNat n := by decide +kernel
  have := hall ⟨value.toNat, value.toNat_lt⟩ ⟨i, hi⟩
  rwa [UInt8.ofNat_toNat] at this

/-- **`MmFillMemory` fills.** A null pointer is refused. -/
theorem mmFillMemory_fills (m : Store) (value : UInt8) (hd : dest + len ≤ 2 ^ 64) :
    (dest ≠ 0 → (mmFillMemory m dest len value).2 = fill m dest len value) ∧
      mmFillMemory m 0 len value = (0, m) := by
  refine ⟨fun hdest => ?_, if_pos (.inr rfl)⟩
  have hsplit : 8 * (len / 8) + len % 8 = len := Nat.div_add_mod len 8
  have hvalue : UInt8.ofNat value.toNat = value := UInt8.ofNat_toNat
  unfold mmFillMemory
  split
  · next h0 =>
      obtain rfl : len = 0 := by omega
      exact blit_zero.symm
  · split
    · simp only
      rw [fillElems_up (by decide) (by omega), fillElems_rest (by omega), fillUp_bytes, fillUp_eq,
        hvalue, fill, fill]
      conv_rhs => rw [← hsplit]
      rw [blit_congr fun i _ => leBytes_fillPattern value (Nat.mod_lt i (by decide))]
      exact blit_append (by omega) fun _ _ => rfl
    · simp only
      rw [fillElems_up (by decide) (by omega), fillUp_bytes, hvalue]

/-- Two words and one byte. -/
theorem mmFillMemory_fills_17 :
    (mmFillMemory zeros 0x1000 17 0xAA).2 = fill zeros 0x1000 17 0xAA :=
  (mmFillMemory_fills zeros 0xAA (by decide)).1 (by decide)

end NeKernel.LibSystem
